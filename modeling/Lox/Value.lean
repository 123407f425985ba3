import Lox.Number.Text
/-!
# Values

What an expression evaluates to, what counts as true, when two values are equal, and how a value
prints.
-/

namespace Lox

inductive Value where
  | nil
  | bool (b : Bool)
  | number (n : Number)
  | string (s : String)
deriving DecidableEq

namespace Value

/-- Everything but `nil` and `false` counts as true. -/
def truthy : Value → Bool
  | nil => false
  | bool b => b
  | _ => true

/-- Equality as the language sees it: values of different types differ, and numbers compare by the
floating-point rule, so a NaN differs from itself and the two zeros agree. -/
def equals : Value → Value → Bool
  | nil, nil => true
  | bool a, bool b => a == b
  | number a, number b => a == b
  | string a, string b => a == b
  | _, _ => false

def text : Value → String
  | nil => "nil"
  | bool true => "true"
  | bool false => "false"
  | number n => n.text
  | string s => s

end Value

end Lox

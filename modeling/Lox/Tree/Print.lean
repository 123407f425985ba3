import Lox.Tree.Basic
/-!
# Trees as text

Trees are written as parenthesised lists, with the operator or the kind of statement first. Strings
stand in quotes without escapes, and a hole is marked as an error.
-/

namespace Lox

/-- A list in parentheses that starts with `head`. -/
def parenthesize (head : String) (parts : List String) : String :=
  "(" ++ " ".intercalate (head :: parts) ++ ")"

namespace Value

/-- A value as a literal of a program. -/
def literalText : Value → String
  | string s => "\"" ++ s ++ "\""
  | v => v.text

end Value

namespace Expr

def text : Expr → String
  | literal value _ => value.literalText
  | group inner _ => parenthesize "group" [inner.text]
  | unary op right _ => parenthesize op.symbol [right.text]
  | binary left op right _ => parenthesize op.symbol [left.text, right.text]
  | logical left op right _ => parenthesize op.symbol [left.text, right.text]
  | var name => name.lexeme
  | assign name value => parenthesize "=" [name.lexeme, value.text]

end Expr

def holeText : String := "<error>"

mutual

def Stmt.text : Stmt → String
  | .expression e => parenthesize ";" [e.text]
  | .print e => parenthesize "print" [e.text]
  | .declare name none => parenthesize "var" [name.lexeme]
  | .declare name (some init) => parenthesize "var" [name.lexeme, init.text]
  | .block slots => parenthesize "block" (Stmt.slotTexts slots)
  | .branch condition yes none => parenthesize "if" [condition.text, yes.text]
  | .branch condition yes (some no) => parenthesize "if" [condition.text, yes.text, no.text]
  | .loop condition body => parenthesize "while" [condition.text, body.text]
termination_by structural s => s

def Stmt.slotTexts : List (Option Stmt) → List String
  | [] => []
  | none :: rest => holeText :: Stmt.slotTexts rest
  | some s :: rest => s.text :: Stmt.slotTexts rest
termination_by structural slots => slots

end

end Lox

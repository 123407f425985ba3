import Lox.Diagnostic.Basic
import Lox.Environment
import Lox.Tree.Basic
/-!
# Faults at run time
-/

namespace Lox

inductive RuntimeError where
  | undefined (name : String) (line : Nat)
  | alreadyDefined (name : String) (line : Nat)
  | operand (op : UnaryOp) (line : Nat)
  | operands (op : BinaryOp) (line : Nat)
  | output (reason : String)
deriving DecidableEq, Repr

namespace RuntimeError

def ofName (fault : NameFault) (name : Token) : RuntimeError :=
  match fault with
  | .undefined => undefined name.lexeme name.line
  | .alreadyDefined => alreadyDefined name.lexeme name.line

def message : RuntimeError → String
  | undefined name _ => "Undefined variable '" ++ name ++ "'."
  | alreadyDefined name _ => "Variable '" ++ name ++ "' cannot be reinitialized."
  | operand op _ => "Operand of '" ++ op.symbol ++ "' must be a number."
  | operands .add _ => "Operands of '+' must be two numbers or two strings."
  | operands op _ => "Operands of '" ++ op.symbol ++ "' must be numbers."
  | output reason => "Failed to write output: " ++ reason

/-- The line of an error. A failure of the output belongs to none. -/
def line? : RuntimeError → Option Nat
  | undefined _ line | alreadyDefined _ line | operand _ line | operands _ line => some line
  | output _ => none

def diagnostic (e : RuntimeError) : Diagnostic :=
  ⟨.running, e.line?, .unspecified, e.message⟩

end RuntimeError

end Lox

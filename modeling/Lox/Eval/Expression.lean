import Lox.Eval.Error
/-!
# Evaluation of expressions

An expression is evaluated in an environment, which it can change by assignment. The changes made
before an error stay.
-/

namespace Lox

/-- A computation that uses and changes the environment, and may end in an error. -/
abbrev Evaluation (α : Type) : Type :=
  EStateM RuntimeError Environment α

namespace UnaryOp

def apply (op : UnaryOp) (line : Nat) (right : Value) : Except RuntimeError Value :=
  match op, right with
  | not, right => .ok (.bool !right.truthy)
  | negate, .number n => .ok (.number (-n))
  | negate, _ => .error (.operand op line)

end UnaryOp

namespace BinaryOp

/-- What the operator makes of two numbers. -/
def onNumbers (op : BinaryOp) (a b : Number) : Value :=
  match op with
  | add => .number (a + b)
  | subtract => .number (a - b)
  | multiply => .number (a * b)
  | divide => .number (a / b)
  | equal => .bool (a == b)
  | notEqual => .bool (a != b)
  | greater => .bool (decide (b < a))
  | greaterEqual => .bool (decide (b ≤ a))
  | less => .bool (decide (a < b))
  | lessEqual => .bool (decide (a ≤ b))

/-- Applies the operator on the given line. Any two values can be compared for equality, strings can
be joined, and everything else is for numbers. -/
def apply (op : BinaryOp) (line : Nat) (left right : Value) : Except RuntimeError Value :=
  match op, left, right with
  | equal, left, right => .ok (.bool (left.equals right))
  | notEqual, left, right => .ok (.bool !(left.equals right))
  | add, .string a, .string b => .ok (.string (a ++ b))
  | op, .number a, .number b => .ok (op.onNumbers a b)
  | op, _, _ => .error (.operands op line)

end BinaryOp

namespace LogicalOp

/-- Whether the left value is the result, without a look at the right one. -/
def decides (op : LogicalOp) (left : Value) : Bool :=
  match op with
  | or => left.truthy
  | and => !left.truthy

end LogicalOp

namespace Evaluation

variable {α : Type}

/-- A computation that leaves the environment alone. -/
def ofExcept : Except RuntimeError α → Evaluation α
  | .ok a => pure a
  | .error e => throw e

def get (name : Token) : Evaluation Value := fun env =>
  match env.get name.lexeme with
  | .ok value => .ok value env
  | .error fault => .error (.ofName fault name) env

def assign (name : Token) (value : Value) : Evaluation Unit := fun env =>
  match env.assign name.lexeme value with
  | .ok env => .ok () env
  | .error fault => .error (.ofName fault name) env

def define (name : Token) (value : Value) : Evaluation Unit := fun env =>
  match env.define name.lexeme value with
  | .ok env => .ok () env
  | .error fault => .error (.ofName fault name) env

end Evaluation

namespace Expr

def eval : Expr → Evaluation Value
  | literal value _ => pure value
  | group inner _ => inner.eval
  | unary op right line => do
    let right ← right.eval
    .ofExcept (op.apply line right)
  | binary left op right line => do
    let left ← left.eval
    let right ← right.eval
    .ofExcept (op.apply line left right)
  | logical left op right _ => do
    let left ← left.eval
    if op.decides left then pure left else right.eval
  | var name => .get name
  | assign name value => do
    let value ← value.eval
    .assign name value
    pure value

end Expr

end Lox

import Lox.Tree.Operator
/-!
# Expressions and statements

The trees that parsing builds and evaluation walks. Every expression knows the line it is reported
on: that of its operator, its opening parenthesis, its name or its literal. A list of statements has
slots, and a slot whose declaration did not parse is a hole.
-/

namespace Lox

/-- An expression. A variable and an assignment carry no line beside their name's: parsing never gives them another one,
and it is the name's that errors of theirs are reported on. -/
inductive Expr where
  | literal (value : Value) (line : Nat)
  | group (inner : Expr) (line : Nat)
  | unary (op : UnaryOp) (right : Expr) (line : Nat)
  | binary (left : Expr) (op : BinaryOp) (right : Expr) (line : Nat)
  | logical (left : Expr) (op : LogicalOp) (right : Expr) (line : Nat)
  | var (name : Token)
  | assign (name : Token) (value : Expr)
deriving DecidableEq

namespace Expr

/-- The line an expression is reported on. -/
def line : Expr → Nat
  | literal _ line | group _ line | unary _ _ line | binary _ _ _ line | logical _ _ _ line => line
  | var name | assign name _ => name.line

end Expr

namespace InfixOp

/-- The expression that joins two operands by an operator on the given line. -/
def join (op : InfixOp) (line : Nat) (left right : Expr) : Expr :=
  match op with
  | binary op => .binary left op right line
  | logical op => .logical left op right line

end InfixOp

/-- A statement. The slots of a block are statements or holes. -/
inductive Stmt where
  | expression (e : Expr)
  | print (e : Expr)
  | declare (name : Token) (init : Option Expr)
  | block (slots : List (Option Stmt))
  | branch (condition : Expr) (yes : Stmt) (no : Option Stmt)
  | loop (condition : Expr) (body : Stmt)

/-- A place in a list of statements: a statement, or a hole where none could be parsed. -/
abbrev Slot := Option Stmt

end Lox

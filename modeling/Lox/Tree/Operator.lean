import Lox.Token.Basic
/-!
# Operators

The operators of expressions, the tokens that spell them, and how tightly the infix ones bind.
-/

namespace Lox

inductive UnaryOp where
  | not
  | negate
deriving DecidableEq, Repr

namespace UnaryOp

def kind : UnaryOp → TokenKind
  | not => .bang
  | negate => .minus

def symbol (op : UnaryOp) : String :=
  op.kind.spelling

def all : List UnaryOp := [not, negate]

theorem mem_all (op : UnaryOp) : op ∈ all := by
  cases op <;> decide

/-- The operator that a token kind spells before an operand. -/
def ofKind? (kind : TokenKind) : Option UnaryOp :=
  all.find? (·.kind == kind)

end UnaryOp

/-- Operators between two operands that are both evaluated. -/
inductive BinaryOp where
  | add
  | subtract
  | multiply
  | divide
  | equal
  | notEqual
  | greater
  | greaterEqual
  | less
  | lessEqual
deriving DecidableEq, Repr

namespace BinaryOp

def kind : BinaryOp → TokenKind
  | add => .plus
  | subtract => .minus
  | multiply => .star
  | divide => .slash
  | equal => .equalEqual
  | notEqual => .bangEqual
  | greater => .greater
  | greaterEqual => .greaterEqual
  | less => .less
  | lessEqual => .lessEqual

def symbol (op : BinaryOp) : String :=
  op.kind.spelling

def all : List BinaryOp :=
  [add, subtract, multiply, divide, equal, notEqual, greater, greaterEqual, less, lessEqual]

theorem mem_all (op : BinaryOp) : op ∈ all := by
  cases op <;> decide

end BinaryOp

/-- Operators whose second operand is evaluated only when the first does not decide. -/
inductive LogicalOp where
  | and
  | or
deriving DecidableEq, Repr

namespace LogicalOp

def kind : LogicalOp → TokenKind
  | and => .kwAnd
  | or => .kwOr

def symbol (op : LogicalOp) : String :=
  op.kind.spelling

def all : List LogicalOp := [and, or]

theorem mem_all (op : LogicalOp) : op ∈ all := by
  cases op <;> decide

end LogicalOp

inductive InfixOp where
  | binary (op : BinaryOp)
  | logical (op : LogicalOp)
deriving DecidableEq, Repr

/-- The levels of infix operators, from the loosest to the tightest. -/
inductive Level where
  | or
  | and
  | equality
  | comparison
  | term
  | factor
deriving DecidableEq, Repr

namespace Level

def all : List Level := [or, and, equality, comparison, term, factor]

end Level

namespace InfixOp

def kind : InfixOp → TokenKind
  | binary op => op.kind
  | logical op => op.kind

def level : InfixOp → Level
  | logical .or => .or
  | logical .and => .and
  | binary .equal | binary .notEqual => .equality
  | binary .greater | binary .greaterEqual | binary .less | binary .lessEqual => .comparison
  | binary .add | binary .subtract => .term
  | binary .multiply | binary .divide => .factor

def all : List InfixOp :=
  BinaryOp.all.map binary ++ LogicalOp.all.map logical

/-- The operator of the given level that a token kind spells between two operands. -/
def ofKind? (level : Level) (kind : TokenKind) : Option InfixOp :=
  all.find? fun op => op.level == level && op.kind == kind

end InfixOp

end Lox

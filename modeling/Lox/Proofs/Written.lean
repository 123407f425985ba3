import Lox.Proofs.Program
import Lox.Tree.Print
import Mathlib.Data.List.Forall2
/-!
# Trees written out

How a tree is written out again. A tree does not remember everything about the tokens it was read from:
a mark is what it remembers of one of them, and the tokens that fit its marks one by one are the ways of
writing it out.

Not every tree can be written out and read back. A tree in normal form needs no further parentheses, and
its nesting says how many levels reading it opens.
-/

namespace Lox

/-! ### Marks -/

/-- What a tree remembers of a token: that it is there; its line too, if it is an operator or opens a
group; its value and its line; or all of it, if it is a name. -/
inductive Mark where
  | symbol (kind : TokenKind)
  | operator (kind : TokenKind) (line : Nat)
  | literal (value : Value) (line : Nat)
  | name (token : Token)

namespace Value

def kind : Value → TokenKind
  | nil => .kwNil
  | bool true => .kwTrue
  | bool false => .kwFalse
  | number _ => .number
  | string _ => .string

/-- What a token that stands for the value has to carry. -/
def literal? : Value → Option Literal
  | number n => some (.number n)
  | string s => some (.string s)
  | _ => none

end Value

namespace Mark

/-- A token that leaves the mark. -/
def Fits : Mark → Token → Prop
  | symbol kind, t => t.kind = kind
  | operator kind line, t => t.kind = kind ∧ t.line = line
  | literal value line, t =>
      t.kind = value.kind ∧ (∀ l ∈ value.literal?, t.literal = some l) ∧ t.line = line
  | name token, t => t = token

/-- A token for a mark. What the tree does not remember of it is filled in: its spelling, and the first
line for a symbol. -/
def token : Mark → Token
  | symbol kind => ⟨kind, kind.spelling, none, 1⟩
  | operator kind line => ⟨kind, kind.spelling, none, line⟩
  | literal value line => ⟨value.kind, value.literalText, value.literal?, line⟩
  | name token => token

theorem fits_token (mark : Mark) : mark.Fits mark.token := by
  cases mark with
  | symbol kind => rfl
  | operator kind line => exact ⟨rfl, rfl⟩
  | literal value line => exact ⟨rfl, fun _ hl => hl, rfl⟩
  | name token => rfl

end Mark

namespace Expr

/-- Operators stand between their operands or before them, and groups in parentheses. -/
def marks : Expr → List Mark
  | literal value line => [.literal value line]
  | group inner line => .operator .leftParen line :: inner.marks ++ [.symbol .rightParen]
  | unary op right line => .operator op.kind line :: right.marks
  | binary left op right line => left.marks ++ .operator op.kind line :: right.marks
  | logical left op right line => left.marks ++ .operator op.kind line :: right.marks
  | var name => [.name name]
  | assign name value => .name name :: .symbol .equal :: value.marks

end Expr

mutual

def Stmt.marks : Stmt → List Mark
  | .expression e => e.marks ++ [.symbol .semicolon]
  | .print e => .symbol .kwPrint :: e.marks ++ [.symbol .semicolon]
  | .declare name none => [.symbol .kwVar, .name name, .symbol .semicolon]
  | .declare name (some init) =>
      .symbol .kwVar :: .name name :: .symbol .equal :: init.marks ++ [.symbol .semicolon]
  | .block slots => .symbol .leftBrace :: Stmt.slotMarks slots ++ [.symbol .rightBrace]
  | .branch condition yes none =>
      .symbol .kwIf :: .symbol .leftParen :: condition.marks ++ .symbol .rightParen :: yes.marks
  | .branch condition yes (some no) =>
      .symbol .kwIf :: .symbol .leftParen :: condition.marks ++ .symbol .rightParen :: yes.marks
        ++ .symbol .kwElse :: no.marks
  | .loop condition body =>
      .symbol .kwWhile :: .symbol .leftParen :: condition.marks ++ .symbol .rightParen :: body.marks
termination_by structural s => s

/-- A hole leaves no mark. -/
def Stmt.slotMarks : List (Option Stmt) → List Mark
  | [] => []
  | none :: rest => Stmt.slotMarks rest
  | some s :: rest => s.marks ++ Stmt.slotMarks rest
termination_by structural slots => slots

end

/-- The tokens are a way of writing the slots out. -/
def Written (slots : List Slot) (tokens : List Token) : Prop :=
  List.Forall₂ Mark.Fits (Stmt.slotMarks slots) tokens

def write (slots : List Slot) : List Token :=
  (Stmt.slotMarks slots).map Mark.token

theorem written_write (slots : List Slot) : Written slots (write slots) := by
  rw [Written, write, List.forall₂_map_right_iff, List.forall₂_same]
  intro mark _
  exact mark.fits_token

/-! ### Normal form -/

def Level.tightness : Level → Nat
  | .or => 1
  | .and => 2
  | .equality => 3
  | .comparison => 4
  | .term => 5
  | .factor => 6

theorem Level.tightness_pos (level : Level) : 0 < level.tightness := by
  cases level <;> decide

namespace Expr

/-- How tightly an expression holds together: an assignment least of all, and tightest what needs no
parentheses even as the operand of a unary operator. -/
def tightness : Expr → Nat
  | assign _ _ => 0
  | logical _ op _ _ => (InfixOp.logical op).level.tightness
  | binary _ op _ _ => (InfixOp.binary op).level.tightness
  | unary _ _ _ | literal _ _ | group _ _ | var _ => 7

/-- The operand of a unary operator is a unary or a primary expression, the left operand of an infix
operator binds at least as tightly as the operator, its right operand more tightly, and names are
identifiers. -/
def Normal : Expr → Prop
  | literal _ _ => True
  | group inner _ => inner.Normal
  | unary _ right _ => right.Normal ∧ right.tightness = 7
  | binary left op right _ => left.Normal ∧ right.Normal
      ∧ (InfixOp.binary op).level.tightness ≤ left.tightness
      ∧ (InfixOp.binary op).level.tightness < right.tightness
  | logical left op right _ => left.Normal ∧ right.Normal
      ∧ (InfixOp.logical op).level.tightness ≤ left.tightness
      ∧ (InfixOp.logical op).level.tightness < right.tightness
  | var name => name.kind = .identifier
  | assign name value => name.kind = .identifier ∧ value.Normal

/-- The levels of nesting that are opened inside an expression: by what stands in parentheses, by the
operand of a unary operator, and by the right side of an assignment. -/
def nesting : Expr → Nat
  | literal _ _ | var _ => 0
  | group inner _ => inner.nesting + 1
  | unary _ right _ => right.nesting + 1
  | binary left _ right _ | logical left _ right _ => max left.nesting right.nesting
  | assign _ value => value.nesting + 1

end Expr

namespace Stmt

def IsDeclaration : Stmt → Prop
  | declare _ _ => True
  | _ => False

/-- The statement ends in a conditional without `else`, which an `else` behind it would belong to. -/
def EndsOpen : Stmt → Prop
  | branch _ _ none => True
  | branch _ _ (some no) => no.EndsOpen
  | loop _ body => body.EndsOpen
  | _ => False
termination_by structural s => s

end Stmt

mutual

/-- Expressions are in normal form, names are identifiers, declarations stand only in slots, and what
stands before an `else` does not end in a conditional without one. -/
def Stmt.Normal : Stmt → Prop
  | .expression e => e.Normal
  | .print e => e.Normal
  | .declare name init => name.kind = .identifier ∧ ∀ e ∈ init, e.Normal
  | .block slots => Stmt.SlotsNormal slots
  | .branch condition yes none => condition.Normal ∧ yes.Normal ∧ ¬ yes.IsDeclaration
  | .branch condition yes (some no) => condition.Normal ∧ yes.Normal ∧ no.Normal
      ∧ ¬ yes.IsDeclaration ∧ ¬ no.IsDeclaration ∧ ¬ yes.EndsOpen
  | .loop condition body => condition.Normal ∧ body.Normal ∧ ¬ body.IsDeclaration
termination_by structural s => s

def Stmt.SlotsNormal : List (Option Stmt) → Prop
  | [] => True
  | none :: rest => Stmt.SlotsNormal rest
  | some s :: rest => s.Normal ∧ Stmt.SlotsNormal rest
termination_by structural slots => slots

end

mutual

/-- The levels of nesting that reading a statement opens: one for every statement, and one for every
expression beside those inside it. -/
def Stmt.nesting : Stmt → Nat
  | .expression e => e.nesting + 2
  | .print e => e.nesting + 2
  | .declare _ none => 0
  | .declare _ (some init) => init.nesting + 1
  | .block slots => Stmt.slotNesting slots + 1
  | .branch condition yes none => max (condition.nesting + 1) yes.nesting + 1
  | .branch condition yes (some no) =>
      max (condition.nesting + 1) (max yes.nesting no.nesting) + 1
  | .loop condition body => max (condition.nesting + 1) body.nesting + 1
termination_by structural s => s

def Stmt.slotNesting : List (Option Stmt) → Nat
  | [] => 0
  | none :: rest => Stmt.slotNesting rest
  | some s :: rest => max s.nesting (Stmt.slotNesting rest)
termination_by structural slots => slots

end

mutual

def Stmt.holes : Stmt → Nat
  | .expression _ | .print _ | .declare _ _ => 0
  | .block slots => Stmt.slotHoles slots
  | .branch _ yes none => yes.holes
  | .branch _ yes (some no) => yes.holes + no.holes
  | .loop _ body => body.holes
termination_by structural s => s

def Stmt.slotHoles : List (Option Stmt) → Nat
  | [] => 0
  | none :: rest => Stmt.slotHoles rest + 1
  | some s :: rest => s.holes + Stmt.slotHoles rest
termination_by structural slots => slots

end

end Lox

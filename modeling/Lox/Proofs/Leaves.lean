import Lox.Proofs.Blame
import Lox.Proofs.NumberText
/-!
# The leaves of trees

The literals and names that statements hold. What is known of a scanned token is known of the leaf that comes from it:
names are words that are no keywords, strings hold no quote, and numbers have no sign. This holds of all that is parsed,
whatever faults stand around it.
-/

namespace Lox

/-! ### Leaves -/

/-- A value that a tree holds, or a name that it reads, assigns or declares. -/
inductive Leaf where
  | value (v : Value)
  | name (t : Token)
deriving DecidableEq

def Expr.leaves : Expr → List Leaf
  | literal value _ => [.value value]
  | group inner _ => inner.leaves
  | unary _ right _ => right.leaves
  | binary left _ right _ => left.leaves ++ right.leaves
  | logical left _ right _ => left.leaves ++ right.leaves
  | var name => [.name name]
  | assign name value => .name name :: value.leaves

namespace Expr

def AllLeaves (good : Leaf → Prop) (e : Expr) : Prop :=
  ∀ leaf ∈ e.leaves, good leaf

variable {good : Leaf → Prop} {left right : Expr} {line : Nat}

theorem allLeaves_literal {v : Value} : (literal v line).AllLeaves good ↔ good (.value v) :=
  List.forall_mem_singleton

theorem allLeaves_group {inner : Expr} : (group inner line).AllLeaves good ↔ inner.AllLeaves good :=
  Iff.rfl

theorem allLeaves_unary {op : UnaryOp} : (unary op right line).AllLeaves good ↔ right.AllLeaves good :=
  Iff.rfl

theorem allLeaves_binary {op : BinaryOp} :
    (binary left op right line).AllLeaves good ↔ left.AllLeaves good ∧ right.AllLeaves good :=
  List.forall_mem_append

theorem allLeaves_logical {op : LogicalOp} :
    (logical left op right line).AllLeaves good ↔ left.AllLeaves good ∧ right.AllLeaves good :=
  List.forall_mem_append

theorem allLeaves_var {name : Token} : (var name).AllLeaves good ↔ good (.name name) :=
  List.forall_mem_singleton

theorem allLeaves_assign {name : Token} {value : Expr} :
    (assign name value).AllLeaves good ↔ good (.name name) ∧ value.AllLeaves good :=
  List.forall_mem_cons

end Expr

namespace Stmt

def Part.leaves : Part → List Leaf
  | expression e => e.leaves
  | declaration name => [.name name]

def leaves (s : Stmt) : List Leaf :=
  s.parts.flatMap Part.leaves

def leavesIn (slots : List Slot) : List Leaf :=
  (slotParts slots).flatMap Part.leaves

def AllLeaves (good : Leaf → Prop) (s : Stmt) : Prop :=
  ∀ leaf ∈ s.leaves, good leaf

variable {good : Leaf → Prop}

theorem allLeaves_expression {e : Expr} : (expression e).AllLeaves good ↔ e.AllLeaves good := by
  simp [AllLeaves, Expr.AllLeaves, leaves, parts, Part.leaves]

theorem allLeaves_print {e : Expr} : (print e).AllLeaves good ↔ e.AllLeaves good :=
  allLeaves_expression

theorem allLeaves_declare {name : Token} {init : Option Expr} :
    (declare name init).AllLeaves good ↔ good (.name name) ∧ ∀ e ∈ init, e.AllLeaves good := by
  cases init with
  | none => simp [AllLeaves, leaves, parts, Part.leaves]
  | some e => simp [AllLeaves, Expr.AllLeaves, leaves, parts, Part.leaves, or_imp, forall_and, and_comm]

theorem allLeaves_in {slots : List Slot} :
    (∀ leaf ∈ leavesIn slots, good leaf) ↔ ∀ s, some s ∈ slots → s.AllLeaves good := by
  induction slots with
  | nil => simp [leavesIn, slotParts]
  | cons slot slots ih =>
    cases slot with
    | none => simpa [leavesIn, slotParts] using ih
    | some s =>
      have happend : leavesIn (some s :: slots) = s.leaves ++ leavesIn slots := List.flatMap_append
      rw [happend, List.forall_mem_append, ih]
      simp [AllLeaves, or_imp, forall_and]

theorem allLeaves_block {slots : List Slot} :
    (block slots).AllLeaves good ↔ ∀ s, some s ∈ slots → s.AllLeaves good :=
  allLeaves_in

theorem allLeaves_branch {condition : Expr} {yes : Stmt} {no : Option Stmt} :
    (branch condition yes no).AllLeaves good
      ↔ condition.AllLeaves good ∧ yes.AllLeaves good ∧ ∀ s ∈ no, s.AllLeaves good := by
  cases no with
  | none =>
    have happend : (branch condition yes none).leaves = condition.leaves ++ yes.leaves := rfl
    simp [AllLeaves, Expr.AllLeaves, happend, or_imp, forall_and]
  | some s =>
    have happend : (branch condition yes (some s)).leaves = condition.leaves ++ (yes.leaves ++ s.leaves) := by
      simp [leaves, parts, Part.leaves]
    simp [AllLeaves, Expr.AllLeaves, happend, or_imp, forall_and]

theorem allLeaves_loop {condition : Expr} {body : Stmt} :
    (loop condition body).AllLeaves good ↔ condition.AllLeaves good ∧ body.AllLeaves good :=
  List.forall_mem_append

/-- A for statement brings in one value of its own, where it has no condition. -/
theorem allLeaves_forLoop {line : Nat} {init : Option Stmt} {condition increment : Option Expr} {body : Stmt}
    (htrue : good (.value (.bool true))) (hinit : ∀ s ∈ init, s.AllLeaves good)
    (hcondition : ∀ e ∈ condition, e.AllLeaves good) (hincrement : ∀ e ∈ increment, e.AllLeaves good)
    (hbody : body.AllLeaves good) : (Rule.forLoop line init condition increment body).AllLeaves good := by
  have hcondition' : (condition.getD (.literal (.bool true) line)).AllLeaves good := by
    cases condition with
    | none => exact Expr.allLeaves_literal.2 htrue
    | some e => exact hcondition e rfl
  have hloop : (Rule.forLoop line none condition increment body).AllLeaves good := by
    cases increment with
    | none => exact allLeaves_loop.2 ⟨hcondition', hbody⟩
    | some e =>
      refine allLeaves_loop.2 ⟨hcondition', allLeaves_block.2 ?_⟩
      simpa [hbody] using allLeaves_expression.2 (hincrement e rfl)
  cases init with
  | none => exact hloop
  | some s =>
    refine allLeaves_block.2 fun t ht => ?_
    obtain rfl | rfl : t = s ∨ t = Rule.forLoop line none condition increment body := by simpa [Rule.forLoop] using ht
    · exact hinit t rfl
    · exact hloop

end Stmt

/-! ### What scanning gives -/

/-- The token is a name as scanning gives it: a word that is no keyword. -/
structure Token.IsName (t : Token) : Prop where
  kind : t.kind = .identifier
  word : (Piece.word t.lexeme.toList).Proper
  plain : TokenKind.keyword? t.lexeme = none
  literal : t.literal = none

/-- A leaf as scanning gives it: numbers have no sign, strings hold no quote, and names are words. -/
def Leaf.Scanned : Leaf → Prop
  | value (.number n) => n.isNegative = false
  | value (.string s) => '"' ∉ s.toList
  | value .nil => True
  | value (.bool _) => True
  | name t => t.IsName

theorem Number.isNegative_ofCode {code : Nat} (h : code ≤ infinityCode) : (ofCode code).isNegative = false := by
  obtain hlt | rfl := Nat.lt_or_eq_of_le h
  · rw [Bool.eq_false_iff, Ne, isNegative_iff, toNat_toBits_ofCode hlt]
    rw [infinityCode] at hlt
    omega
  · decide +kernel

theorem Number.isNegative_ofDigits (whole fraction : List Char) : (ofDigits whole fraction).isNegative = false :=
  isNegative_ofCode (Nat.min_le_right _ _)

theorem TokenKind.ne_identifier_of_keyword? {word : String} {kind : TokenKind} (h : keyword? word = some kind) :
    kind ≠ .identifier := by
  rintro rfl
  exact absurd (keyword?_eq_some_iff.1 h).1 (by decide)

structure Token.Scanned (t : Token) : Prop where
  name : t.kind = .identifier → t.IsName
  value : ∀ v, t.constant? = some v → (Leaf.value v).Scanned

/-- A token without a literal stands for nothing but `nil`, `true` and `false`. -/
theorem Token.scanned_of_literal {t : Token} (hliteral : t.literal = none) (hname : t.kind = .identifier → t.IsName) :
    t.Scanned := by
  refine ⟨hname, ?_⟩
  intro v hv
  rw [constant?, hliteral] at hv
  split at hv
  case h_1 | h_2 | h_3 =>
    obtain rfl := Option.some.inj hv
    trivial
  all_goals simp at hv

theorem Piece.scanned_of_token? {p : Piece} {line : Nat} {t : Token} (hp : p.Proper) (ht : p.token? line = some t) :
    t.Scanned := by
  cases p with
  | symbol kind =>
    obtain rfl := Option.some.inj ht
    refine Token.scanned_of_literal rfl ?_
    rintro (rfl : kind = .identifier)
    exact absurd (show TokenKind.identifier ∈ TokenKind.symbols from hp) (by decide)
  | number whole fraction =>
    obtain rfl := Option.some.inj ht
    refine ⟨by simp, ?_⟩
    rintro v hv
    obtain rfl : Value.number (Number.ofDigits whole fraction) = v := Option.some.inj hv
    exact Number.isNegative_ofDigits whole fraction
  | string body =>
    obtain rfl := Option.some.inj ht
    refine ⟨by simp, ?_⟩
    rintro v hv
    obtain rfl : Value.string (String.ofList body) = v := Option.some.inj hv
    intro hmem
    rw [String.toList_ofList] at hmem
    exact absurd (hp '"' hmem) (by decide)
  | word text =>
    obtain rfl := Option.some.inj ht
    refine Token.scanned_of_literal rfl ?_
    intro hkind
    cases hkeyword : TokenKind.keyword? (String.ofList text) with
    | none => exact ⟨rfl, by simpa using hp, hkeyword, rfl⟩
    | some kind =>
      refine absurd ?_ (TokenKind.ne_identifier_of_keyword? hkeyword)
      simpa [hkeyword] using hkind
  | _ => simp [token?] at ht

theorem scanned_of_mem_scan {source : String} {t : Token} (ht : t ∈ (scan source).tokens) : t.Scanned := by
  obtain rfl | ⟨line, p, hmem, hread⟩ := mem_scan_tokens.1 ht
  · exact ⟨by simp [Token.eof], by simp [Token.eof, Token.constant?]⟩
  · exact Piece.scanned_of_token? (Piece.forall_proper_split _ p (Piece.mem_of_mem_located hmem)) hread

/-! ### What parsing gives -/

section Built

variable {given : Token → Prop} {n : Nat} (hgiven : ∀ t, given t → t.Scanned)

include hgiven

theorem ExprBuilt.scanned {rank : Rank} {e : Expr} (h : ExprBuilt given n rank e) : e.AllLeaves Leaf.Scanned := by
  induction h with
  | literal ht hconstant => exact Expr.allLeaves_literal.2 ((hgiven _ ht).value _ hconstant)
  | var ht hkind => exact Expr.allLeaves_var.2 ((hgiven _ ht).name hkind)
  | group _ _ _ ih => exact Expr.allLeaves_group.2 ih
  | unary _ _ _ ih => exact Expr.allLeaves_unary.2 ih
  | operand _ ih => exact ih
  | @joined _ _ _ op _ _ _ _ _ _ ihleft ihright =>
    cases op with
    | binary op => exact Expr.allLeaves_binary.2 ⟨ihleft, ihright⟩
    | logical op => exact Expr.allLeaves_logical.2 ⟨ihleft, ihright⟩
  | plain _ ih => exact ih
  | assign ht hkind _ ih => exact Expr.allLeaves_assign.2 ⟨(hgiven _ ht).name hkind, ih⟩

theorem DeclareBuilt.scanned {s : Stmt} (h : DeclareBuilt given n s) : s.AllLeaves Leaf.Scanned := by
  obtain ⟨ht, hkind, hinit⟩ := h
  exact Stmt.allLeaves_declare.2 ⟨(hgiven _ ht).name hkind, fun e he => (hinit e he).scanned hgiven⟩

theorem InitBuilt.scanned {s : Stmt} (h : InitBuilt given n s) : s.AllLeaves Leaf.Scanned := by
  cases h with
  | declared h => exact h.scanned hgiven
  | plain h => exact Stmt.allLeaves_expression.2 (h.scanned hgiven)

theorem StmtBuilt.scanned {position : Position} {s : Stmt} (h : StmtBuilt given n position s) :
    s.AllLeaves Leaf.Scanned := by
  induction h with
  | declare h => exact h.scanned hgiven
  | statement _ ih => exact ih
  | expression h => exact Stmt.allLeaves_expression.2 (h.scanned hgiven)
  | print h => exact Stmt.allLeaves_print.2 (h.scanned hgiven)
  | block _ ih => exact Stmt.allLeaves_block.2 ih
  | ifThen hcondition _ ih => exact Stmt.allLeaves_branch.2 ⟨hcondition.scanned hgiven, ih, by simp⟩
  | ifElse hcondition _ _ ihyes ihno =>
    exact Stmt.allLeaves_branch.2 ⟨hcondition.scanned hgiven, ihyes, by simpa using ihno⟩
  | «while» hcondition _ ih => exact Stmt.allLeaves_loop.2 ⟨hcondition.scanned hgiven, ih⟩
  | «for» _ _ hinit hcondition hincrement _ ih =>
    exact Stmt.allLeaves_forLoop trivial (fun s hs => (hinit s hs).scanned hgiven)
      (fun e he => (hcondition e he).scanned hgiven) (fun e he => (hincrement e he).scanned hgiven) ih

end Built

/-- The leaves of what is scanned and parsed, faults or not, are as scanning gives them. -/
theorem scanned_of_parse (source : String) :
    ∀ leaf ∈ Stmt.leavesIn (parse (scan source).tokens).slots, leaf.Scanned :=
  Stmt.allLeaves_in.2 fun _ hs => (built_of_parse hs).scanned fun _ => scanned_of_mem_scan

end Lox

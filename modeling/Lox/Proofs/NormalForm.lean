import Lox.Proofs.Built
import Lox.Proofs.LexicalScope
import Lox.Proofs.RoundTrip
/-!
# Parsed trees are in normal form

Every tree that is read is in the normal form in which trees can be written out again, whatever stands around it.
Between faults nothing is known about the tokens as a whole, so this rests on how trees are built: the rank of a place
says how tightly what is built there holds together, and its position whether it may declare a name or end in an open
conditional. In the end the normal form is read off at each node, at any depth.
-/

namespace Lox

/-! ### Expressions -/

theorem Level.tightness_le (level : Level) : level.tightness ≤ 6 := by
  cases level <;> decide

theorem Expr.tightness_le (e : Expr) : e.tightness ≤ 7 := by
  cases e with
  | binary _ op _ _ => exact Nat.le_succ_of_le (InfixOp.binary op).level.tightness_le
  | logical _ op _ _ => exact Nat.le_succ_of_le (InfixOp.logical op).level.tightness_le
  | _ => simp [tightness]

theorem InfixOp.normal_join {op : InfixOp} {line : Nat} {left right : Expr} : (op.join line left right).Normal
    ↔ left.Normal ∧ right.Normal ∧ op.level.tightness ≤ left.tightness ∧ op.level.tightness < right.tightness := by
  cases op <;> rfl

/-- The looser a level is, the more levels are behind it. -/
theorem Level.tightness_add_length {level : Level} {levels : List Level} (h : level :: levels <:+ Level.all) :
    level.tightness + levels.length = 6 := by
  simp only [Level.all, List.suffix_cons_iff, List.cons.injEq, List.suffix_nil] at h
  obtain ⟨rfl, rfl⟩ | ⟨rfl, rfl⟩ | ⟨rfl, rfl⟩ | ⟨rfl, rfl⟩ | ⟨rfl, rfl⟩ | ⟨rfl, rfl⟩ | h := h
  case inr.inr.inr.inr.inr.inr => simp at h
  all_goals rfl

namespace Rank

/-- The levels that may be used are the tightest ones, from some level on. -/
def Nested : Rank → Prop
  | whole => True
  | within levels => levels <:+ Level.all

/-- How tightly what stands at a place holds together at least: the fewer levels may be used in it, the tighter. -/
def tightness : Rank → Nat
  | whole => 0
  | within levels => 7 - levels.length

end Rank

theorem ExprBuilt.normal {given : Token → Prop} {n : Nat} {rank : Rank} {e : Expr} (h : ExprBuilt given n rank e)
    (hrank : rank.Nested) : e.Normal ∧ rank.tightness ≤ e.tightness := by
  induction h with
  | literal => exact ⟨trivial, Nat.le_refl 7⟩
  | var _ hkind => exact ⟨hkind, Nat.le_refl 7⟩
  | group _ _ _ ih => exact ⟨(ih trivial).1, Nat.le_refl 7⟩
  | @unary _ _ _ e _ _ _ ih =>
    obtain ⟨hnormal, htight⟩ := ih hrank
    exact ⟨⟨hnormal, Nat.le_antisymm e.tightness_le htight⟩, Nat.le_refl 7⟩
  | @operand _ level levels e _ ih =>
    obtain ⟨hnormal, htight⟩ := ih ((List.suffix_cons level levels).trans hrank)
    refine ⟨hnormal, Nat.le_trans ?_ htight⟩
    simp only [Rank.tightness, List.length_cons]
    omega
  | @joined _ levels _ op left right _ _ _ _ ihleft ihright =>
    obtain ⟨hleft, hlefter⟩ := ihleft hrank
    obtain ⟨hright, hrighter⟩ := ihright ((List.suffix_cons op.level levels).trans hrank)
    have hlevel : op.level.tightness + levels.length = 6 := Level.tightness_add_length hrank
    simp only [Rank.tightness, List.length_cons] at hlefter hrighter ⊢
    rw [InfixOp.normal_join, InfixOp.tightness_join]
    exact ⟨⟨hleft, hright, by omega, by omega⟩, by omega⟩
  | plain _ ih => exact ⟨(ih (List.suffix_refl Level.all)).1, Nat.zero_le _⟩
  | assign _ hkind _ ih => exact ⟨⟨hkind, (ih trivial).1⟩, Nat.zero_le _⟩

theorem ExprBuilt.normal_whole {given : Token → Prop} {n : Nat} {e : Expr} (h : ExprBuilt given n .whole e) :
    e.Normal :=
  (h.normal trivial).1

/-! ### Statements -/

namespace Stmt

theorem slotsNormal_iff {slots : List Slot} : SlotsNormal slots ↔ ∀ s, some s ∈ slots → s.Normal := by
  induction slots with
  | nil => simp [SlotsNormal]
  | cons slot slots ih =>
    cases slot with
    | none => simpa [SlotsNormal] using ih
    | some s => simp [SlotsNormal, ih]

theorem Normal.branch_parts {condition : Expr} {yes : Stmt} {no : Option Stmt}
    (h : (branch condition yes no).Normal) : condition.Normal ∧ yes.Normal ∧ ∀ s ∈ no, s.Normal := by
  cases no with
  | none => exact ⟨h.1, h.2.1, by simp⟩
  | some no => exact ⟨h.1, h.2.1, by simpa using h.2.2.1⟩

variable {line : Nat} {init : Option Stmt} {condition increment : Option Expr} {body : Stmt}

/-- The loop that a for statement stands for is put together from parts in normal form, and so it is in normal form
itself. It never declares a name where it stands, and ends as its body does or with a brace. -/
theorem normal_forLoop (hinit : ∀ s ∈ init, s.Normal) (hcondition : ∀ e ∈ condition, e.Normal)
    (hincrement : ∀ e ∈ increment, e.Normal) (hbody : body.Normal) (hplain : ¬ body.IsDeclaration) :
    (Rule.forLoop line init condition increment body).Normal := by
  have hcondition' : (condition.getD (.literal (.bool true) line)).Normal := by
    cases condition with
    | none => trivial
    | some e => exact hcondition e rfl
  have hloop : (Rule.forLoop line none condition increment body).Normal := by
    cases increment with
    | none => exact ⟨hcondition', hbody, hplain⟩
    | some e => exact ⟨hcondition', ⟨hbody, hincrement e rfl, trivial⟩, id⟩
  cases init with
  | none => exact hloop
  | some s => exact ⟨hinit s rfl, hloop, trivial⟩

theorem not_isDeclaration_forLoop : ¬ (Rule.forLoop line init condition increment body).IsDeclaration := by
  cases init <;> exact id

theorem EndsOpen.of_forLoop (h : (Rule.forLoop line init condition increment body).EndsOpen) : body.EndsOpen := by
  cases init with
  | none =>
    cases increment with
    | none => exact h
    | some e => exact h.elim
  | some s => exact h.elim

end Stmt

/-- What stands at a position where only statements do declares no name, and does not end in an open conditional if it
is closed. -/
def Position.Admits : Position → Stmt → Prop
  | declaration, _ => True
  | statement closed, s => ¬ s.IsDeclaration ∧ (closed = true → ¬ s.EndsOpen)

theorem DeclareBuilt.normal {given : Token → Prop} {n : Nat} {s : Stmt} (h : DeclareBuilt given n s) : s.Normal := by
  cases h with
  | intro _ hkind hinit => exact ⟨hkind, fun e he => (hinit e he).normal_whole⟩

theorem InitBuilt.normal {given : Token → Prop} {n : Nat} {s : Stmt} (h : InitBuilt given n s) : s.Normal := by
  cases h with
  | declared h => exact h.normal
  | plain h => exact h.normal_whole

theorem StmtBuilt.normal {given : Token → Prop} {n : Nat} {position : Position} {s : Stmt}
    (h : StmtBuilt given n position s) : s.Normal ∧ position.Admits s := by
  induction h with
  | declare h => exact ⟨h.normal, trivial⟩
  | statement _ ih => exact ⟨ih.1, trivial⟩
  | expression h => exact ⟨h.normal_whole, id, fun _ => id⟩
  | print h => exact ⟨h.normal_whole, id, fun _ => id⟩
  | block _ ih => exact ⟨Stmt.slotsNormal_iff.2 fun s hs => (ih s hs).1, id, fun _ => id⟩
  | ifThen hcondition _ ih =>
    obtain ⟨hyes, hplain, -⟩ := ih
    exact ⟨⟨hcondition.normal_whole, hyes, hplain⟩, id, nofun⟩
  | ifElse hcondition _ _ ihyes ihno =>
    obtain ⟨hyes, hplain, hclosed⟩ := ihyes
    obtain ⟨hno, hplain', hclosed'⟩ := ihno
    exact ⟨⟨hcondition.normal_whole, hyes, hno, hplain, hplain', hclosed rfl⟩, id, hclosed'⟩
  | «while» hcondition _ ih =>
    obtain ⟨hbody, hplain, hclosed⟩ := ih
    exact ⟨⟨hcondition.normal_whole, hbody, hplain⟩, id, hclosed⟩
  | «for» _ _ hinit hcondition hincrement _ ih =>
    obtain ⟨hbody, hplain, hclosed⟩ := ih
    refine ⟨Stmt.normal_forLoop (fun s hs => (hinit s hs).normal) (fun e he => (hcondition e he).normal_whole)
      (fun e he => (hincrement e he).normal_whole) hbody hplain, Stmt.not_isDeclaration_forLoop, ?_⟩
    intro hlast hopen
    exact hclosed hlast hopen.of_forLoop

theorem slotsNormal_of_parse (tokens : List Token) : Stmt.SlotsNormal (parse tokens).slots :=
  Stmt.slotsNormal_iff.2 fun _ hs => (built_of_parse hs).normal.1

/-! ### Nodes -/

/-- Fits behind a unary operator without parentheses. -/
def Expr.IsOperand : Expr → Prop
  | unary _ _ _ | literal _ _ | var _ | group _ _ => True
  | _ => False

def Expr.IsAssignment : Expr → Prop
  | assign _ _ => True
  | _ => False

theorem Expr.isOperand_of_tightness {e : Expr} (h : e.tightness = 7) : e.IsOperand := by
  cases e with
  | binary _ op _ _ =>
    have hle := (InfixOp.binary op).level.tightness_le
    simp only [tightness] at h
    omega
  | logical _ op _ _ =>
    have hle := (InfixOp.logical op).level.tightness_le
    simp only [tightness] at h
    omega
  | assign => simp [tightness] at h
  | _ => trivial

theorem Expr.not_isAssignment_of_tightness {e : Expr} (h : 0 < e.tightness) : ¬ e.IsAssignment := by
  cases e with
  | assign => simp [tightness] at h
  | _ => exact id

/-- The operands of an infix operator need no parentheses: the left one binds at least as tightly as the operator, the
right one more tightly, and neither is an assignment. -/
structure InfixOp.Joins (op : InfixOp) (left right : Expr) : Prop where
  left_tight : op.level.tightness ≤ left.tightness
  right_tight : op.level.tightness < right.tightness
  left_plain : ¬ left.IsAssignment
  right_plain : ¬ right.IsAssignment

theorem InfixOp.joins {op : InfixOp} {left right : Expr} (hleft : op.level.tightness ≤ left.tightness)
    (hright : op.level.tightness < right.tightness) : op.Joins left right := by
  have hpos := op.level.tightness_pos
  exact ⟨hleft, hright, Expr.not_isAssignment_of_tightness (by omega), Expr.not_isAssignment_of_tightness (by omega)⟩

namespace Node

/-- What the normal form asks of a node and its children. -/
def Formed : Node → Prop
  | program _ => True
  | statement (.declare name _) => name.kind = .identifier
  | statement (.branch _ yes none) => ¬ yes.IsDeclaration
  | statement (.branch _ yes (some no)) => ¬ yes.IsDeclaration ∧ ¬ no.IsDeclaration ∧ ¬ yes.EndsOpen
  | statement (.loop _ body) => ¬ body.IsDeclaration
  | statement (.expression _) | statement (.print _) | statement (.block _) => True
  | expression (.unary _ right _) => right.IsOperand
  | expression (.binary left op right _) => (InfixOp.binary op).Joins left right
  | expression (.logical left op right _) => (InfixOp.logical op).Joins left right
  | expression (.var name) => name.kind = .identifier ∧ (Expr.var name).line = name.line
  | expression (.assign name value) => name.kind = .identifier ∧ (Expr.assign name value).line = name.line
  | expression (.literal _ _) | expression (.group _ _) => True

def Normal : Node → Prop
  | program slots => Stmt.SlotsNormal slots
  | statement s => s.Normal
  | expression e => e.Normal

theorem Normal.formed {node : Node} (h : node.Normal) : node.Formed := by
  cases node with
  | program slots => trivial
  | statement s =>
    cases s with
    | declare name init => exact h.1
    | branch condition yes no =>
      cases no with
      | none => exact h.2.2
      | some no => exact h.2.2.2
    | loop condition body => exact h.2.2
    | _ => trivial
  | expression e =>
    cases e with
    | unary op right line => exact Expr.isOperand_of_tightness h.2
    | binary left op right line => exact InfixOp.joins h.2.2.1 h.2.2.2
    | logical left op right line => exact InfixOp.joins h.2.2.1 h.2.2.2
    | var name => exact ⟨h, rfl⟩
    | assign name value => exact ⟨h.1, rfl⟩
    | _ => trivial

theorem Normal.slot {slots : List Slot} {i : Nat} {part : Node} (h : Stmt.SlotsNormal slots)
    (hpart : slots[i]?.join.map statement = some part) : part.Normal := by
  obtain ⟨s, hs, rfl⟩ := Option.map_eq_some_iff.1 hpart
  exact Stmt.slotsNormal_iff.1 h s (List.mem_of_getElem? (Option.join_eq_some_iff.1 hs))

/-- The normal form goes down to the children. -/
theorem Normal.child {node part : Node} {i : Nat} (h : node.Normal) (hpart : node.child i = some part) :
    part.Normal := by
  rw [Node.child.eq_def] at hpart
  split at hpart
  case h_1 => exact Normal.slot h hpart
  case h_2 => exact Option.some.inj hpart ▸ h
  case h_3 => exact Option.some.inj hpart ▸ h
  case h_4 =>
    obtain ⟨e, he, rfl⟩ := Option.map_eq_some_iff.1 hpart
    exact h.2 e he
  case h_5 => exact Normal.slot h hpart
  case h_6 => exact Option.some.inj hpart ▸ (Stmt.Normal.branch_parts h).1
  case h_7 => exact Option.some.inj hpart ▸ (Stmt.Normal.branch_parts h).2.1
  case h_8 =>
    obtain ⟨no, hno, rfl⟩ := Option.map_eq_some_iff.1 hpart
    exact (Stmt.Normal.branch_parts h).2.2 no hno
  case h_9 => exact Option.some.inj hpart ▸ h.1
  case h_10 => exact Option.some.inj hpart ▸ h.2.1
  case h_11 => exact Option.some.inj hpart ▸ h
  case h_12 => exact Option.some.inj hpart ▸ h.1
  case h_13 => exact Option.some.inj hpart ▸ h.1
  case h_14 => exact Option.some.inj hpart ▸ h.2.1
  case h_15 => exact Option.some.inj hpart ▸ h.1
  case h_16 => exact Option.some.inj hpart ▸ h.2.1
  case h_17 => exact Option.some.inj hpart ▸ h.2
  case h_18 => simp at hpart

theorem Normal.part {node part : Node} {path : List Nat} (h : node.Normal) (hpart : node.part path = some part) :
    part.Normal := by
  induction path generalizing node with
  | nil =>
    obtain rfl := Option.some.inj hpart
    exact h
  | cons i path ih =>
    obtain ⟨child, hchild, hrest⟩ := Option.bind_eq_some_iff.1 hpart
    exact ih (h.child hchild) hrest

end Node

/-- Every tree that is parsed is in normal form, with errors around it or not: wherever a path leads in it, the
operands of operators are such that no parentheses are missing, names are identifiers on the lines of their nodes, and
what stands in a conditional or a loop declares no name and leaves no conditional open before an `else`. -/
theorem formed_of_parse (tokens : List Token) (path : List Nat) (node : Node)
    (hnode : (Node.program (parse tokens).slots).part path = some node) : node.Formed := by
  have hprogram : (Node.program (parse tokens).slots).Normal := slotsNormal_of_parse tokens
  exact (hprogram.part hnode).formed

/-- A difference that is assigned to, which is an error, in a conditional that stands before the `else` of another. -/
theorem formed_of_parse_invalid_target :
    let tokens := (scan "if (a) for (;;) if (b) 1 - 2 * c = 3; else d = (e = 4); else print !-f;").tokens
    let program := Node.program (parse tokens).slots
    (parse tokens).errors.map (·.fault) = [.invalidTarget]
      ∧ (∃ condition yes no, program.part [0] = some (.statement (.branch condition yes (some no)))
        ∧ ¬ yes.IsDeclaration ∧ ¬ no.IsDeclaration ∧ ¬ yes.EndsOpen)
      ∧ ∃ left right line, program.part [0, 1, 1, 1, 0] = some (.expression (.binary left .subtract right line))
        ∧ (InfixOp.binary .subtract).Joins left right := by
  intro tokens program
  refine ⟨by decide +kernel, ?_, ?_⟩
  · have hnode : (match program.part [0] with
        | some (.statement (.branch _ _ no)) => no.isSome
        | none | some (.program _) | some (.expression _) | some (.statement (.expression _))
        | some (.statement (.print _)) | some (.statement (.declare _ _)) | some (.statement (.block _))
        | some (.statement (.loop _ _)) => false) = true := by decide +kernel
    split at hnode
    case h_1 condition yes no hpart =>
      obtain ⟨no, rfl⟩ := Option.isSome_iff_exists.1 hnode
      exact ⟨condition, yes, no, hpart, formed_of_parse tokens _ _ hpart⟩
    all_goals simp at hnode
  · have hnode : (match program.part [0, 1, 1, 1, 0] with
        | some (.expression (.binary _ op _ _)) => decide (op = .subtract)
        | none | some (.program _) | some (.statement _) | some (.expression (.literal _ _))
        | some (.expression (.group _ _)) | some (.expression (.unary _ _ _)) | some (.expression (.var _))
        | some (.expression (.logical _ _ _ _)) | some (.expression (.assign _ _)) => false) = true := by
      decide +kernel
    split at hnode
    case h_1 left op right line hpart =>
      obtain rfl := of_decide_eq_true hnode
      exact ⟨left, right, line, hpart, formed_of_parse tokens _ _ hpart⟩
    all_goals simp at hnode

end Lox

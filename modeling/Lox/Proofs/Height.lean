import Lox.Proofs.Built
import Lox.Proofs.Execution
/-!
# The height of trees

How deep evaluation and execution recurse on a tree is its height. The limit on nesting keeps the height of
what is parsed small only together with the length of its chains of operators: operators of one level are read in
a loop, which opens no level of nesting, and each of them makes the tree higher by one. So the height is at most
linear in the longest chain, and it has no bound that the limit alone would give.
-/

namespace Lox

/-! ### Expressions -/

namespace Expr

/-- The number of nodes on the longest way down. -/
def height : Expr → Nat
  | literal _ _ => 1
  | group inner _ => inner.height + 1
  | unary _ right _ => right.height + 1
  | binary left _ right _ => max left.height right.height + 1
  | logical left _ right _ => max left.height right.height + 1
  | var _ => 1
  | assign _ value => value.height + 1

/-- How many operators of the level are chained at the top, going down to the left. -/
def chained (level : Level) : Expr → Nat
  | binary left op _ _ => if (InfixOp.binary op).level = level then left.chained level + 1 else 0
  | logical left op _ _ => if (InfixOp.logical op).level = level then left.chained level + 1 else 0
  | _ => 0

/-- The number of operators in the longest chain of one level, anywhere in the tree. -/
def longestChain : Expr → Nat
  | literal _ _ => 0
  | group inner _ => inner.longestChain
  | unary _ right _ => right.longestChain
  | binary left op right _ =>
    max (left.chained (InfixOp.binary op).level + 1) (max left.longestChain right.longestChain)
  | logical left op right _ =>
    max (left.chained (InfixOp.logical op).level + 1) (max left.longestChain right.longestChain)
  | var _ => 0
  | assign _ value => value.longestChain

variable (op : InfixOp) (line : Nat) (left right : Expr)

theorem height_join : (op.join line left right).height = max left.height right.height + 1 := by
  cases op <;> rfl

theorem chained_join : (op.join line left right).chained op.level = left.chained op.level + 1 := by
  cases op <;> exact if_pos rfl

theorem longestChain_join : (op.join line left right).longestChain
    = max (left.chained op.level + 1) (max left.longestChain right.longestChain) := by
  cases op <;> rfl

theorem height_pos (e : Expr) : 0 < e.height := by
  cases e <;> simp [height]

theorem chained_le_longestChain (level : Level) (e : Expr) : e.chained level ≤ e.longestChain := by
  cases e with
  | binary left op right line =>
    rw [chained, longestChain]
    split
    next hlevel =>
      subst hlevel
      exact Nat.le_max_left _ _
    next => exact Nat.zero_le _
  | logical left op right line =>
    rw [chained, longestChain]
    split
    next hlevel =>
      subst hlevel
      exact Nat.le_max_left _ _
    next => exact Nat.zero_le _
  | _ => exact Nat.zero_le _

theorem longestChain_lt_height (e : Expr) : e.longestChain < e.height := by
  induction e with
  | literal => exact Nat.one_pos
  | group inner line ih =>
    rw [longestChain, height]
    omega
  | unary op right line ih =>
    rw [longestChain, height]
    omega
  | binary left op right line ihleft ihright =>
    have hchained := left.chained_le_longestChain (InfixOp.binary op).level
    rw [longestChain, height]
    omega
  | logical left op right line ihleft ihright =>
    have hchained := left.chained_le_longestChain (InfixOp.logical op).level
    rw [longestChain, height]
    omega
  | var => exact Nat.one_pos
  | assign name value ih =>
    rw [longestChain, height]
    omega

end Expr

/-- What the height of an expression is compared with when its chains have at most `w` operators. Inside a chain
the operators that are chained so far count, too. -/
def Rank.heightBound (n w : Nat) : Rank → Expr → Nat
  | .whole, _ => n * (6 * w + 1)
  | .within [], _ => n * (6 * w + 1) + 1
  | .within (level :: levels), e => n * (6 * w + 1) + 1 + levels.length * w + e.chained level

/-- As an operand, whatever its first operator is, an expression is no higher than one chain of each level allows. -/
theorem Rank.heightBound_within_le {n w : Nat} {levels : List Level} {e : Expr} (hw : e.longestChain ≤ w) :
    Rank.heightBound n w (.within levels) e ≤ n * (6 * w + 1) + 1 + levels.length * w := by
  cases levels with
  | nil => simp [heightBound]
  | cons level levels =>
    have hchained := e.chained_le_longestChain level
    have hlength : (levels.length + 1) * w = levels.length * w + w := Nat.succ_mul _ _
    rw [heightBound, List.length_cons, hlength]
    omega

/-- An expression is at most as high as its nesting and the longest of its chains allow. -/
theorem ExprBuilt.height_le {given : Token → Prop} {n w : Nat} {rank : Rank} {e : Expr}
    (h : ExprBuilt given n rank e) (hw : e.longestChain ≤ w) : e.height ≤ rank.heightBound n w e := by
  have hdeeper : ∀ n, (n + 1) * (6 * w + 1) = n * (6 * w + 1) + (6 * w + 1) := fun n => Nat.succ_mul n _
  induction h with
  | literal => simp [Expr.height, Rank.heightBound]
  | var => simp [Expr.height, Rank.heightBound]
  | group _ _ _ ih =>
    have hinner := ih hw
    rw [Rank.heightBound] at hinner
    rw [Expr.height, Rank.heightBound]
    omega
  | unary _ _ _ ih =>
    have hoperand := ih hw
    rw [Rank.heightBound] at hoperand
    rw [Expr.height, Rank.heightBound, hdeeper]
    omega
  | @operand n level levels e _ ih =>
    have hoperand := ih hw
    have hbound := @Rank.heightBound_within_le n w levels e hw
    rw [Rank.heightBound]
    omega
  | @joined n levels sign op left right _ _ _ _ ihleft ihright =>
    rw [Expr.longestChain_join] at hw
    have hleft := ihleft (by omega)
    have hright := ihright (by omega)
    have hbound := @Rank.heightBound_within_le n w levels right (by omega)
    rw [Rank.heightBound] at hleft
    rw [Expr.height_join, Rank.heightBound, Expr.chained_join]
    omega
  | @plain n e _ ih =>
    have hoperand := ih hw
    have hbound := @Rank.heightBound_within_le n w Level.all e hw
    have hlevels : Level.all.length = 6 := rfl
    rw [hlevels] at hbound
    rw [Rank.heightBound, hdeeper]
    omega
  | assign _ _ _ ih =>
    have hvalue := ih hw
    rw [Rank.heightBound] at hvalue
    rw [Expr.height, Rank.heightBound, hdeeper]
    omega

/-! ### Statements -/

mutual

/-- The greatest value that an expression in the statement has, when each statement around it costs extra. -/
def Stmt.extent (cost : Nat) (value : Expr → Nat) : Stmt → Nat
  | .expression e => value e + cost
  | .print e => value e + cost
  | .declare _ none => cost
  | .declare _ (some e) => value e + cost
  | .block slots => Stmt.extentOfSlots cost value slots + cost
  | .branch condition yes none => max (value condition) (yes.extent cost value) + cost
  | .branch condition yes (some no) =>
    max (value condition) (max (yes.extent cost value) (no.extent cost value)) + cost
  | .loop condition body => max (value condition) (body.extent cost value) + cost
termination_by structural s => s

def Stmt.extentOfSlots (cost : Nat) (value : Expr → Nat) : List (Option Stmt) → Nat
  | [] => 0
  | none :: rest => Stmt.extentOfSlots cost value rest
  | some s :: rest => max (s.extent cost value) (Stmt.extentOfSlots cost value rest)
termination_by structural slots => slots

end

namespace Stmt

def height (s : Stmt) : Nat :=
  s.extent 1 Expr.height

/-- The number of operators in the longest chain of one level, in any expression of the statement. -/
def longestChain (s : Stmt) : Nat :=
  s.extent 0 Expr.longestChain

variable {cost : Nat} {value : Expr → Nat}

theorem extent_declare {name : Token} {init : Option Expr} :
    (declare name init).extent cost value = init.elim 0 value + cost := by
  cases init <;> simp [extent]

theorem extent_branch {condition : Expr} {yes : Stmt} {no : Option Stmt} :
    (branch condition yes no).extent cost value
      = max (value condition) (max (yes.extent cost value) (no.elim 0 (extent cost value))) + cost := by
  cases no <;> simp [extent]

theorem extentOfSlots_le_iff {slots : List Slot} {bound : Nat} :
    extentOfSlots cost value slots ≤ bound ↔ ∀ s, some s ∈ slots → s.extent cost value ≤ bound := by
  induction slots with
  | nil => simp [extentOfSlots]
  | cons slot slots ih =>
    cases slot with
    | none => simp [extentOfSlots, ih]
    | some s =>
      rw [extentOfSlots, Nat.max_le, ih]
      simp

/-- A greater value and a greater cost give a greater extent. -/
theorem extent_mono {cost cost' : Nat} {value value' : Expr → Nat} (hcost : cost ≤ cost')
    (hvalue : ∀ e, value e ≤ value' e) (s : Stmt) : s.extent cost value ≤ s.extent cost' value' := by
  induction s using Stmt.induction with
  | expression e =>
    have he := hvalue e
    rw [extent, extent]
    omega
  | print e =>
    have he := hvalue e
    rw [extent, extent]
    omega
  | declare name init =>
    have hinit : init.elim 0 value ≤ init.elim 0 value' := by
      cases init with
      | none => exact Nat.le_refl 0
      | some e => exact hvalue e
    rw [extent_declare, extent_declare]
    omega
  | block slots ih =>
    have hslots : extentOfSlots cost value slots ≤ extentOfSlots cost' value' slots := by
      apply extentOfSlots_le_iff.2
      intro s hs
      exact (ih s hs).trans (extentOfSlots_le_iff.1 (Nat.le_refl _) s hs)
    rw [extent, extent]
    omega
  | branch condition yes no ihyes ihno =>
    have hcondition := hvalue condition
    have hno : no.elim 0 (extent cost value) ≤ no.elim 0 (extent cost' value') := by
      cases no with
      | none => exact Nat.le_refl 0
      | some s => exact ihno s rfl
    rw [extent_branch, extent_branch]
    omega
  | loop condition body ih =>
    have hcondition := hvalue condition
    rw [extent, extent]
    omega

theorem longestChain_le_height (s : Stmt) : s.longestChain ≤ s.height :=
  extent_mono (Nat.zero_le 1) (fun e => Nat.le_of_lt e.longestChain_lt_height) s

/-- A for loop stands for up to three statements around its body. -/
theorem extent_forLoop {line : Nat} {init : Option Stmt} {condition increment : Option Expr} {body : Stmt} :
    (Rule.forLoop line init condition increment body).extent cost value
      = max (init.elim 0 (extent cost value))
          (max (value (condition.getD (.literal (.bool true) line)))
            (max (body.extent cost value) (increment.elim 0 fun e => value e + cost)
              + increment.elim 0 fun _ => cost)
            + cost)
        + init.elim 0 fun _ => cost := by
  cases init <;> cases increment <;> simp [Rule.forLoop, extent, extentOfSlots]

section ForLoop

variable {line : Nat} {init : Option Stmt} {condition increment : Option Expr} {body : Stmt}

theorem longestChain_forLoop_le {w : Nat} (h : (Rule.forLoop line init condition increment body).longestChain ≤ w) :
    (∀ s ∈ init, s.longestChain ≤ w) ∧ (∀ e ∈ condition, e.longestChain ≤ w)
      ∧ (∀ e ∈ increment, e.longestChain ≤ w) ∧ body.longestChain ≤ w := by
  rw [longestChain, extent_forLoop] at h
  refine ⟨?_, ?_, ?_, ?_⟩
  · rintro s rfl
    rw [Option.elim_some] at h
    rw [longestChain]
    omega
  · rintro e rfl
    rw [Option.getD_some] at h
    omega
  · rintro e rfl
    rw [Option.elim_some] at h
    omega
  · rw [longestChain]
    omega

/-- The increment stands in a statement of its own within the block around the body, the initializer beside the loop. -/
theorem height_forLoop_le {bound : Nat} (hinit : ∀ s ∈ init, s.height ≤ bound + 1)
    (hcondition : ∀ e ∈ condition, e.height ≤ bound) (hincrement : ∀ e ∈ increment, e.height + 1 ≤ bound)
    (hbody : body.height ≤ bound) : (Rule.forLoop line init condition increment body).height ≤ bound + 3 := by
  have honce : ∀ {α : Type} (a : Option α), (a.elim 0 fun _ => 1) ≤ 1 := by
    intro α a
    cases a <;> simp
  have hstarts : init.elim 0 (extent 1 Expr.height) ≤ bound + 1 := by
    cases init with
    | none => exact Nat.zero_le _
    | some s => exact hinit s rfl
  have htest : (condition.getD (.literal (.bool true) line)).height ≤ bound + 1 := by
    cases condition with
    | none => exact Nat.le_add_left _ _
    | some e => exact (hcondition e rfl).trans (Nat.le_succ _)
  have hstep : (increment.elim 0 fun e => e.height + 1) ≤ bound := by
    cases increment with
    | none => exact Nat.zero_le _
    | some e => exact hincrement e rfl
  have houter := honce init
  have hinner := honce increment
  rw [height] at hbody
  rw [height, extent_forLoop]
  omega

end ForLoop

end Stmt

/-- What the height of a statement is compared with when its chains have at most `w` operators. A declaration may
be a variable declaration, which opens no level of nesting of its own. -/
def Position.heightBound (n w : Nat) : Position → Nat
  | .declaration => n * (6 * w + 3) + 1
  | .statement _ => n * (6 * w + 3)

section

variable {given : Token → Prop} {n w : Nat}

theorem ExprBuilt.height_le_whole {e : Expr} (h : ExprBuilt given n .whole e) (hw : e.longestChain ≤ w) :
    e.height + 2 ≤ n * (6 * w + 3) := by
  have hle : e.height ≤ n * (6 * w + 1) := h.height_le hw
  have hpos := e.height_pos
  -- A whole expression takes up a level of nesting, which leaves two nodes to spare.
  have hn : 0 < n := by
    apply Nat.pos_of_ne_zero
    rintro rfl
    omega
  have hsplit : n * (6 * w + 3) = n * (6 * w + 1) + n * 2 := by
    rw [← Nat.mul_add]
  omega

theorem DeclareBuilt.height_le {s : Stmt} (h : DeclareBuilt given n s) (hw : s.longestChain ≤ w) :
    s.height ≤ n * (6 * w + 3) + 1 := by
  cases h with
  | @intro _ init _ _ hinit =>
    rw [Stmt.longestChain, Stmt.extent_declare] at hw
    rw [Stmt.height, Stmt.extent_declare]
    cases init with
    | none => exact Nat.le_add_left _ _
    | some e =>
      have he := (hinit e rfl).height_le_whole hw
      rw [Option.elim_some]
      omega

theorem InitBuilt.height_le {s : Stmt} (h : InitBuilt given n s) (hw : s.longestChain ≤ w) :
    s.height ≤ n * (6 * w + 3) + 1 := by
  cases h with
  | declared h => exact h.height_le hw
  | @plain e h =>
    have he := h.height_le_whole hw
    rw [Stmt.height, Stmt.extent]
    omega

/-- A statement is at most as high as its nesting and the longest of its chains allow. -/
theorem StmtBuilt.height_le {position : Position} {s : Stmt} (h : StmtBuilt given n position s)
    (hw : s.longestChain ≤ w) : s.height ≤ position.heightBound n w := by
  have hdeeper : ∀ n, (n + 1) * (6 * w + 3) = n * (6 * w + 3) + (6 * w + 3) := fun n => Nat.succ_mul n _
  induction h with
  | declare h => exact h.height_le hw
  | statement _ ih => exact (ih hw).trans (Nat.le_succ _)
  | expression h =>
    have he := h.height_le_whole hw
    rw [Stmt.height, Stmt.extent, Position.heightBound, hdeeper]
    omega
  | print h =>
    have he := h.height_le_whole hw
    rw [Stmt.height, Stmt.extent, Position.heightBound, hdeeper]
    omega
  | @block n _ slots _ ih =>
    have hslots : Stmt.extentOfSlots 1 Expr.height slots ≤ n * (6 * w + 3) + 1 := by
      apply Stmt.extentOfSlots_le_iff.2
      intro s hs
      exact ih s hs (Stmt.extentOfSlots_le_iff.1 hw s hs)
    rw [Stmt.height, Stmt.extent, Position.heightBound, hdeeper]
    omega
  | @ifThen _ condition _ hcondition _ ih =>
    rw [Stmt.longestChain, Stmt.extent_branch] at hw
    have hc := hcondition.height_le_whole (by omega : condition.longestChain ≤ w)
    have hyes := ih (by rw [Stmt.longestChain]; omega)
    rw [Stmt.height, Position.heightBound] at hyes
    rw [Stmt.height, Stmt.extent_branch, Position.heightBound, hdeeper, Option.elim_none]
    omega
  | @ifElse _ _ condition _ _ hcondition _ _ ihyes ihno =>
    rw [Stmt.longestChain, Stmt.extent_branch, Option.elim_some] at hw
    have hc := hcondition.height_le_whole (by omega : condition.longestChain ≤ w)
    have hyes := ihyes (by rw [Stmt.longestChain]; omega)
    have hno := ihno (by rw [Stmt.longestChain]; omega)
    rw [Stmt.height, Position.heightBound] at hyes hno
    rw [Stmt.height, Stmt.extent_branch, Position.heightBound, hdeeper, Option.elim_some]
    omega
  | @«while» _ _ condition _ hcondition _ ih =>
    rw [Stmt.longestChain, Stmt.extent] at hw
    have hc := hcondition.height_le_whole (by omega : condition.longestChain ≤ w)
    have hbody := ih (by rw [Stmt.longestChain]; omega)
    rw [Stmt.height, Position.heightBound] at hbody
    rw [Stmt.height, Stmt.extent, Position.heightBound, hdeeper]
    omega
  | @«for» n _ keyword init condition increment body _ _ hinit hcondition hincrement _ ih =>
    obtain ⟨hwinit, hwcondition, hwincrement, hwbody⟩ := Stmt.longestChain_forLoop_le hw
    have hloop : (Rule.forLoop keyword.line init condition increment body).height ≤ n * (6 * w + 3) + 3 := by
      refine Stmt.height_forLoop_le ?_ ?_ ?_ (ih hwbody)
      · intro s hs
        exact (hinit s hs).height_le (hwinit s hs)
      · intro e he
        have hle := (hcondition e he).height_le_whole (hwcondition e he)
        omega
      · intro e he
        have hle := (hincrement e he).height_le_whole (hwincrement e he)
        omega
    rw [Position.heightBound, hdeeper]
    omega

end

/-- Whatever is parsed, errors or not, the longest chain of operators bounds the height of a statement from below,
and together with the limit on nesting it bounds the height from above. -/
theorem height_le_of_parse {tokens : List Token} {s : Stmt} (h : some s ∈ (parse tokens).slots) :
    s.longestChain ≤ s.height ∧ s.height ≤ Rule.maxNesting * (6 * s.longestChain + 3) + 1 := by
  have hbuilt := built_of_parse h
  exact ⟨s.longestChain_le_height, hbuilt.height_le (Nat.le_refl _)⟩

/-- The statement after a broken one is measured as well. -/
theorem height_le_of_parse_after_hole :
    ∃ s, some s ∈ (parse (scan "print 1 2; { x = 1 + 2 - 3 * -4; }").tokens).slots
      ∧ s.longestChain = 2 ∧ s.height = 7 ∧ s.height ≤ Rule.maxNesting * (6 * 2 + 3) + 1 := by
  have hany : (parse (scan "print 1 2; { x = 1 + 2 - 3 * -4; }").tokens).slots.any
      (fun slot => slot.any fun s => s.longestChain == 2 && s.height == 7) := by
    decide +kernel
  obtain ⟨slot, hslot, hs⟩ := List.any_eq_true.1 hany
  obtain ⟨s, rfl, hmeasures⟩ := (Option.any_eq_true _ _).1 hs
  rw [Bool.and_eq_true, beq_iff_eq, beq_iff_eq] at hmeasures
  obtain ⟨hchain, hheight⟩ := hmeasures
  have hle := (height_le_of_parse hslot).2
  rw [hchain] at hle
  exact ⟨s, hslot, hchain, hheight, hle⟩

/-! ### Long chains -/

/-- Every operator of a chain makes the tree higher by one. -/
theorem Operation.height_foldl_apply (operations : List Operation) (first : Expr) :
    first.height + operations.length ≤ (operations.foldl Operation.apply first).height := by
  induction operations generalizing first with
  | nil => exact Nat.le_refl _
  | cons o operations ih =>
    have hrest := ih (o.apply first)
    have hjoin : (o.apply first).height = max first.height o.right.height + 1 := Expr.height_join _ _ _ _
    rw [List.foldl_cons, List.length_cons]
    omega

namespace LongSum

def operand : Token :=
  ⟨.kwNil, "nil", none, 1⟩

def operation : Operation :=
  ⟨⟨.plus, "+", none, 1⟩, .binary .add, [operand], .literal .nil 1⟩

/-- The operand with `+ nil` behind it so many times. -/
def text (count : Nat) : List Token :=
  [operand] ++ (List.replicate count operation).flatMap Operation.text

def tree (count : Nat) : Expr :=
  (List.replicate count operation).foldl Operation.apply (.literal .nil 1)

/-- However long the sum is, it takes up a single level of nesting. -/
theorem exprForm (n count : Nat) : ExprForm (n + 1) .whole (text count) (tree count) := by
  have hoperand : ExprForm n (.within [.factor]) [operand] (.literal .nil 1) :=
    (ExprForm.literal rfl).weaken
  have hterm : ExprForm n (.within [.term, .factor]) (text count) (tree count) := by
    apply ExprForm.chain hoperand
    · intro o ho
      rw [List.eq_of_mem_replicate ho]
      rfl
    · intro o ho
      rw [List.eq_of_mem_replicate ho]
      exact hoperand
  exact .plain hterm.weaken.weaken.weaken.weaken

def program (count : Nat) : List Token :=
  text count ++ [⟨.semicolon, ";", none, 1⟩]

theorem kind_ne_eof {count : Nat} {t : Token} (ht : t ∈ program count) : t.kind ≠ .eof := by
  rw [program, text, List.mem_append, List.mem_append, List.mem_singleton, List.mem_singleton] at ht
  rcases ht with (rfl | hmem) | rfl
  · decide
  · obtain ⟨o, ho, hmem⟩ := List.mem_flatMap.1 hmem
    obtain rfl := List.eq_of_mem_replicate ho
    have hkinds : ∀ t ∈ operation.text, t.kind ≠ .eof := by decide
    exact hkinds t hmem
  · decide

theorem parse_program (count : Nat) : parse (program count) = ⟨[some (.expression (tree count))], []⟩ := by
  have hend : beforeEnd (program count) = program count := by
    apply List.takeWhile_eq_self_iff.2
    intro t ht
    exact bne_iff_ne.2 (kind_ne_eof ht)
  have hform : StmtForm Rule.maxNesting .declaration (program count) (.expression (tree count)) :=
    .statement (.expression (exprForm _ count) rfl)
  rw [parse_eq_iff, hend]
  refine ⟨[(program count, .expression (tree count))], by simp, rfl, ?_⟩
  intro part hpart
  obtain rfl := List.mem_singleton.1 hpart
  exact hform

end LongSum

/-- The limit on nesting alone bounds no height: there are programs, parsed without errors, with statements higher
than any given bound. -/
theorem height_unbounded :
    ¬ ∃ bound, ∀ tokens s, (parse tokens).errors = [] → some s ∈ (parse tokens).slots → s.height ≤ bound := by
  intro hbounded
  obtain ⟨bound, hbound⟩ := hbounded
  have hparse := LongSum.parse_program bound
  have hle := hbound (LongSum.program bound) (.expression (LongSum.tree bound)) (by rw [hparse]) (by simp [hparse])
  have hlong := Operation.height_foldl_apply (List.replicate bound LongSum.operation) (.literal .nil 1)
  rw [List.length_replicate] at hlong
  rw [Stmt.height, Stmt.extent, LongSum.tree] at hle
  omega

end Lox

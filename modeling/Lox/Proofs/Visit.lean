import Lox.Proofs.Execution
/-!
# Watched execution

Execution that also tells, for each use of a name, at which place of the tree it is and in which environment
the name is used. It goes through a tree as execution does, and without what it tells it is execution
(`Stmt.outcome_watched`).

What is told is reasoned about by triples: from a state that meets a precondition every visit is of some kind,
and a state that is reached without an error meets a postcondition.
-/

namespace Lox

/-- A use of a name: its place in the tree, as the number of the child to go to on each level, and the
environment that the name is used in. -/
structure Visit where
  path : List Nat
  environment : Environment
deriving DecidableEq

/-- The visit, when the tree is the child with this number of another one. -/
def Visit.below (i : Nat) (visit : Visit) : Visit :=
  { visit with path := i :: visit.path }

/-- A computation and the visits that it makes, in order, on its way from a state. -/
structure Watched (ε σ α : Type) where
  visits : σ → List Visit
  outcome : EStateM ε σ α

namespace Watched

variable {ε σ α β : Type}

def quiet (x : EStateM ε σ α) : Watched ε σ α where
  visits _ := []
  outcome := x

instance : Monad (Watched ε σ) where
  pure a := quiet (pure a)
  bind x f :=
    { visits := fun state => x.visits state ++ match x.outcome state with
        | .ok a state => (f a).visits state
        | .error _ _ => []
      outcome := x.outcome >>= fun a => (f a).outcome }

/-- A computation on the child with this number. -/
def within (i : Nat) (x : Watched ε σ α) : Watched ε σ α where
  visits state := (x.visits state).map (Visit.below i)
  outcome := x.outcome

/-- Makes a visit to the root of the tree. -/
def visit : Watched RuntimeError Environment Unit where
  visits env := [⟨[], env⟩]
  outcome := pure ()

def onEnvironment (x : Watched RuntimeError Environment α) : Watched Halt Machine α where
  visits machine := x.visits machine.environment
  outcome := Execution.onEnvironment x.outcome

def inScope (x : Watched Halt Machine α) : Watched Halt Machine α where
  visits machine := x.visits { machine with environment := machine.environment.push }
  outcome := Execution.inScope x.outcome

def repeatWhile (test : Watched Halt Machine Bool) (body : Watched Halt Machine Unit) :
    Nat → Watched Halt Machine Unit
  | 0 => quiet (throw .exhausted)
  | rounds + 1 => do
    if ← test then
      body
      repeatWhile test body rounds

end Watched

/-! ### The visits of expressions and statements -/

namespace Expr

/-- Evaluates an expression. An assignment is visited when it is come to, and again when its value is there. -/
def watched : Expr → Watched RuntimeError Environment Value
  | literal value _ => pure value
  | group inner _ => .within 0 inner.watched
  | unary op right line => do
    let right ← .within 0 right.watched
    .quiet (Evaluation.ofExcept (op.apply line right))
  | binary left op right line => do
    let left ← .within 0 left.watched
    let right ← .within 1 right.watched
    .quiet (Evaluation.ofExcept (op.apply line left right))
  | logical left op right _ => do
    let left ← .within 0 left.watched
    if op.decides left then pure left else .within 1 right.watched
  | var name => do
    .visit
    .quiet (Evaluation.get name)
  | assign name value => do
    .visit
    let value ← .within 0 value.watched
    .visit
    .quiet (Evaluation.assign name value)
    pure value

/-- Evaluates an expression that is the first child of a statement. -/
def watchedRun (e : Expr) : Watched Halt Machine Value :=
  .within 0 (.onEnvironment e.watched)

def watchedTest (e : Expr) : Watched Halt Machine Bool := do
  let value ← e.watchedRun
  pure value.truthy

end Expr

namespace Stmt

def watchedInitial : Option Expr → Watched Halt Machine Value
  | none => pure .nil
  | some e => e.watchedRun

mutual

def watched (limit : Nat) : Stmt → Watched Halt Machine Unit
  | .expression e => do
    let _ ← e.watchedRun
    pure ()
  | .print e => do
    let value ← e.watchedRun
    .quiet (Execution.printLine value.text)
  | .declare name init => do
    let value ← watchedInitial init
    .quiet (Execution.onEnvironment (.define name value))
  | .block slots => .inScope (watchedSlots limit 0 slots)
  | .branch condition yes none => do
    if ← condition.watchedTest then .within 1 (watched limit yes)
  | .branch condition yes (some no) => do
    if ← condition.watchedTest then .within 1 (watched limit yes) else .within 2 (watched limit no)
  | .loop condition body => .repeatWhile condition.watchedTest (.within 1 (watched limit body)) limit
termination_by structural s => s

/-- Executes the statements of a list in order. The first one is the child with the given number. -/
def watchedSlots (limit : Nat) : Nat → List (Option Stmt) → Watched Halt Machine Unit
  | _, [] => pure ()
  | i, none :: rest => watchedSlots limit (i + 1) rest
  | i, some s :: rest => do
    .within i (watched limit s)
    watchedSlots limit (i + 1) rest
termination_by structural _ slots => slots

end

end Stmt

/-! ### Without the visits -/

namespace Watched

variable {ε σ α β : Type}

theorem outcome_bind (x : Watched ε σ α) (f : α → Watched ε σ β) :
    (x >>= f).outcome = x.outcome >>= fun a => (f a).outcome := rfl

theorem mem_visits_bind {x : Watched ε σ α} {f : α → Watched ε σ β} {state : σ} {visit : Visit} :
    visit ∈ (x >>= f).visits state
      ↔ visit ∈ x.visits state ∨ ∃ a next, x.outcome state = .ok a next ∧ visit ∈ (f a).visits next := by
  have hvisits : (x >>= f).visits state = x.visits state ++ match x.outcome state with
      | .ok a state => (f a).visits state
      | .error _ _ => [] := rfl
  rw [hvisits, List.mem_append]
  cases x.outcome state <;> simp [and_assoc]

theorem outcome_repeatWhile (test : Watched Halt Machine Bool) (body : Watched Halt Machine Unit) (rounds : Nat) :
    (repeatWhile test body rounds).outcome = Execution.repeatWhile test.outcome body.outcome rounds := by
  induction rounds with
  | zero => rfl
  | succ rounds ih =>
    rw [repeatWhile, Execution.repeatWhile, outcome_bind]
    congr 1
    funext holds
    cases holds with
    | false => rfl
    | true => rw [if_pos rfl, if_pos rfl, outcome_bind, ih]

end Watched

theorem Expr.outcome_watched (e : Expr) : e.watched.outcome = e.eval := by
  induction e with
  | literal value line => rfl
  | group inner line ih => exact ih
  | unary op right line ih =>
    rw [watched, Watched.outcome_bind, Watched.within, ih]
    rfl
  | binary left op right line ihleft ihright =>
    simp only [watched, Watched.outcome_bind, Watched.within, ihleft, ihright]
    rfl
  | logical left op right line ihleft ihright =>
    simp only [watched, Watched.outcome_bind, Watched.within, ihleft, eval]
    congr 1
    funext value
    split
    · rfl
    · exact ihright
  | var name => rfl
  | assign name value ih =>
    simp only [watched, Watched.outcome_bind, Watched.within, ih]
    rfl

theorem Expr.outcome_watchedRun (e : Expr) : e.watchedRun.outcome = e.run :=
  congrArg Execution.onEnvironment e.outcome_watched

theorem Expr.outcome_watchedTest (e : Expr) : e.watchedTest.outcome = e.test := by
  rw [watchedTest, Watched.outcome_bind, outcome_watchedRun]
  rfl

namespace Stmt

variable {limit : Nat}

theorem watched_branch (condition : Expr) (yes : Stmt) (no : Option Stmt) : watched limit (.branch condition yes no)
    = condition.watchedTest >>= fun holds =>
      if holds then .within 1 (watched limit yes) else no.elim (pure ()) fun no => .within 2 (watched limit no) := by
  cases no <;> rw [watched] <;> rfl

theorem outcome_watchedSlots_of_mem {slots : List Slot}
    (h : ∀ s, some s ∈ slots → (watched limit s).outcome = exec limit s) (i : Nat) :
    (watchedSlots limit i slots).outcome = execSlots limit slots := by
  induction slots generalizing i with
  | nil =>
    rw [watchedSlots, execSlots_nil]
    rfl
  | cons slot slots ih =>
    have hrest := ih fun s hs => h s (List.mem_cons_of_mem _ hs)
    cases slot with
    | none => rw [watchedSlots, execSlots_none, hrest]
    | some s =>
      rw [watchedSlots, execSlots_some, Watched.outcome_bind, Watched.within, h s List.mem_cons_self]
      simp only [hrest]

theorem outcome_watched (limit : Nat) (s : Stmt) : (watched limit s).outcome = exec limit s := by
  induction s using Stmt.induction with
  | expression e =>
    rw [watched, exec_expression, Watched.outcome_bind, Expr.outcome_watchedRun]
    rfl
  | print e =>
    rw [watched, exec_print, Watched.outcome_bind, Expr.outcome_watchedRun]
    rfl
  | declare name init =>
    have hinit : (watchedInitial init).outcome = initialValue init := by
      cases init with
      | none => rfl
      | some e => exact e.outcome_watchedRun
    rw [watched, exec_declare, Watched.outcome_bind, hinit]
    rfl
  | block slots ih =>
    rw [watched, exec_block, Watched.inScope, outcome_watchedSlots_of_mem ih]
  | branch condition yes no ihyes ihno =>
    rw [watched_branch, exec_branch, Watched.outcome_bind, Expr.outcome_watchedTest]
    congr 1
    funext holds
    cases holds with
    | true => exact ihyes
    | false =>
      cases no with
      | none => rfl
      | some no => exact ihno no rfl
  | loop condition body ih =>
    rw [watched, exec_loop, Watched.outcome_repeatWhile, Expr.outcome_watchedTest, Watched.within, ih]

/-- Watching statements does not change what they do. -/
theorem outcome_watchedSlots (limit i : Nat) (slots : List Slot) :
    (watchedSlots limit i slots).outcome = execSlots limit slots :=
  outcome_watchedSlots_of_mem (fun s _ => outcome_watched limit s) i

end Stmt

/-! ### What is seen on the way -/

namespace Watched

variable {ε σ α β : Type}

/-- From a state that meets `pre`, every visit is fine, and an end without an error meets `post`. -/
def Sees (pre : σ → Prop) (x : Watched ε σ α) (post : σ → Prop) (fine : Visit → Prop) : Prop :=
  ∀ state, pre state → (∀ visit ∈ x.visits state, fine visit)
    ∧ ∀ a after, x.outcome state = .ok a after → post after

variable {pre mid post : σ → Prop} {fine : Visit → Prop}

theorem Sees.quiet {x : EStateM ε σ α} (h : ∀ state a after, pre state → x state = .ok a after → post after) :
    Sees pre (quiet x) post fine := by
  intro state hstate
  exact ⟨by simp [Watched.quiet], fun a after => h state a after hstate⟩

theorem Sees.pure (a : α) : Sees pre (pure a : Watched ε σ α) pre fine := by
  refine .quiet ?_
  rintro state _ _ hstate ⟨⟩
  exact hstate

theorem Sees.bind {x : Watched ε σ α} {f : α → Watched ε σ β} (hx : Sees pre x mid fine)
    (hf : ∀ a, Sees mid (f a) post fine) : Sees pre (x >>= f) post fine := by
  intro state hstate
  obtain ⟨hvisits, hmid⟩ := hx state hstate
  refine ⟨?_, ?_⟩
  · intro visit hvisit
    rcases mem_visits_bind.1 hvisit with hvisit | ⟨a, next, hnext, hvisit⟩
    · exact hvisits visit hvisit
    · exact (hf a next (hmid a next hnext)).1 visit hvisit
  · intro b last hlast
    obtain ⟨a, next, hnext, hlast⟩ := bind_eq_ok_iff.1 hlast
    exact (hf a next (hmid a next hnext)).2 b last hlast

theorem Sees.within {x : Watched ε σ α} {i : Nat} (h : Sees pre x post fun visit => fine (visit.below i)) :
    Sees pre (within i x) post fine := by
  intro state hstate
  obtain ⟨hvisits, hpost⟩ := h state hstate
  refine ⟨?_, hpost⟩
  intro visit hvisit
  obtain ⟨visit, hmem, rfl⟩ := List.mem_map.1 hvisit
  exact hvisits visit hmem

theorem Sees.imp {fine' : Visit → Prop} {x : Watched ε σ α} (h : Sees pre x post fine)
    (himp : ∀ visit, fine visit → fine' visit) : Sees pre x post fine' :=
  fun state hstate => ⟨fun visit hvisit => himp visit ((h state hstate).1 visit hvisit), (h state hstate).2⟩

theorem Sees.repeatWhile {pre : Machine → Prop} {test : Watched Halt Machine Bool} {body : Watched Halt Machine Unit}
    (htest : Sees pre test pre fine) (hbody : Sees pre body pre fine) (rounds : Nat) :
    Sees pre (repeatWhile test body rounds) pre fine := by
  induction rounds with
  | zero => exact .quiet nofun
  | succ rounds ih =>
    refine htest.bind fun holds => ?_
    cases holds with
    | false => exact .pure ()
    | true => exact hbody.bind fun _ => ih

end Watched

end Lox

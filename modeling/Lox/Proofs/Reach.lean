import Lox.Proofs.Visit
/-!
# Reached places

What execution comes to on its way through a program, said by what is executed before: a child of a node is entered
in the state that the children before it lead to. A place is reached along its path, one child after the other.
The visits that watched execution tells of are the uses of names at the places that are reached, and all of them.
-/

namespace Lox

/-! ### Places in a program -/

/-- A part of a program, or all of it. -/
inductive Node where
  | program (slots : List Slot)
  | statement (s : Stmt)
  | expression (e : Expr)

namespace Node

def child : Node → Nat → Option Node
  | program slots, i => slots[i]?.join.map statement
  | statement (.expression e), 0 => some (expression e)
  | statement (.print e), 0 => some (expression e)
  | statement (.declare _ init), 0 => init.map expression
  | statement (.block slots), i => slots[i]?.join.map statement
  | statement (.branch condition _ _), 0 => some (expression condition)
  | statement (.branch _ yes _), 1 => some (statement yes)
  | statement (.branch _ _ no), 2 => no.map statement
  | statement (.loop condition _), 0 => some (expression condition)
  | statement (.loop _ body), 1 => some (statement body)
  | expression (.group inner _), 0 => some (expression inner)
  | expression (.unary _ right _), 0 => some (expression right)
  | expression (.binary left _ _ _), 0 => some (expression left)
  | expression (.binary _ _ right _), 1 => some (expression right)
  | expression (.logical left _ _ _), 0 => some (expression left)
  | expression (.logical _ _ right _), 1 => some (expression right)
  | expression (.assign _ value), 0 => some (expression value)
  | _, _ => none

def part (node : Node) : List Nat → Option Node
  | [] => some node
  | i :: path => (node.child i).bind (part · path)

end Node

/-! ### Entering and reaching -/

/-- A number of rounds of a loop leads from one machine to another, each with a test that holds. -/
inductive Execution.Rounds (test : Execution Bool) (body : Execution Unit) : Nat → Machine → Machine → Prop where
  | none (machine : Machine) : Rounds test body 0 machine machine
  | more {n : Nat} {machine tested next last : Machine} : test machine = .ok true tested → body tested = .ok () next →
      Rounds test body n next last → Rounds test body (n + 1) machine last

namespace Node

/-- Execution of the node from one machine enters the child with the given number on the other. A first child that is
not listed is entered at once. -/
def Enters (limit : Nat) (machine next : Machine) : Node → Nat → Prop
  | program slots, i => Stmt.execSlots limit (slots.take i) machine = .ok () next
  | statement (.block slots), i =>
    Stmt.execSlots limit (slots.take i) { machine with environment := machine.environment.push } = .ok () next
  | statement (.branch condition _ _), 1 => condition.test machine = .ok true next
  | statement (.branch condition _ _), 2 => condition.test machine = .ok false next
  | statement (.loop condition body), 0 =>
    ∃ n < limit, Execution.Rounds condition.test (Stmt.exec limit body) n machine next
  | statement (.loop condition body), 1 =>
    ∃ n < limit, ∃ before, Execution.Rounds condition.test (Stmt.exec limit body) n machine before
      ∧ condition.test before = .ok true next
  | expression (.binary left _ _ _), 1 => ∃ value, left.run machine = .ok value next
  | expression (.logical left op _ _), 1 => ∃ value, left.run machine = .ok value next ∧ ¬ op.decides value
  | _, _ => next = machine

/-- Execution of the node from the first machine comes to the part at the end of the path on the last one. -/
def Reaches (limit : Nat) : Node → Machine → List Nat → Node → Machine → Prop
  | node, machine, [], part, last => part = node ∧ last = machine
  | node, machine, i :: path, part, last => ∃ child, node.child i = some child
    ∧ ∃ next, node.Enters limit machine next i ∧ Reaches limit child next path part last

/-- Coming to the node on the machine, a name is used in the environment: a variable is read, or a value is assigned,
for which the name is looked at when the assignment is come to and when the value is there. -/
inductive UsesIn (machine : Machine) : Node → Environment → Prop where
  | read (name : Token) : UsesIn machine (expression (.var name)) machine.environment
  | target (name : Token) (value : Expr) : UsesIn machine (expression (.assign name value)) machine.environment
  | assign (name : Token) {value : Expr} {result : Value} {last : Machine} : value.run machine = .ok result last →
      UsesIn machine (expression (.assign name value)) last.environment

/-- The visits that are told of when the node is executed. -/
def visits (limit : Nat) (machine : Machine) : Node → List Visit
  | program slots => (Stmt.watchedSlots limit 0 slots).visits machine
  | statement s => (Stmt.watched limit s).visits machine
  | expression e => e.watched.visits machine.environment

end Node

/-! ### The visits of computations -/

namespace Watched

variable {ε σ α β : Type} {visit : Visit}

theorem mem_visits_within {x : Watched ε σ α} {i : Nat} {state : σ} :
    visit ∈ (within i x).visits state ↔ ∃ inner ∈ x.visits state, inner.below i = visit :=
  List.mem_map

theorem mem_visits_visit {f : Unit → Watched RuntimeError Environment α} {env : Environment} :
    visit ∈ (Watched.visit >>= f).visits env
      ↔ visit.path = [] ∧ visit.environment = env ∨ visit ∈ (f ()).visits env := by
  have hroot : visit = ⟨[], env⟩ ↔ visit.path = [] ∧ visit.environment = env := by
    cases visit
    simp
  rw [← hroot]
  exact List.mem_cons

/-- What comes behind a computation on the environment, told on the machine. -/
theorem mem_visits_bind_on {x : Watched RuntimeError Environment α} {f : α → Watched RuntimeError Environment β}
    {machine : Machine} : visit ∈ (x >>= f).visits machine.environment
      ↔ visit ∈ x.visits machine.environment
        ∨ ∃ next a, Execution.onEnvironment x.outcome machine = .ok a next ∧ visit ∈ (f a).visits next.environment := by
  rw [mem_visits_bind, Execution.onEnvironment]
  cases x.outcome machine.environment with
  | ok a env =>
    simp only [EStateM.Result.ok.injEq]
    refine or_congr_right ⟨?_, ?_⟩
    · rintro ⟨_, _, ⟨rfl, rfl⟩, hvisit⟩
      exact ⟨_, _, ⟨rfl, rfl⟩, hvisit⟩
    · rintro ⟨_, _, ⟨rfl, rfl⟩, hvisit⟩
      exact ⟨_, _, ⟨rfl, rfl⟩, hvisit⟩
  | error e env => simp

theorem visits_pure (a : α) (state : σ) : (pure a : Watched ε σ α).visits state = [] :=
  rfl

theorem visits_quiet (x : EStateM ε σ α) (state : σ) : (quiet x).visits state = [] :=
  rfl

theorem mem_visits_repeatWhile {test : Watched Halt Machine Bool} {body : Watched Halt Machine Unit} {rounds : Nat}
    {machine : Machine} : visit ∈ (repeatWhile test body rounds).visits machine
      ↔ ∃ n < rounds, ∃ before, Execution.Rounds test.outcome body.outcome n machine before
        ∧ (visit ∈ test.visits before
          ∨ ∃ next, test.outcome before = .ok true next ∧ visit ∈ body.visits next) := by
  induction rounds generalizing machine with
  | zero => simp [repeatWhile, visits_quiet]
  | succ rounds ih =>
    rw [repeatWhile, mem_visits_bind]
    constructor
    · rintro (htest | ⟨holds, tested, hholds, hrest⟩)
      · exact ⟨0, by omega, machine, .none machine, .inl htest⟩
      · cases holds with
        | false => simp [visits_pure] at hrest
        | true =>
          rcases mem_visits_bind.1 hrest with hbody | ⟨_, next, hnext, hrest⟩
          · exact ⟨0, by omega, machine, .none machine, .inr ⟨tested, hholds, hbody⟩⟩
          · obtain ⟨n, hn, before, hrounds, hvisit⟩ := ih.1 hrest
            exact ⟨n + 1, by omega, before, .more hholds hnext hrounds, hvisit⟩
    · rintro ⟨n, hn, before, hrounds, hvisit⟩
      cases hrounds with
      | none =>
        rcases hvisit with htest | ⟨next, hholds, hbody⟩
        · exact .inl htest
        · exact .inr ⟨true, next, hholds, mem_visits_bind.2 (.inl hbody)⟩
      | more hholds hnext hrounds =>
        have hrest := ih.2 ⟨_, Nat.lt_of_succ_lt_succ hn, before, hrounds, hvisit⟩
        exact .inr ⟨true, _, hholds, mem_visits_bind.2 (.inr ⟨(), _, hnext, hrest⟩)⟩

end Watched

namespace Stmt

variable {limit : Nat} {visit : Visit}

/-- In a list, the statement at each place is executed after those before it. -/
theorem mem_visits_watchedSlots {slots : List Slot} {i : Nat} {machine : Machine} :
    visit ∈ (watchedSlots limit i slots).visits machine
      ↔ ∃ k s, slots[k]? = some (some s) ∧ ∃ next, execSlots limit (slots.take k) machine = .ok () next
        ∧ ∃ inner ∈ (watched limit s).visits next, inner.below (i + k) = visit := by
  induction slots generalizing i machine with
  | nil => simp [watchedSlots, Watched.visits_pure]
  | cons slot slots ih =>
    have hshift : ∀ k, i + 1 + k = i + (k + 1) := by omega
    cases slot with
    | none =>
      rw [watchedSlots, ih]
      refine Iff.trans ?_ Nat.or_exists_add_one
      simp [execSlots_none, hshift]
    | some s =>
      rw [watchedSlots, Watched.mem_visits_bind, Watched.mem_visits_within]
      refine Iff.trans ?_ Nat.or_exists_add_one
      refine or_congr ?_ ?_
      · rw [List.take_zero, execSlots_nil]
        constructor
        · intro hfirst
          exact ⟨s, rfl, machine, rfl, hfirst⟩
        · rintro ⟨_, ⟨⟩, _, ⟨⟩, hfirst⟩
          exact hfirst
      · simp only [ih, hshift, Watched.within, outcome_watched, List.take_succ_cons, execSlots_some, bind_eq_ok_iff]
        constructor
        · rintro ⟨_, after, hexec, k, t, hslot, next, hnext, hinner⟩
          exact ⟨k, t, hslot, next, ⟨_, after, hexec, hnext⟩, hinner⟩
        · rintro ⟨k, t, hslot, next, ⟨_, after, hexec, hnext⟩, hinner⟩
          exact ⟨_, after, hexec, k, t, hslot, next, hnext, hinner⟩

end Stmt

/-! ### One step of the way -/

namespace Node

variable {limit : Nat} {machine : Machine} {visit : Visit} {node : Node}

/-- The visit is told of in the child with the given number. -/
def TellsIn (limit : Nat) (machine : Machine) (node : Node) (visit : Visit) (i : Nat) : Prop :=
  ∃ child, node.child i = some child ∧ ∃ next, node.Enters limit machine next i
    ∧ ∃ inner ∈ child.visits limit next, inner.below i = visit

theorem exists_tellsIn (h : ∀ i, node.child (i + 3) = none) : (∃ i, node.TellsIn limit machine visit i)
    ↔ node.TellsIn limit machine visit 0 ∨ node.TellsIn limit machine visit 1 ∨ node.TellsIn limit machine visit 2 := by
  have hnot (i : Nat) : ¬ node.TellsIn limit machine visit (i + 3) := by
    rintro ⟨child, hchild, -⟩
    rw [h] at hchild
    simp at hchild
  constructor
  · rintro ⟨_ | _ | _ | i, htells⟩
    · exact .inl htells
    · exact .inr (.inl htells)
    · exact .inr (.inr htells)
    · exact absurd htells (hnot i)
  · rintro (htells | htells | htells) <;> exact ⟨_, htells⟩

theorem usesIn_iff {env : Environment} : node.UsesIn machine env
    ↔ (∃ name, node = expression (.var name) ∧ env = machine.environment)
      ∨ ∃ name value, node = expression (.assign name value) ∧ (env = machine.environment
        ∨ ∃ last result, value.run machine = .ok result last ∧ env = last.environment) := by
  constructor
  · rintro (⟨name⟩ | ⟨name, value⟩ | ⟨name, hvalue⟩)
    · exact .inl ⟨name, rfl, rfl⟩
    · exact .inr ⟨name, value, rfl, .inl rfl⟩
    · exact .inr ⟨name, _, rfl, .inr ⟨_, _, hvalue, rfl⟩⟩
  · rintro (⟨name, rfl, rfl⟩ | ⟨name, value, rfl, rfl | ⟨last, result, hvalue, rfl⟩⟩)
    · exact .read name
    · exact .target name value
    · exact .assign name hvalue

theorem usesIn_assign {name : Token} {value : Expr} {env : Environment} :
    UsesIn machine (expression (.assign name value)) env ↔ env = machine.environment
      ∨ ∃ last result, value.run machine = .ok result last ∧ env = last.environment := by
  simp [usesIn_iff, and_assoc]

end Node

namespace Expr

variable {limit : Nat} {machine : Machine} {visit : Visit}

theorem onEnvironment_within (e : Expr) (i : Nat) :
    Execution.onEnvironment (Watched.within i e.watched).outcome = e.run :=
  congrArg Execution.onEnvironment e.outcome_watched

theorem mem_visits_iff (e : Expr) : visit ∈ (Node.expression e).visits limit machine
    ↔ visit.path = [] ∧ (Node.expression e).UsesIn machine visit.environment
      ∨ ∃ i, (Node.expression e).TellsIn limit machine visit i := by
  rw [Node.visits, Node.exists_tellsIn (by cases e <;> exact fun _ => rfl)]
  cases e with
  | literal value line =>
    simp [Node.usesIn_iff, watched, Watched.visits_pure, Node.TellsIn, Node.child]
  | group inner line =>
    simp [Node.usesIn_iff, watched, Watched.mem_visits_within, Node.TellsIn, Node.child, Node.Enters, Node.visits]
  | unary op right line =>
    simp [Node.usesIn_iff, watched, Watched.mem_visits_bind_on, Watched.mem_visits_within, Watched.visits_quiet,
      Node.TellsIn, Node.child, Node.Enters, Node.visits]
  | binary left op right line =>
    simp [Node.usesIn_iff, watched, Watched.mem_visits_bind_on, Watched.mem_visits_within, Watched.visits_quiet,
      onEnvironment_within, Node.TellsIn, Node.child, Node.Enters, Node.visits]
  | logical left op right line =>
    have hright : (∃ next value, left.run machine = .ok value next
          ∧ visit ∈ (if op.decides value then pure value else Watched.within 1 right.watched).visits next.environment)
        ↔ ∃ next, (∃ value, left.run machine = .ok value next ∧ op.decides value = false)
          ∧ ∃ inner ∈ right.watched.visits next.environment, inner.below 1 = visit := by
      refine exists_congr fun next => ?_
      rw [← exists_and_right]
      refine exists_congr fun value => ?_
      cases op.decides value <;> simp [Watched.mem_visits_within, Watched.visits_pure]
    simp [Node.usesIn_iff, watched, Watched.mem_visits_bind_on, Watched.mem_visits_within, onEnvironment_within,
      hright, Node.TellsIn, Node.child, Node.Enters, Node.visits]
  | var name =>
    simp [watched, Watched.mem_visits_visit, Watched.visits_quiet, Node.usesIn_iff, Node.TellsIn, Node.child]
  | assign name value =>
    have huses : visit.path = [] ∧ Node.UsesIn machine (.expression (.assign name value)) visit.environment
        ↔ visit.path = [] ∧ visit.environment = machine.environment ∨ ∃ next,
          (∃ result, value.run machine = .ok result next) ∧ visit.path = [] ∧ visit.environment = next.environment := by
      rw [Node.usesIn_assign, and_or_left]
      simp [and_left_comm]
    simp [huses, watched, Watched.mem_visits_visit, Watched.mem_visits_bind_on, Watched.mem_visits_within,
      Watched.visits_quiet, Watched.visits_pure, onEnvironment_within, Node.TellsIn, Node.child, Node.Enters,
      Node.visits, or_assoc, or_comm]

theorem mem_visits_watchedRun {e : Expr} :
    visit ∈ e.watchedRun.visits machine ↔ ∃ inner ∈ e.watched.visits machine.environment, inner.below 0 = visit :=
  Watched.mem_visits_within

theorem mem_visits_watchedTest {e : Expr} :
    visit ∈ e.watchedTest.visits machine ↔ ∃ inner ∈ e.watched.visits machine.environment, inner.below 0 = visit := by
  rw [watchedTest, Watched.mem_visits_bind, mem_visits_watchedRun]
  simp [Watched.visits_pure]

end Expr

namespace Node

variable {limit : Nat} {machine start : Machine} {visit : Visit} {node : Node} {slots : List Slot}

/-- The children of a block and of a program are the statements of a list. -/
theorem mem_visits_slots (hchild : ∀ i, node.child i = slots[i]?.join.map statement)
    (henters : ∀ i next, node.Enters limit machine next i ↔ Stmt.execSlots limit (slots.take i) start = .ok () next) :
    visit ∈ (Stmt.watchedSlots limit 0 slots).visits start ↔ ∃ i, node.TellsIn limit machine visit i := by
  rw [Stmt.mem_visits_watchedSlots]
  refine exists_congr fun i => ?_
  rw [TellsIn, hchild, Nat.zero_add]
  simp only [henters]
  constructor
  · rintro ⟨s, hslot, next, hnext, hinner⟩
    exact ⟨statement s, by simp [hslot], next, hnext, hinner⟩
  · rintro ⟨child, hslot, next, hnext, hinner⟩
    obtain ⟨s, hs, rfl⟩ := Option.map_eq_some_iff.1 hslot
    exact ⟨s, Option.join_eq_some_iff.1 hs, next, hnext, hinner⟩

end Node

theorem Stmt.mem_visits_iff {limit : Nat} {machine : Machine} {visit : Visit} (s : Stmt) :
    visit ∈ (Node.statement s).visits limit machine ↔ ∃ i, (Node.statement s).TellsIn limit machine visit i := by
  rw [Node.visits]
  cases s with
  | expression e =>
    rw [Node.exists_tellsIn fun _ => rfl, watched, Watched.mem_visits_bind, Expr.mem_visits_watchedRun]
    simp [Watched.visits_pure, Node.TellsIn, Node.child, Node.Enters, Node.visits]
  | print e =>
    rw [Node.exists_tellsIn fun _ => rfl, watched, Watched.mem_visits_bind, Expr.mem_visits_watchedRun]
    simp [Watched.visits_quiet, Node.TellsIn, Node.child, Node.Enters, Node.visits]
  | declare name init =>
    rw [Node.exists_tellsIn fun _ => rfl, watched, Watched.mem_visits_bind]
    cases init with
    | none => simp [watchedInitial, Watched.visits_pure, Watched.visits_quiet, Node.TellsIn, Node.child]
    | some e =>
      rw [watchedInitial, Expr.mem_visits_watchedRun]
      simp [Watched.visits_quiet, Node.TellsIn, Node.child, Node.Enters, Node.visits]
  | block slots =>
    rw [watched]
    exact Node.mem_visits_slots (fun _ => rfl) fun _ _ => Iff.rfl
  | branch condition yes no =>
    rw [Node.exists_tellsIn fun _ => rfl, watched_branch, Watched.mem_visits_bind, Expr.mem_visits_watchedTest,
      Expr.outcome_watchedTest]
    cases no with
    | none =>
      simp [Watched.mem_visits_within, Watched.visits_pure, Node.TellsIn, Node.child, Node.Enters, Node.visits]
    | some no =>
      simp [Watched.mem_visits_within, Node.TellsIn, Node.child, Node.Enters, Node.visits, or_comm]
  | loop condition body =>
    have hbody : (Watched.within 1 (watched limit body)).outcome = exec limit body := outcome_watched limit body
    rw [Node.exists_tellsIn fun _ => rfl, watched, Watched.mem_visits_repeatWhile, hbody, Expr.outcome_watchedTest]
    constructor
    · rintro ⟨n, hn, before, hrounds, htest | ⟨next, hholds, hinner⟩⟩
      · exact .inl ⟨_, rfl, before, ⟨n, hn, hrounds⟩, Expr.mem_visits_watchedTest.1 htest⟩
      · exact .inr (.inl ⟨_, rfl, next, ⟨n, hn, before, hrounds, hholds⟩, Watched.mem_visits_within.1 hinner⟩)
    · rintro (⟨_, ⟨⟩, before, ⟨n, hn, hrounds⟩, hinner⟩
        | ⟨_, ⟨⟩, next, ⟨n, hn, before, hrounds, hholds⟩, hinner⟩ | ⟨_, ⟨⟩, -⟩)
      · exact ⟨n, hn, before, hrounds, .inl (Expr.mem_visits_watchedTest.2 hinner)⟩
      · exact ⟨n, hn, before, hrounds, .inr ⟨next, hholds, Watched.mem_visits_within.2 hinner⟩⟩

namespace Node

variable {limit : Nat} {machine : Machine} {env : Environment}

theorem mem_visits_step {visit : Visit} (node : Node) : visit ∈ node.visits limit machine
    ↔ visit.path = [] ∧ node.UsesIn machine visit.environment ∨ ∃ i, node.TellsIn limit machine visit i := by
  cases node with
  | program slots =>
    rw [or_iff_right (by simp [usesIn_iff])]
    exact mem_visits_slots (fun _ => rfl) fun _ _ => Iff.rfl
  | statement s =>
    rw [or_iff_right (by simp [usesIn_iff])]
    exact s.mem_visits_iff
  | expression e => exact e.mem_visits_iff

theorem not_tellsIn_nil {node : Node} {i : Nat} : ¬ node.TellsIn limit machine ⟨[], env⟩ i := by
  rintro ⟨child, hchild, next, henters, inner, hinner, heq⟩
  simp [Visit.below] at heq

theorem tellsIn_cons {node : Node} {i j : Nat} {path : List Nat} : node.TellsIn limit machine ⟨i :: path, env⟩ j
    ↔ j = i ∧ ∃ child, node.child i = some child ∧ ∃ next, node.Enters limit machine next i
      ∧ ⟨path, env⟩ ∈ child.visits limit next := by
  constructor
  · rintro ⟨child, hchild, next, henters, inner, hinner, heq⟩
    obtain ⟨hpath, rfl⟩ := Visit.mk.inj heq
    obtain ⟨rfl, rfl⟩ := List.cons.inj hpath
    exact ⟨rfl, child, hchild, next, henters, hinner⟩
  · rintro ⟨rfl, child, hchild, next, henters, hinner⟩
    exact ⟨child, hchild, next, henters, _, hinner, rfl⟩

/-- The visits are exactly the uses of names at the places that are reached. -/
theorem mem_visits_iff (node : Node) (path : List Nat) : ⟨path, env⟩ ∈ node.visits limit machine
    ↔ ∃ part last, node.Reaches limit machine path part last ∧ part.UsesIn last env := by
  -- The path gets shorter with every child that is entered, on another machine each time.
  induction path generalizing node machine with
  | nil =>
    rw [mem_visits_step, or_iff_left (fun ⟨_, h⟩ => not_tellsIn_nil h)]
    simp [Reaches, and_assoc]
  | cons i path ih =>
    rw [mem_visits_step, or_iff_right (by simp)]
    simp only [tellsIn_cons, exists_eq_left, ih, Reaches]
    constructor
    · rintro ⟨child, hchild, next, henters, part, last, hreaches, huses⟩
      exact ⟨part, last, ⟨child, hchild, next, henters, hreaches⟩, huses⟩
    · rintro ⟨part, last, ⟨child, hchild, next, henters, hreaches⟩, huses⟩
      exact ⟨child, hchild, next, henters, part, last, hreaches, huses⟩

end Node

end Lox

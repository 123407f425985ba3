import Lox.Proofs.Bindings
import Lox.Proofs.Leads
import Mathlib.Data.List.Forall2
/-!
# What a run leaves alone

Two frames of execution, both about the values that the scopes have for a name. Only an assignment to a name
changes a value that it has: declarations of the same name, in whatever blocks and loops, make new variables beside
the old ones. And an assignment changes the nearest value only, so a block that starts by declaring a name can do with
it what it likes without a trace in the scopes around the block.
-/

namespace Lox

open List (Forall₂)

/-! ### Values that stay -/

namespace Environment

variable {env after : Environment} {name x : String} {value : Value}

/-- Declaring a name puts a value where the innermost scope had none. -/
theorem values_define_self (h : env.define x value = .ok after) :
    ∃ rest, env.values x = none :: rest ∧ after.values x = some value :: rest := by
  obtain ⟨hnone, hvalues⟩ := values_of_define h
  refine ⟨(env.values x).tail, ?_, by rw [hvalues, if_pos rfl]⟩
  rw [values_eq] at hnone ⊢
  exact congrArg (· :: _) hnone

/-- Leaving a scope drops its value, and leaves those of the scopes around it. -/
theorem values_pop_of_cons {new : Option Value} {rest : List (Option Value)} (h : after.values x = new :: rest)
    (hrest : rest ≠ []) : after.pop.values x = rest := by
  rw [values_pop, h, if_neg, List.tail_cons]
  simpa using hrest

theorem values_ne_nil (env : Environment) (x : String) : env.values x ≠ [] := by
  simp [values_eq]

/-- Each scope has the value for the name that it had before, if it had one. -/
def Keeps (x : String) (before after : Environment) : Prop :=
  Forall₂ (fun old new : Scope => ∀ value, old.get? x = some value → new.get? x = some value) before.scopes after.scopes

theorem keeps_iff {before : Environment} : before.Keeps x after
    ↔ Forall₂ (fun old new => ∀ value, old = some value → new = some value) (before.values x) (after.values x) := by
  rw [values, values, List.forall₂_map_left_iff, List.forall₂_map_right_iff, Keeps]

theorem Keeps.of_values {before : Environment} (h : after.values x = before.values x) : before.Keeps x after := by
  rw [keeps_iff, h, List.forall₂_same]
  exact fun _ _ _ hold => hold

theorem Keeps.trans {first second third : Environment} (h : first.Keeps x second) (h' : second.Keeps x third) :
    first.Keeps x third := by
  rw [Keeps] at *
  generalize first.scopes = before at *
  generalize second.scopes = mid at h h'
  generalize third.scopes = last at h'
  induction h generalizing last with
  | nil => exact h'
  | cons hold _ ih =>
    cases h' with
    | cons hnew hrest => exact .cons (fun value hvalue => hnew value (hold value hvalue)) (ih _ hrest)

/-- A run that does not assign to a name keeps its values. -/
theorem frame_keeps (x : String) : Frame (· ≠ x) (Keeps x) where
  refl env := .of_values rfl
  trans := .trans
  assign hname h := .of_values (values_assign_of_ne h hname)
  define {env after name value} h := by
    by_cases hname : name = x
    · subst hname
      obtain ⟨rest, hbefore, hafter⟩ := values_define_self h
      rw [keeps_iff, hbefore, hafter]
      exact .cons (by simp) (List.forall₂_same.2 fun _ _ _ hold => hold)
    · exact .of_values (values_define_of_ne h hname)
  leave {env after} h := by
    rw [keeps_iff, values_push, List.forall₂_cons_left_iff] at h
    obtain ⟨new, rest, -, hrest, hafter⟩ := h
    have hne : rest ≠ [] := by
      intro hnil
      rw [hnil, List.forall₂_nil_right_iff] at hrest
      exact env.values_ne_nil x hrest
    rwa [keeps_iff, values_pop_of_cons hafter hne]

end Environment

/-- Only assignment changes existing values: a statement in which a name is not assigned to leaves every value that the
name has in any scope, however it ends and whatever it declares. -/
theorem exec_keeps_of_not_assigned (limit : Nat) (s : Stmt) (x : String) (hx : x ∉ s.assigned) (machine : Machine) :
    machine.environment.Keeps x (endState (Stmt.exec limit s machine)).environment := by
  refine (Environment.frame_keeps x).exec limit ?_ machine
  rintro name hname rfl
  exact hx hname

/-- Rounds of a loop that declare the name in a block, assign to another one, and end in a second declaration. -/
theorem exec_keeps_of_not_assigned_loop :
    let a : Token := ⟨.identifier, "a", none, 1⟩
    let b : Token := ⟨.identifier, "b", none, 1⟩
    let s : Stmt := .loop (.literal (.bool true) 1) (.block [some (.declare a (some (.var b))), none,
      some (.expression (.assign b (.unary .not (.var a) 1))), some (.branch (.var a) (.declare a none) none)])
    let before : Machine := { environment := ⟨[("a", .string "x")], [[("b", .nil), ("a", .nil)]]⟩ }
    let after : Machine := { environment := ⟨[("a", .string "x")], [[("b", .bool false), ("a", .nil)]]⟩ }
    "a" ∉ s.assigned ∧ Stmt.exec 9 s before = .error (.error (.alreadyDefined "a" 1)) after
      ∧ before.environment.Keeps "a" after.environment := by
  intro a b s before after
  have hassigned : "a" ∉ s.assigned := by decide
  have hexec : Stmt.exec 9 s before = .error (.error (.alreadyDefined "a" 1)) after := rfl
  have hkeeps := exec_keeps_of_not_assigned 9 s "a" hassigned before
  rw [hexec] at hkeeps
  exact ⟨hassigned, hexec, hkeeps⟩

/-! ### Values in the shelter of a nearer one -/

namespace Environment

/-- What a run can do to the values of a name: in front of the nearest one anything may be new, the nearest one may be
replaced, and all that are behind it stay. -/
inductive Sheltered : List (Option Value) → List (Option Value) → Prop where
  | nil : Sheltered [] []
  | nearest {old new : Value} {rest : List (Option Value)} : Sheltered (some old :: rest) (some new :: rest)
  | front {new : Option Value} {before after : List (Option Value)} : Sheltered before after →
      Sheltered (none :: before) (new :: after)

namespace Sheltered

theorem refl (values : List (Option Value)) : Sheltered values values := by
  induction values with
  | nil => exact .nil
  | cons first rest ih =>
    cases first with
    | none => exact .front ih
    | some value => exact .nearest

theorem trans {first second third : List (Option Value)} (h : Sheltered first second) (h' : Sheltered second third) :
    Sheltered first third := by
  induction h generalizing third with
  | nil => exact h'
  | nearest =>
    cases h' with
    | nearest => exact .nearest
  | front hrest ih =>
    -- A value that came up in front shelters what is behind it from now on.
    cases h' with
    | nearest => exact .front hrest
    | front hrest' => exact .front (ih hrest')

theorem overwrite (value : Value) (values : List (Option Value)) :
    Sheltered values (Environment.overwrite value values) := by
  induction values with
  | nil => exact .nil
  | cons first rest ih =>
    cases first with
    | none => exact .front ih
    | some old => exact .nearest

end Sheltered

variable {x : String}

/-- No run gets behind the nearest value of a name. -/
theorem frame_sheltered (x : String) :
    Frame (fun _ => True) fun before after => Sheltered (before.values x) (after.values x) where
  refl env := .refl _
  trans := .trans
  assign {env after name value} _ h := by
    by_cases hname : name = x
    · subst hname
      rw [values_of_assign h, if_pos rfl]
      exact .overwrite value _
    · rw [values_assign_of_ne h hname]
      exact .refl _
  define {env after name value} h := by
    by_cases hname : name = x
    · subst hname
      obtain ⟨rest, hbefore, hafter⟩ := values_define_self h
      rw [hbefore, hafter]
      exact .front (.refl rest)
    · rw [values_define_of_ne h hname]
      exact .refl _
  leave {env after} h := by
    rw [values_push] at h
    generalize hafter : after.values x = values at h
    cases h with
    | front hrest =>
      have hne := env.values_ne_nil x
      generalize env.values x = before at hrest hne
      rwa [values_pop_of_cons hafter]
      rintro rfl
      cases hrest
      exact hne rfl

end Environment

/-! ### Blocks -/

/-- Holes in front of the first statement do nothing. -/
theorem Stmt.execSlots_of_findSome? (limit : Nat) {slots : List Slot} {s : Stmt} (h : slots.findSome? id = some s) :
    ∃ rest, execSlots limit slots = exec limit s >>= fun _ => execSlots limit rest := by
  induction slots with
  | nil => simp at h
  | cons slot slots ih =>
    cases slot with
    | none =>
      rw [execSlots_none]
      exact ih h
    | some first =>
      obtain rfl : first = s := by simpa using h
      exact ⟨slots, execSlots_some first slots⟩

/-- Evaluating an expression in which a name is not assigned to changes none of its values, and adds none. -/
theorem Expr.values_eval {e : Expr} {x : String} (hx : x ∉ e.assigned) (env : Environment) :
    (endState (e.eval env)).values x = env.values x := by
  have hframe : Environment.EvalFrame (· ≠ x) fun before after => after.values x = before.values x := {
    refl := fun _ => rfl
    trans := fun h h' => h'.trans h
    assign := fun hname h => Environment.values_assign_of_ne h hname }
  refine hframe.leads_eval ?_ env
  rintro name hname rfl
  exact hx hname

namespace Stmt

variable {name : Token} {init : Option Expr}

theorem values_initialValue {x : String} (hinit : ∀ e ∈ init, x ∉ e.assigned) (machine : Machine) :
    (endState (initialValue init machine)).environment.values x = machine.environment.values x := by
  cases init with
  | none => rfl
  | some e =>
    rw [initialValue, Expr.run, Execution.endState_onEnvironment]
    exact e.values_eval (hinit e rfl) machine.environment

/-- A declaration in a scope that does not hold the name adds a value there, unless it fails, and then there is none. -/
theorem exec_declare_cases (limit : Nat) (hinit : ∀ e ∈ init, name.lexeme ∉ e.assigned) {machine : Machine}
    {outer : List (Option Value)} (hvalues : machine.environment.values name.lexeme = none :: outer) :
    (∃ value after, exec limit (.declare name init) machine = .ok () after
        ∧ after.environment.values name.lexeme = some value :: outer)
      ∨ ∃ halt after, exec limit (.declare name init) machine = .error halt after
        ∧ after.environment.values name.lexeme = none :: outer := by
  have hstart := values_initialValue hinit machine
  rw [exec_declare, bind_apply]
  cases h : initialValue init machine with
  | error halt after =>
    rw [h] at hstart
    exact .inr ⟨halt, after, rfl, hstart.trans hvalues⟩
  | ok value after =>
    rw [h] at hstart
    have hbefore : after.environment.values name.lexeme = none :: outer := hstart.trans hvalues
    dsimp only
    rw [Execution.onEnvironment, Evaluation.define]
    cases hdefine : after.environment.define name.lexeme value with
    | error fault => exact .inr ⟨_, after, rfl, hbefore⟩
    | ok env =>
      obtain ⟨rest, hrest, henv⟩ := Environment.values_define_self hdefine
      obtain rfl : rest = outer := (List.cons.inj (hrest.symm.trans hbefore)).2
      exact .inl ⟨value, { after with environment := env }, rfl, henv⟩

/-- Behind the declaration that it starts with, a list of statements leaves the values of the scopes around it. -/
theorem values_execSlots_declare (limit : Nat) {slots : List Slot}
    (hslots : slots.findSome? id = some (.declare name init)) (hinit : ∀ e ∈ init, name.lexeme ∉ e.assigned)
    {machine : Machine} {outer : List (Option Value)}
    (hvalues : machine.environment.values name.lexeme = none :: outer) :
    ∃ new, (endState (execSlots limit slots machine)).environment.values name.lexeme = new :: outer := by
  obtain ⟨rest, hexec⟩ := execSlots_of_findSome? limit hslots
  rw [hexec, bind_apply]
  obtain ⟨value, after, hok, hafter⟩ | ⟨halt, after, herror, hafter⟩ := exec_declare_cases limit hinit hvalues
  · rw [hok]
    -- The value that is now there shelters those behind it from all that follows.
    have hrest := (Environment.frame_sheltered name.lexeme).execSlots limit rest after
    rw [hafter] at hrest
    dsimp only
    generalize (endState (execSlots limit rest after)).environment.values name.lexeme = values at hrest ⊢
    cases hrest with
    | nearest => exact ⟨_, rfl⟩
  · rw [herror]
    exact ⟨none, hafter⟩

end Stmt

/-- A shadowing declaration protects the outer variable: a block whose first statement declares a name, with an
initializer that does not assign to it, leaves the name as it was in every scope around the block, however it ends and
whatever else the block does with the name. -/
theorem exec_block_shelters (limit : Nat) (slots : List Slot) (name : Token) (init : Option Expr)
    (hslots : slots.findSome? id = some (.declare name init)) (hinit : ∀ e ∈ init, name.lexeme ∉ e.assigned)
    (machine : Machine) :
    (endState (Stmt.exec limit (.block slots) machine)).environment.values name.lexeme
      = machine.environment.values name.lexeme := by
  rw [Stmt.exec_block, Execution.endState_inScope]
  let entered : Machine := { machine with environment := machine.environment.push }
  have hentered : entered.environment.values name.lexeme = none :: machine.environment.values name.lexeme :=
    machine.environment.values_push name.lexeme
  obtain ⟨new, hafter⟩ := Stmt.values_execSlots_declare limit hslots hinit hentered
  exact Environment.values_pop_of_cons hafter (machine.environment.values_ne_nil name.lexeme)

/-- A block that shadows a variable, reads it before, assigns to its own, shadows that one again, prints and fails. -/
theorem exec_block_shelters_failing :
    let a : Token := ⟨.identifier, "a", none, 1⟩
    let y : Expr := .literal (.string "y") 1
    let init : Expr := .binary (.var a) .add (.var a) 1
    let slots : List Slot := [none, some (.declare a (some init)), some (.print (.var a)),
      some (.expression (.assign a y)), some (.block [some (.expression (.assign a (.var a))), some (.declare a none)]),
      some (.print (.var a)), some (.expression (.unary .negate (.var a) 1))]
    let before : Machine := { environment := ⟨[], [[("b", .nil)], [("a", .string "x")]]⟩ }
    let after : Machine := { before with sink := { written := "xx\ny\n".toUTF8 } }
    slots.findSome? id = some (.declare a (some init)) ∧ "a" ∉ init.assigned
      ∧ Stmt.exec 0 (.block slots) before = .error (.error (.operand .negate 1)) after
      ∧ after.environment.values "a" = [none, none, some (.string "x")] := by
  intro a y init slots before after
  have hslots : slots.findSome? id = some (.declare a (some init)) := rfl
  have hinit : "a" ∉ init.assigned := by decide
  have hexec : Stmt.exec 0 (.block slots) before = .error (.error (.operand .negate 1)) after := rfl
  have hvalues := exec_block_shelters 0 slots a (some init) hslots (by simpa using hinit) before
  rw [hexec] at hvalues
  exact ⟨hslots, hinit, hexec, hvalues⟩

end Lox

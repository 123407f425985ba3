import Lox.Proofs.ScopeLevels
import Mathlib.Data.List.Induction
import Mathlib.Data.List.Infix
/-!
# Histories of environments

An environment is used by entering and leaving scopes and by declaring, assigning and reading names, in any order.
What one action does to the scopes is said once, in `after_cases`; all that holds of the environments that histories
lead to follows from it by taking the last action off. The same actions on a plain list of scopes never get stuck
and do the same (`performOn_stack`, `run_stack`).
-/

namespace Lox

/-! ### Actions and histories -/

inductive Action where
  | push
  | pop
  | reset
  | define (name : Token) (value : Value)
  | assign (name : Token) (value : Value)
  | get (name : Token)
deriving DecidableEq

namespace Action

/-- Carries the action out. Only reading a name gives a value. -/
def perform : Action → Evaluation (Option Value)
  | push => fun env => .ok none env.push
  | pop => fun env => .ok none env.pop
  | reset => fun env => .ok none env.toGlobals
  | define name value => do
    Evaluation.define name value
    pure none
  | assign name value => do
    Evaluation.assign name value
    pure none
  | get name => do
    let value ← Evaluation.get name
    pure (some value)

/-- The environment that the action leaves, whether it fails or not. -/
def after (action : Action) (env : Environment) : Environment :=
  endState (action.perform env)

def Succeeds (action : Action) (env : Environment) : Prop :=
  ∃ result left, action.perform env = .ok result left

/-- Carries the action out on a plain list of scopes. There is no result if the list lacks the scope that is needed. -/
def performOn (stack : ScopeStack) : Action → Option (EStateM.Result RuntimeError ScopeStack (Option Value))
  | push => some (.ok none stack.push)
  | pop => some (.ok none stack.pop)
  | reset => some (.ok none stack.toGlobals)
  | define name value => (stack.define name.lexeme value).map fun
    | .ok left => .ok none left
    | .error fault => .error (.ofName fault name) stack
  | assign name value => some <| match stack.assign name.lexeme value with
    | .ok left => .ok none left
    | .error fault => .error (.ofName fault name) stack
  | get name => some <| match stack.get name.lexeme with
    | .ok value => .ok (some value) stack
    | .error fault => .error (.ofName fault name) stack

end Action

/-- The list that the actions lead to, one after the other, unless one of them has no result. -/
def ScopeStack.run (stack : ScopeStack) (actions : List Action) : Option ScopeStack :=
  actions.foldlM (fun stack action => (action.performOn stack).map endState) stack

namespace Environment

def run (env : Environment) (actions : List Action) : Environment :=
  actions.foldl (fun env action => action.after env) env

end Environment

/-- The action succeeds in the environment and writes the value to the name in the scope at the level: a declaration
to the innermost scope, and an assignment to the nearest scope that holds the name. -/
inductive Action.Writes (env : Environment) : Action → String → Nat → Value → Prop where
  | define {name : Token} {value : Value} {level : Nat} : (define name value).Succeeds env → level + 1 = env.depth →
      Writes env (.define name value) name.lexeme level value
  | assign {name : Token} {value : Value} {level : Nat} : (assign name value).Succeeds env →
      env.Nearest name.lexeme level → Writes env (.assign name value) name.lexeme level value

namespace Environment

/-- While the actions are carried out, the scope at the level is not left, and nothing writes to the name in it. -/
def Untouched (x : String) (level : Nat) (env : Environment) : List Action → Prop
  | [] => level < env.depth
  | action :: actions => level < env.depth ∧ (∀ value, ¬ action.Writes env x level value)
    ∧ Untouched x level (action.after env) actions

/-- Of all that the actions do in a new environment, the value is what was last written to the name in the scope that
is now at the level. -/
def LastWritten (actions : List Action) (x : String) (level : Nat) (value : Value) : Prop :=
  ∃ before action since, actions = before ++ action :: since ∧ action.Writes (run {} before) x level value
    ∧ Untouched x level (run {} (before ++ [action])) since

end Environment

/-- As many scopes are left as are entered, and none that was not entered before. -/
structure Action.Balanced (actions : List Action) : Prop where
  count : actions.count pop = actions.count push
  prefixes : ∀ first, first <+: actions → first.count pop ≤ first.count push
  stays : reset ∉ actions

instance (actions : List Action) : Decidable (Action.Balanced actions) :=
  decidable_of_iff (actions.count .pop = actions.count .push
      ∧ (∀ first ∈ actions.inits, first.count .pop ≤ first.count .push) ∧ .reset ∉ actions)
    ⟨fun h => ⟨h.1, fun first hfirst => h.2.1 first ((List.mem_inits first actions).2 hfirst), h.2.2⟩,
      fun h => ⟨h.count, fun first hfirst => h.prefixes first ((List.mem_inits first actions).1 hfirst), h.stays⟩⟩

/-! ### What an action does to the scopes -/

namespace Action

variable {env : Environment} {name : Token} {value : Value}

theorem perform_define (name : Token) (value : Value) (env : Environment) : (define name value).perform env
    = match env.define name.lexeme value with
      | .ok left => .ok none left
      | .error fault => .error (.ofName fault name) env := by
  rw [perform, bind_apply, Evaluation.define]
  cases env.define name.lexeme value <;> rfl

theorem perform_assign (name : Token) (value : Value) (env : Environment) : (assign name value).perform env
    = match env.assign name.lexeme value with
      | .ok left => .ok none left
      | .error fault => .error (.ofName fault name) env := by
  rw [perform, bind_apply, Evaluation.assign]
  cases env.assign name.lexeme value <;> rfl

theorem perform_get (name : Token) (env : Environment) : (get name).perform env
    = match env.get name.lexeme with
      | .ok value => .ok (some value) env
      | .error fault => .error (.ofName fault name) env := by
  rw [perform, bind_apply, Evaluation.get]
  cases env.get name.lexeme <;> rfl

/-- The outcome of an action, with the scopes that are left as a plain list. -/
def onStack : EStateM.Result RuntimeError Environment (Option Value) →
    EStateM.Result RuntimeError ScopeStack (Option Value)
  | .ok result left => .ok result left.stack
  | .error e left => .error e left.stack

theorem endState_onStack (outcome : EStateM.Result RuntimeError Environment (Option Value)) :
    endState (onStack outcome) = (endState outcome).stack := by
  cases outcome <;> rfl

/-- On the scopes of an environment every action has a result, the one that it has on the environment. -/
theorem performOn_stack (action : Action) (env : Environment) :
    action.performOn env.stack = some (onStack (action.perform env)) := by
  cases action with
  | push => rw [performOn, ← env.stack_push, perform, onStack]
  | pop => rw [performOn, ← env.stack_pop, perform, onStack]
  | reset => rw [performOn, ← env.stack_toGlobals, perform, onStack]
  | define name value =>
    rw [performOn, env.define_stack, perform_define]
    cases env.define name.lexeme value <;> rfl
  | assign name value =>
    rw [performOn, env.assign_stack, perform_assign]
    cases env.assign name.lexeme value <;> rfl
  | get name =>
    rw [performOn, env.get_stack, perform_get]
    cases env.get name.lexeme <;> rfl

/-- An action that fails leaves the environment as it was. -/
theorem eq_of_perform_error {action : Action} {e : RuntimeError} {left : Environment}
    (h : action.perform env = .error e left) : left = env := by
  cases action with
  | define name value =>
    rw [perform_define] at h
    split at h
    · simp at h
    · exact (EStateM.Result.error.inj h).2.symm
  | assign name value =>
    rw [perform_assign] at h
    split at h
    · simp at h
    · exact (EStateM.Result.error.inj h).2.symm
  | get name =>
    rw [perform_get] at h
    split at h
    · simp at h
    · exact (EStateM.Result.error.inj h).2.symm
  | _ => simp [perform] at h

theorem Writes.succeeds {action : Action} {x : String} {level : Nat} (h : action.Writes env x level value) :
    action.Succeeds env := by
  cases h with
  | define hsucceeds => exact hsucceeds
  | assign hsucceeds => exact hsucceeds

theorem define_of_succeeds (h : (define name value).Succeeds env) :
    env.define name.lexeme value = .ok ((define name value).after env) := by
  obtain ⟨result, left, h⟩ := h
  rw [after, perform_define]
  rw [perform_define] at h
  cases hdefine : env.define name.lexeme value with
  | ok new => rfl
  | error fault => simp [hdefine] at h

theorem assign_of_succeeds (h : (assign name value).Succeeds env) :
    env.assign name.lexeme value = .ok ((assign name value).after env) := by
  obtain ⟨result, left, h⟩ := h
  rw [after, perform_assign]
  rw [perform_assign] at h
  cases hassign : env.assign name.lexeme value with
  | ok new => rfl
  | error fault => simp [hassign] at h

theorem after_get (name : Token) (env : Environment) : (get name).after env = env := by
  rw [after, perform_get]
  cases env.get name.lexeme <;> rfl

/-- All that an action can do: it writes nothing, and scopes are entered or left if anything is done at all, or it
writes to one name in one scope. -/
theorem after_cases (action : Action) (env : Environment) :
    ((∀ x level value, ¬ action.Writes env x level value) ∧ env.Moved (action.after env))
      ∨ ∃ x level value scope new, action.Writes env x level value
        ∧ env.Rewritten x level value scope new (action.after env) := by
  cases h : action.perform env with
  | error e left =>
    refine .inl ⟨?_, ?_⟩
    · intro x level value hwrites
      obtain ⟨result, left, hok⟩ := hwrites.succeeds
      rw [h] at hok
      simp at hok
    · rw [after, h, endState, eq_of_perform_error h]
      exact .refl env
  | ok result left =>
    cases action with
    | push => exact .inl ⟨fun _ _ _ hwrites => (by cases hwrites), env.moved_push⟩
    | pop => exact .inl ⟨fun _ _ _ hwrites => (by cases hwrites), env.moved_pop⟩
    | reset => exact .inl ⟨fun _ _ _ hwrites => (by cases hwrites), env.moved_toGlobals⟩
    | define name value =>
      have hsucceeds : (define name value).Succeeds env := ⟨result, left, h⟩
      exact .inr ⟨_, _, value, _, _, .define hsucceeds rfl, Environment.rewritten_define (define_of_succeeds hsucceeds)⟩
    | assign name value =>
      have hsucceeds : (assign name value).Succeeds env := ⟨result, left, h⟩
      obtain ⟨level, scope, hnearest, hrewritten⟩ := Environment.rewritten_assign (assign_of_succeeds hsucceeds)
      exact .inr ⟨_, level, value, scope, _, .assign hsucceeds hnearest, hrewritten⟩
    | get name =>
      refine .inl ⟨fun _ _ _ hwrites => (by cases hwrites), ?_⟩
      rw [after_get]
      exact .refl env

theorem Writes.unique {action : Action} {x y : String} {level other : Nat} {new : Value}
    (h : action.Writes env x level value) (h' : action.Writes env y other new) :
    x = y ∧ level = other ∧ value = new := by
  cases h with
  | define _ hlevel =>
    cases h' with
    | define _ hother => exact ⟨rfl, by omega, rfl⟩
  | assign _ hnearest =>
    cases h' with
    | assign _ hnearest' => exact ⟨rfl, hnearest.unique hnearest', rfl⟩

/-! ### What an action does to a variable -/

theorem valueAt_after_of_writes {action : Action} {x : String} {level : Nat} (h : action.Writes env x level value) :
    (action.after env).valueAt x level = some value ∧ level < (action.after env).depth := by
  rcases action.after_cases env with ⟨hnot, -⟩ | ⟨y, other, new, scope, left, hwrites, hrewritten⟩
  · exact absurd h (hnot x level value)
  · obtain ⟨rfl, rfl, rfl⟩ := h.unique hwrites
    have hscope := hrewritten.scopeAt level
    rw [if_pos rfl] at hscope
    refine ⟨?_, Environment.lt_depth_of_scopeAt hscope⟩
    rw [Environment.valueAt, hscope, Option.bind_some, hrewritten.get?, if_pos rfl]

theorem valueAt_after {action : Action} {x : String} {level : Nat} (h : ∀ value, ¬ action.Writes env x level value) :
    (action.after env).valueAt x level = if level < (action.after env).depth then env.valueAt x level else none := by
  rw [Environment.valueAt, Environment.valueAt]
  split
  next hafter =>
    rcases action.after_cases env with ⟨-, hmoved⟩ | ⟨y, other, new, scope, left, hwrites, hrewritten⟩
    · by_cases hbefore : level < env.depth
      · rw [hmoved.kept level hbefore hafter]
      · -- The scope has just been entered, so it has no value either.
        have hscope : ∀ scope ∈ (action.after env).scopeAt level, scope = [] := hmoved.entered level (by omega)
        rw [Environment.scopeAt_eq_none.2 (Nat.not_lt.1 hbefore), Option.bind_none, Option.bind_eq_none_iff]
        intro scope hmem
        rw [hscope scope hmem]
        rfl
    · rw [hrewritten.scopeAt]
      split
      next hlevel =>
        subst hlevel
        have hne : x ≠ y := by
          rintro rfl
          exact h new hwrites
        rw [hrewritten.held, Option.bind_some, Option.bind_some, hrewritten.get?, if_neg hne]
      next => rfl
  next hafter =>
    rw [Environment.scopeAt_eq_none.2 (Nat.not_lt.1 hafter), Option.bind_none]

end Action

namespace Environment

variable {env : Environment} {x : String} {level : Nat} {value : Value}

theorem run_append (env : Environment) (actions more : List Action) :
    env.run (actions ++ more) = (env.run actions).run more :=
  List.foldl_append

theorem run_concat (env : Environment) (actions : List Action) (action : Action) :
    env.run (actions ++ [action]) = action.after (env.run actions) :=
  run_append env actions [action]

theorem run_append_cons (env : Environment) (before since : List Action) (action : Action) :
    env.run (before ++ action :: since) = (env.run (before ++ [action])).run since := by
  rw [← run_append, List.append_assoc]
  rfl

theorem run_stack (env : Environment) (actions : List Action) :
    env.stack.run actions = some (env.run actions).stack := by
  induction actions generalizing env with
  | nil => rfl
  | cons action actions ih =>
    rw [ScopeStack.run, List.foldlM_cons, Action.performOn_stack, Option.map_some, Action.endState_onStack]
    exact ih (action.after env)

/-! ### Names -/

theorem nodup_after {action : Action} (h : ∀ scope ∈ env.scopes, scope.names.Nodup) :
    ∀ scope ∈ (action.after env).scopes, scope.names.Nodup := by
  intro scope hscope
  obtain ⟨level, hlevel⟩ := mem_scopes_iff.1 hscope
  have hafter := lt_depth_of_scopeAt hlevel
  rcases action.after_cases env with ⟨-, hmoved⟩ | ⟨x, other, value, old, new, -, hrewritten⟩
  · by_cases hbefore : level < env.depth
    · rw [hmoved.kept level hbefore hafter] at hlevel
      exact h scope (mem_scopes_iff.2 ⟨level, hlevel⟩)
    · rw [hmoved.entered level (by omega) scope hlevel]
      exact List.nodup_nil
  · rw [hrewritten.scopeAt] at hlevel
    split at hlevel
    next =>
      obtain rfl := Option.some.inj hlevel
      have hold := h old (mem_scopes_iff.2 ⟨other, hrewritten.held⟩)
      rcases hrewritten.names with hnames | ⟨-, hnew, hnames⟩
      · rwa [hnames]
      · rw [hnames, List.nodup_append]
        exact ⟨hold, by simp, fun y hy z hz heq => hnew (List.mem_singleton.1 hz ▸ heq ▸ hy)⟩
    next => exact h scope (mem_scopes_iff.2 ⟨level, hlevel⟩)

theorem nodup_run (actions : List Action) : ∀ scope ∈ (run {} actions).scopes, scope.names.Nodup := by
  induction actions using List.reverseRecOn with
  | nil => simp [run, scopes, Scope.names]
  | append_singleton actions action ih =>
    rw [run_concat]
    exact nodup_after ih

theorem names_globals_after (action : Action) (env : Environment) :
    env.globals.names <+: (action.after env).globals.names := by
  have hbefore := scopeAt_zero env
  have hafter := scopeAt_zero (action.after env)
  rcases action.after_cases env with ⟨-, hmoved⟩ | ⟨x, level, value, scope, new, -, hrewritten⟩
  · rw [hmoved.kept 0 env.depth_pos (depth_pos _), hbefore] at hafter
    rw [Option.some.inj hafter]
  · rw [hrewritten.scopeAt] at hafter
    split at hafter
    next hlevel =>
      subst hlevel
      obtain rfl := Option.some.inj (hbefore.symm.trans hrewritten.held)
      rw [← Option.some.inj hafter]
      rcases hrewritten.names with hnames | ⟨-, -, hnames⟩
      · rw [hnames]
      · rw [hnames]
        exact List.prefix_append _ _
    next => rw [Option.some.inj (hbefore.symm.trans hafter)]

theorem names_globals_run (env : Environment) (actions : List Action) :
    env.globals.names <+: (env.run actions).globals.names := by
  induction actions using List.reverseRecOn with
  | nil => exact List.prefix_refl _
  | append_singleton actions action ih =>
    rw [run_concat]
    exact ih.trans (names_globals_after action _)

/-! ### The last write -/

theorem untouched_concat {actions : List Action} {action : Action} : Untouched x level env (actions ++ [action])
    ↔ Untouched x level env actions ∧ (∀ value, ¬ action.Writes (env.run actions) x level value)
      ∧ level < (env.run (actions ++ [action])).depth := by
  induction actions generalizing env with
  | nil =>
    rw [List.nil_append, Untouched, Untouched, Untouched]
    rfl
  | cons first actions ih =>
    rw [List.cons_append, Untouched, Untouched, ih, and_assoc, and_assoc]
    rfl

/-- What was last written is what the last action wrote, or else what was last written before it, if the scope is
still there. -/
theorem lastWritten_concat {actions : List Action} {action : Action} : LastWritten (actions ++ [action]) x level value
    ↔ action.Writes (run {} actions) x level value ∨ (∀ other, ¬ action.Writes (run {} actions) x level other)
      ∧ level < (run {} (actions ++ [action])).depth ∧ LastWritten actions x level value := by
  constructor
  · rintro ⟨before, write, since, heq, hwrites, huntouched⟩
    rcases List.eq_nil_or_concat' since with rfl | ⟨since, last, rfl⟩
    · obtain ⟨rfl, hlast⟩ := List.append_inj' heq rfl
      obtain rfl := List.singleton_inj.1 hlast
      exact .inl hwrites
    · rw [← List.cons_append, ← List.append_assoc] at heq
      obtain ⟨rfl, hlast⟩ := List.append_inj' heq rfl
      obtain rfl := List.singleton_inj.1 hlast
      obtain ⟨hsince, hnot, hdepth⟩ := untouched_concat.1 huntouched
      rw [← run_append_cons] at hnot
      rw [run_concat, ← run_append_cons, ← run_concat] at hdepth
      exact .inr ⟨hnot, hdepth, before, write, since, rfl, hwrites, hsince⟩
  · rintro (hwrites | ⟨hnot, hdepth, before, write, since, rfl, hwrites, huntouched⟩)
    · refine ⟨actions, action, [], rfl, hwrites, ?_⟩
      rw [run_concat]
      exact (Action.valueAt_after_of_writes hwrites).2
    · rw [run_concat, run_append_cons, ← run_concat] at hdepth
      rw [run_append_cons] at hnot
      exact ⟨before, write, since ++ [action], by simp, hwrites, untouched_concat.2 ⟨huntouched, hnot, hdepth⟩⟩

/-- Every variable of every scope has the value that was last written to it. -/
theorem valueAt_run (actions : List Action) (x : String) (level : Nat) (value : Value) :
    (run {} actions).valueAt x level = some value ↔ LastWritten actions x level value := by
  induction actions using List.reverseRecOn generalizing value with
  | nil =>
    constructor
    · intro h
      rw [valueAt, Option.bind_eq_some_iff] at h
      obtain ⟨scope, hscope, hvalue⟩ := h
      obtain rfl : scope = [] := List.mem_singleton.1 (List.mem_reverse.1 (List.mem_of_getElem? hscope))
      simp [Scope.get?] at hvalue
    · rintro ⟨before, action, since, heq, -⟩
      simp at heq
  | append_singleton actions action ih =>
    rw [lastWritten_concat, run_concat]
    by_cases h : ∃ new, action.Writes (run {} actions) x level new
    · obtain ⟨new, hwrites⟩ := h
      rw [(Action.valueAt_after_of_writes hwrites).1, Option.some.injEq]
      constructor
      · rintro rfl
        exact .inl hwrites
      · rintro (hwrites' | ⟨hnot, -⟩)
        · exact (hwrites.unique hwrites').2.2
        · exact absurd hwrites (hnot new)
    · have hnot : ∀ new, ¬ action.Writes (run {} actions) x level new := fun new hwrites => h ⟨new, hwrites⟩
      rw [Action.valueAt_after hnot, ← ih]
      constructor
      · intro hvalue
        split at hvalue
        next hdepth => exact .inr ⟨hnot, hdepth, hvalue⟩
        next => simp at hvalue
      · rintro (hwrites | ⟨-, hdepth, hvalue⟩)
        · exact absurd hwrites (hnot value)
        · rw [if_pos hdepth, hvalue]

end Environment

/-! ### Balanced histories -/

namespace Action

variable {env : Environment} {actions : List Action}

theorem depth_after (action : Action) (env : Environment) : (action.after env).depth
    = match action with
      | push => env.depth + 1
      | pop => max 1 (env.depth - 1)
      | reset => 1
      | define _ _ | assign _ _ | get _ => env.depth := by
  cases action with
  | push => exact env.depth_push
  | pop => exact env.depth_pop
  | reset => exact env.depth_toGlobals
  | define name value =>
    rw [after, perform_define]
    cases h : env.define name.lexeme value with
    | ok left => exact (Environment.rewritten_define h).depth_eq
    | error fault => rfl
  | assign name value =>
    rw [after, perform_assign]
    cases h : env.assign name.lexeme value with
    | ok left =>
      obtain ⟨level, scope, -, hrewritten⟩ := Environment.rewritten_assign h
      exact hrewritten.depth_eq
    | error fault => rfl
  | get name => rw [after_get]

/-- As long as no more scopes are left than were entered, the depth tells the two apart. -/
theorem depth_run (hprefixes : ∀ first, first <+: actions → first.count pop ≤ first.count push)
    (hstays : reset ∉ actions) (env : Environment) :
    (env.run actions).depth + actions.count pop = env.depth + actions.count push := by
  induction actions using List.reverseRecOn with
  | nil => rfl
  | append_singleton actions action ih =>
    have hlast := hprefixes (actions ++ [action]) (List.prefix_refl _)
    rw [List.mem_append, not_or] at hstays
    have hih := ih (fun first hfirst => hprefixes first (hfirst.trans (List.prefix_append _ _))) hstays.1
    have hpos := env.depth_pos
    rw [Environment.run_concat, depth_after]
    rw [List.count_append, List.count_append] at hlast ⊢
    cases action with
    | push =>
      have hpop : [push].count pop = 0 := rfl
      have hpush : [push].count push = 1 := rfl
      dsimp only
      omega
    | pop =>
      have hpop : [pop].count pop = 1 := rfl
      have hpush : [pop].count push = 0 := rfl
      dsimp only
      omega
    | reset => exact absurd (List.mem_singleton_self _) hstays.2
    | define name value => exact hih
    | assign name value => exact hih
    | get name => exact hih

theorem Balanced.le_depth (h : Balanced actions) (env : Environment) {first : List Action}
    (hfirst : first <+: actions) : env.depth ≤ (env.run first).depth := by
  have hdepth := depth_run (fun before hbefore => h.prefixes before (hbefore.trans hfirst))
    (fun hmem => h.stays (hfirst.subset hmem)) env
  have hcount := h.prefixes first hfirst
  omega

theorem Balanced.depth_eq (h : Balanced actions) (env : Environment) : (env.run actions).depth = env.depth := by
  have hdepth := depth_run h.prefixes h.stays env
  rw [h.count] at hdepth
  omega

end Action

namespace Environment

variable {env : Environment} {x : String} {level : Nat} {actions : List Action}

theorem Untouched.lt_depth (h : Untouched x level env actions) : level < env.depth := by
  cases actions with
  | nil => exact h
  | cons action actions => exact h.1

theorem Untouched.valueAt_eq (h : Untouched x level env actions) :
    (env.run actions).valueAt x level = env.valueAt x level := by
  induction actions generalizing env with
  | nil => rfl
  | cons action actions ih =>
    obtain ⟨-, hnot, hrest⟩ := h
    have hvalue := Action.valueAt_after hnot
    rw [if_pos hrest.lt_depth] at hvalue
    exact (ih hrest).trans hvalue

/-- A scope that is not left is untouched, or there is an action that writes to it. -/
theorem untouched_or_writes (x : String) (h : ∀ first, first <+: actions → level < (env.run first).depth) :
    Untouched x level env actions ∨ ∃ before action since value, actions = before ++ action :: since
      ∧ action.Writes (env.run before) x level value := by
  induction actions generalizing env with
  | nil => exact .inl (h [] (List.prefix_refl _))
  | cons action actions ih =>
    by_cases hwrites : ∃ value, action.Writes env x level value
    · obtain ⟨value, hwrites⟩ := hwrites
      exact .inr ⟨[], action, actions, value, rfl, hwrites⟩
    · rcases @ih (action.after env) fun first hfirst => h (action :: first) (List.cons_prefix_cons.2 ⟨rfl, hfirst⟩)
        with huntouched | ⟨before, write, since, value, rfl, hwrite⟩
      · exact .inl ⟨h [] List.nil_prefix, not_exists.1 hwrites, huntouched⟩
      · exact .inr ⟨action :: before, write, since, value, rfl, hwrite⟩

/-- A scope that is never the innermost one keeps its names. -/
theorem names_run (h : ∀ first, first <+: actions → level + 1 < (env.run first).depth) :
    ((env.run actions).scopeAt level).map Scope.names = (env.scopeAt level).map Scope.names := by
  induction actions using List.reverseRecOn with
  | nil => rfl
  | append_singleton actions action ih =>
    have hbefore := h actions (List.prefix_append _ _)
    have hafter := h (actions ++ [action]) (List.prefix_refl _)
    rw [← ih fun first hfirst => h first (hfirst.trans (List.prefix_append _ _))]
    rw [run_concat] at hafter ⊢
    rcases action.after_cases (env.run actions) with ⟨-, hmoved⟩ | ⟨y, other, value, scope, new, -, hrewritten⟩
    · rw [hmoved.kept level (by omega) (by omega)]
    · rw [hrewritten.scopeAt]
      split
      next hlevel =>
        subst hlevel
        rcases hrewritten.names with hnames | ⟨hinnermost, -⟩
        · rw [hrewritten.held, Option.map_some, Option.map_some, hnames]
        · omega
      next => rfl

end Environment

namespace Action.Balanced

variable {inner : List Action} {env : Environment} {level : Nat} (h : Balanced inner)

include h

theorem depth_push_run (env : Environment) : (env.push.run inner).depth = env.depth + 1 := by
  rw [h.depth_eq, Environment.depth_push]

/-- While a scope is entered and left again, the scopes around it are not the innermost one. -/
theorem lt_depth (hlevel : level < env.depth) {first : List Action} (hfirst : first <+: inner) :
    level + 1 < (env.push.run first).depth := by
  have hle := h.le_depth env.push hfirst
  rw [Environment.depth_push] at hle
  omega

theorem scopeAt_pop (hlevel : level < env.depth) :
    (env.push.run inner).pop.scopeAt level = (env.push.run inner).scopeAt level := by
  have hdepth := h.depth_push_run env
  refine (Environment.moved_pop _).kept level (by omega) ?_
  rw [Environment.depth_pop]
  omega

theorem scopeAt_pop_eq_none (hlevel : env.depth ≤ level) : (env.push.run inner).pop.scopeAt level = none := by
  have hdepth := h.depth_push_run env
  have hpos := env.depth_pos
  rw [Environment.scopeAt_eq_none, Environment.depth_pop]
  omega

theorem names_pop (env : Environment) : (env.push.run inner).pop.names = env.names := by
  refine Environment.names_eq_of_scopeAt ?_
  intro level
  by_cases hlevel : level < env.depth
  · rw [h.scopeAt_pop hlevel, Environment.names_run fun first hfirst => h.lt_depth hlevel hfirst,
      env.moved_push.kept level hlevel (by rw [Environment.depth_push]; omega)]
  · rw [h.scopeAt_pop_eq_none (Nat.not_lt.1 hlevel), Environment.scopeAt_eq_none.2 (Nat.not_lt.1 hlevel)]

/-- Around a scope that is entered and left again, a value changes only by an assignment to the name at a time when no
scope inside of the value's own holds the name. -/
theorem exists_assign {x : String} (hne : (env.push.run inner).pop.valueAt x level ≠ env.valueAt x level) :
    ∃ before name value since, inner = before ++ assign name value :: since ∧ name.lexeme = x
      ∧ ∀ deeper > level, ∀ scope ∈ (env.push.run before).scopeAt deeper, ¬ scope.holds x := by
  by_cases hlevel : level < env.depth
  · have hpush : env.push.valueAt x level = env.valueAt x level := by
      rw [Environment.valueAt, env.moved_push.kept level hlevel (by rw [Environment.depth_push]; omega)]
      rfl
    rw [Environment.valueAt, h.scopeAt_pop hlevel, ← hpush] at hne
    rcases Environment.untouched_or_writes x fun first hfirst => Nat.lt_of_succ_lt (h.lt_depth hlevel hfirst)
      with huntouched | ⟨before, action, since, value, rfl, hwrites⟩
    · exact absurd huntouched.valueAt_eq hne
    · cases hwrites with
      | define _ hinnermost =>
        have hlt := h.lt_depth hlevel (List.prefix_append before _)
        omega
      | assign _ hnearest => exact ⟨before, _, value, since, rfl, rfl, hnearest.2⟩
  · rw [Environment.valueAt, Environment.valueAt, h.scopeAt_pop_eq_none (Nat.not_lt.1 hlevel),
      Environment.scopeAt_eq_none.2 (Nat.not_lt.1 hlevel)] at hne
    exact absurd rfl hne

end Action.Balanced

/-- An environment is a well-formed stack under any use. On a plain list with one empty scope any actions lead to the
scopes that they lead to in a new environment, and every further action has the result that it has there. After any
actions there is a scope; no scope holds a name twice; the global names only get more, behind those that are there; an
action that fails changes nothing; leaving all scopes but the global one leaves this one as it was; reading a name gives
what was last written to it in the nearest scope that holds it, and fails exactly if none does; and once a scope is
entered and left again, with balanced actions between, all other scopes have the names that they had, and the values
too, except where a name was assigned while no scope further inside held it. -/
theorem scopes_of_history (actions : List Action) :
    let env := Environment.run {} actions
    ScopeStack.run [[]] actions = some env.stack
      ∧ (∀ action : Action, action.performOn env.stack = some (Action.onStack (action.perform env)))
      ∧ env.stack.length = env.depth
      ∧ env.stack.head? = some env.globals
      ∧ 1 ≤ env.depth
      ∧ (∀ scope ∈ env.scopes, scope.names.Nodup)
      ∧ (∀ more, env.globals.names <+: (Environment.run {} (actions ++ more)).globals.names)
      ∧ (∀ (action : Action) e left, action.perform env = .error e left → left = env)
      ∧ (env.run [.reset]).depth = 1
      ∧ (env.run [.reset]).globals = env.globals
      ∧ (∀ name value, (Action.get name).perform env = .ok (some value) env
        ↔ ∃ level, env.Nearest name.lexeme level ∧ Environment.LastWritten actions name.lexeme level value)
      ∧ (∀ name, (Action.get name).perform env = .error (.undefined name.lexeme name.line) env
        ↔ ∀ scope ∈ env.scopes, ¬ scope.holds name.lexeme)
      ∧ ∀ inner, Action.Balanced inner →
        (env.run (.push :: inner ++ [.pop])).names = env.names
          ∧ ∀ x level, (env.run (.push :: inner ++ [.pop])).valueAt x level ≠ env.valueAt x level →
            ∃ before name value since, inner = before ++ .assign name value :: since ∧ name.lexeme = x
              ∧ ∀ deeper > level, ∀ scope ∈ (env.run (.push :: before)).scopeAt deeper, ¬ scope.holds x := by
  intro env
  refine ⟨Environment.run_stack {} actions, fun action => action.performOn_stack env, env.length_stack,
    env.head?_stack, env.depth_pos, Environment.nodup_run actions, ?_, fun action e left => Action.eq_of_perform_error,
    env.depth_toGlobals, env.globals_toGlobals, ?_, ?_, ?_⟩
  · intro more
    rw [Environment.run_append]
    exact Environment.names_globals_run env more
  · intro name value
    have hget : (Action.get name).perform env = .ok (some value) env ↔ env.get name.lexeme = .ok value := by
      rw [Action.perform_get]
      cases env.get name.lexeme <;> simp
    simp only [hget, Environment.get_eq_ok_iff, env, Environment.valueAt_run]
  · intro name
    rw [← Environment.get_eq_error_iff, Action.perform_get]
    cases env.get name.lexeme with
    | ok value => simp
    | error fault => cases fault <;> simp [RuntimeError.ofName]
  · intro inner hinner
    have hrun : env.run (.push :: inner ++ [.pop]) = (env.push.run inner).pop :=
      Environment.run_concat env (.push :: inner) .pop
    rw [hrun]
    exact ⟨hinner.names_pop env, fun x level hne => hinner.exists_assign hne⟩

/-- Inside a scope that shadows one of two names, both are assigned, and the shadowed one is assigned again where it is
shadowed once more. -/
theorem scopes_of_history_shadowing :
    let a : Token := ⟨.identifier, "a", none, 1⟩
    let b : Token := ⟨.identifier, "b", none, 1⟩
    let env := Environment.run {} [.define a .nil, .define b .nil, .push, .define a (.bool true)]
    let inner : List Action := [.assign b (.bool false), .assign a (.bool false), .push, .define b .nil,
      .assign b (.string "b"), .define a .nil, .define a (.bool true), .pop, .get b]
    let left := env.run (.push :: inner ++ [.pop])
    Action.Balanced inner ∧ left = ⟨[("a", .bool false)], [[("a", .nil), ("b", .bool false)]]⟩
      ∧ (Action.get b).perform left = .ok (some (.bool false)) left ∧ left.names = env.names
      ∧ ∃ before name value since, inner = before ++ .assign name value :: since ∧ name.lexeme = "a"
        ∧ ∀ deeper > 1, ∀ scope ∈ (env.run (.push :: before)).scopeAt deeper, ¬ scope.holds "a" := by
  intro a b env inner left
  have hinner : Action.Balanced inner := by decide
  have hleft : left = ⟨[("a", .bool false)], [[("a", .nil), ("b", .bool false)]]⟩ := by decide +kernel
  obtain ⟨-, -, -, -, -, -, -, -, -, -, -, -, hbalanced⟩ :=
    scopes_of_history [.define a .nil, .define b .nil, .push, .define a (.bool true)]
  obtain ⟨hnames, hassigned⟩ := hbalanced inner hinner
  refine ⟨hinner, hleft, ?_, hnames, hassigned "a" 1 (by decide +kernel)⟩
  rw [hleft]
  rfl

end Lox

import Lox.Proofs.ScopeDiscipline
import Lox.Proofs.ScopeStack
/-!
# Scopes by their levels

The scopes of an environment are numbered from the global one, which has level 0, so that a scope keeps its number
while others are entered inside of it. To enter or leave a scope keeps all other levels as they are (`Moved`), and to
declare or assign a name changes one name at one level (`Rewritten`).
-/

namespace Lox

namespace Environment

/-- The scope at a level, the global one being at level 0. -/
def scopeAt (env : Environment) (level : Nat) : Option Scope :=
  env.scopes.reverse[level]?

def valueAt (env : Environment) (x : String) (level : Nat) : Option Value :=
  (env.scopeAt level).bind (·.get? x)

/-- The scope at the level holds the name, and no scope inside of it does. -/
def Nearest (env : Environment) (x : String) (level : Nat) : Prop :=
  (∃ scope ∈ env.scopeAt level, scope.holds x) ∧ ∀ inner > level, ∀ scope ∈ env.scopeAt inner, ¬ scope.holds x

variable {env : Environment} {x : String} {level : Nat} {value : Value}

/-! ### Levels -/

theorem scopeAt_eq_none : env.scopeAt level = none ↔ env.depth ≤ level := by
  rw [scopeAt, List.getElem?_eq_none_iff, List.length_reverse]
  rfl

theorem lt_depth_of_scopeAt {scope : Scope} (h : env.scopeAt level = some scope) : level < env.depth := by
  rw [← Nat.not_le, ← scopeAt_eq_none, h]
  simp

theorem mem_scopes_iff {scope : Scope} : scope ∈ env.scopes ↔ ∃ level, env.scopeAt level = some scope := by
  rw [← List.mem_reverse, List.mem_iff_getElem?]
  rfl

theorem scopeAt_zero (env : Environment) : env.scopeAt 0 = some env.globals := by
  rw [scopeAt, ← List.head?_eq_getElem?]
  exact head?_stack env

/-- A scope with others inside of it and around it is at the level that those around it leave. -/
theorem scopeAt_of_scopes {inner outer : List Scope} {scope : Scope} (h : env.scopes = inner ++ scope :: outer) :
    env.scopeAt outer.length = some scope := by
  rw [scopeAt, h]
  simp

/-- Putting another scope in the place of one changes only this level. -/
theorem scopeAt_replace {after : Environment} {inner outer : List Scope} {scope new : Scope}
    (h : env.scopes = inner ++ scope :: outer) (h' : after.scopes = inner ++ new :: outer) (level : Nat) :
    after.scopeAt level = if level = outer.length then some new else env.scopeAt level := by
  split
  next hlevel =>
    rw [hlevel]
    exact scopeAt_of_scopes h'
  next hlevel =>
    rw [scopeAt, scopeAt, h, h']
    simp only [List.reverse_append, List.reverse_cons, List.append_assoc, List.singleton_append]
    rw [List.getElem?_append, List.getElem?_append]
    split
    next => rfl
    next hge =>
      rw [List.length_reverse] at hge ⊢
      obtain ⟨n, hn⟩ : ∃ n, level - outer.length = n + 1 := ⟨level - outer.length - 1, by omega⟩
      rw [hn, List.getElem?_cons_succ, List.getElem?_cons_succ]

theorem nearest_of_scopes {inner outer : List Scope} {scope : Scope} (h : env.scopes = inner ++ scope :: outer)
    (hscope : scope.holds x) (hinner : ∀ other ∈ inner, ¬ other.holds x) : env.Nearest x outer.length := by
  refine ⟨⟨scope, scopeAt_of_scopes h, hscope⟩, ?_⟩
  intro level hlevel other hother
  rw [scopeAt, h, List.reverse_append, List.reverse_cons, List.append_assoc,
    List.getElem?_append_right (by rw [List.length_reverse]; omega), List.length_reverse] at hother
  obtain ⟨n, hn⟩ : ∃ n, level - outer.length = n + 1 := ⟨level - outer.length - 1, by omega⟩
  rw [hn, List.singleton_append, List.getElem?_cons_succ] at hother
  exact hinner other (List.mem_reverse.1 (List.mem_of_getElem? hother))

theorem Nearest.unique {other : Nat} (h : env.Nearest x level) (h' : env.Nearest x other) : level = other := by
  obtain ⟨⟨scope, hscope, hholds⟩, hinner⟩ := h
  obtain ⟨⟨scope', hscope', hholds'⟩, hinner'⟩ := h'
  rcases Nat.lt_trichotomy level other with hlt | heq | hlt
  · exact absurd hholds' (hinner other hlt scope' hscope')
  · exact heq
  · exact absurd hholds (hinner' level hlt scope hscope)

theorem names_eq_of_scopeAt {other : Environment}
    (h : ∀ level, (env.scopeAt level).map Scope.names = (other.scopeAt level).map Scope.names) :
    env.names = other.names := by
  refine List.reverse_injective (List.ext_getElem? ?_)
  intro level
  rw [names, names, ← List.map_reverse, ← List.map_reverse, List.getElem?_map, List.getElem?_map]
  exact h level

/-! ### Entering, leaving and writing -/

/-- Scopes are entered or left. Those that stay are as they were, and new ones are empty. -/
structure Moved (env after : Environment) : Prop where
  kept : ∀ level, level < env.depth → level < after.depth → after.scopeAt level = env.scopeAt level
  entered : ∀ level, env.depth ≤ level → ∀ scope ∈ after.scopeAt level, scope = []

/-- The scope at the level has another value for the name, or has the name as a new one if it is the innermost. -/
structure Rewritten (env : Environment) (x : String) (level : Nat) (value : Value) (scope new : Scope)
    (after : Environment) : Prop where
  held : env.scopeAt level = some scope
  scopeAt : ∀ other, after.scopeAt other = if other = level then some new else env.scopeAt other
  get? : ∀ y, new.get? y = if y = x then some value else scope.get? y
  names : new.names = scope.names ∨ level + 1 = env.depth ∧ x ∉ scope.names ∧ new.names = scope.names ++ [x]

theorem Moved.refl (env : Environment) : env.Moved env := by
  refine ⟨fun _ _ _ => rfl, ?_⟩
  intro level hlevel scope hscope
  rw [scopeAt_eq_none.2 hlevel] at hscope
  simp at hscope

theorem moved_push (env : Environment) : env.Moved env.push := by
  have hreverse : env.push.scopes.reverse = env.scopes.reverse ++ [[]] := stack_push env
  constructor
  · intro level hlevel _
    rw [Environment.scopeAt, hreverse, List.getElem?_append_left (by rw [List.length_reverse]; exact hlevel)]
    rfl
  · intro level hlevel scope hscope
    rw [Environment.scopeAt, hreverse, List.getElem?_append_right (by rw [List.length_reverse]; exact hlevel)] at hscope
    exact List.mem_singleton.1 (List.mem_of_getElem? hscope)

/-- To leave scopes is to keep the outermost ones. -/
theorem Moved.of_take {after : Environment} {n : Nat} (h : after.stack = env.stack.take n) : env.Moved after := by
  have hlevel : ∀ level, after.scopeAt level = if level < n then env.scopeAt level else none := by
    intro level
    rw [Environment.scopeAt, ← stack, h, List.getElem?_take]
    rfl
  constructor
  · intro level _ hafter
    rw [hlevel, if_pos]
    by_contra hnot
    rw [← Nat.not_le, ← scopeAt_eq_none, hlevel, if_neg hnot] at hafter
    exact hafter rfl
  · intro level hdepth scope hscope
    rw [hlevel, scopeAt_eq_none.2 hdepth] at hscope
    simp at hscope

theorem moved_pop (env : Environment) : env.Moved env.pop := by
  have hpop := env.stack_pop
  rw [ScopeStack.pop] at hpop
  split at hpop
  · rw [List.dropLast_eq_take] at hpop
    exact .of_take hpop
  · rw [← List.take_length (l := env.stack)] at hpop
    exact .of_take hpop

theorem moved_toGlobals (env : Environment) : env.Moved env.toGlobals :=
  .of_take env.stack_toGlobals

theorem rewritten_define {after : Environment} (h : env.define x value = .ok after) :
    env.Rewritten x env.outer.length value env.innermost (env.innermost.declare x value) after := by
  rw [define] at h
  split at h
  · simp at h
  next hnot =>
    obtain rfl := Except.ok.inj h
    have hnames : x ∉ env.innermost.names := fun hmem => hnot (Scope.holds_iff.2 hmem)
    have hscopes : env.scopes = [] ++ env.innermost :: env.outer := rfl
    refine ⟨scopeAt_of_scopes hscopes, scopeAt_replace hscopes rfl, ?_, .inr ⟨rfl, hnames, Scope.names_declare _ _ _⟩⟩
    intro y
    rw [Scope.get?_declare]
    split
    next heq => rw [heq, Scope.get?_eq_none hnot, Option.none_or]
    next => rw [Option.or_none]

theorem exists_of_setFirst {scopes after : List Scope} (h : setFirst x value scopes = some after) :
    ∃ inner scope outer, scopes = inner ++ scope :: outer ∧ scope.holds x ∧ (∀ other ∈ inner, ¬ other.holds x)
      ∧ after = inner ++ scope.set x value :: outer := by
  induction scopes generalizing after with
  | nil => simp [setFirst] at h
  | cons first scopes ih =>
    rw [setFirst] at h
    split at h
    next hholds =>
      obtain rfl := Option.some.inj h
      exact ⟨[], first, scopes, rfl, hholds, by simp, rfl⟩
    next hnot =>
      obtain ⟨rest, hrest, rfl⟩ := Option.map_eq_some_iff.1 h
      obtain ⟨inner, scope, outer, rfl, hscope, hinner, rfl⟩ := ih hrest
      exact ⟨first :: inner, scope, outer, rfl, hscope, List.forall_mem_cons.2 ⟨hnot, hinner⟩, rfl⟩

theorem rewritten_assign {after : Environment} (h : env.assign x value = .ok after) :
    ∃ level scope, env.Nearest x level ∧ env.Rewritten x level value scope (scope.set x value) after := by
  have hset := assign_eq env x value
  rw [h] at hset
  cases hfirst : setFirst x value env.scopes with
  | none =>
    rw [hfirst] at hset
    simp [Except.map] at hset
  | some scopes =>
    rw [hfirst] at hset
    obtain rfl : after.scopes = scopes := Except.ok.inj hset
    obtain ⟨inner, scope, outer, hscopes, hholds, hinner, hafter⟩ := exists_of_setFirst hfirst
    refine ⟨outer.length, scope, nearest_of_scopes hscopes hholds hinner, scopeAt_of_scopes hscopes,
      scopeAt_replace hscopes hafter, ?_, .inl (Scope.names_set _ _ _)⟩
    intro y
    rw [Scope.get?_set]
    split
    next =>
      obtain ⟨old, hold⟩ := Option.isSome_iff_exists.1 ((scope.isSome_get? x).trans hholds)
      rw [hold, Option.map_some]
    next => rfl

theorem Rewritten.depth_eq {scope new : Scope} {after : Environment}
    (h : env.Rewritten x level value scope new after) : after.depth = env.depth := by
  have hsame : ∀ other, after.depth ≤ other ↔ env.depth ≤ other := by
    intro other
    rw [← scopeAt_eq_none, ← scopeAt_eq_none, h.scopeAt]
    split
    next heq => simp [heq, h.held]
    next => rfl
  exact Nat.le_antisymm ((hsame _).2 (Nat.le_refl _)) ((hsame _).1 (Nat.le_refl _))

/-! ### Reading -/

theorem get_eq_error_iff : env.get x = .error .undefined ↔ ∀ scope ∈ env.scopes, ¬ scope.holds x := by
  have hnone : env.scopes.findSome? (·.get? x) = none ↔ ∀ scope ∈ env.scopes, ¬ scope.holds x := by
    simp only [List.findSome?_eq_none_iff, ← Scope.isSome_get?, Option.not_isSome_iff_eq_none]
  rw [get, ← hnone]
  cases env.scopes.findSome? (·.get? x) with
  | none => simp
  | some value => simp

theorem exists_nearest_of_get (h : env.get x = .ok value) :
    ∃ level, env.Nearest x level ∧ env.valueAt x level = some value := by
  have hfind : env.scopes.findSome? (·.get? x) = some value := by
    rw [get] at h
    split at h
    next hfind => rw [hfind, Except.ok.inj h]
    next => simp at h
  obtain ⟨inner, scope, outer, hscopes, hvalue, hinner⟩ := List.findSome?_eq_some_iff.1 hfind
  have hholds : scope.holds x := by
    rw [← Scope.isSome_get?, hvalue]
    rfl
  refine ⟨outer.length, nearest_of_scopes hscopes hholds ?_, ?_⟩
  · intro other hother
    rw [← Scope.isSome_get?, hinner other hother]
    simp
  · rw [valueAt, scopeAt_of_scopes hscopes]
    exact hvalue

/-- Reading gives the value in the nearest scope that holds the name. -/
theorem get_eq_ok_iff : env.get x = .ok value ↔ ∃ level, env.Nearest x level ∧ env.valueAt x level = some value := by
  refine ⟨exists_nearest_of_get, ?_⟩
  rintro ⟨level, hnearest, hvalue⟩
  cases hget : env.get x with
  | ok new =>
    obtain ⟨other, hnearest', hnew⟩ := exists_nearest_of_get hget
    rw [hnearest'.unique hnearest, hvalue] at hnew
    rw [Option.some.inj hnew]
  | error fault =>
    obtain ⟨⟨scope, hscope, hholds⟩, -⟩ := hnearest
    cases fault with
    | undefined => exact absurd hholds (get_eq_error_iff.1 hget scope (mem_scopes_iff.2 ⟨level, hscope⟩))
    | alreadyDefined =>
      rw [get] at hget
      split at hget <;> simp at hget

end Environment

end Lox

import Lox.Environment
import Mathlib.Data.List.Basic
/-!
# The values of a name

An environment as a single name sees it: the value that each scope has for the name, from the inside out, if it
has one. Every operation on an environment is one on these values: reading gives the first of them, assigning
replaces the first, declaring adds one in front where there is none, and nothing that is done to a name is seen by
another.
-/

namespace Lox

namespace Scope

theorem isSome_get? (scope : Scope) (name : String) : (scope.get? name).isSome = scope.holds name := by
  induction scope with
  | nil => rfl
  | cons entry scope ih =>
    obtain ⟨other, value⟩ := entry
    simp only [get?, holds, List.lookup_cons, List.any_cons] at ih ⊢
    by_cases h : other = name
    · simp [h]
    · have hback : (name == other) = false := by simpa using Ne.symm h
      simp [h, hback, ih]

theorem get?_eq_none {scope : Scope} {name : String} (h : ¬ scope.holds name) : scope.get? name = none := by
  rw [← isSome_get?] at h
  simpa using h

theorem get?_cons (key name : String) (value : Value) (scope : Scope) :
    get? ((key, value) :: scope) name = if name = key then some value else get? scope name := by
  rw [get?, List.lookup_cons, get?]
  by_cases h : name = key
  · rw [if_pos h, beq_iff_eq.2 h]
  · rw [if_neg h, beq_eq_false_iff_ne.2 h]

theorem get?_declare (scope : Scope) (name other : String) (value : Value) :
    (scope.declare name value).get? other = (scope.get? other).or (if other = name then some value else none) := by
  rw [declare, get?, List.lookup_append]
  exact congrArg _ (get?_cons name other value [])

theorem get?_set (scope : Scope) (name other : String) (value : Value) : (scope.set name value).get? other
    = if other = name then (scope.get? name).map fun _ => value else scope.get? other := by
  induction scope with
  | nil => simp [set, get?]
  | cons entry scope ih =>
    obtain ⟨key, old⟩ := entry
    have hset : set ((key, old) :: scope) name value
        = (if key = name then (name, value) else (key, old)) :: set scope name value := by
      simp [set]
    rw [hset]
    by_cases hkey : key = name
    · subst hkey
      rw [if_pos rfl, get?_cons, get?_cons, get?_cons, ih, if_pos rfl]
      split <;> rfl
    · rw [if_neg hkey, get?_cons, get?_cons, get?_cons, ih, if_neg (Ne.symm hkey)]
      by_cases hother : other = name
      · subst hother
        rw [if_neg (Ne.symm hkey), if_pos rfl, if_pos rfl]
      · rw [if_neg hother, if_neg hother]

end Scope

namespace Environment

/-- The values of a name in each of the scopes, from the inside out. -/
def values (env : Environment) (name : String) : List (Option Value) :=
  env.scopes.map (·.get? name)

def overwrite (value : Value) : List (Option Value) → List (Option Value)
  | [] => []
  | none :: rest => none :: overwrite value rest
  | some _ :: rest => some value :: rest

variable {env after : Environment} {name : String}

theorem values_eq (env : Environment) (name : String) :
    env.values name = env.innermost.get? name :: env.outer.map (·.get? name) :=
  rfl

@[simp] theorem values_push (env : Environment) (name : String) : env.push.values name = none :: env.values name :=
  rfl

theorem values_pop (env : Environment) (name : String) : env.pop.values name
    = if (env.values name).length = 1 then env.values name else (env.values name).tail := by
  rcases env with ⟨innermost, _ | ⟨scope, outer⟩⟩
  · rfl
  · simp [pop, values, scopes]

theorem get?_globals (env : Environment) (name : String) :
    env.globals.get? name = ((env.values name).getLast?).join := by
  rcases env with ⟨innermost, outer⟩
  rw [values, scopes, List.getLast?_map, List.getLast?_cons, globals, List.getLastD_eq_getLast?]
  rfl

theorem values_toGlobals (env : Environment) (name : String) :
    env.toGlobals.values name = [((env.values name).getLast?).join] := by
  rw [values_eq, toGlobals, get?_globals]
  rfl

/-- Reading a name gives the first of its values. -/
theorem get_eq (env : Environment) (name : String) :
    env.get name = ((env.values name).findSome? id).elim (.error .undefined) .ok := by
  rw [get, values, List.findSome?_map]
  cases h : env.scopes.findSome? (id ∘ (·.get? name)) with
  | none =>
    have hnone : env.scopes.findSome? (·.get? name) = none := h
    rw [hnone]
    rfl
  | some value =>
    have hsome : env.scopes.findSome? (·.get? name) = some value := h
    rw [hsome]
    rfl

/-- A name is declared exactly if the innermost scope has no value for it. -/
theorem define_cases (env : Environment) (name : String) (value : Value) :
    (env.define name value = .error .alreadyDefined ∧ ((env.values name).head?.join).isSome)
      ∨ ∃ after, env.define name value = .ok after ∧ (env.values name).head?.join = none
        ∧ (∀ other, after.values other
          = if other = name then some value :: (env.values name).tail else env.values other) := by
  rw [define]
  split
  next hholds =>
    refine .inl ⟨rfl, ?_⟩
    rw [values_eq]
    exact (env.innermost.isSome_get? name).trans hholds
  next hnot =>
    have hnone := Scope.get?_eq_none hnot
    refine .inr ⟨_, rfl, hnone, ?_⟩
    intro other
    rw [values_eq, values_eq, values_eq, Scope.get?_declare]
    split
    next heq =>
      rw [heq, hnone]
      rfl
    next => rw [Option.or_none]

/-- A name is set exactly if one of the scopes has a value for it. -/
theorem setFirst_cases (name : String) (value : Value) (scopes : List Scope) :
    (setFirst name value scopes = none ∧ (scopes.map (·.get? name)).findSome? id = none)
      ∨ ∃ after, setFirst name value scopes = some after ∧ ((scopes.map (·.get? name)).findSome? id).isSome
        ∧ ∀ other, after.map (·.get? other)
          = if other = name then overwrite value (scopes.map (·.get? name)) else scopes.map (·.get? other) := by
  induction scopes with
  | nil => exact .inl ⟨rfl, rfl⟩
  | cons scope scopes ih =>
    rw [setFirst, List.map_cons, List.findSome?_cons]
    split
    next hholds =>
      obtain ⟨old, hold⟩ := Option.isSome_iff_exists.1 ((scope.isSome_get? name).trans hholds)
      refine .inr ⟨_, rfl, by rw [hold]; rfl, ?_⟩
      intro other
      rw [List.map_cons, List.map_cons, Scope.get?_set, hold, overwrite]
      split
      next heq => rw [heq, Option.map_some]
      next => rfl
    next hnot =>
      have hnone := Scope.get?_eq_none hnot
      rw [hnone]
      rcases ih with ⟨hunset, hmisses⟩ | ⟨rest, hset, hsome, hvalues⟩
      · exact .inl ⟨by rw [hunset]; rfl, hmisses⟩
      · refine .inr ⟨scope :: rest, by rw [hset]; rfl, hsome, ?_⟩
        intro other
        rw [List.map_cons, List.map_cons, hvalues, overwrite]
        split
        next heq => rw [heq, hnone]
        next => rfl

/-- Setting a name changes the first of the scopes that holds it. -/
theorem setFirst_eq (name : String) (value : Value) (scopes : List Scope) : setFirst name value scopes
    = (scopes.findIdx? (·.holds name)).map fun k => scopes.modify k (·.set name value) := by
  induction scopes with
  | nil => rfl
  | cons scope scopes ih =>
    rw [setFirst, List.findIdx?_cons, ih]
    split
    · rfl
    · rw [Option.map_map, Option.map_map]
      rfl

theorem assign_eq (env : Environment) (name : String) (value : Value) : (env.assign name value).map scopes
    = (setFirst name value env.scopes).elim (.error .undefined) .ok := by
  rw [assign, scopes, setFirst]
  split
  · rfl
  · cases setFirst name value env.outer <;> rfl

/-- A name is assigned exactly if it has a value in some scope. -/
theorem assign_cases (env : Environment) (name : String) (value : Value) :
    (env.assign name value = .error .undefined ∧ (env.values name).findSome? id = none)
      ∨ ∃ after, env.assign name value = .ok after ∧ ((env.values name).findSome? id).isSome
        ∧ ∀ other, after.values other
          = if other = name then overwrite value (env.values name) else env.values other := by
  have hassign := assign_eq env name value
  rcases setFirst_cases name value env.scopes with ⟨hset, hmisses⟩ | ⟨scopes', hset, hsome, hvalues⟩
  · rw [hset] at hassign
    cases h : env.assign name value with
    | ok after =>
      rw [h] at hassign
      simp [Except.map] at hassign
    | error fault =>
      rw [h] at hassign
      exact .inl ⟨congrArg _ (Except.error.inj hassign), hmisses⟩
  · rw [hset] at hassign
    cases h : env.assign name value with
    | ok after =>
      rw [h] at hassign
      obtain rfl : after.scopes = scopes' := Except.ok.inj hassign
      exact .inr ⟨after, rfl, hsome, hvalues⟩
    | error fault =>
      rw [h] at hassign
      simp [Except.map] at hassign

variable {env after : Environment} {name x : String} {value : Value}

theorem values_of_assign (h : env.assign name value = .ok after) (x : String) :
    after.values x = if x = name then overwrite value (env.values name) else env.values x := by
  rcases env.assign_cases name value with ⟨herror, -⟩ | ⟨after', hok, -, hvalues⟩
  · rw [h] at herror
    simp at herror
  · obtain rfl := Except.ok.inj (h.symm.trans hok)
    exact hvalues x

theorem values_of_define (h : env.define name value = .ok after) : (env.values name).head?.join = none
    ∧ ∀ x, after.values x = if x = name then some value :: (env.values name).tail else env.values x := by
  rcases env.define_cases name value with ⟨herror, -⟩ | ⟨after', hok, hvalues⟩
  · rw [h] at herror
    simp at herror
  · obtain rfl := Except.ok.inj (h.symm.trans hok)
    exact hvalues

/-- Assigning to another name is not seen. -/
theorem values_assign_of_ne (h : env.assign name value = .ok after) (hne : name ≠ x) :
    after.values x = env.values x := by
  rw [values_of_assign h, if_neg (Ne.symm hne)]

theorem values_define_of_ne (h : env.define name value = .ok after) (hne : name ≠ x) :
    after.values x = env.values x := by
  rw [(values_of_define h).2, if_neg (Ne.symm hne)]

end Environment

end Lox

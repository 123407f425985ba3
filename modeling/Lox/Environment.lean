import Lox.Token.Basic
/-!
# Environments

Variables live in a stack of scopes. A name is looked up, and assigned, in the nearest scope that
holds it, and declared in the innermost scope only, once. The global scope is at the bottom of the
stack and is never left.
-/

namespace Lox

/-- The variables of a scope, in the order of their declaration. -/
abbrev Scope := List (String × Value)

namespace Scope

def holds (scope : Scope) (name : String) : Bool :=
  scope.any (·.1 == name)

def get? (scope : Scope) (name : String) : Option Value :=
  scope.lookup name

/-- Adds a name behind all others. -/
def declare (scope : Scope) (name : String) (value : Value) : Scope :=
  scope ++ [(name, value)]

def set (scope : Scope) (name : String) (value : Value) : Scope :=
  scope.map fun entry => if entry.1 == name then (name, value) else entry

/-- The names of the scope, in the order of their declaration. -/
def names (scope : Scope) : List String :=
  scope.map (·.1)

end Scope

/-- A stack of scopes: the innermost one, and those around it from the inside out. -/
structure Environment where
  innermost : Scope := []
  outer : List Scope := []
deriving DecidableEq

inductive NameFault where
  | undefined
  | alreadyDefined
deriving DecidableEq, Repr

namespace Environment

/-- The scopes from the inside out. -/
def scopes (env : Environment) : List Scope :=
  env.innermost :: env.outer

def depth (env : Environment) : Nat :=
  env.scopes.length

def globals (env : Environment) : Scope :=
  env.outer.getLastD env.innermost

def push (env : Environment) : Environment :=
  ⟨[], env.scopes⟩

/-- Leaves the innermost scope, unless it is the global one. -/
def pop (env : Environment) : Environment :=
  match env.outer with
  | [] => env
  | scope :: outer => ⟨scope, outer⟩

/-- Leaves all scopes but the global one. -/
def toGlobals (env : Environment) : Environment :=
  ⟨env.globals, []⟩

/-- Declares a name in the innermost scope, unless it is declared there already. -/
def define (env : Environment) (name : String) (value : Value) : Except NameFault Environment :=
  if env.innermost.holds name then .error .alreadyDefined
  else .ok { env with innermost := env.innermost.declare name value }

/-- The value of a name in the nearest scope that holds it. -/
def get (env : Environment) (name : String) : Except NameFault Value :=
  match env.scopes.findSome? (·.get? name) with
  | some value => .ok value
  | none => .error .undefined

/-- Sets a name in the first of the scopes that holds it. -/
def setFirst (name : String) (value : Value) : List Scope → Option (List Scope)
  | [] => none
  | scope :: outer =>
    if scope.holds name then some (scope.set name value :: outer)
    else (setFirst name value outer).map (scope :: ·)

/-- Sets a name in the nearest scope that holds it. -/
def assign (env : Environment) (name : String) (value : Value) : Except NameFault Environment :=
  if env.innermost.holds name then
    .ok { env with innermost := env.innermost.set name value }
  else
    match setFirst name value env.outer with
    | some outer => .ok { env with outer := outer }
    | none => .error .undefined

/-! ### What the operations do to the stack -/

@[simp] theorem scopes_push (env : Environment) : env.push.scopes = [] :: env.scopes := rfl

@[simp] theorem pop_push (env : Environment) : env.push.pop = env := rfl

@[simp] theorem depth_push (env : Environment) : env.push.depth = env.depth + 1 := rfl

theorem depth_pos (env : Environment) : 0 < env.depth :=
  Nat.succ_pos _

@[simp] theorem depth_pop (env : Environment) : env.pop.depth = max 1 (env.depth - 1) := by
  rcases env with ⟨_, _ | ⟨scope, outer⟩⟩
  · rfl
  · simp [pop, depth, scopes]

@[simp] theorem globals_push (env : Environment) : env.push.globals = env.globals := by
  simp only [push, globals, scopes, List.getLastD_cons]

@[simp] theorem globals_toGlobals (env : Environment) : env.toGlobals.globals = env.globals := rfl

@[simp] theorem depth_toGlobals (env : Environment) : env.toGlobals.depth = 1 := rfl

theorem toGlobals_of_depth {env : Environment} (h : env.depth = 1) : env.toGlobals = env := by
  rcases env with ⟨_, _ | _⟩
  · rfl
  · simp [depth, scopes] at h

end Environment

end Lox

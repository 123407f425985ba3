import Lox.Proofs.Bindings
/-!
# Scopes as a plain list

The scopes of an environment in a row, the global one first. Nothing about such a list says that it has a scope at
all, so that an operation on the innermost scope need not have a result, and the global scope can be lost.
On the lists of environments every operation does what it does on the environment, and neither can happen.
-/

namespace Lox

/-- Scopes in a row, each around those behind it. -/
abbrev ScopeStack := List Scope

namespace ScopeStack

def push (stack : ScopeStack) : ScopeStack :=
  stack ++ [[]]

/-- Drops the last scope, unless there is no other. -/
def pop (stack : ScopeStack) : ScopeStack :=
  if 1 < stack.length then stack.dropLast else stack

def toGlobals (stack : ScopeStack) : ScopeStack :=
  stack.take 1

/-- Declares a name in the last scope. Without a scope there is no result. -/
def define (stack : ScopeStack) (name : String) (value : Value) : Option (Except NameFault ScopeStack) :=
  stack.getLast?.map fun last =>
    if last.holds name then .error .alreadyDefined else .ok (stack.dropLast ++ [last.declare name value])

def get (stack : ScopeStack) (name : String) : Except NameFault Value :=
  (stack.reverse.findSome? (·.get? name)).elim (.error .undefined) .ok

/-- Sets a name in the last scope that holds it, which is the first one of the list read backwards. -/
def assign (stack : ScopeStack) (name : String) (value : Value) : Except NameFault ScopeStack :=
  (stack.reverse.findIdx? (·.holds name)).elim (.error .undefined) fun k =>
    .ok (stack.reverse.modify k (·.set name value)).reverse

end ScopeStack

namespace Environment

/-- The scopes of the environment from the outside in. -/
def stack (env : Environment) : ScopeStack :=
  env.scopes.reverse

theorem reverse_stack (env : Environment) : env.stack.reverse = env.scopes :=
  List.reverse_reverse _

theorem stack_eq (env : Environment) : env.stack = env.outer.reverse ++ [env.innermost] :=
  List.reverse_cons

theorem length_stack (env : Environment) : env.stack.length = env.depth :=
  List.length_reverse

theorem head?_stack (env : Environment) : env.stack.head? = some env.globals := by
  rw [stack, List.head?_reverse, scopes, List.getLast?_cons, globals, List.getLastD_eq_getLast?]

theorem stack_push (env : Environment) : env.push.stack = env.stack.push :=
  List.reverse_cons

theorem stack_pop (env : Environment) : env.pop.stack = env.stack.pop := by
  rw [ScopeStack.pop, length_stack]
  rcases env with ⟨innermost, _ | ⟨scope, outer⟩⟩
  · rfl
  · rw [if_pos (by simp [depth, scopes]), stack_eq ⟨innermost, _⟩, List.dropLast_concat]
    rfl

theorem stack_toGlobals (env : Environment) : env.toGlobals.stack = env.stack.toGlobals := by
  rw [ScopeStack.toGlobals, List.take_one, head?_stack]
  rfl

/-- Declaring a name always has a result, as there is always a last scope. -/
theorem define_stack (env : Environment) (name : String) (value : Value) :
    env.stack.define name value = some ((env.define name value).map stack) := by
  rw [ScopeStack.define, stack_eq, List.getLast?_concat, List.dropLast_concat, Option.map_some, define]
  split
  · rfl
  · rw [Except.map, stack_eq]

theorem get_stack (env : Environment) (name : String) : env.stack.get name = env.get name := by
  rw [ScopeStack.get, reverse_stack, get]
  cases env.scopes.findSome? (·.get? name) <;> rfl

theorem assign_stack (env : Environment) (name : String) (value : Value) :
    env.stack.assign name value = (env.assign name value).map stack := by
  have hassign := assign_eq env name value
  rw [setFirst_eq] at hassign
  have hstack : (env.assign name value).map stack = ((env.assign name value).map scopes).map List.reverse := by
    cases env.assign name value <;> rfl
  rw [ScopeStack.assign, reverse_stack, hstack, hassign]
  cases env.scopes.findIdx? (·.holds name) <;> rfl

end Environment

end Lox

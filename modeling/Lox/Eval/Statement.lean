import Lox.Eval.Expression
import Lox.Eval.Sink
/-!
# Execution of statements

A statement is executed on a machine, which has an environment and a sink to print to. Execution
takes a limit on the rounds of each loop: a run that needs more is cut short as exhausted, and a run
that is not exhausted has the same outcome under every larger limit.
-/

namespace Lox

structure Machine where
  environment : Environment := {}
  sink : Sink := {}
deriving DecidableEq

/-- Why execution stops early: an error of the program, or a loop that reached the limit. -/
inductive Halt where
  | error (e : RuntimeError)
  | exhausted
deriving DecidableEq, Repr

abbrev Execution (α : Type) : Type :=
  EStateM Halt Machine α

namespace Execution

variable {α : Type}

def onEnvironment (evaluation : Evaluation α) : Execution α := fun machine =>
  match evaluation machine.environment with
  | .ok a environment => .ok a { machine with environment }
  | .error e environment => .error (.error e) { machine with environment }

def printLine (text : String) : Execution Unit := fun machine =>
  match machine.sink.write (text ++ "\n").toUTF8 with
  | (sink, none) => .ok () { machine with sink }
  | (sink, some failure) => .error (.error (.output failure)) { machine with sink }

/-- Runs a computation in a scope of its own, which is left however it ends. -/
def inScope (body : Execution α) : Execution α := fun machine =>
  match body { machine with environment := machine.environment.push } with
  | .ok a machine => .ok a { machine with environment := machine.environment.pop }
  | .error halt machine => .error halt { machine with environment := machine.environment.pop }

/-- Runs the body as long as the test holds, for a limited number of tests. -/
def repeatWhile (test : Execution Bool) (body : Execution Unit) : Nat → Execution Unit
  | 0 => throw .exhausted
  | rounds + 1 => do
    if ← test then
      body
      repeatWhile test body rounds

end Execution

namespace Expr

def run (e : Expr) : Execution Value :=
  .onEnvironment e.eval

def test (e : Expr) : Execution Bool := do
  let value ← e.run
  pure value.truthy

end Expr

namespace Stmt

def initialValue : Option Expr → Execution Value
  | none => pure .nil
  | some e => e.run

mutual

def exec (limit : Nat) : Stmt → Execution Unit
  | .expression e => do discard e.run
  | .print e => do
    let value ← e.run
    .printLine value.text
  | .declare name init => do
    let value ← initialValue init
    .onEnvironment (.define name value)
  | .block slots => .inScope (execSlots limit slots)
  | .branch condition yes none => do
    if ← condition.test then exec limit yes
  | .branch condition yes (some no) => do
    if ← condition.test then exec limit yes else exec limit no
  | .loop condition body => .repeatWhile condition.test (exec limit body) limit
termination_by structural s => s

/-- Executes the statements of a list in order. Holes do nothing. -/
def execSlots (limit : Nat) : List (Option Stmt) → Execution Unit
  | [] => pure ()
  | none :: rest => execSlots limit rest
  | some s :: rest => do
    exec limit s
    execSlots limit rest
termination_by structural slots => slots

end

end Stmt

end Lox

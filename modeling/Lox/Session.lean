import Lox.Diagnostic.Journal
import Lox.Eval.Statement
import Lox.Grammar.Statement
import Lox.Token.Scan
/-!
# Sessions

A machine and a journal that live through a series of steps. A source is scanned, parsed and, when the
journal holds no fault of a source, executed; the machine's globals and the journal stay for the next
step. Steps that execute statements take the limit on loop rounds, and give no session when it was
reached.
-/

namespace Lox

structure Session where
  machine : Machine := {}
  journal : Journal := {}
deriving DecidableEq

inductive Step where
  /-- Runs a source if it has no faults and the journal holds none. -/
  | run (source : String)
  /-- Runs what could be parsed of a source. -/
  | force (source : String)
  /-- Executes statements. -/
  | interpret (slots : List Slot)
  /-- Puts a diagnostic into the journal. -/
  | report (d : Diagnostic)
  /-- Forgets the diagnostics held. -/
  | reset

namespace Session

/-- Executes statements in order up to the first error, which is reported. -/
def interpret (limit : Nat) (session : Session) (slots : List Slot) : Option Session :=
  match Stmt.execSlots limit slots session.machine with
  | .ok _ machine => some { session with machine }
  | .error (.error e) machine =>
    some
      { machine := { machine with environment := machine.environment.toGlobals }
        journal := session.journal.report e.diagnostic }
  | .error .exhausted _ => none

/-- Scans a source and reports its faults. -/
def tokenize (session : Session) (source : String) : Session × List Token :=
  let scan := scan source
  ({ session with journal := session.journal.reportAll (scan.errors.map ScanError.diagnostic) },
    scan.tokens)

/-- Scans and parses a source, and reports its faults. -/
def load (session : Session) (source : String) : Session × List Slot :=
  let (session, tokens) := session.tokenize source
  let parse := parse tokens
  ({ session with journal := session.journal.reportAll (parse.errors.map ParseError.diagnostic) },
    parse.slots)

/-- Loads a source, and executes it unless the journal holds a fault of a source. -/
def run (limit : Nat) (session : Session) (source : String) : Option Session :=
  let (session, slots) := session.load source
  if session.journal.hasSourceError then some session
  else session.interpret limit slots

/-- Loads a source, and executes what could be parsed of it. -/
def force (limit : Nat) (session : Session) (source : String) : Option Session :=
  let (session, slots) := session.load source
  session.interpret limit slots

def step (limit : Nat) (session : Session) : Step → Option Session
  | .run source => session.run limit source
  | .force source => session.force limit source
  | .interpret slots => session.interpret limit slots
  | .report d => some { session with journal := session.journal.report d }
  | .reset => some { session with journal := session.journal.reset }

end Session

end Lox

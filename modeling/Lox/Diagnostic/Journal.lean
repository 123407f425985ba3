import Lox.Diagnostic.Basic
/-!
# The journal of a session

The diagnostics held since the last reset, and all those that a reporter, if there is one, has been
shown. A journal that holds a fault of a source keeps later sources from running.
-/

namespace Lox

/-- The diagnostics held, and what the reporter has seen when there is a reporter. -/
structure Journal where
  records : List Diagnostic := []
  seen : Option (List Diagnostic) := none
deriving DecidableEq, Repr

namespace Journal

/-- An empty journal whose reporter has seen nothing yet. -/
def withReporter : Journal :=
  { seen := some [] }

/-- Adds diagnostics in order, and shows each to the reporter. -/
def reportAll (j : Journal) (ds : List Diagnostic) : Journal :=
  { records := j.records ++ ds, seen := j.seen.map (· ++ ds) }

def report (j : Journal) (d : Diagnostic) : Journal :=
  j.reportAll [d]

/-- Forgets the diagnostics held. What the reporter has seen stays. -/
def reset (j : Journal) : Journal :=
  { j with records := [] }

def hasSourceError (j : Journal) : Bool :=
  j.records.any (!·.isRuntime)

def hasRuntimeError (j : Journal) : Bool :=
  j.records.any (·.isRuntime)

@[simp] theorem records_reportAll (j : Journal) (ds : List Diagnostic) :
    (j.reportAll ds).records = j.records ++ ds := rfl

@[simp] theorem seen_reportAll (j : Journal) (ds : List Diagnostic) :
    (j.reportAll ds).seen = j.seen.map (· ++ ds) := rfl

@[simp] theorem records_reset (j : Journal) : j.reset.records = [] := rfl

@[simp] theorem seen_reset (j : Journal) : j.reset.seen = j.seen := rfl

theorem reportAll_append (j : Journal) (ds es : List Diagnostic) :
    j.reportAll (ds ++ es) = (j.reportAll ds).reportAll es := by
  cases h : j.seen <;> simp [reportAll, h]

end Journal

end Lox

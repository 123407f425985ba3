import Lox.Proofs.Submissions
import Mathlib.Data.List.DropRight
/-!
# The chronicle of a session

What a step reports is settled by what it does: the faults of a source in the order in which scanning and parsing
find them, and the error that stops its statements, if one does. A chronicle writes down the steps of a session, each
with what it reports, and knows nothing of a journal.

The journal of a session is its chronicle: the reporter has seen everything in it, once and in order, and the records
are what has been reported since the last reset. Whether a source runs is decided by these records and its own faults,
and when it does not run it leaves the machine as it was.
-/

namespace Lox

/-! ### What steps do and report -/

/-- The faults of a source: those of scanning in order, and then those of parsing. -/
def sourceFaults (source : String) : List Diagnostic :=
  (scan source).errors.map ScanError.diagnostic
    ++ (parse (scan source).tokens).errors.map ParseError.diagnostic

/-- Executing the statements ends with this machine, and with the error that stopped it if one did; then all scopes
but the global one have been left. -/
inductive Stmt.Ends (slots : List Slot) (before : Machine) : Machine → Option RuntimeError → Prop where
  | done {limit : Nat} {after : Machine} : execSlots limit slots before = .ok () after → Ends slots before after none
  | stopped {limit : Nat} {e : RuntimeError} {after : Machine} :
      execSlots limit slots before = .error (.error e) after →
      Ends slots before { after with environment := after.environment.toGlobals } (some e)

/-- What is reported of the way in which statements end. -/
def runtimeReport (error : Option RuntimeError) : List Diagnostic :=
  (error.map RuntimeError.diagnostic).toList

/-- What a step does to the machine, and what it reports, when these records are held before it. -/
inductive Step.Does (held : List Diagnostic) (before : Machine) : Step → Machine → List Diagnostic → Prop where
  | blocked {source : String} : (∃ d ∈ held ++ sourceFaults source, d.stage ≠ .running) →
      Does held before (.run source) before (sourceFaults source)
  | run {source : String} {after : Machine} {error : Option RuntimeError} :
      (∀ d ∈ held ++ sourceFaults source, d.stage = .running) → Stmt.Ends (slotsOf source) before after error →
      Does held before (.run source) after (sourceFaults source ++ runtimeReport error)
  | force {source : String} {after : Machine} {error : Option RuntimeError} :
      Stmt.Ends (slotsOf source) before after error →
      Does held before (.force source) after (sourceFaults source ++ runtimeReport error)
  | interpret {slots : List Slot} {after : Machine} {error : Option RuntimeError} :
      Stmt.Ends slots before after error → Does held before (.interpret slots) after (runtimeReport error)
  | report {d : Diagnostic} : Does held before (.report d) before [d]
  | reset : Does held before .reset before []

/-! ### Chronicles -/

structure Entry where
  step : Step
  reported : List Diagnostic

def Step.isReset : Step → Bool
  | reset => true
  | _ => false

namespace Entry

def allReported (entries : List Entry) : List Diagnostic :=
  entries.flatMap reported

/-- The entries behind the last reset. -/
def sinceReset (entries : List Entry) : List Entry :=
  entries.rtakeWhile (!·.step.isReset)

/-- The entries tell what happens on the machine after the past ones. -/
def Chronicle (past : List Entry) (before : Machine) : List Entry → Machine → Prop
  | [], after => after = before
  | entry :: entries, after => ∃ mid, entry.step.Does (allReported (sinceReset past)) before mid entry.reported
      ∧ Chronicle (past ++ [entry]) mid entries after

/-- The journal, with a reporter, in which these entries are written down. -/
def journal (entries : List Entry) : Journal :=
  { records := allReported (sinceReset entries), seen := some (allReported entries) }

theorem journal_append_reset (past : List Entry) : journal (past ++ [⟨.reset, []⟩]) = (journal past).reset := by
  simp [journal, allReported, sinceReset, Journal.reset, Step.isReset]

theorem journal_append {step : Step} (past : List Entry) (ds : List Diagnostic) (h : step.isReset = false) :
    journal (past ++ [⟨step, ds⟩]) = (journal past).reportAll ds := by
  simp [journal, allReported, sinceReset, Journal.reportAll, h]

end Entry

/-! ### Sessions -/

theorem Stmt.exists_effect_iff_ends {slots : List Slot} {before after : Machine} {ds : List Diagnostic} :
    (∃ limit, effect limit slots before = some (after, ds))
      ↔ ∃ error, Ends slots before after error ∧ ds = runtimeReport error := by
  constructor
  · rintro ⟨limit, h⟩
    rw [effect] at h
    split at h
    next hrun =>
      obtain ⟨rfl, rfl⟩ := Prod.mk.inj (Option.some.inj h)
      exact ⟨none, .done hrun, rfl⟩
    next e stopped hrun =>
      obtain ⟨rfl, rfl⟩ := Prod.mk.inj (Option.some.inj h)
      exact ⟨some e, .stopped hrun, rfl⟩
    next => simp at h
  · rintro ⟨error, hends, rfl⟩
    cases hends with
    | @done limit after hrun => exact ⟨limit, by rw [effect, hrun]; rfl⟩
    | @stopped limit e after hrun => exact ⟨limit, by rw [effect, hrun]; rfl⟩

namespace Session

variable {session result : Session} {source : String}

theorem interprets_iff_ends {slots : List Slot} : session.Interprets slots result
    ↔ ∃ after error, Stmt.Ends slots session.machine after error
      ∧ result = ⟨after, session.journal.reportAll (runtimeReport error)⟩ := by
  rw [interprets_iff]
  constructor
  · rintro ⟨limit, machine, ds, heffect, rfl⟩
    obtain ⟨error, hends, rfl⟩ := Stmt.exists_effect_iff_ends.1 ⟨limit, heffect⟩
    exact ⟨machine, error, hends, rfl⟩
  · rintro ⟨after, error, hends, rfl⟩
    obtain ⟨limit, heffect⟩ := Stmt.exists_effect_iff_ends.2 ⟨error, hends, rfl⟩
    exact ⟨limit, after, _, heffect, rfl⟩

theorem load_eq (session : Session) (source : String) : session.load source
    = (⟨session.machine, session.journal.reportAll (sourceFaults source)⟩, slotsOf source) := by
  rw [sourceFaults, Journal.reportAll_append]
  rfl

theorem hasSourceError_iff (j : Journal) : j.hasSourceError ↔ ∃ d ∈ j.records, d.stage ≠ .running := by
  simp [Journal.hasSourceError, Diagnostic.isRuntime]

/-- Taking the step ends, and the session is then `result`. -/
def Takes (session : Session) (step : Step) (result : Session) : Prop :=
  ∃ limit, session.step limit step = some result

def TakesAll (session : Session) : List Step → Session → Prop
  | [], result => result = session
  | step :: steps, result => ∃ mid, session.Takes step mid ∧ mid.TakesAll steps result

/-- What the session is after a step that left this machine and reported this. -/
def after (session : Session) (step : Step) (machine : Machine) (ds : List Diagnostic) : Session :=
  ⟨machine, if step.isReset then session.journal.reset else session.journal.reportAll ds⟩

/-- Loading puts the faults of the source into the journal, and then the statements are executed. -/
theorem interprets_load_iff : (session.load source).1.Interprets (session.load source).2 result
    ↔ ∃ machine error, Stmt.Ends (slotsOf source) session.machine machine error
      ∧ result = ⟨machine, session.journal.reportAll (sourceFaults source ++ runtimeReport error)⟩ := by
  simp only [load_eq, interprets_iff_ends, Journal.reportAll_append]

theorem takes_run_iff : session.Takes (.run source) result
    ↔ ∃ machine ds, Step.Does session.journal.records session.machine (.run source) machine ds
      ∧ result = session.after (.run source) machine ds := by
  have hgate : (session.load source).1.journal.hasSourceError
      ↔ ∃ d ∈ session.journal.records ++ sourceFaults source, d.stage ≠ .running := by
    rw [load_eq, hasSourceError_iff, Journal.records_reportAll]
  constructor
  · rintro ⟨limit, h⟩
    rw [step, run_eq] at h
    split at h
    next hfault =>
      obtain rfl := Option.some.inj h
      rw [load_eq]
      exact ⟨_, _, .blocked (hgate.1 hfault), rfl⟩
    next hnone =>
      obtain ⟨machine, error, hends, rfl⟩ := interprets_load_iff.1 ⟨limit, h⟩
      exact ⟨machine, _, .run (by simpa [hgate] using hnone) hends, rfl⟩
  · rintro ⟨machine, ds, hdoes, rfl⟩
    cases hdoes with
    | blocked hfault =>
      refine ⟨0, ?_⟩
      rw [step, run_eq, if_pos (hgate.2 hfault), load_eq]
      rfl
    | @run _ _ error hnone hends =>
      have hopen : ¬ (session.load source).1.journal.hasSourceError := by
        rw [hgate]
        rintro ⟨d, hd, hsource⟩
        exact hsource (hnone d hd)
      obtain ⟨limit, h⟩ := interprets_load_iff.2 ⟨machine, error, hends, rfl⟩
      refine ⟨limit, ?_⟩
      rw [step, run_eq, if_neg hopen]
      exact h

/-- A step does to the session what it does, and reports it in the journal. -/
theorem takes_iff_does {step : Step} : session.Takes step result
    ↔ ∃ machine ds, step.Does session.journal.records session.machine machine ds
      ∧ result = session.after step machine ds := by
  cases step with
  | run source => exact takes_run_iff
  | force source =>
    refine interprets_load_iff.trans ⟨?_, ?_⟩
    · rintro ⟨machine, error, hends, rfl⟩
      exact ⟨machine, _, .force hends, rfl⟩
    · rintro ⟨machine, ds, hdoes, rfl⟩
      cases hdoes with
      | force hends => exact ⟨machine, _, hends, rfl⟩
  | interpret slots =>
    refine interprets_iff_ends.trans ⟨?_, ?_⟩
    · rintro ⟨machine, error, hends, rfl⟩
      exact ⟨machine, _, .interpret hends, rfl⟩
    · rintro ⟨machine, ds, hdoes, rfl⟩
      cases hdoes with
      | interpret hends => exact ⟨machine, _, hends, rfl⟩
  | report d =>
    constructor
    · rintro ⟨limit, h⟩
      exact ⟨_, _, .report, (Option.some.inj h).symm⟩
    · rintro ⟨machine, ds, hdoes, rfl⟩
      cases hdoes
      exact ⟨0, rfl⟩
  | reset =>
    constructor
    · rintro ⟨limit, h⟩
      exact ⟨_, _, .reset, (Option.some.inj h).symm⟩
    · rintro ⟨machine, ds, hdoes, rfl⟩
      cases hdoes
      exact ⟨0, rfl⟩

/-- A session whose journal is that of some entries goes on as a chronicle goes on behind them. -/
theorem takesAll_iff {past : List Entry} (hjournal : session.journal = Entry.journal past) (steps : List Step) :
    session.TakesAll steps result ↔ ∃ entries, entries.map Entry.step = steps
      ∧ Entry.Chronicle past session.machine entries result.machine
      ∧ result.journal = Entry.journal (past ++ entries) := by
  induction steps generalizing session past with
  | nil =>
    simp only [TakesAll, List.map_eq_nil_iff, exists_eq_left, Entry.Chronicle, List.append_nil]
    rw [← hjournal]
    constructor
    · rintro rfl
      exact ⟨rfl, rfl⟩
    · rintro ⟨hmachine, hsame⟩
      exact congrArg₂ Session.mk hmachine hsame
  | cons step steps ih =>
    have hrecords : session.journal.records = Entry.allReported (Entry.sinceReset past) := by
      rw [hjournal, Entry.journal]
    have hnext {machine : Machine} {ds : List Diagnostic}
        (hdoes : step.Does session.journal.records session.machine machine ds) :
        (session.after step machine ds).journal = Entry.journal (past ++ [⟨step, ds⟩]) := by
      cases hdoes with
      | reset => rw [Entry.journal_append_reset, ← hjournal]; rfl
      | _ => rw [Entry.journal_append _ _ rfl, ← hjournal]; rfl
    constructor
    · rintro ⟨mid, htakes, hrest⟩
      obtain ⟨machine, ds, hdoes, rfl⟩ := takes_iff_does.1 htakes
      obtain ⟨entries, rfl, hchronicle, hend⟩ := (ih (hnext hdoes)).1 hrest
      refine ⟨⟨step, ds⟩ :: entries, rfl, ⟨machine, hrecords ▸ hdoes, hchronicle⟩, ?_⟩
      rwa [List.append_assoc] at hend
    · rintro ⟨entries, hsteps, hchronicle, hend⟩
      obtain ⟨⟨_, ds⟩, entries, rfl, rfl, rfl⟩ := List.map_eq_cons_iff.1 hsteps
      obtain ⟨machine, hdoes, hchronicle⟩ := hchronicle
      rw [← hrecords] at hdoes
      refine ⟨_, takes_iff_does.2 ⟨machine, ds, hdoes, rfl⟩, (ih (hnext hdoes)).2 ⟨entries, rfl, hchronicle, ?_⟩⟩
      rwa [List.append_assoc]

end Session

/-- The journal of a session is its chronicle. Steps from any machine and an empty journal with a reporter lead to a
session exactly if there are entries for these steps that tell what happens on the machine; then the reporter has seen
all that was reported, once and in order, and the records are those reported since the last reset. -/
theorem takesAll_iff_chronicle (start : Machine) (steps : List Step) (result : Session) :
    Session.TakesAll ⟨start, .withReporter⟩ steps result
      ↔ ∃ entries, entries.map Entry.step = steps ∧ Entry.Chronicle [] start entries result.machine
        ∧ result.journal.seen = some (Entry.allReported entries)
        ∧ result.journal.records = Entry.allReported (Entry.sinceReset entries) := by
  have hjournal : Journal.withReporter = Entry.journal [] := rfl
  rw [Session.takesAll_iff hjournal]
  refine exists_congr fun entries => and_congr_right fun _ => and_congr_right fun _ => ?_
  rw [List.nil_append, Entry.journal, Journal.mk.injEq, and_comm]

end Lox

import Lox.Proofs.Execution
import Lox.Session
/-!
# Runs without a limit

Execution takes a limit on the rounds of each loop only so that it is a function. A run that is not cut
short has the same outcome under every larger limit. So there is one thing that a run comes to, if it
comes to anything: what it comes to under some limit.

What statements do to a machine, and what they report, does not depend on the journal of the session.
-/

namespace Lox

/-! ### Larger limits -/

namespace Execution

variable {α β : Type}

/-- The first computation does what the second does, unless it is cut short. -/
def Below (x y : Execution α) : Prop :=
  ∀ machine, x machine = y machine ∨ ∃ machine', x machine = .error .exhausted machine'

theorem Below.refl (x : Execution α) : Below x x :=
  fun _ => .inl rfl

theorem Below.bind {x y : Execution α} {f g : α → Execution β} (hx : Below x y) (hf : ∀ a, Below (f a) (g a)) :
    Below (x >>= f) (y >>= g) := by
  intro machine
  rw [bind_apply, bind_apply]
  rcases hx machine with h | ⟨machine', h⟩
  · rw [← h]
    cases x machine with
    | ok a after => exact hf a after
    | error halt after => exact .inl rfl
  · rw [h]
    exact .inr ⟨machine', rfl⟩

theorem Below.inScope {x y : Execution α} (hx : Below x y) : Below (inScope x) (inScope y) := by
  intro machine
  rw [Execution.inScope, Execution.inScope]
  rcases hx { machine with environment := machine.environment.push } with h | ⟨machine', h⟩
  · rw [h]
    exact .inl rfl
  · rw [h]
    exact .inr ⟨_, rfl⟩

theorem Below.repeatWhile {test test' : Execution Bool} {body body' : Execution Unit} {rounds rounds' : Nat}
    (htest : Below test test') (hbody : Below body body') (hrounds : rounds ≤ rounds') :
    Below (repeatWhile test body rounds) (repeatWhile test' body' rounds') := by
  induction rounds generalizing rounds' with
  | zero => exact fun machine => .inr ⟨machine, rfl⟩
  | succ rounds ih =>
    cases rounds' with
    | zero => simp at hrounds
    | succ rounds' =>
      rw [Execution.repeatWhile, Execution.repeatWhile]
      refine htest.bind fun holds => ?_
      cases holds with
      | false => exact .refl _
      | true => exact hbody.bind fun _ => ih (Nat.le_of_succ_le_succ hrounds)

theorem congruence_below {limit limit' : Nat} (h : limit ≤ limit') : Congruence limit limit' Below where
  pure _ := .refl _
  bind := .bind
  run _ := .refl _
  define _ _ := .refl _
  printLine _ := .refl _
  inScope := .inScope
  repeatWhile htest hbody := htest.repeatWhile hbody h

end Execution

/-! ### What statements do and report -/

namespace Stmt

/-- The machine that executing the statements leaves, and what is reported then. -/
def effect (limit : Nat) (slots : List Slot) (machine : Machine) : Option (Machine × List Diagnostic) :=
  match execSlots limit slots machine with
  | .ok _ machine => some (machine, [])
  | .error (.error e) machine =>
    some ({ machine with environment := machine.environment.toGlobals }, [e.diagnostic])
  | .error .exhausted _ => none

variable {limit limit' : Nat} {slots : List Slot} {machine after : Machine} {ds : List Diagnostic}

theorem effect_of_le (hle : limit ≤ limit') (h : effect limit slots machine = some (after, ds)) :
    effect limit' slots machine = some (after, ds) := by
  rw [effect] at h ⊢
  rcases (Execution.congruence_below hle).execSlots slots machine with heq | ⟨_, hcut⟩
  · rwa [← heq]
  · rw [hcut] at h
    simp at h

/-- Statements go on where those before them end, unless these report an error. -/
theorem effect_append (more : List Slot) : effect limit (slots ++ more) machine
    = (effect limit slots machine).bind fun (after, ds) =>
      if ds = [] then effect limit more after else some (after, ds) := by
  rw [effect, effect, execSlots_append, bind_apply]
  rcases execSlots limit slots machine with ⟨⟩ | ⟨_ | _⟩ <;> rfl

/-- At most one error is reported, and it is one at run time. -/
theorem effect_report (h : effect limit slots machine = some (after, ds)) :
    ds = [] ∨ ∃ d : Diagnostic, ds = [d] ∧ d.stage = .running := by
  rw [effect] at h
  split at h
  · exact .inl (Prod.mk.inj (Option.some.inj h)).2.symm
  next e _ _ => exact .inr ⟨e.diagnostic, (Prod.mk.inj (Option.some.inj h)).2.symm, rfl⟩
  · simp at h

end Stmt

theorem Journal.reportAll_nil (j : Journal) : j.reportAll [] = j := by
  rcases j with ⟨records, _ | seen⟩ <;> simp [reportAll]

namespace Session

variable {session result other : Session} {source : String}

theorem interpret_eq (limit : Nat) (session : Session) (slots : List Slot) : session.interpret limit slots
    = (Stmt.effect limit slots session.machine).map fun (machine, ds) =>
      ⟨machine, session.journal.reportAll ds⟩ := by
  rw [interpret, Stmt.effect]
  rcases Stmt.execSlots limit slots session.machine with ⟨_, machine⟩ | ⟨_ | _, machine⟩
  · simp [Journal.reportAll_nil]
  · rfl
  · rfl

theorem run_eq (limit : Nat) (session : Session) (source : String) : session.run limit source
    = if (session.load source).1.journal.hasSourceError then some (session.load source).1
      else (session.load source).1.interpret limit (session.load source).2 :=
  rfl

theorem run_of_le {limit limit' : Nat} (hle : limit ≤ limit') (h : session.run limit source = some result) :
    session.run limit' source = some result := by
  rw [run_eq] at h ⊢
  split at h
  next hfault => rwa [if_pos hfault]
  next hfault =>
    rw [if_neg hfault, interpret_eq]
    rw [interpret_eq] at h
    obtain ⟨⟨machine, ds⟩, heffect, rfl⟩ := Option.map_eq_some_iff.1 h
    rw [Stmt.effect_of_le hle heffect]
    rfl

/-- What running a parsed source does to the machine and reports: only the errors of parsing, if there are
any or if the journal holds a fault of a source. -/
def outcome (limit : Nat) (session : Session) (parse : Parse) : Option (Machine × List Diagnostic) :=
  if session.journal.hasSourceError ∨ parse.errors ≠ [] then
    some (session.machine, parse.errors.map ParseError.diagnostic)
  else
    Stmt.effect limit parse.slots session.machine

theorem hasSourceError_reportAll (j : Journal) (errors : List ParseError) :
    (j.reportAll (errors.map ParseError.diagnostic)).hasSourceError ↔ j.hasSourceError ∨ errors ≠ [] := by
  rw [Journal.hasSourceError, Journal.records_reportAll, List.any_append, Bool.or_eq_true]
  refine or_congr Iff.rfl ?_
  cases errors <;> simp [ParseError.diagnostic, Diagnostic.isRuntime]

/-- A source without lexical errors runs as it parses, and what is reported is put into the journal. -/
theorem run_of_scan (limit : Nat) (session : Session) (hscan : (scan source).errors = []) :
    session.run limit source = (session.outcome limit (parse (scan source).tokens)).map fun (machine, ds) =>
      ⟨machine, session.journal.reportAll ds⟩ := by
  have hload : session.load source
      = (⟨session.machine, session.journal.reportAll
          ((parse (scan source).tokens).errors.map ParseError.diagnostic)⟩,
        (parse (scan source).tokens).slots) := by
    simp only [load, tokenize, hscan, List.map_nil, Journal.reportAll_nil]
  rw [run_eq, hload, outcome, interpret_eq]
  simp only [hasSourceError_reportAll]
  split
  · rfl
  next hfaults =>
    obtain ⟨-, hparse⟩ := not_or.1 hfaults
    rw [Classical.not_not.1 hparse, List.map_nil, Journal.reportAll_nil]

/-- Running the source ends, and the session is then `result`. -/
def Runs (session : Session) (source : String) (result : Session) : Prop :=
  ∃ limit, session.run limit source = some result

theorem runs_iff_of_scan (hscan : (scan source).errors = []) : session.Runs source result
    ↔ ∃ limit machine ds, session.outcome limit (parse (scan source).tokens) = some (machine, ds)
      ∧ result = ⟨machine, session.journal.reportAll ds⟩ := by
  simp only [Runs, run_of_scan _ _ hscan, Option.map_eq_some_iff, Prod.exists, @eq_comm _ result]

theorem Runs.unique (h : session.Runs source result) (hother : session.Runs source other) : result = other := by
  obtain ⟨limit, h⟩ := h
  obtain ⟨limit', hother⟩ := hother
  have hleft := run_of_le (Nat.le_max_left limit limit') h
  have hright := run_of_le (Nat.le_max_right limit limit') hother
  exact Option.some.inj (hleft.symm.trans hright)

def Interprets (session : Session) (slots : List Slot) (result : Session) : Prop :=
  ∃ limit, session.interpret limit slots = some result

theorem interprets_iff {slots : List Slot} : session.Interprets slots result
    ↔ ∃ limit machine ds, Stmt.effect limit slots session.machine = some (machine, ds)
      ∧ result = ⟨machine, session.journal.reportAll ds⟩ := by
  simp only [Interprets, interpret_eq, Option.map_eq_some_iff, Prod.exists, @eq_comm _ result]

theorem Interprets.unique {slots : List Slot} (h : session.Interprets slots result)
    (hother : session.Interprets slots other) : result = other := by
  obtain ⟨limit, machine, ds, heffect, rfl⟩ := interprets_iff.1 h
  obtain ⟨limit', machine', ds', heffect', rfl⟩ := interprets_iff.1 hother
  have hleft := Stmt.effect_of_le (Nat.le_max_left limit limit') heffect
  have hright := Stmt.effect_of_le (Nat.le_max_right limit limit') heffect'
  obtain ⟨rfl, rfl⟩ := Prod.mk.inj (Option.some.inj (hleft.symm.trans hright))
  rfl

end Session

end Lox

import Lox.Proofs.LineBreak
import Lox.Proofs.RelocatedReading
/-!
# Submissions

A source can be run as a whole or fed in parts, each on lines of its own: the effect is the same up to the
first error at run time, which ends the run of the whole and after which no part is fed any more. Only the
lines of what is reported count on from part to part. The parts have to be sources without faults, each by
itself; then so is the whole.
-/

namespace Lox

structure Faultless (source : String) : Prop where
  scans : (scan source).errors = []
  parses : (parse (scan source).tokens).errors = []

def slotsOf (source : String) : List Slot :=
  (parse (scan source).tokens).slots

/-! ### The tokens and statements of the whole -/

theorem beforeEnd_scan_append (source : String) (tokens : List Token) :
    beforeEnd ((scan source).tokens.dropLast ++ tokens) = (scan source).tokens.dropLast ++ beforeEnd tokens := by
  refine List.takeWhile_append_of_pos ?_
  intro t ht
  rw [tokens_scan, List.dropLast_concat, Piece.gather, List.mem_filterMap] at ht
  obtain ⟨⟨line, p⟩, hmem, ht⟩ := ht
  have hproper := Piece.forall_proper_split source.toList p (Piece.mem_of_mem_located hmem)
  simpa using Piece.kind_ne_eof hproper ht

theorem beforeEnd_scan (source : String) : beforeEnd (scan source).tokens = (scan source).tokens.dropLast := by
  have hend : (scan source).tokens = (scan source).tokens.dropLast ++ [Token.eof (lineCount source)] := by
    rw [tokens_scan, List.dropLast_concat]
  have hbefore := beforeEnd_scan_append source [Token.eof (lineCount source)]
  rw [← hend] at hbefore
  simpa [beforeEnd, Token.eof] using hbefore

theorem ProgramForm.append {ts us : List Token} {slots more : List Slot} (h : ProgramForm ts slots)
    (h' : ProgramForm us more) : ProgramForm (ts ++ us) (slots ++ more) := by
  obtain ⟨parts, rfl, rfl, hparts⟩ := h
  obtain ⟨parts', rfl, rfl, hparts'⟩ := h'
  refine ⟨parts ++ parts', List.flatMap_append.symm, List.map_append.symm, ?_⟩
  intro p hp
  exact (List.mem_append.1 hp).elim (hparts p) (hparts' p)

namespace Faultless

variable {source other : String}

theorem form (h : Faultless source) : ProgramForm (scan source).tokens.dropLast (slotsOf source) := by
  rw [← beforeEnd_scan]
  exact errors_eq_nil_iff.1 h.parses

theorem parse_newline (h : Faultless source) (h' : Faultless other) :
    parse (scan (source ++ "\n" ++ other)).tokens
      = ⟨slotsOf source ++ Stmt.relocateSlots (· + lineCount source) (slotsOf other), []⟩ := by
  rw [parse_eq_iff, tokens_append_newline (by simp [h.scans]), beforeEnd_scan_append, beforeEnd_relocate,
    beforeEnd_scan]
  exact h.form.append h'.form.relocate

theorem newline (h : Faultless source) (h' : Faultless other) : Faultless (source ++ "\n" ++ other) where
  scans := by
    rw [errors_append_newline (by simp [h.scans]), h.scans, h'.scans]
    rfl
  parses := by
    rw [parse_newline h h']

theorem slotsOf_newline (h : Faultless source) (h' : Faultless other) : slotsOf (source ++ "\n" ++ other)
    = slotsOf source ++ Stmt.relocateSlots (· + lineCount source) (slotsOf other) := by
  rw [slotsOf, parse_newline h h']

theorem intercalate {sources : List String} (hsources : sources ≠ []) (h : ∀ source ∈ sources, Faultless source) :
    Faultless ("\n".intercalate sources) := by
  induction sources with
  | nil => exact absurd rfl hsources
  | cons source sources ih =>
    obtain ⟨hsource, hrest⟩ := List.forall_mem_cons.1 h
    cases sources with
    | nil => rwa [String.intercalate_singleton]
    | cons next sources =>
      rw [String.intercalate_cons_cons]
      exact hsource.newline (ih (by simp) hrest)

end Faultless

/-! ### The run of the whole -/

namespace Stmt

/-- Executing the statements ends, with what they do to the machine and report. -/
def Effects (slots : List Slot) (machine after : Machine) (ds : List Diagnostic) : Prop :=
  ∃ limit, effect limit slots machine = some (after, ds)

variable {slots more : List Slot} {machine after : Machine} {ds : List Diagnostic}

theorem effects_append : Effects (slots ++ more) machine after ds
    ↔ (ds ≠ [] ∧ Effects slots machine after ds)
      ∨ ∃ mid, Effects slots machine mid [] ∧ Effects more mid after ds := by
  constructor
  · rintro ⟨limit, h⟩
    rw [effect_append, Option.bind_eq_some_iff] at h
    obtain ⟨⟨mid, es⟩, hfirst, hrest⟩ := h
    simp only at hrest
    split at hrest
    next hnone => exact .inr ⟨mid, ⟨limit, hnone ▸ hfirst⟩, limit, hrest⟩
    next hsome =>
      obtain ⟨rfl, rfl⟩ := Prod.mk.inj (Option.some.inj hrest)
      exact .inl ⟨hsome, limit, hfirst⟩
  · rintro (⟨hsome, limit, h⟩ | ⟨mid, ⟨limit, h⟩, limit', h'⟩)
    · refine ⟨limit, ?_⟩
      rw [effect_append, h]
      exact if_neg hsome
    · refine ⟨max limit limit', ?_⟩
      rw [effect_append, effect_of_le (Nat.le_max_left limit limit') h]
      exact effect_of_le (Nat.le_max_right limit limit') h'

theorem effects_relocate (move : Nat → Nat) : Effects (relocateSlots move slots) machine after ds
    ↔ ∃ es, Effects slots machine after es ∧ ds = es.map (Diagnostic.relocate move) := by
  simp only [Effects, effect_relocate, Option.map_eq_some_iff, Prod.exists, Prod.mk.injEq]
  constructor
  · rintro ⟨limit, _, es, h, rfl, rfl⟩
    exact ⟨es, ⟨limit, h⟩, rfl⟩
  · rintro ⟨es, ⟨limit, h⟩, rfl⟩
    exact ⟨limit, after, es, h, rfl, rfl⟩

theorem Effects.report (h : Effects slots machine after ds) :
    ds = [] ∨ ∃ d : Diagnostic, ds = [d] ∧ d.stage = .running :=
  h.elim fun _ h => effect_report h

end Stmt

theorem Journal.reportAll_inj {j : Journal} {ds es : List Diagnostic} (h : j.reportAll ds = j.reportAll es) :
    ds = es :=
  List.append_cancel_left (congrArg Journal.records h)

namespace Session

variable {session result : Session} {source other : String}

theorem runs_iff_effects (hsession : session.journal.hasSourceError = false) (h : Faultless source) :
    session.Runs source result ↔ ∃ machine ds, Stmt.Effects (slotsOf source) session.machine machine ds
      ∧ result = ⟨machine, session.journal.reportAll ds⟩ := by
  have hgoes : ¬ (session.journal.hasSourceError ∨ (parse (scan source).tokens).errors ≠ []) := by
    simp [hsession, h.parses]
  simp only [runs_iff_of_scan h.scans, outcome, if_neg hgoes]
  constructor
  · rintro ⟨limit, machine, ds, heffect, rfl⟩
    exact ⟨machine, ds, ⟨limit, heffect⟩, rfl⟩
  · rintro ⟨machine, ds, ⟨limit, heffect⟩, rfl⟩
    exact ⟨limit, machine, ds, heffect, rfl⟩

/-- Runs a source and, unless that reports an error at run time, goes on from there. The lines of what is
then reported count on behind the source. -/
def RunsThen (session : Session) (source : String) (next : Session → Session → Prop) (result : Session) : Prop :=
  (∃ d : Diagnostic, d.stage = .running ∧ session.Runs source result ∧ result.journal = session.journal.report d)
    ∨ ∃ mid after ds, session.Runs source mid ∧ mid.journal = session.journal ∧ next mid after
      ∧ after.journal = mid.journal.reportAll ds
      ∧ result = ⟨after.machine, mid.journal.reportAll (ds.map (Diagnostic.relocate (· + lineCount source)))⟩

theorem runs_newline_iff (hsession : session.journal.hasSourceError = false) (h : Faultless source)
    (h' : Faultless other) : session.Runs (source ++ "\n" ++ other) result
      ↔ session.RunsThen source (fun mid after => mid.Runs other after) result := by
  rw [runs_iff_effects hsession (h.newline h'), h.slotsOf_newline h']
  constructor
  · rintro ⟨machine, ds, heffects, rfl⟩
    rcases Stmt.effects_append.1 heffects with ⟨hsome, hfirst⟩ | ⟨mid, hfirst, hrest⟩
    · obtain ⟨d, rfl, hd⟩ := hfirst.report.resolve_left hsome
      exact .inl ⟨d, hd, (runs_iff_effects hsession h).2 ⟨machine, [d], hfirst, rfl⟩, rfl⟩
    · obtain ⟨es, hother, rfl⟩ := (Stmt.effects_relocate _).1 hrest
      refine .inr ⟨⟨mid, session.journal⟩, ⟨machine, session.journal.reportAll es⟩, es, ?_, rfl, ?_, rfl, rfl⟩
      · exact (runs_iff_effects hsession h).2 ⟨mid, [], hfirst, by rw [Journal.reportAll_nil]⟩
      · exact (@runs_iff_effects ⟨mid, session.journal⟩ _ _ hsession h').2 ⟨machine, es, hother, rfl⟩
  · rintro (⟨d, -, hruns, hjournal⟩ | ⟨⟨mid, journal⟩, after, ds, hruns, rfl, hrest, hjournal, rfl⟩)
    · obtain ⟨machine, ds, heffects, rfl⟩ := (runs_iff_effects hsession h).1 hruns
      obtain rfl := Journal.reportAll_inj hjournal
      exact ⟨machine, [d], Stmt.effects_append.2 (.inl ⟨by simp, heffects⟩), rfl⟩
    · -- The journal did not change, so the first source reported nothing and the rest runs after it.
      obtain ⟨machine, es, hfirst, hmid⟩ := (runs_iff_effects hsession h).1 hruns
      obtain ⟨rfl, hnone⟩ := Session.mk.inj hmid
      obtain rfl : es = [] := Journal.reportAll_inj (hnone.symm.trans (Journal.reportAll_nil _).symm)
      obtain ⟨machine, es, hother, rfl⟩ := (@runs_iff_effects ⟨mid, session.journal⟩ _ _ hsession h').1 hrest
      obtain rfl := Journal.reportAll_inj hjournal
      refine ⟨machine, _, Stmt.effects_append.2 (.inr ⟨mid, hfirst, ?_⟩), rfl⟩
      exact (Stmt.effects_relocate _).2 ⟨es, hother, rfl⟩

/-- Feeds sources one by one, up to the first error at run time. -/
def Submits : List String → Session → Session → Prop
  | [], session, result => result = session
  | source :: sources, session, result => session.RunsThen source (Submits sources) result

theorem runsThen_congr {next next' : Session → Session → Prop}
    (h : ∀ mid after, mid.journal = session.journal → (next mid after ↔ next' mid after)) :
    session.RunsThen source next result ↔ session.RunsThen source next' result := by
  refine or_congr Iff.rfl (exists_congr fun mid => exists_congr fun after => exists_congr fun ds => ?_)
  refine and_congr_right fun _ => and_congr_right fun hjournal => and_congr_left fun _ => ?_
  exact h mid after hjournal

/-- To go on with nothing is to stop. -/
theorem runs_iff_submits_singleton (hsession : session.journal.hasSourceError = false) (h : Faultless source) :
    session.Runs source result ↔ Submits [source] session result := by
  constructor
  · intro hruns
    obtain ⟨machine, ds, heffects, rfl⟩ := (runs_iff_effects hsession h).1 hruns
    rcases heffects.report with rfl | ⟨d, rfl, hd⟩
    · have hsame : session.journal.reportAll [] = session.journal := Journal.reportAll_nil _
      rw [hsame] at hruns ⊢
      exact .inr ⟨_, _, [], hruns, rfl, rfl, hsame.symm, by rw [List.map_nil, hsame]⟩
    · exact .inl ⟨d, hd, hruns, rfl⟩
  · rintro (⟨d, -, hruns, -⟩ | ⟨mid, after, ds, hruns, -, rfl, hjournal, rfl⟩)
    · exact hruns
    · obtain rfl : ds = [] := Journal.reportAll_inj (hjournal.symm.trans (Journal.reportAll_nil _).symm)
      rwa [List.map_nil, Journal.reportAll_nil]

theorem runs_intercalate_iff {sources : List String} (hsession : session.journal.hasSourceError = false)
    (hsources : sources ≠ []) (h : ∀ source ∈ sources, Faultless source) :
    session.Runs ("\n".intercalate sources) result ↔ Submits sources session result := by
  induction sources generalizing session result with
  | nil => exact absurd rfl hsources
  | cons source sources ih =>
    obtain ⟨hsource, hrest⟩ := List.forall_mem_cons.1 h
    cases sources with
    | nil =>
      rw [String.intercalate_singleton]
      exact runs_iff_submits_singleton hsession hsource
    | cons next sources =>
      rw [String.intercalate_cons_cons, runs_newline_iff hsession hsource (.intercalate (by simp) hrest)]
      refine runsThen_congr fun mid after hjournal => ?_
      exact ih (hjournal ▸ hsession) (by simp) hrest

end Session

/-- A script does what its parts do when they are fed one by one: if the journal holds no fault of a source and
the parts have none, the run of the whole ends exactly when feeding the parts does, with the same machine and
the same diagnostics on lines that count on from part to part. -/
theorem runs_script_iff_submits (session : Session) (hsession : session.journal.hasSourceError = false) :
    (∀ source other, Faultless source → Faultless other → ∀ result,
        session.Runs (source ++ "\n" ++ other) result
          ↔ session.RunsThen source (fun mid after => mid.Runs other after) result)
      ∧ ∀ sources, sources ≠ [] → (∀ source ∈ sources, Faultless source) → ∀ result,
        session.Runs ("\n".intercalate sources) result ↔ Session.Submits sources session result := by
  constructor
  · intro source other hsource hother result
    exact Session.runs_newline_iff hsession hsource hother
  · intro sources hsome hsources result
    exact Session.runs_intercalate_iff hsession hsome hsources

theorem runs_script_iff_submits_negation :
    Session.RunsThen {} "var a;" (fun mid after => mid.Runs "-a;" after)
        ⟨{ environment := { innermost := [("a", .nil)] } },
          { records := [⟨.running, some 2, .unspecified, "Operand of '-' must be a number."⟩] }⟩
      ∧ Session.Submits ["var a;", "a = true;", "-a;"] {}
        ⟨{ environment := { innermost := [("a", .bool true)] } },
          { records := [⟨.running, some 3, .unspecified, "Operand of '-' must be a number."⟩] }⟩ := by
  have hdeclare : Faultless "var a;" := ⟨by decide +kernel, by decide +kernel⟩
  have hassign : Faultless "a = true;" := ⟨by decide +kernel, by decide +kernel⟩
  have hnegate : Faultless "-a;" := ⟨by decide +kernel, by decide +kernel⟩
  have hscript := runs_script_iff_submits {} rfl
  constructor
  · exact (hscript.1 "var a;" "-a;" hdeclare hnegate _).1 ⟨0, by decide +kernel⟩
  · refine (hscript.2 ["var a;", "a = true;", "-a;"] (by simp) ?_ _).1 ⟨0, by decide +kernel⟩
    simp only [List.forall_mem_cons]
    exact ⟨hdeclare, hassign, hnegate, by simp⟩

end Lox

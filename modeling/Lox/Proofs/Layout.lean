import Lox.Proofs.RelocatedReading
import Mathlib.Data.List.Forall2
/-!
# Layout

Two sources whose tokens differ in nothing but their lines run alike: they end or not together, leave the
same machine, and report diagnostics that differ in nothing but their lines. If everything in the two runs
is put on line 1, the two become one.
-/

namespace Lox

open List (Forall₂)

def Token.Agrees (t u : Token) : Prop :=
  t.kind = u.kind ∧ t.lexeme = u.lexeme ∧ t.literal = u.literal

def Diagnostic.Agrees (d e : Diagnostic) : Prop :=
  d.stage = e.stage ∧ d.place = e.place ∧ d.message = e.message

/-- Puts everything on line 1. -/
def flatten (_ : Nat) : Nat :=
  1

theorem Token.agrees_iff {t u : Token} : t.Agrees u ↔ t.relocate flatten = u.relocate flatten := by
  simp [Agrees, relocate, flatten]

theorem Diagnostic.agrees_of_relocate {d e : Diagnostic} (h : d.relocate flatten = e.relocate flatten) :
    d.Agrees e := by
  simp only [relocate, mk.injEq] at h
  exact ⟨h.1, h.2.2.1, h.2.2.2⟩

/-- Two lists have the same image exactly when their members have, one by one. -/
theorem map_eq_map_iff_forall₂ {α β : Type} {f : α → β} {as bs : List α} :
    as.map f = bs.map f ↔ Forall₂ (fun a b => f a = f b) as bs := by
  rw [← List.forall₂_map_right_iff, ← List.forall₂_map_left_iff, List.forall₂_eq_eq_eq]

theorem Session.outcome_relocate (move : Nat → Nat) (limit : Nat) (session : Session) (parse : Parse) :
    session.outcome limit (parse.relocate move)
      = (session.outcome limit parse).map fun (machine, ds) => (machine, ds.map (Diagnostic.relocate move)) := by
  simp only [outcome, Parse.relocate, ne_eq, List.map_eq_nil_iff, Stmt.effect_relocate]
  split
  · simp only [List.map_map, Function.comp_def, ParseError.diagnostic_relocate, Option.map_some]
  · rfl

/-- Under every limit, tokens that agree have outcomes that agree. -/
theorem exists_outcome_of_agrees {session : Session} {limit : Nat} {tokens others : List Token}
    {machine : Machine} {ds : List Diagnostic} (h : Forall₂ Token.Agrees tokens others)
    (houtcome : session.outcome limit (parse tokens) = some (machine, ds)) :
    ∃ es, session.outcome limit (parse others) = some (machine, es) ∧ Forall₂ Diagnostic.Agrees ds es := by
  have htokens : tokens.map (Token.relocate flatten) = others.map (Token.relocate flatten) :=
    map_eq_map_iff_forall₂.2 (h.imp fun _ _ => Token.agrees_iff.1)
  have hparse : (parse tokens).relocate flatten = (parse others).relocate flatten := by
    rw [← parse_relocate rfl, ← parse_relocate rfl, htokens]
  have hflat := session.outcome_relocate flatten limit (parse tokens)
  rw [hparse, session.outcome_relocate, houtcome] at hflat
  obtain ⟨⟨machine', es⟩, hother, heq⟩ := Option.map_eq_some_iff.1 hflat
  obtain ⟨rfl, hds⟩ := Prod.mk.inj heq
  exact ⟨es, hother, (map_eq_map_iff_forall₂.1 hds.symm).imp fun _ _ => Diagnostic.agrees_of_relocate⟩

theorem exists_runs_of_agrees {session result : Session} {source other : String}
    (hsource : (scan source).errors = []) (hother : (scan other).errors = [])
    (htokens : Forall₂ Token.Agrees (scan source).tokens (scan other).tokens)
    (hruns : session.Runs source result) :
    ∃ result', session.Runs other result' ∧ result.machine = result'.machine
      ∧ ∃ ds es, result.journal = session.journal.reportAll ds
        ∧ result'.journal = session.journal.reportAll es ∧ Forall₂ Diagnostic.Agrees ds es := by
  obtain ⟨limit, machine, ds, houtcome, rfl⟩ := (Session.runs_iff_of_scan hsource).1 hruns
  obtain ⟨es, houtcome', hagrees⟩ := exists_outcome_of_agrees htokens houtcome
  refine ⟨⟨machine, session.journal.reportAll es⟩, ?_, rfl, ds, es, rfl, rfl, hagrees⟩
  exact (Session.runs_iff_of_scan hother).2 ⟨limit, machine, es, houtcome', rfl⟩

/-- The layout of a source does not matter: sources with the same tokens up to lines end or not together,
leave the same machine, and add diagnostics to the journal that agree one by one. -/
theorem run_layout (session : Session) (source other : String) (hsource : (scan source).errors = [])
    (hother : (scan other).errors = [])
    (htokens : Forall₂ Token.Agrees (scan source).tokens (scan other).tokens) :
    ((∃ result, session.Runs source result) ↔ ∃ result, session.Runs other result)
      ∧ ∀ result result', session.Runs source result → session.Runs other result' →
        result.machine = result'.machine
          ∧ ∃ ds es, result.journal = session.journal.reportAll ds
            ∧ result'.journal = session.journal.reportAll es ∧ Forall₂ Diagnostic.Agrees ds es := by
  have hback : Forall₂ Token.Agrees (scan other).tokens (scan source).tokens :=
    htokens.flip.imp fun _ _ h => ⟨h.1.symm, h.2.1.symm, h.2.2.symm⟩
  refine ⟨⟨?_, ?_⟩, ?_⟩
  · rintro ⟨result, hruns⟩
    obtain ⟨result', hruns', -⟩ := exists_runs_of_agrees hsource hother htokens hruns
    exact ⟨result', hruns'⟩
  · rintro ⟨result, hruns⟩
    obtain ⟨result', hruns', -⟩ := exists_runs_of_agrees hother hsource hback hruns
    exact ⟨result', hruns'⟩
  · intro result result' hruns hruns'
    obtain ⟨_, hother, hagrees⟩ := exists_runs_of_agrees hsource hother htokens hruns
    obtain rfl := hruns'.unique hother
    exact hagrees

theorem run_layout_negation :
    ∃ result result', Session.Runs {} "-nil;" result ∧ Session.Runs {} "// minus\n- nil ;\n" result'
      ∧ result.journal ≠ result'.journal ∧ result.machine = result'.machine
      ∧ ∃ ds es, result.journal = ({} : Journal).reportAll ds ∧ result'.journal = ({} : Journal).reportAll es
        ∧ Forall₂ Diagnostic.Agrees ds es := by
  have htokens : (scan "-nil;").tokens.map (Token.relocate flatten)
      = (scan "// minus\n- nil ;\n").tokens.map (Token.relocate flatten) := by
    decide +kernel
  have hlayout := run_layout {} "-nil;" "// minus\n- nil ;\n" (by decide +kernel) (by decide +kernel)
    ((map_eq_map_iff_forall₂.1 htokens).imp fun _ _ => Token.agrees_iff.2)
  have hruns : Session.Runs {} "-nil;"
      ⟨{}, { records := [⟨.running, some 1, .unspecified, "Operand of '-' must be a number."⟩] }⟩ :=
    ⟨0, by decide +kernel⟩
  have hruns' : Session.Runs {} "// minus\n- nil ;\n"
      ⟨{}, { records := [⟨.running, some 2, .unspecified, "Operand of '-' must be a number."⟩] }⟩ :=
    ⟨0, by decide +kernel⟩
  exact ⟨_, _, hruns, hruns', by decide, hlayout.2 _ _ hruns hruns'⟩

end Lox

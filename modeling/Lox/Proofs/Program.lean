import Lox.Proofs.Completeness
import Lox.Proofs.Soundness
/-!
# Programs without errors

A token list parses without errors exactly when the tokens before its end are declarations written one
after the other, and then the slots are the trees of these declarations. This puts the two directions
of the comparison together; what follows from it needs to know nothing of the rules any more.
-/

namespace Lox

/-- The tokens before the first end-of-input token. -/
def beforeEnd (tokens : List Token) : List Token :=
  tokens.takeWhile (·.kind != .eof)

theorem mem_of_mem_beforeEnd {tokens : List Token} {t : Token} (ht : t ∈ beforeEnd tokens) : t ∈ tokens :=
  (List.takeWhile_sublist _).subset ht

/-- The tokens are declarations one after the other, and the slots are their trees. -/
def ProgramForm (ts : List Token) (slots : List Slot) : Prop :=
  ∃ parts : List (List Token × Stmt), ts = parts.flatMap (·.1) ∧ slots = parts.map (fun p => some p.2)
    ∧ ∀ p ∈ parts, StmtForm Rule.maxNesting .declaration p.1 p.2

namespace Rule

variable {α : Type}

theorem map_of_ok {β : Type} {f : α → β} {rule : Rule α} {tokens rest : List Token} {a : α} {findings : List Finding}
    (h : rule tokens = ⟨.ok a, findings, rest⟩) : (f <$> rule) tokens = ⟨.ok (f a), findings, rest⟩ := by
  rw [map_eq_pure_bind, bind_of_ok h]
  simp [pure, Rule.pure]

def Total (rule : Rule α) : Prop :=
  ∀ tokens, ∃ a findings rest, rule tokens = ⟨.ok a, findings, rest⟩

theorem total_declaration (expression : Rule Expr) (statement : Rule Stmt) :
    Total (declaration expression statement) := by
  intro tokens
  rw [declaration, recovering]
  split
  · exact ⟨_, _, _, rfl⟩
  · exact ⟨_, _, _, rfl⟩

theorem total_unlessAt {stops : Token → Bool} {item : Rule α} (hitem : Total item) :
    Total (unlessAt stops item) := by
  intro tokens
  cases tokens with
  | nil => exact ⟨_, _, _, rfl⟩
  | cons token tokens =>
    obtain ⟨a, findings, rest, h⟩ := hitem (token :: tokens)
    rw [unlessAt]
    split
    · exact ⟨_, _, _, rfl⟩
    · exact ⟨_, _, _, map_of_ok h⟩

theorem total_many {item : Rule (Option α)} (hitem : Total item) : Total (many item) := by
  intro tokens
  induction hlength : tokens.length using Nat.strongRecOn generalizing tokens with
  | ind length ih =>
    obtain ⟨answer, findings, rest, h⟩ := hitem tokens
    rw [many, h]
    cases answer with
    | none => exact ⟨_, _, _, rfl⟩
    | some a =>
      dsimp only
      split
      next hlt =>
        obtain ⟨as, more, left, hmany⟩ := ih rest.length (hlength ▸ hlt) rest rfl
        rw [hmany]
        exact ⟨_, _, _, rfl⟩
      next => exact ⟨_, _, _, rfl⟩

theorem total_program : Total program :=
  total_many (total_unlessAt (total_declaration _ _))

theorem reads_program {tokens rest : List Token} {slots : List Slot} :
    program.Reads tokens slots rest ↔ rest = [] ∧ ProgramForm tokens slots := by
  constructor
  · exact slotsForm_of_program
  · intro h
    obtain ⟨rfl, parts, rfl, rfl, hparts⟩ := h
    have hstarts : ∀ p ∈ parts, ∃ token ts, p.1 = token :: ts ∧ token.kind ≠ .kwElse ∧ false = false := by
      intro p hp
      obtain ⟨token, ts, htokens, hkind⟩ := (hparts p hp).exists_head
      refine ⟨token, ts, htokens, ?_, rfl⟩
      intro helse
      simp [StmtForm.starts, ExprForm.starts, helse] at hkind
    have hreads := reads_declarations (fun p hp => readsAt_of_stmtForm (hparts p hp)) hstarts
      (by simp : nextKind [] ≠ some TokenKind.kwElse) (by simp)
    rw [List.append_nil] at hreads
    exact hreads.1

end Rule

theorem parse_eq_iff {tokens : List Token} {slots : List Slot} :
    parse tokens = ⟨slots, []⟩ ↔ ProgramForm (beforeEnd tokens) slots := by
  obtain ⟨answer, findings, rest, h⟩ := Rule.total_program (beforeEnd tokens)
  have hparse : parse tokens
      = ⟨answer, findings.map fun f => ⟨f.fault, f.token.getD (endToken tokens)⟩⟩ := by
    rw [beforeEnd] at h
    rw [parse, h]
    rfl
  rw [hparse, Parse.mk.injEq, List.map_eq_nil_iff]
  constructor
  · intro hslots
    obtain ⟨rfl, rfl⟩ := hslots
    exact (Rule.reads_program.1 h).2
  · intro hform
    have hread := Rule.reads_program.2 ⟨rfl, hform⟩
    rw [Rule.Reads, h, Reply.mk.injEq, Except.ok.injEq] at hread
    exact ⟨hread.1, hread.2.1⟩

theorem errors_eq_nil_iff {tokens : List Token} :
    (parse tokens).errors = [] ↔ ProgramForm (beforeEnd tokens) (parse tokens).slots := by
  rw [← parse_eq_iff]
  constructor
  · intro h
    rw [← h]
  · intro h
    rw [h]

end Lox

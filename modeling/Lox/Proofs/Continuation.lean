import Lox.Proofs.Progress
/-!
# Continuations

Declarations without errors are read the same whatever comes behind them, well-formed or not. No rule looks past
the token that completes a declaration, except for the `else` that may go on with a conditional, and nothing but
the tokens that are left is handed from one declaration to the next.
-/

namespace Lox

namespace Reply

variable {reply : Reply (List Slot)} {slots more : List Slot} {findings moreFindings : List Finding}

@[simp] theorem behind_nil : reply.behind [] [] = reply := by
  obtain ⟨result, findings, rest⟩ := reply
  cases result <;> rfl

theorem behind_behind : (reply.behind more moreFindings).behind slots findings
    = reply.behind (slots ++ more) (findings ++ moreFindings) := by
  obtain ⟨result, _, rest⟩ := reply
  cases result <;> simp [behind, Except.map]

end Reply

namespace Rule

/-- What is written in the form of declarations is read, and then the rest is read as if it stood alone. -/
theorem program_append {ts us : List Token} {slots : List Slot} (hform : ProgramForm ts slots)
    (helse : nextKind us ≠ some .kwElse) : program (ts ++ us) = (program us).behind slots [] := by
  obtain ⟨parts, rfl, rfl, hparts⟩ := hform
  -- What follows one of the parts starts with the next part, or is what comes behind all of them.
  suffices program (parts.flatMap (·.1) ++ us) = (program us).behind (parts.map fun p => some p.2) []
      ∧ nextKind (parts.flatMap (·.1) ++ us) ≠ some .kwElse from this.1
  induction parts with
  | nil => exact ⟨Reply.behind_nil.symm, helse⟩
  | cons p parts ih =>
    obtain ⟨hp, hparts⟩ := List.forall_mem_cons.1 hparts
    obtain ⟨hrest, hnext⟩ := ih hparts
    have hread := readsAt_of_stmtForm hp _ hnext
    obtain ⟨token, tokens, hcons, hstarts⟩ := hp.exists_head
    simp only [List.flatMap_cons, List.append_assoc, List.map_cons]
    rw [hcons, List.cons_append] at hread ⊢
    constructor
    · have hlt : (parts.flatMap (·.1) ++ us).length < (token :: (tokens ++ (parts.flatMap (·.1) ++ us))).length := by
        simp only [List.length_cons, List.length_append]
        omega
      rw [program, declarations_cons rfl hread hlt, ← program, hrest, Reply.behind_behind]
      rfl
    · intro heq
      simp [StmtForm.starts, ExprForm.starts, Option.some.inj heq] at hstarts

end Rule

theorem nextKind_beforeEnd {tokens : List Token} {kind : TokenKind} (h : nextKind (beforeEnd tokens) = some kind) :
    nextKind tokens = some kind := by
  cases tokens with
  | nil => exact h
  | cons token tokens =>
    rw [beforeEnd, List.takeWhile_cons] at h
    split at h
    · exact h
    · simp at h

/-- A front that parses without errors parses the same whatever comes behind it, unless that is an `else`: first
come the slots of the front, and then the slots and the errors of the rest parsed alone. -/
theorem parse_append {front tokens : List Token} (hfront : ∀ t ∈ front, t.kind ≠ .eof)
    (hclean : (parse front).errors = []) (helse : nextKind tokens ≠ some .kwElse) :
    parse (front ++ tokens) = ⟨(parse front).slots ++ (parse tokens).slots, (parse tokens).errors⟩ := by
  have hform := errors_eq_nil_iff.1 hclean
  rw [beforeEnd_of_unended hfront] at hform
  have hprogram := Rule.program_append hform fun h => helse (nextKind_beforeEnd h)
  exact parse_append_of_program hfront hprogram

/-- A conditional whose branch is a loop ends with its semicolon, also before tokens that make no declaration. -/
theorem parse_append_malformed :
    let front := (scan "if (a) while (b) print 1;").tokens.dropLast
    let tokens := (scan "\x7d print ) \x7b var").tokens
    (∀ t ∈ front, t.kind ≠ .eof) ∧ (parse front).errors = [] ∧ nextKind tokens ≠ some .kwElse
      ∧ (parse tokens).errors ≠ []
      ∧ parse (front ++ tokens) = ⟨(parse front).slots ++ (parse tokens).slots, (parse tokens).errors⟩ := by
  intro front tokens
  have hfront : ∀ t ∈ front, t.kind ≠ .eof := by decide +kernel
  have hclean : (parse front).errors = [] := by decide +kernel
  have helse : nextKind tokens ≠ some .kwElse := by decide +kernel
  exact ⟨hfront, hclean, helse, by decide +kernel, parse_append hfront hclean helse⟩

end Lox

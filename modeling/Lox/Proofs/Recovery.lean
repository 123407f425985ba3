import Lox.Proofs.Program
import Lox.Token.Scan
import Mathlib.Data.List.TakeWhile
/-!
# Recovery

A declaration at the top level that fails leaves a hole, and reading resumes further on. Where it resumes
depends on nothing but the tokens that the failure left, and what stands there is parsed as if it stood
alone.

The token that did not fit is dropped before a place to resume at is looked for. So a keyword that opens a
statement is resumed at when the failure came before it, but not when the failure came at the keyword
itself: then its statement is lost, too.
-/

namespace Lox

namespace Rule

/-! ### Where reading resumes -/

theorem resumeAfter_suffix (previous : Token) (tokens : List Token) : resumeAfter previous tokens <:+ tokens := by
  induction tokens generalizing previous with
  | nil => exact List.suffix_rfl
  | cons token tokens ih =>
    rw [resumeAfter]
    split
    · exact List.suffix_rfl
    · exact (ih token).trans (List.suffix_cons token tokens)

theorem resume_cons_suffix (token : Token) (tokens : List Token) : resume (token :: tokens) <:+ tokens :=
  resumeAfter_suffix token tokens

theorem resume_suffix (tokens : List Token) : resume tokens <:+ tokens := by
  cases tokens with
  | nil => exact List.suffix_rfl
  | cons token tokens => exact (resume_cons_suffix token tokens).trans (List.suffix_cons token tokens)

theorem length_resume_lt {tokens rest : List Token} (hrest : rest <:+ tokens) (hne : tokens ≠ []) :
    (resume rest).length < tokens.length := by
  have hpos := List.length_pos_iff.2 hne
  have hle := hrest.length_le
  cases rest with
  | nil => exact hpos
  | cons token rest =>
    have hdropped := (resume_cons_suffix token rest).length_le
    rw [List.length_cons] at hle
    omega

/-- Nothing stops the search between the token that did not fit and the first keyword behind it. -/
theorem resumeAfter_keyword {previous keyword : Token} {between behind : List Token}
    (hsemicolon : ∀ t ∈ previous :: between, t.kind ≠ .semicolon)
    (hbetween : ∀ t ∈ between, t.kind.startsStatement = false) (hkeyword : keyword.kind.startsStatement) :
    resumeAfter previous (between ++ keyword :: behind) = keyword :: behind := by
  induction between generalizing previous with
  | nil => rw [List.nil_append, resumeAfter, if_pos (.inr hkeyword)]
  | cons token between ih =>
    have hprevious := hsemicolon previous List.mem_cons_self
    have htoken := hbetween token List.mem_cons_self
    have hstays : ¬ (previous.kind = .semicolon ∨ token.kind.startsStatement) := by
      simp [hprevious, htoken]
    rw [List.cons_append, resumeAfter, if_neg hstays]
    apply ih
    · intro t ht
      exact hsemicolon t (List.mem_cons_of_mem _ ht)
    · intro t ht
      exact hbetween t (List.mem_cons_of_mem _ ht)

/-- A keyword is resumed at exactly if the failure was at a token before it. -/
theorem resume_eq_iff {skipped behind : List Token} {keyword : Token}
    (hsemicolon : ∀ t ∈ skipped, t.kind ≠ .semicolon)
    (hskipped : ∀ t ∈ skipped.tail, t.kind.startsStatement = false) (hkeyword : keyword.kind.startsStatement) :
    resume (skipped ++ keyword :: behind) = keyword :: behind ↔ skipped ≠ [] := by
  cases skipped with
  | nil =>
    have hlt := length_resume_lt (List.suffix_refl (keyword :: behind)) (List.cons_ne_nil keyword behind)
    have hne : resume (keyword :: behind) ≠ keyword :: behind := by
      intro heq
      rw [heq] at hlt
      omega
    simp [hne]
  | cons token between =>
    have hresumes : resumeAfter token (between ++ keyword :: behind) = keyword :: behind :=
      resumeAfter_keyword hsemicolon hskipped hkeyword
    simp [resume, hresumes]

/-! ### After a failure at the top level -/

end Rule

/-- The reply to declarations that stand behind others, of which the slots and findings are known. -/
def Reply.behind (slots : List Slot) (findings : List Finding) (reply : Reply (List Slot)) : Reply (List Slot) :=
  ⟨reply.result.map (slots ++ ·), findings ++ reply.findings, reply.rest⟩

namespace Rule

/-- The rule fails at the first of the tokens `rest`, after it has noted the given findings. -/
def Fails {α : Type} (rule : Rule α) (tokens : List Token) (fault : ParseFault) (findings : List Finding)
    (rest : List Token) : Prop :=
  rule tokens = ⟨.error fault, findings, rest⟩

instance {α : Type} (rule : Rule α) (tokens : List Token) (fault : ParseFault) (findings : List Finding)
    (rest : List Token) : Decidable (rule.Fails tokens fault findings rest) :=
  match h : rule tokens with
  | ⟨.ok _, _, _⟩ => .isFalse (by simp [Fails, h])
  | ⟨.error fault', findings', rest'⟩ =>
    decidable_of_iff (fault' = fault ∧ findings' = findings ∧ rest' = rest) (by simp [Fails, h])

theorem recovering_of_fails {α : Type} {rule : Rule α} {tokens rest : List Token} {fault : ParseFault}
    {findings : List Finding} (h : rule.Fails tokens fault findings rest) :
    recovering rule tokens = ⟨.ok none, findings ++ [⟨fault, rest.head?⟩], resume rest⟩ := by
  rw [recovering, h]

/-- A declaration at the top level, before a failure of it is mended. -/
def topDeclaration : Rule Stmt :=
  choose
    (fun token => if token.kind = .kwVar then some (variableDeclaration (expression maxNesting)) else none)
    (statement maxNesting)

theorem declarations_nil {stops : Token → Bool} {expression : Rule Expr} {statement : Rule Stmt} :
    declarations stops expression statement [] = ⟨.ok [], [], []⟩ := by
  rw [declarations, many, unlessAt]

/-- Behind a declaration that was read, mended or not, the reading of declarations goes on. -/
theorem declarations_cons {stops : Token → Bool} {expression : Rule Expr} {statement : Rule Stmt} {token : Token}
    {tokens rest : List Token} {slot : Slot} {findings : List Finding} (hgoes : stops token = false)
    (h : declaration expression statement (token :: tokens) = ⟨.ok slot, findings, rest⟩)
    (hlt : rest.length < (token :: tokens).length) :
    declarations stops expression statement (token :: tokens)
      = (declarations stops expression statement rest).behind [slot] findings := by
  have hitem : unlessAt stops (declaration expression statement) (token :: tokens)
      = ⟨.ok (some slot), findings, rest⟩ := by
    rw [unlessAt, hgoes, if_neg Bool.false_ne_true, map_of_ok h]
  rw [declarations, many, hitem]
  simp only [hlt, if_true]
  rfl

theorem program_of_failure {tokens rest : List Token} {fault : ParseFault} {findings : List Finding}
    (hfails : topDeclaration.Fails tokens fault findings rest) (hne : tokens ≠ []) (hrest : rest <:+ tokens) :
    program tokens = (program (resume rest)).behind [none] (findings ++ [⟨fault, rest.head?⟩]) := by
  have hlt := length_resume_lt hrest hne
  obtain ⟨token, tail, rfl⟩ := List.exists_cons_of_ne_nil hne
  exact declarations_cons rfl (recovering_of_fails hfails) hlt

end Rule

/-- The error that a finding becomes, when the input ends with the given token. -/
def Finding.error (last : Token) (f : Finding) : ParseError :=
  ⟨f.fault, f.token.getD last⟩

theorem parse_eq_of_program {tokens : List Token} {slots : List Slot} {findings : List Finding} {rest : List Token}
    (h : Rule.program (beforeEnd tokens) = ⟨.ok slots, findings, rest⟩) :
    parse tokens = ⟨slots, findings.map (Finding.error (endToken tokens))⟩ := by
  rw [beforeEnd] at h
  rw [parse, h]
  rfl

theorem beforeEnd_append {front tokens : List Token} (hfront : ∀ t ∈ front, t.kind ≠ .eof) :
    beforeEnd (front ++ tokens) = front ++ beforeEnd tokens :=
  List.takeWhile_append_of_pos (by simpa using hfront)

theorem beforeEnd_of_unended {tokens : List Token} (hends : ∀ t ∈ tokens, t.kind ≠ .eof) : beforeEnd tokens = tokens :=
  List.takeWhile_eq_self_iff.2 (by simpa using hends)

/-- Where tokens end depends on nothing before them. -/
theorem endToken_append {front tokens : List Token} (hfront : ∀ t ∈ front, t.kind ≠ .eof) (hne : tokens ≠ []) :
    endToken (front ++ tokens) = endToken tokens := by
  have hnone : front.find? (·.kind == .eof) = none := by simpa using hfront
  have hlast : (front ++ tokens).getLast? = tokens.getLast? := by
    rw [List.getLast?_append, List.getLast?_eq_some_getLast hne, Option.some_or]
  rw [endToken, endToken, List.find?_append, hnone, Option.none_or, hlast]

/-- The same findings become the same errors, provided that at the end of input, where the line of a supplied end
would differ, nothing is found. -/
theorem map_error_append {front tokens : List Token} {findings : List Finding} (hfront : ∀ t ∈ front, t.kind ≠ .eof)
    (hnil : tokens = [] → findings = []) :
    findings.map (Finding.error (endToken (front ++ tokens))) = findings.map (Finding.error (endToken tokens)) := by
  cases tokens with
  | nil => rw [hnil rfl, List.map_nil, List.map_nil]
  | cons token tokens => rw [endToken_append hfront (List.cons_ne_nil token tokens)]

/-- Where the program of the whole goes on as that of its last part, the last part is parsed as if it stood alone. -/
theorem parse_append_of_program {front tokens : List Token} {slots : List Slot} {findings : List Finding}
    (hfront : ∀ t ∈ front, t.kind ≠ .eof)
    (h : Rule.program (front ++ beforeEnd tokens) = (Rule.program (beforeEnd tokens)).behind slots findings) :
    parse (front ++ tokens) = ⟨slots ++ (parse tokens).slots,
      findings.map (Finding.error (endToken (front ++ tokens))) ++ (parse tokens).errors⟩ := by
  obtain ⟨more, moreFindings, rest, hprogram⟩ := Rule.total_program (beforeEnd tokens)
  rw [hprogram, ← beforeEnd_append hfront] at h
  have herrors : moreFindings.map (Finding.error (endToken (front ++ tokens)))
      = moreFindings.map (Finding.error (endToken tokens)) := by
    apply map_error_append hfront
    rintro rfl
    exact (Reply.mk.inj (Rule.declarations_nil.symm.trans hprogram)).2.1.symm
  rw [parse_eq_of_program h, parse_eq_of_program hprogram, List.map_append, herrors]

/-- After a failure at the top level the tokens at which reading resumes are parsed as if they stood alone. -/
theorem parse_of_failure {tokens rest : List Token} {fault : ParseFault} {findings : List Finding}
    (hends : ∀ t ∈ tokens, t.kind ≠ .eof)
    (hfails : Rule.topDeclaration.Fails tokens fault findings rest) (hne : tokens ≠ []) (hrest : rest <:+ tokens) :
    parse tokens = ⟨none :: (parse (Rule.resume rest)).slots,
      (findings ++ [(⟨fault, rest.head?⟩ : Finding)]).map (Finding.error (endToken tokens))
        ++ (parse (Rule.resume rest)).errors⟩ := by
  have hprogram := Rule.program_of_failure hfails hne hrest
  obtain ⟨front, rfl⟩ := (Rule.resume_suffix rest).trans hrest
  obtain ⟨hfront, hresumed⟩ := List.forall_mem_append.1 hends
  have hparse := @parse_append_of_program front (Rule.resume rest) [none] (findings ++ [⟨fault, rest.head?⟩]) hfront
  rw [beforeEnd_of_unended hresumed] at hparse
  exact hparse hprogram

/-- The declaration that starts with `front` fails at the first of the tokens `skipped ++ after`. A keyword that
opens a statement comes first in `after`, and before it no other place to resume at is skipped. -/
structure BreaksOff (front skipped after : List Token) (fault : ParseFault) (findings : List Finding) : Prop where
  started : front ++ skipped ≠ []
  unended : ∀ t ∈ front ++ skipped ++ after, t.kind ≠ .eof
  keyword : after.head?.any (·.kind.startsStatement)
  semicolons : ∀ t ∈ skipped, t.kind ≠ .semicolon
  keywords : ∀ t ∈ skipped.tail, t.kind.startsStatement = false
  fails : Rule.topDeclaration.Fails (front ++ skipped ++ after) fault findings (skipped ++ after)

/-- A declaration that breaks off leaves one hole and its own errors, and what stands where reading resumes is
parsed as if it stood alone. That is at the keyword exactly if the failure came before the keyword. -/
theorem parse_of_breaksOff {front skipped after : List Token} {fault : ParseFault} {findings : List Finding}
    (h : BreaksOff front skipped after fault findings) :
    parse (front ++ skipped ++ after) = ⟨none :: (parse (Rule.resume (skipped ++ after))).slots,
      (findings ++ [(⟨fault, (skipped ++ after).head?⟩ : Finding)]).map
          (Finding.error (endToken (front ++ skipped ++ after)))
        ++ (parse (Rule.resume (skipped ++ after))).errors⟩
      ∧ (Rule.resume (skipped ++ after) = after ↔ skipped ≠ []) := by
  obtain ⟨token, behind, rfl⟩ : ∃ token behind, after = token :: behind := by
    cases after with
    | nil => simpa using h.keyword
    | cons token behind => exact ⟨token, behind, rfl⟩
  have hkeyword : token.kind.startsStatement := h.keyword
  have hne : front ++ skipped ++ token :: behind ≠ [] := by simp
  have hrest : skipped ++ token :: behind <:+ front ++ skipped ++ token :: behind := by
    rw [List.append_assoc]
    exact List.suffix_append _ _
  exact ⟨parse_of_failure h.unended h.fails hne hrest, Rule.resume_eq_iff h.semicolons h.keywords hkeyword⟩

/-- In `print 1 2 print 3;` the failure comes before the second keyword, and its statement is read. -/
theorem parse_of_breaksOff_before_keyword :
    let front := (scan "print 1").tokens.dropLast
    let skipped := (scan "2").tokens.dropLast
    let after := (scan "print 3;").tokens.dropLast
    BreaksOff front skipped after (.missing .semicolon .printedValue) []
      ∧ Rule.resume (skipped ++ after) = after
      ∧ (parse (front ++ skipped ++ after)).slots = none :: (parse after).slots := by
  intro front skipped after
  have hbreaks : BreaksOff front skipped after (.missing .semicolon .printedValue) [] := {
    started := by decide +kernel
    unended := by decide +kernel
    keyword := by decide +kernel
    semicolons := by decide +kernel
    keywords := by decide +kernel
    fails := by decide +kernel }
  obtain ⟨hparse, hresume⟩ := parse_of_breaksOff hbreaks
  have hat := hresume.2 (by decide +kernel)
  rw [hat] at hparse
  exact ⟨hbreaks, hat, congrArg Parse.slots hparse⟩

/-- In `print 1 print 2;` the failure comes at the second keyword, and its statement is lost, although it has no
error when it is parsed alone. -/
theorem statement_lost_at_keyword :
    let front := (scan "print 1").tokens.dropLast
    let after := (scan "print 2;").tokens.dropLast
    BreaksOff front [] after (.missing .semicolon .printedValue) [] ∧ (parse after).errors = []
      ∧ (parse (front ++ after)).slots ≠ none :: (parse after).slots := by
  intro front after
  refine ⟨?_, by decide +kernel, ?_⟩
  · exact {
      started := by decide +kernel
      unended := by decide +kernel
      keyword := by decide +kernel
      semicolons := by decide +kernel
      keywords := by decide +kernel
      fails := by decide +kernel }
  · intro heq
    have hlengths : (parse (front ++ after)).slots.length ≠ (parse after).slots.length + 1 := by decide +kernel
    exact hlengths (congrArg List.length heq)

end Lox

import Lox.Proofs.Course
import Lox.Proofs.CursorReading
import Mathlib.Data.List.Perm.Subperm
/-!
# No token is blamed twice

A fault is blamed on a token that is passed afterwards, or on an equals sign that was passed before, and no token is
passed twice. So every token is blamed at most once, and the faults that declarations are given up for are found in
the order of the tokens. Only the end can be blamed more than once. This happens when blocks are left open, once for
each of them, and the limit on nesting bounds how many there are.
-/

namespace Lox

open List

/-! ### Blame in the course of a reading -/

/-- What can be blamed when the tokens `used` are used up: each of them once, and the end `n` times. -/
def places (n : Nat) (used : List Token) : List (Option Token) :=
  used.map some ++ replicate n none

/-- How blame falls when the tokens `used` are used up and `rest` is left. -/
structure Blames (n : Nat) (used rest : List Token) (findings : List Finding) : Prop where
  once : findings.map (·.token) <+~ places n used
  inOrder : (findings.filter (·.fault.fatal)).map (·.token) <+ places n used
  atEnd : none ∈ findings.map (·.token) → rest = []

section Places

variable {n : Nat} {used : List Token} {l : List (Option Token)}

theorem places_cons {token : Token} : places n (token :: used) = some token :: places n used :=
  rfl

theorem places_append {used' : List Token} : places n (used ++ used') = used.map some ++ places n used' := by
  rw [places, map_append, append_assoc, places]

theorem sublist_of_none_not_mem (h : l <+ places n used) (hnone : none ∉ l) : l <+ used.map some := by
  obtain ⟨front, back, rfl, hfront, hback⟩ := sublist_append_iff.1 h
  have hnil : back = [] := by
    rw [eq_nil_iff_forall_not_mem]
    intro t ht
    have heq := eq_of_mem_replicate (hback.subset ht)
    exact hnone (mem_append_right front (heq ▸ ht))
  rwa [hnil, append_nil]

theorem subperm_of_none_not_mem (h : l <+~ places n used) (hnone : none ∉ l) : l <+~ used.map some := by
  obtain ⟨l', hperm, hsublist⟩ := h
  exact ⟨l', hperm, sublist_of_none_not_mem hsublist fun hmem => hnone (hperm.subset hmem)⟩

end Places

namespace Blames

variable {n : Nat} {used used' mid rest : List Token} {token : Token} {fault : ParseFault}
  {findings more : List Finding}

theorem nil : Blames n [] rest [] :=
  ⟨nil_subperm, nil_sublist _, by simp⟩

theorem pass (h : Blames n used rest findings) : Blames n (token :: used) rest findings where
  once := h.once.trans (sublist_cons_self _ _).subperm
  inOrder := h.inOrder.cons _
  atEnd := h.atEnd

theorem target (h : Blames n used rest findings) :
    Blames n (token :: used) rest (findings ++ [⟨.invalidTarget, some token⟩]) where
  once := by
    rw [map_append, places_cons]
    exact (perm_append_singleton _ _).subperm.trans ((subperm_cons _).2 h.once)
  inOrder := by
    rw [filter_append, filter_singleton, places_cons]
    simpa [ParseFault.fatal] using h.inOrder.cons (some token)
  atEnd := by simpa using h.atEnd

theorem seq (h : Blames n used mid findings) (h' : Blames n used' rest more)
    (hnil : mid = [] → used' = [] ∧ more = [] ∧ rest = []) : Blames n (used ++ used') rest (findings ++ more) := by
  -- If the first part has blamed the end already, the second part has nothing to blame. Otherwise the first part has
  -- blamed tokens only, so that the end is left to the second one.
  by_cases hnone : none ∈ findings.map (·.token)
  · obtain ⟨rfl, rfl, rfl⟩ := hnil (h.atEnd hnone)
    rw [append_nil, append_nil]
    exact ⟨h.once, h.inOrder, fun _ => rfl⟩
  · have hnone' : none ∉ (findings.filter (·.fault.fatal)).map (·.token) :=
      fun hmem => hnone ((filter_sublist.map _).subset hmem)
    refine ⟨?_, ?_, ?_⟩
    · rw [map_append, places_append]
      exact (subperm_of_none_not_mem h.once hnone).append h'.once
    · rw [filter_append, map_append, places_append]
      exact (sublist_of_none_not_mem h.inOrder hnone').append h'.inOrder
    · rw [map_append, mem_append]
      exact fun hmem => h'.atEnd (hmem.resolve_left hnone)

/-- A failure at the end is blamed on it once more. -/
theorem hole_nil (h : Blames n used [] findings) (hfault : fault.fatal) :
    Blames (n + 1) used [] (findings ++ [⟨fault, none⟩]) := by
  have hplaces : places (n + 1) used = places n used ++ [none] := by
    rw [places, replicate_succ', ← append_assoc, ← places]
  refine ⟨?_, ?_, fun _ => rfl⟩
  · rw [map_append, hplaces]
    exact h.once.append (Subperm.refl _)
  · rw [filter_append, filter_singleton, hfault, map_append, hplaces]
    exact h.inOrder.append (Sublist.refl _)

/-- A token that a failure is blamed on is used up with it. -/
theorem hole_cons {skipped : List Token} (h : Blames n used (token :: mid) findings) (hfault : fault.fatal) :
    Blames (n + 1) (used ++ token :: skipped) rest (findings ++ [⟨fault, some token⟩]) := by
  have hnone : none ∉ findings.map (·.token) := by
    intro hmem
    simpa using h.atEnd hmem
  have hnone' : none ∉ (findings.filter (·.fault.fatal)).map (·.token) :=
    fun hmem => hnone ((filter_sublist.map _).subset hmem)
  have hlast : [some token] <+ places (n + 1) (token :: skipped) := by
    rw [places_cons]
    exact (nil_sublist _).cons_cons _
  refine ⟨?_, ?_, ?_⟩
  · rw [map_append, places_append]
    exact (subperm_of_none_not_mem h.once hnone).append hlast.subperm
  · rw [filter_append, filter_singleton, hfault, map_append, places_append]
    exact (sublist_of_none_not_mem h.inOrder hnone').append hlast
  · intro hmem
    rw [map_append, mem_append] at hmem
    simpa using hmem.resolve_left hnone

end Blames

theorem Course.blames {n holes : Nat} {tokens rest : List Token} {outcome : Except ParseFault Nat}
    {findings : List Finding} (h : Course n holes tokens outcome findings rest) :
    ∃ used, tokens = used ++ rest ∧ Blames n used rest findings := by
  induction h with
  | stay => exact ⟨[], rfl, .nil⟩
  | fail => exact ⟨[], rfl, .nil⟩
  | @pass _ _ token _ _ _ _ _ ih =>
    obtain ⟨used, rfl, hblames⟩ := ih
    exact ⟨token :: used, rfl, hblames.pass⟩
  | @target _ _ _ equals _ _ _ _ ih =>
    obtain ⟨used, rfl, hblames⟩ := ih
    exact ⟨equals :: used, rfl, hblames.target⟩
  | seq _ hsecond ih ih' =>
    obtain ⟨used, rfl, hblames⟩ := ih
    obtain ⟨used', rfl, hblames'⟩ := ih'
    refine ⟨used ++ used', (append_assoc _ _ _).symm, hblames.seq hblames' ?_⟩
    intro hnil
    obtain ⟨rfl, rfl⟩ := append_eq_nil_iff.1 hnil
    exact ⟨rfl, (hsecond.of_nil rfl).1, rfl⟩
  | @hole _ _ _ rest fault _ _ hfails ih =>
    obtain ⟨used, rfl, hblames⟩ := ih
    have hfault : fault.fatal := by simpa [ParseFault.fatal] using hfails.fault_ne
    cases rest with
    | nil => exact ⟨used, rfl, hblames.hole_nil hfault⟩
    | cons token left =>
      obtain ⟨skipped, hskipped⟩ := Rule.resume_cons_suffix token left
      refine ⟨used ++ token :: skipped, ?_, hblames.hole_cons hfault⟩
      rw [append_assoc, cons_append, hskipped]

/-! ### Blame in programs -/

/-- What the errors of a token list can be blamed on: every token before its end once, and the end as often as failures
can be mended one inside the other. -/
def blamable (tokens : List Token) : List Token :=
  beforeEnd tokens ++ replicate (Rule.maxNesting + 1) (endToken tokens)

theorem map_places (tokens used : List Token) (n : Nat) :
    (places n used).map (·.getD (endToken tokens)) = used ++ replicate n (endToken tokens) := by
  simp [places, Function.comp_def]

/-- Blame falls on different places, and that of the faults that declarations are given up for in the order of these
places. Here tokens may be equal. -/
theorem blame_of_parse (tokens : List Token) :
    (parse tokens).errors.map (·.token) <+~ blamable tokens
      ∧ ((parse tokens).errors.filter (·.fault.fatal)).map (·.token) <+ blamable tokens := by
  obtain ⟨findings, rest, herrors, hcourse⟩ := course_of_parse tokens
  obtain ⟨used, hused, hblames⟩ := hcourse.blames
  have hsublist : (places (Rule.maxNesting + 1) used).map (·.getD (endToken tokens)) <+ blamable tokens := by
    rw [map_places, blamable, hused]
    exact (sublist_append_left used rest).append (Sublist.refl _)
  rw [herrors]
  constructor
  · obtain ⟨l, hperm, hl⟩ := hblames.once
    refine ⟨l.map (·.getD (endToken tokens)), ?_, (hl.map _).trans hsublist⟩
    simpa [Finding.error, Function.comp_def] using hperm.map (·.getD (endToken tokens))
  · refine Sublist.trans ?_ hsublist
    simpa [Finding.error, Function.comp_def, filter_map] using hblames.inOrder.map (·.getD (endToken tokens))

/-! ### Positions -/

section Positions

variable {tokens : List Token}

theorem endToken_not_mem_beforeEnd : endToken tokens ∉ beforeEnd tokens :=
  fun hmem => kind_ne_eof_of_mem_beforeEnd hmem (endToken_kind tokens)

/-- Tokens on lines that increase are all different. -/
theorem nodup_beforeEnd (hlines : tokens.Pairwise fun t t' => t.line < t'.line) : (beforeEnd tokens).Nodup := by
  refine (hlines.sublist (takeWhile_sublist _)).imp ?_
  rintro t _ hlt rfl
  exact Nat.lt_irrefl _ hlt

theorem filter_blamable : (blamable tokens).filter (·.kind ≠ .eof) = beforeEnd tokens := by
  have hbefore : (beforeEnd tokens).filter (·.kind ≠ .eof) = beforeEnd tokens := by
    rw [filter_eq_self]
    intro t ht
    simpa using kind_ne_eof_of_mem_beforeEnd ht
  rw [blamable, filter_append, hbefore]
  simp [endToken_kind]

/-- The places that can be blamed stand in the order of their positions. -/
theorem pairwise_blamable (hnodup : (beforeEnd tokens).Nodup) :
    (blamable tokens).Pairwise fun t t' => (upToEnd tokens).idxOf t < (upToEnd tokens).idxOf t'
      ∨ t = endToken tokens ∧ t' = endToken tokens := by
  have hindex : ∀ t ∈ beforeEnd tokens, (upToEnd tokens).idxOf t = (beforeEnd tokens).idxOf t :=
    fun t ht => idxOf_append_of_mem ht
  have hend : (upToEnd tokens).idxOf (endToken tokens) = (beforeEnd tokens).length := by
    rw [upToEnd, idxOf_append_of_notMem endToken_not_mem_beforeEnd]
    simp
  rw [blamable, pairwise_append]
  refine ⟨?_, ?_, ?_⟩
  · rw [pairwise_iff_getElem]
    intro i j hi hj hlt
    rw [hindex _ (getElem_mem hi), hindex _ (getElem_mem hj), hnodup.idxOf_getElem, hnodup.idxOf_getElem]
    exact .inl hlt
  · rw [pairwise_replicate]
    exact .inr (.inr ⟨rfl, rfl⟩)
  · intro t ht t' ht'
    rw [eq_of_mem_replicate ht', hend, hindex t ht]
    exact .inl (idxOf_lt_length_of_mem ht)

end Positions

/-- If every token is on a line of its own, below the one before, no two errors are blamed on one token, except at the
end. The errors that declarations are given up for come in the order of the tokens, and only the end is blamed by more
than one of them. All errors together are no more than the tokens before the end and the levels of nesting, and one. -/
theorem blamed_once {tokens : List Token} (hlines : tokens.Pairwise fun t t' => t.line < t'.line) :
    (∀ e ∈ (parse tokens).errors, e.token ∈ upToEnd tokens)
    ∧ (parse tokens).errors.Pairwise (fun e e' => e.token = e'.token → e.token.kind = .eof)
    ∧ ((parse tokens).errors.filter fun e => e.fault.message ≠ "Invalid assignment target.").Pairwise (fun e e' =>
        (upToEnd tokens).idxOf e.token < (upToEnd tokens).idxOf e'.token
          ∨ e.token = endToken tokens ∧ e'.token = endToken tokens)
    ∧ (parse tokens).errors.length ≤ (beforeEnd tokens).length + Rule.maxNesting + 1 := by
  obtain ⟨honce, hinOrder⟩ := blame_of_parse tokens
  have hnodup := nodup_beforeEnd hlines
  refine ⟨?_, ?_, ?_, ?_⟩
  · intro e he
    have hmem := honce.subset (mem_map_of_mem he)
    rw [blamable, mem_append] at hmem
    rw [upToEnd, mem_append, mem_singleton]
    exact hmem.imp_right eq_of_mem_replicate
  · have hdifferent : (((parse tokens).errors.map (·.token)).filter (·.kind ≠ .eof)).Nodup := by
      obtain ⟨l, hperm, hl⟩ := honce.filter (·.kind ≠ .eof)
      rw [filter_blamable] at hl
      exact hperm.nodup_iff.1 (hnodup.sublist hl)
    rw [Nodup, pairwise_filter, pairwise_map] at hdifferent
    refine hdifferent.imp ?_
    intro e e' hne heq
    by_contra hkind
    exact hne (by simpa using hkind) (by simpa [← heq] using hkind) heq
  · simp only [← ParseFault.fatal_eq]
    have hpairwise := (pairwise_blamable hnodup).sublist hinOrder
    rwa [pairwise_map] at hpairwise
  · have hlength := honce.length_le
    rw [length_map, blamable, length_append, length_replicate] at hlength
    omega

/-- An equals sign is blamed after it was passed, then the parenthesis behind the value, and then the end, by the
declaration that is cut off and by the block that is left open. -/
theorem blamed_once_open_block :
    let tokens := (scan "\x7b\n1\n=\n2\n)\nvar\n").tokens
    tokens.Pairwise (fun t t' => t.line < t'.line)
    ∧ (parse tokens).errors.map (·.token.kind) = [.equal, .rightParen, .eof, .eof]
    ∧ (parse tokens).errors.Pairwise (fun e e' => e.token = e'.token → e.token.kind = .eof)
    ∧ (parse tokens).errors.length ≤ (beforeEnd tokens).length + Rule.maxNesting + 1 := by
  intro tokens
  have hlines : tokens.Pairwise fun t t' => t.line < t'.line := by decide +kernel
  obtain ⟨-, hdifferent, -, hlength⟩ := blamed_once hlines
  exact ⟨hlines, by decide +kernel, hdifferent, hlength⟩

end Lox

import Lox.Proofs.Course
import Lox.Token.Scan
/-!
# Holes and errors

Every hole comes from a fault that a declaration was given up for. The converse holds only of all of them together:
the holes in a block are gone when the block itself fails, but then there is a hole in the place of the block. So
there are at most as many holes as such faults, and at least one if there is any. Faults of assignment targets leave
no holes.
-/

namespace Lox

/-- There are at most as many new holes as faults that declarations were given up for, and there is one if there was
any such fault. -/
theorem Course.holes_bounds {n holes after : Nat} {tokens rest : List Token} {findings : List Finding}
    (h : Course n holes tokens (.ok after) findings rest) :
    holes ≤ after ∧ after ≤ holes + (findings.filter (·.fault.fatal)).length
      ∧ (findings.filter (·.fault.fatal) ≠ [] → holes < after) := by
  generalize houtcome : Except.ok after = outcome at h
  induction h generalizing after with
  | stay =>
    obtain rfl := Except.ok.inj houtcome
    simp
  | fail => simp at houtcome
  | pass _ ih => exact ih houtcome
  | target _ ih => simpa [ParseFault.fatal] using ih houtcome
  | seq _ _ ih ih' =>
    obtain ⟨hle, hlength, hlt⟩ := ih rfl
    obtain ⟨hle', hlength', hlt'⟩ := ih' houtcome
    rw [List.filter_append, List.length_append, Ne, List.append_eq_nil_iff, not_and_or]
    refine ⟨hle.trans hle', by omega, ?_⟩
    rintro (hfirst | hsecond)
    · exact (hlt hfirst).trans_le hle'
    · exact hle.trans_lt (hlt' hsecond)
  | @hole _ holes _ rest fault findings _ hfails _ =>
    obtain rfl := Except.ok.inj houtcome
    have hfatal : fault.fatal := by simpa [ParseFault.fatal] using hfails.fault_ne
    rw [List.filter_append, List.filter_singleton, hfatal, List.length_append]
    simp

/-- There are at most as many holes, at the top level and inside of all blocks, as errors other than those of assignment
targets, and at least one if there is such an error. So without errors there are no holes, and where there are no
holes, all errors there may be are of assignment targets. -/
theorem holes_of_errors (tokens : List Token) :
    let holes := Stmt.slotHoles (parse tokens).slots
    let errors := (parse tokens).errors
    let others := errors.filter fun e => e.fault.message ≠ "Invalid assignment target."
    holes ≤ others.length ∧ (others ≠ [] → 0 < holes) ∧ (errors = [] → holes = 0)
      ∧ (holes = 0 → ∀ e ∈ errors, e.fault.message = "Invalid assignment target.") := by
  intro holes errors others
  obtain ⟨findings, rest, herrors, hcourse⟩ := course_of_parse tokens
  obtain ⟨-, hbound, hsome⟩ := hcourse.holes_bounds
  have hothers : others = (findings.filter (·.fault.fatal)).map (Finding.error (endToken tokens)) := by
    simp only [others, errors, herrors, ← ParseFault.fatal_eq, List.filter_map]
    rfl
  have hle : holes ≤ others.length := by
    rw [hothers, List.length_map]
    rwa [Nat.zero_add] at hbound
  have hpos : others ≠ [] → 0 < holes := by
    rw [hothers, Ne, List.map_eq_nil_iff]
    exact hsome
  refine ⟨hle, hpos, ?_, ?_⟩
  · intro hnil
    simpa [others, hnil] using hle
  · intro hzero
    have hnone : others = [] := by
      by_contra hne
      exact Nat.ne_of_gt (hpos hne) hzero
    simpa [others, List.filter_eq_nil_iff] using hnone

/-- The first block has a hole in it. The second one had another, but it is not closed, and so it is a hole itself. -/
theorem holes_of_errors_open_block :
    let tokens := (scan "1 = 2; \x7b var = 1; print 2; \x7d \x7b print ; 3;").tokens
    let others := (parse tokens).errors.filter fun e => e.fault.message ≠ "Invalid assignment target."
    others.length = 3 ∧ Stmt.slotHoles (parse tokens).slots = 2
      ∧ Stmt.slotHoles (parse tokens).slots ≤ others.length
      ∧ others ≠ [] ∧ 0 < Stmt.slotHoles (parse tokens).slots := by
  intro tokens others
  obtain ⟨hle, hpos, -⟩ := holes_of_errors tokens
  have hne : others ≠ [] := by decide +kernel
  exact ⟨by decide +kernel, by decide +kernel, hle, hne, hpos hne⟩

end Lox

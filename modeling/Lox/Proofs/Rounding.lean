import Lox.Number.Shortest
import Mathlib
/-!
# Rounding to the nearest double

The values of the codes increase strictly (`strictMono_units`), so every value lies between the values of
one code and the next (`codeBelow_eq`). From this follows all that is known here of `nearestCode`: the
value of a code rounds to that code (`nearestCode_units`), and the result depends only on the ratio of the
two arguments (`nearestCode_congr`). The shortest decimal of a code is then one that rounds to it
(`reads_shortest`), and it has no zero at the end of a fraction (`significand_mod_ten`).
-/

namespace Lox

namespace Number

/-! ### The values of codes -/

theorem units_of_lt {code : Nat} (h : code < 2 ^ 52) : units code = code := by
  rw [units, if_pos (by simpa only [Nat.pow_eq] using h)]

/-- A code from `2 ^ 52` on is a significand of 53 bits and a shift. The first significand of the next
shift may be written with this one. -/
theorem units_eq (shift : Nat) {q : Nat} (hlow : 2 ^ 52 ≤ q) (hhigh : q ≤ 2 ^ 53) :
    units (shift * 2 ^ 52 + q) = q * 2 ^ shift := by
  have hlarge : ¬ shift * 2 ^ 52 + q < 2 ^ 52 := by omega
  simp only [units, Nat.pow_eq, if_neg hlarge]
  obtain hq | rfl := Nat.lt_or_eq_of_le hhigh
  · have hdiv : (shift * 2 ^ 52 + q) / 2 ^ 52 - 1 = shift := by omega
    have hmod : 2 ^ 52 + (shift * 2 ^ 52 + q) % 2 ^ 52 = q := by omega
    rw [hdiv, hmod]
  · have hdiv : (shift * 2 ^ 52 + 2 ^ 53) / 2 ^ 52 - 1 = shift + 1 := by omega
    have hmod : 2 ^ 52 + (shift * 2 ^ 52 + 2 ^ 53) % 2 ^ 52 = 2 ^ 52 := by omega
    rw [hdiv, hmod, Nat.pow_succ]
    ring

theorem units_lt_succ (code : Nat) : units code < units (code + 1) := by
  by_cases hsmall : code < 2 ^ 52
  · by_cases hnext : code + 1 < 2 ^ 52
    · rw [units_of_lt hsmall, units_of_lt hnext]
      exact Nat.lt_succ_self code
    · have hcode : code + 1 = 0 * 2 ^ 52 + 2 ^ 52 := by omega
      rw [units_of_lt hsmall, hcode, units_eq 0 le_rfl (by decide)]
      omega
  · obtain ⟨shift, q, rfl, hlow, hhigh⟩ : ∃ shift q, code = shift * 2 ^ 52 + q ∧ 2 ^ 52 ≤ q ∧ q < 2 ^ 53 :=
      ⟨code / 2 ^ 52 - 1, code % 2 ^ 52 + 2 ^ 52, by omega, by omega, by omega⟩
    rw [Nat.add_assoc, units_eq shift hlow hhigh.le, units_eq shift (by omega) hhigh]
    exact Nat.mul_lt_mul_of_pos_right (Nat.lt_succ_self q) (Nat.two_pow_pos shift)

theorem strictMono_units : StrictMono units :=
  strictMono_nat_of_lt_succ units_lt_succ

theorem units_codeBelow (n : Nat) : units (codeBelow n) ≤ n ∧ n < units (codeBelow n + 1) := by
  simp only [codeBelow, Nat.pow_eq]
  by_cases hsmall : n < 2 ^ 52
  · have hlog : n.log2 - 52 = 0 := by
      obtain rfl | hn := Nat.eq_zero_or_pos n
      · simp
      · have := (Nat.log2_lt hn.ne').2 hsmall
        omega
    have hlt := units_lt_succ n
    rw [hlog, Nat.zero_mul, Nat.zero_add, Nat.pow_zero, Nat.div_one]
    rw [units_of_lt hsmall] at hlt ⊢
    exact ⟨le_rfl, hlt⟩
  · have hn : n ≠ 0 := by omega
    have hle : 52 ≤ n.log2 := by
      by_contra hlt
      exact hsmall ((Nat.log2_lt hn).1 (by omega))
    obtain ⟨shift, hshift⟩ : ∃ shift, n.log2 = shift + 52 := ⟨n.log2 - 52, by omega⟩
    have hlow : 2 ^ 52 ≤ n / 2 ^ shift := by
      rw [Nat.le_div_iff_mul_le (Nat.two_pow_pos shift), ← pow_add, Nat.add_comm, ← hshift]
      exact Nat.log2_self_le hn
    have hhigh : n / 2 ^ shift < 2 ^ 53 := by
      rw [Nat.div_lt_iff_lt_mul (Nat.two_pow_pos shift), ← pow_add,
        show 53 + shift = n.log2 + 1 by omega]
      exact Nat.lt_log2_self
    rw [hshift, Nat.add_sub_cancel, Nat.add_assoc, units_eq shift hlow hhigh.le,
      units_eq shift (by omega) hhigh]
    exact ⟨Nat.div_mul_le_self n (2 ^ shift), (Nat.div_lt_iff_lt_mul (Nat.two_pow_pos shift)).1 (Nat.lt_succ_self _)⟩

theorem codeBelow_eq {code n : Nat} (hlow : units code ≤ n) (hhigh : n < units (code + 1)) :
    codeBelow n = code := by
  obtain ⟨hbelow, habove⟩ := units_codeBelow n
  have hle := strictMono_units.lt_iff_lt.1 (hlow.trans_lt habove)
  have hge := strictMono_units.lt_iff_lt.1 (hbelow.trans_lt hhigh)
  omega

/-! ### The nearest code -/

theorem nearestCode_units {code den : Nat} (hcode : code ≤ infinityCode) (hden : 0 < den) :
    nearestCode (units code * den) den = code := by
  have hlt := units_lt_succ code
  have hbelow : codeBelow (units code) = code := codeBelow_eq le_rfl hlt
  have hcompare : compare (2 * (units code * den)) ((units code + units (code + 1)) * den) = .lt := by
    rw [Nat.compare_eq_lt]
    calc 2 * (units code * den) = (units code + units code) * den := by ring
      _ < (units code + units (code + 1)) * den :=
        Nat.mul_lt_mul_of_pos_right (Nat.add_lt_add_left hlt _) hden
  simp only [nearestCode, Nat.mul_div_cancel _ hden, hbelow, hcompare, Nat.min_eq_left hcode]

theorem nearestCode_scale (num den : Nat) {k : Nat} (hk : 0 < k) :
    nearestCode (num * k) (den * k) = nearestCode num den := by
  have hcompare (m n : Nat) : compare (m * k) (n * k) = compare m n := by
    rcases h : compare m n
    · rw [Nat.compare_eq_lt] at h ⊢
      exact Nat.mul_lt_mul_of_pos_right h hk
    · rw [Nat.compare_eq_eq] at h ⊢
      rw [h]
    · rw [Nat.compare_eq_gt] at h ⊢
      exact Nat.mul_lt_mul_of_pos_right h hk
  simp only [nearestCode, Nat.mul_div_mul_right _ _ hk, ← Nat.mul_assoc, hcompare]

/-- Equal ratios are rounded to the same code. -/
theorem nearestCode_congr {num den num' den' : Nat} (hden : 0 < den) (hden' : 0 < den')
    (h : num * den' = num' * den) : nearestCode num den = nearestCode num' den' := by
  rw [← nearestCode_scale num den hden', ← nearestCode_scale num' den' hden, h, Nat.mul_comm den]

/-! ### The shortest decimal -/

theorem fineScale_pos : 0 < fineScale := by
  unfold fineScale
  generalize 1074 = places
  exact Nat.pow_pos (by decide)

theorem lowPoint_zero (code : Nat) : lowPoint code 0 = units code * fineScale := by
  rw [lowPoint, Nat.pow_eq, Nat.pow_zero, Nat.div_one]

theorem lowPoint_succ (code grid : Nat) : lowPoint code (grid + 1) = lowPoint code grid / 10 := by
  rw [lowPoint, lowPoint, Nat.div_div_eq_div_mul, Nat.pow_eq, Nat.pow_eq, Nat.pow_succ]

theorem readsBack_iff {code grid point : Nat} :
    readsBack code grid point = true ↔ nearestCode (point * 10 ^ grid) fineScale = code := by
  rw [readsBack, beq_iff_eq, Nat.pow_eq]

theorem readsBack_tenth {code grid point : Nat} :
    readsBack code (grid + 1) point = readsBack code grid (10 * point) := by
  rw [readsBack, readsBack, Nat.pow_eq, Nat.pow_eq, Nat.pow_succ]
  congr 2
  ring

theorem readsBack_lowPoint_zero {code : Nat} (hcode : code ≤ infinityCode) :
    readsBack code 0 (lowPoint code 0) = true := by
  rw [readsBack_iff, lowPoint_zero, Nat.pow_zero, Nat.mul_one]
  exact nearestCode_units hcode fineScale_pos

theorem ne_zero_of_readsBack {code grid point : Nat} (hcode : code ≠ 0)
    (h : readsBack code grid point = true) : point ≠ 0 := by
  rintro rfl
  rw [readsBack_iff, Nat.zero_mul] at h
  have hzero := nearestCode_units (Nat.zero_le infinityCode) fineScale_pos
  rw [units_of_lt (by decide), Nat.zero_mul] at hzero
  exact hcode (h.symm.trans hzero)

theorem nearerPoint_eq (tie : Tie) (low : Nat) (side : Ordering) :
    nearerPoint tie low side = low ∨ nearerPoint tie low side = low + 1 := by
  fun_cases nearerPoint tie low side with
  | case1 => exact .inl rfl
  | case2 => exact .inr rfl
  | case3 => exact .inr rfl
  | case4 => omega

theorem pointOf?_eq_some {tie : Tie} {low : Nat} {side : Ordering} {readsLow readsHigh : Bool} {point : Nat}
    (h : pointOf? tie low side readsLow readsHigh = some point) :
    (point = low ∧ readsLow) ∨ (point = low + 1 ∧ readsHigh) := by
  fun_cases pointOf? tie low side readsLow readsHigh with
  | case1 => simp [pointOf?] at h
  | case2 => exact .inl ⟨(Option.some.inj h).symm, rfl⟩
  | case3 => exact .inr ⟨(Option.some.inj h).symm, rfl⟩
  | case4 =>
    rw [← Option.some.inj h]
    simpa using nearerPoint_eq tie low side

theorem pointOf?_eq_none {tie : Tie} {low : Nat} {side : Ordering} {readsLow readsHigh : Bool} :
    pointOf? tie low side readsLow readsHigh = none ↔ readsLow = false ∧ readsHigh = false := by
  cases readsLow <;> cases readsHigh <;> simp [pointOf?]

theorem readsBack_of_gridPoint? {tie : Tie} {code grid point : Nat}
    (h : gridPoint? tie code grid = some point) :
    readsBack code grid point ∧ (point = lowPoint code grid ∨ point = lowPoint code grid + 1) := by
  simp only [gridPoint?] at h
  obtain ⟨rfl, hreads⟩ | ⟨rfl, hreads⟩ := pointOf?_eq_some h
  · exact ⟨hreads, .inl rfl⟩
  · exact ⟨hreads, .inr rfl⟩

/-- The search ends on some grid with a point next to the value that reads back, and on the grid above,
if the search was there, no such point reads back. -/
theorem decimalFrom_cases (tie : Tie) {code : Nat} (hcode : code ≤ infinityCode) (start : Nat) :
    ∃ grid point : Nat, decimalFrom (gridPoint? tie code) (units code * fineScale) start = ⟨point, grid - 1074⟩
      ∧ readsBack code grid point ∧ (point = lowPoint code grid ∨ point = lowPoint code grid + 1)
      ∧ (grid = start ∨ gridPoint? tie code (grid + 1) = none) := by
  induction start with
  | zero =>
    refine ⟨0, lowPoint code 0, ?_, readsBack_lowPoint_zero hcode, .inl rfl, .inl rfl⟩
    rw [decimalFrom, lowPoint_zero]
    rfl
  | succ start ih =>
    rw [decimalFrom]
    cases hpoint : gridPoint? tie code (start + 1) with
    | some point =>
      obtain ⟨hreads, hnext⟩ := readsBack_of_gridPoint? hpoint
      exact ⟨start + 1, point, rfl, hreads, hnext, .inl rfl⟩
    | none =>
      obtain ⟨grid, point, heq, hreads, hnext, hend⟩ := ih
      refine ⟨grid, point, heq, hreads, hnext, ?_⟩
      obtain rfl | hend := hend
      · exact .inr hpoint
      · exact .inr hend

/-- A point at which the search goes on from the grid above is not a point of that grid. -/
theorem mod_ten_of_gridPoint? {tie : Tie} {code grid point : Nat} (hreads : readsBack code grid point)
    (hnext : point = lowPoint code grid ∨ point = lowPoint code grid + 1)
    (hnone : gridPoint? tie code (grid + 1) = none) : point % 10 ≠ 0 := by
  intro hmod
  obtain ⟨tenth, rfl⟩ := Nat.dvd_of_mod_eq_zero hmod
  rw [← readsBack_tenth] at hreads
  simp only [gridPoint?, pointOf?_eq_none] at hnone
  obtain ⟨hlow, hhigh⟩ := hnone
  have htenth : tenth = lowPoint code (grid + 1) ∨ tenth = lowPoint code (grid + 1) + 1 := by
    rw [lowPoint_succ]
    omega
  obtain rfl | rfl := htenth
  · exact absurd hreads (Bool.eq_false_iff.1 hlow)
  · exact absurd hreads (Bool.eq_false_iff.1 hhigh)

private theorem two_pow_le_ten_pow {a b m n : Nat} (ha : a ≠ 0) (hbase : 2 ^ a ≤ 10 ^ b) (h : b * m ≤ n * a) :
    2 ^ m ≤ 10 ^ n := by
  refine (Nat.pow_le_pow_iff_left ha).1 ?_
  calc (2 ^ m) ^ a = (2 ^ a) ^ m := Nat.pow_right_comm _ _ _
    _ ≤ (10 ^ b) ^ m := Nat.pow_le_pow_left hbase m
    _ = 10 ^ (b * m) := (Nat.pow_mul _ _ _).symm
    _ ≤ 10 ^ (n * a) := Nat.pow_le_pow_right (by decide) h
    _ = (10 ^ n) ^ a := Nat.pow_mul _ _ _

/-- The value of a code is below the first point of the grid at which the search starts. -/
theorem lt_ten_pow_startGrid (code : Nat) : units code * fineScale < Nat.pow 10 (startGrid code) := by
  rw [startGrid, Nat.pow_eq]
  have hbase : 2 ^ 100000 ≤ 10 ^ 30103 := by decide +kernel
  exact Nat.lt_log2_self.trans_le (two_pow_le_ten_pow (by decide) hbase (by omega))

end Number

namespace Decimal

/-- The decimal is a point of the grids of `readsBack` and rounds to the code. -/
def Reads (d : Decimal) (code : Nat) : Prop :=
  ∃ grid : Nat, d.exponent = grid - 1074 ∧ Number.readsBack code grid d.significand

end Decimal

namespace Number

theorem reads_shortest (tie : Tie) {code : Nat} (hcode : code ≤ infinityCode) :
    (shortest tie code).Reads code := by
  rw [shortest]
  split
  next hzero =>
    subst hzero
    refine ⟨1074, rfl, ?_⟩
    have hzero := readsBack_lowPoint_zero (Nat.zero_le infinityCode)
    rw [readsBack_iff] at hzero ⊢
    rw [lowPoint_zero, units_of_lt (by decide), Nat.zero_mul, Nat.zero_mul] at hzero
    rw [Nat.zero_mul, hzero]
  next =>
    obtain ⟨grid, point, heq, hreads, -, -⟩ := decimalFrom_cases tie hcode (startGrid code)
    rw [heq]
    exact ⟨grid, rfl, hreads⟩

/-- No fraction of a shortest decimal ends in a zero. -/
theorem significand_mod_ten (tie : Tie) {code : Nat} (hcode : code ≤ infinityCode)
    (hfraction : (shortest tie code).exponent < 0) : (shortest tie code).significand % 10 ≠ 0 := by
  rw [shortest] at hfraction ⊢
  split at hfraction
  · simp at hfraction
  next hne =>
    rw [if_neg hne]
    obtain ⟨grid, point, heq, hreads, hnext, hend⟩ := decimalFrom_cases tie hcode (startGrid code)
    rw [heq]
    obtain rfl | hnone := hend
    · have hlow : lowPoint code (startGrid code) = 0 := Nat.div_eq_of_lt (lt_ten_pow_startGrid code)
      have hpoint := ne_zero_of_readsBack hne hreads
      dsimp only
      omega
    · exact mod_ten_of_gridPoint? hreads hnext hnone

end Number

end Lox

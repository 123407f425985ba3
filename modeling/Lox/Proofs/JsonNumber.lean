import Lox.Proofs.Delimited
import Lox.Proofs.NumberText
/-!
# Numbers in JSON

A finite double is written in JSON positionally or in scientific form, by its magnitude. A positional form is the text
of a number piece that spells the decimal, and a scientific form gives back the decimal itself, digit by digit. As both
stand for decimals that round to the double, different finite doubles are written differently.
-/

namespace Lox

namespace Decimal

variable {d e : Decimal}

/-! ### The scientific form -/

/-- The digits of a decimal with a point behind the first, if there are more. -/
def mantissa (d : Decimal) : List Char :=
  d.digits.take 1 ++
    match d.digits.drop 1 with
    | [] => []
    | rest => '.' :: rest

def exponentSign (d : Decimal) : Char :=
  if 0 ≤ d.magnitude then '+' else '-'

theorem scientific_eq (d : Decimal) :
    d.scientific = d.mantissa ++ 'e' :: d.exponentSign :: Nat.toDigits 10 d.magnitude.natAbs :=
  rfl

/-- The mantissa is the digits, or the first of them, a point and the others. -/
theorem mantissa_cases (d : Decimal) : d.mantissa = d.digits
    ∨ ∃ first rest, d.digits = first :: rest ∧ d.mantissa = first :: '.' :: rest := by
  rw [mantissa]
  rcases d.digits with _ | ⟨first, _ | ⟨second, rest⟩⟩
  · exact .inl rfl
  · exact .inl rfl
  · exact .inr ⟨first, second :: rest, rfl, rfl⟩

theorem mem_mantissa {c : Char} (hc : c ∈ d.mantissa) : c.isDigit ∨ c = '.' := by
  obtain heq | ⟨first, rest, hdigits, heq⟩ := d.mantissa_cases
  · rw [heq] at hc
    exact .inl (isDigit_of_mem_digits hc)
  · rw [heq, List.mem_cons, List.mem_cons] at hc
    obtain rfl | rfl | hc := hc
    · exact .inl (isDigit_of_mem_digits (hdigits ▸ List.mem_cons_self))
    · exact .inr rfl
    · exact .inl (isDigit_of_mem_digits (hdigits ▸ List.mem_cons_of_mem first hc))

theorem filter_mantissa (d : Decimal) : d.mantissa.filter Char.isDigit = d.digits := by
  have hdigits : d.digits.filter Char.isDigit = d.digits :=
    List.filter_eq_self.2 fun _ => isDigit_of_mem_digits
  obtain heq | ⟨first, rest, hsplit, heq⟩ := d.mantissa_cases
  · rw [heq, hdigits]
  · have hpoint : ('.' :: rest).filter Char.isDigit = rest.filter Char.isDigit :=
      List.filter_cons_of_neg (by decide)
    rw [heq, List.filter_cons, hpoint, ← List.filter_cons, ← hsplit, hdigits]

theorem magnitude_eq_of_sign (hsign : d.exponentSign = e.exponentSign)
    (habs : d.magnitude.natAbs = e.magnitude.natAbs) : d.magnitude = e.magnitude := by
  unfold exponentSign at hsign
  split at hsign
  next hd =>
    split at hsign
    · omega
    · exact absurd hsign (by decide)
  next hd =>
    split at hsign
    · exact absurd hsign (by decide)
    · omega

/-- The scientific form gives the decimal back. -/
theorem scientific_injective : Function.Injective scientific := by
  intro d e h
  rw [scientific_eq, scientific_eq] at h
  -- The mantissas end before the two exponents.
  have hsort (d : Decimal) : ∀ c ∈ d.mantissa, (c.isDigit || c == '.') = true := by
    intro c hc
    simpa using mem_mantissa hc
  obtain ⟨hmantissa, hrest⟩ := eq_of_stretch (hsort d) (hsort e) (startsWith_cons (by decide))
    (startsWith_cons (by decide)) h
  obtain ⟨-, hsign, habs⟩ : 'e' = 'e' ∧ d.exponentSign = e.exponentSign
      ∧ Nat.toDigits 10 d.magnitude.natAbs = Nat.toDigits 10 e.magnitude.natAbs := by
    simpa using hrest
  have hdigits : d.digits = e.digits := by rw [← filter_mantissa, hmantissa, filter_mantissa]
  have hmagnitude := magnitude_eq_of_sign hsign (toDigits_injective habs)
  rw [magnitude, magnitude, hdigits] at hmagnitude
  rw [Decimal.mk.injEq]
  exact ⟨toDigits_injective hdigits, by omega⟩

/-! ### Reading back -/

/-- The positional form with a fraction is the text of a number piece that spells the decimal. -/
theorem exists_positional_fraction_eq (d : Decimal) : ∃ whole fraction,
    d.positional ++ (if 0 ≤ d.exponent then ['.', '0'] else []) = (Piece.number whole fraction).text
      ∧ (Piece.number whole fraction).Proper ∧ d.Spelled whole fraction := by
  obtain ⟨whole, fraction, htext, ⟨hne, hwhole, hfraction⟩, hspelled, hend⟩ := d.exists_positional_eq
  split
  next hexponent =>
    obtain rfl : fraction = [] := by
      by_contra hsome
      exact absurd (hend hsome).1 (by omega)
    obtain ⟨zeros, hzeros, hvalue⟩ := hspelled
    refine ⟨whole, ['0'], by rw [htext]; rfl, ⟨hne, hwhole, by simp⟩, zeros + 1, ?_, ?_⟩
    · simp only [List.length_nil, List.length_singleton] at hzeros ⊢
      omega
    · rw [List.append_nil] at hvalue
      rw [Nat.ofDigitChars_append, hvalue, pow_succ, ← mul_assoc, Nat.mul_comm (d.significand * 10 ^ zeros)]
      rfl
  next => exact ⟨whole, fraction, by rw [List.append_nil, htext], ⟨hne, hwhole, hfraction⟩, hspelled⟩

theorem Reads.unique {code other : Nat} (h : d.Reads code) (h' : d.Reads other) : code = other := by
  obtain ⟨grid, hgrid, hcode⟩ := h
  obtain ⟨grid', hgrid', hother⟩ := h'
  obtain rfl : grid = grid' := by omega
  rw [Number.readsBack_iff] at hcode hother
  exact hcode.symm.trans hother

end Decimal

namespace Json

def isBare (c : Char) : Bool :=
  c.isAlphanum || c == '.' || c == '+' || c == '-'

theorem isBare_of_isDigit {c : Char} (hc : c.isDigit) : isBare c := by
  simp [isBare, Char.isAlphanum, hc]

end Json

namespace Number

variable {x y : Number} {d e : Decimal}

/-- A decimal is written as the text of a number piece that spells it, or in scientific form. -/
theorem jsonDecimal_cases (d : Decimal) :
    (∃ whole fraction, jsonDecimal d = (Piece.number whole fraction).text ∧ (Piece.number whole fraction).Proper
      ∧ d.Spelled whole fraction)
    ∨ jsonDecimal d = d.scientific := by
  rw [jsonDecimal]
  split
  · exact .inl d.exists_positional_fraction_eq
  · exact .inr rfl

theorem text_number_ne_scientific {whole fraction : List Char} (hp : (Piece.number whole fraction).Proper) :
    (Piece.number whole fraction).text ≠ d.scientific := by
  intro heq
  have hmem : 'e' ∈ (Piece.number whole fraction).text := by
    rw [heq, Decimal.scientific_eq]
    simp
  simpa using Piece.mem_text_number hp hmem

theorem code_eq_of_jsonDecimal {code other : Nat} (hcode : code < infinityCode) (hother : other < infinityCode)
    (hd : d.Reads code) (he : e.Reads other) (h : jsonDecimal d = jsonDecimal e) : code = other := by
  obtain ⟨whole, fraction, hdtext, hdproper, hdspelled⟩ | hdtext := jsonDecimal_cases d
  · obtain ⟨whole', fraction', hetext, heproper, hespelled⟩ | hetext := jsonDecimal_cases e
    · -- Equal texts are the text of one piece, and its digits are read as one double.
      have hpiece := Piece.eq_of_text_eq hdproper (by simp [Piece.lexeme?]) heproper (by simp [Piece.lexeme?])
        (hdtext.symm.trans (h.trans hetext))
      obtain ⟨rfl, rfl⟩ := Piece.number.inj hpiece
      have hnumber := (Decimal.ofDigits_of_spelled hd hdspelled).symm.trans (Decimal.ofDigits_of_spelled he hespelled)
      rw [← toNat_toBits_ofCode hcode, hnumber, toNat_toBits_ofCode hother]
    · rw [hdtext, hetext] at h
      exact absurd h (text_number_ne_scientific hdproper)
  · obtain ⟨whole', fraction', hetext, heproper, -⟩ | hetext := jsonDecimal_cases e
    · rw [hdtext, hetext] at h
      exact absurd h.symm (text_number_ne_scientific heproper)
    · rw [hdtext, hetext] at h
      obtain rfl := Decimal.scientific_injective h
      exact hd.unique he

/-! ### The JSON of a number -/

/-- Zero needs no rule of its own. -/
theorem json_of_finite (hx : x.finite) :
    x.json.toList = x.signText ++ jsonDecimal (shortest .even x.code) := by
  rw [json, if_neg (by simp [hx])]
  split
  next hzero =>
    rw [hzero, String.toList_ofList]
    rfl
  next => rw [String.toList_ofList]

theorem exists_jsonDecimal_eq (d : Decimal) : ∃ c rest, jsonDecimal d = c :: rest ∧ c.isDigit := by
  obtain ⟨whole, fraction, htext, ⟨hne, hwhole, -⟩, -⟩ | htext := jsonDecimal_cases d
  · obtain ⟨c, rest, rfl⟩ := List.exists_cons_of_ne_nil hne
    have hc : c.isDigit := hwhole c List.mem_cons_self
    obtain ⟨-, hpiece⟩ | ⟨-, hpiece⟩ := Piece.text_number_cases (c :: rest) fraction
    · exact ⟨c, rest, htext.trans hpiece, hc⟩
    · exact ⟨c, rest ++ '.' :: fraction, htext.trans hpiece, hc⟩
  · obtain ⟨c, rest, hdigits⟩ := List.exists_cons_of_ne_nil d.digits_ne_nil
    have hc : c.isDigit := Decimal.isDigit_of_mem_digits (hdigits ▸ List.mem_cons_self)
    obtain hmantissa | ⟨first, rest, hfirst, hmantissa⟩ := d.mantissa_cases
    · exact ⟨c, _, by rw [htext, Decimal.scientific_eq, hmantissa, hdigits, List.cons_append], hc⟩
    · obtain ⟨rfl, rfl⟩ := List.cons.inj (hdigits.symm.trans hfirst)
      exact ⟨c, _, by rw [htext, Decimal.scientific_eq, hmantissa, List.cons_append], hc⟩

theorem signText_append_ne (hx : x.isNegative = true) (hy : y.isNegative = false) (r : List Char) (d : Decimal) :
    x.signText ++ r ≠ y.signText ++ jsonDecimal d := by
  obtain ⟨c, rest, htext, hc⟩ := exists_jsonDecimal_eq d
  rw [signText, signText, hx, hy, htext]
  intro heq
  obtain rfl : '-' = c := (List.cons.inj heq).1
  exact absurd hc (by decide)

theorem eq_of_code_eq (hsign : x.isNegative = y.isNegative) (hcode : x.code = y.code) : x = y := by
  have hxlt := x.toBits.toNat_lt
  have hylt := y.toBits.toNat_lt
  have hsides : 2 ^ 63 ≤ x.toBits.toNat ↔ 2 ^ 63 ≤ y.toBits.toNat := by
    rw [← isNegative_iff, ← isNegative_iff, hsign]
  rw [code_eq, code_eq] at hcode
  rw [← Float.toBits_inj, ← UInt64.toNat_inj]
  omega

/-- Different finite numbers are written differently, zeros of different sign included. -/
theorem eq_of_json_eq (hx : x.finite) (hy : y.finite) (h : x.json = y.json) : x = y := by
  have htext : x.signText ++ jsonDecimal (shortest .even x.code)
      = y.signText ++ jsonDecimal (shortest .even y.code) := by
    rw [← json_of_finite hx, ← json_of_finite hy, h]
  have hsign : x.isNegative = y.isNegative := by
    cases hxsign : x.isNegative <;> cases hysign : y.isNegative
    · rfl
    · exact absurd htext.symm (signText_append_ne hysign hxsign _ _)
    · exact absurd htext (signText_append_ne hxsign hysign _ _)
    · rfl
  refine eq_of_code_eq hsign ?_
  rw [signText, signText, hsign] at htext
  exact code_eq_of_jsonDecimal (code_lt_of_finite hx) (code_lt_of_finite hy)
    (reads_shortest .even (code_lt_of_finite hx).le) (reads_shortest .even (code_lt_of_finite hy).le)
    (List.append_cancel_left htext)

theorem isBare_of_mem_jsonDecimal {c : Char} (hc : c ∈ jsonDecimal d) : Json.isBare c := by
  have hdecimal : c.isDigit ∨ c = '.' → Json.isBare c := by
    rintro (hc | rfl)
    · exact Json.isBare_of_isDigit hc
    · decide
  obtain ⟨whole, fraction, htext, hp, -⟩ | htext := jsonDecimal_cases d
  · rw [htext] at hc
    exact hdecimal (Piece.mem_text_number hp hc)
  · rw [htext, Decimal.scientific_eq, List.mem_append, List.mem_cons, List.mem_cons] at hc
    obtain hc | rfl | rfl | hc := hc
    · exact hdecimal (Decimal.mem_mantissa hc)
    · decide
    · rw [Decimal.exponentSign]
      split <;> decide
    · exact Json.isBare_of_isDigit (Nat.isDigit_of_mem_toDigits (by decide) (by decide) hc)

theorem isBare_of_mem_json {c : Char} (hc : c ∈ x.json.toList) : Json.isBare c := by
  cases hx : x.finite with
  | false =>
    have hnull : "null".toList.all Json.isBare := by decide
    rw [json, if_pos (by simp [hx])] at hc
    exact List.all_eq_true.1 hnull c hc
  | true =>
    rw [json_of_finite hx, signText, List.mem_append] at hc
    obtain hc | hc := hc
    · split at hc
      · obtain rfl := List.mem_singleton.1 hc
        decide
      · simp at hc
    · exact isBare_of_mem_jsonDecimal hc

end Number

end Lox

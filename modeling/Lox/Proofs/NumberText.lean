import Lox.Number.Text
import Lox.Proofs.Munch
import Lox.Proofs.Rounding
/-!
# The text of a number reads back

The positional form of a decimal is the text of a number piece whose digits spell the decimal
(`exists_positional_eq`), and digits that spell a decimal are read as the double it rounds to
(`ofDigits_of_spelled`). Since the shortest decimal of a finite double rounds to it, scanning the text of
the double gives the double back, after a minus sign if the sign bit is set.
-/

namespace Lox

/-! ### Bit patterns -/

namespace Number

/-- Only a NaN is changed by the passage from bits to a double and back. -/
theorem toBits_ofBits {bits : UInt64} (h : bits.toNat % 2 ^ 63 < infinityCode) :
    (Float.ofBits bits).toBits = bits := by
  refine UInt64.toBitVec_inj.1 (Float.Model.UnpackedFloat.pack_unpack_of_valid ⟨fun hexponent => ?_⟩)
  exfalso
  have hones : bits.toNat / 2 ^ 52 % 2 ^ 11 = 2047 := by
    rw [Float.Model.UnpackedFloat.unpackExponent_def] at hexponent
    have hnat := congrArg BitVec.toNat hexponent
    rwa [BitVec.extractLsb'_toNat, Nat.shiftRight_eq_div_pow, UInt64.toNat_toBitVec] at hnat
  rw [infinityCode] at h
  omega

theorem toNat_toBits_ofCode {code : Nat} (h : code < infinityCode) : (ofCode code).toBits.toNat = code := by
  have hsmall : code < 2 ^ 63 := h.trans (by decide)
  have hnat : (UInt64.ofNat code).toNat = code := UInt64.toNat_ofNat_of_lt' (h.trans (by decide))
  rw [ofCode, toBits_ofBits, hnat]
  rwa [hnat, Nat.mod_eq_of_lt hsmall]

theorem ofCode_toBits (x : Number) : ofCode x.toBits.toNat = x := by
  rw [ofCode, UInt64.ofNat_toNat, Float.ofBits_toBits]

end Number

/-! ### Digits -/

namespace Decimal

variable {d : Decimal} {whole fraction : List Char}

/-- The digits before and after the point spell the decimal, with as many zeros at the end as an integer
needs. -/
def Spelled (d : Decimal) (whole fraction : List Char) : Prop :=
  ∃ zeros : Nat, d.exponent + fraction.length = zeros
    ∧ Nat.ofDigitChars 10 (whole ++ fraction) 0 = d.significand * 10 ^ zeros

/-- Digits that spell a decimal are read as the double that the decimal rounds to. -/
theorem ofDigits_of_spelled {code : Nat} (hreads : d.Reads code) (hspelled : d.Spelled whole fraction) :
    Number.ofDigits whole fraction = Number.ofCode code := by
  obtain ⟨grid, hgrid, hcode⟩ := hreads
  obtain ⟨zeros, hzeros, hvalue⟩ := hspelled
  rw [Number.readsBack_iff] at hcode
  rw [Number.ofDigits, Number.ofRatio, hvalue, ← hcode]
  refine congrArg Number.ofCode (Number.nearestCode_congr (Nat.pow_pos (by decide)) Number.fineScale_pos ?_)
  have hexponents : zeros + 1074 = grid + fraction.length := by omega
  unfold Number.fineScale
  generalize 1074 = places at hexponents
  simp only [Nat.pow_eq]
  calc d.significand * 10 ^ zeros * 2 ^ places * 5 ^ places
      = d.significand * 10 ^ zeros * (2 * 5) ^ places := by rw [mul_assoc, mul_pow]
    _ = d.significand * 10 ^ (zeros + places) := by rw [mul_assoc, pow_add]
    _ = d.significand * 10 ^ grid * 10 ^ fraction.length := by rw [hexponents, pow_add, mul_assoc]

theorem isDigit_of_mem_digits {c : Char} (h : c ∈ d.digits) : c.isDigit :=
  Nat.isDigit_of_mem_toDigits (by decide) (by decide) h

theorem digits_ne_nil : d.digits ≠ [] :=
  Nat.toDigits_ne_nil

theorem getLast?_digits : d.digits.getLast? = some (Nat.digitChar (d.significand % 10)) := by
  rw [digits, Nat.toDigits_eq_if (by decide)]
  split
  next hlt => rw [Nat.mod_eq_of_lt hlt, List.getLast?_singleton]
  next => rw [List.getLast?_concat]

/-- The positional form is the text of a number piece that spells the decimal. Its fraction ends as the
digits of the significand do. -/
theorem exists_positional_eq (d : Decimal) : ∃ whole fraction,
    d.positional = (Piece.number whole fraction).text ∧ (Piece.number whole fraction).Proper
      ∧ d.Spelled whole fraction
      ∧ (fraction ≠ [] → d.exponent < 0 ∧ fraction.getLast? = d.digits.getLast?) := by
  have hvalue : Nat.ofDigitChars 10 d.digits 0 = d.significand := Nat.ofDigitChars_ten_toDigits
  have hdigits : ∀ c ∈ d.digits, c.isDigit := fun c => isDigit_of_mem_digits
  have hzeros (n : Nat) : ∀ c ∈ List.replicate n '0', c.isDigit := by
    intro c hc
    rw [List.eq_of_mem_replicate hc]
    decide
  fun_cases positional d with
  | case1 digits hexponent =>
    refine ⟨d.digits ++ List.replicate d.exponent.toNat '0', [], rfl, ⟨?_, ?_, by simp⟩, ?_, by simp⟩
    · simp [digits_ne_nil]
    · exact List.forall_mem_append.2 ⟨hdigits, hzeros _⟩
    · refine ⟨d.exponent.toNat, ?_, ?_⟩
      · rw [List.length_nil, Int.toNat_of_nonneg hexponent, Nat.cast_zero, add_zero]
      · rw [List.append_nil, Nat.ofDigitChars_append, hvalue, Nat.ofDigitChars_replicate_zero, Nat.mul_comm]
  | case2 digits hexponent places hshort =>
    have hplaces : 0 < places := by omega
    have hfraction : digits.drop (digits.length - places) ≠ [] := by
      rw [Ne, List.drop_eq_nil_iff]
      omega
    refine ⟨digits.take (digits.length - places), digits.drop (digits.length - places), ?_, ⟨?_, ?_, ?_⟩, ?_, ?_⟩
    · rw [Piece.text]
      exact hfraction
    · rw [Ne, List.take_eq_nil_iff, not_or]
      exact ⟨by omega, digits_ne_nil⟩
    · intro c hc
      exact hdigits c (List.mem_of_mem_take hc)
    · intro c hc
      exact hdigits c (List.mem_of_mem_drop hc)
    · refine ⟨0, ?_, ?_⟩
      · rw [List.length_drop]
        omega
      · rw [List.take_append_drop, hvalue, Nat.pow_zero, Nat.mul_one]
    · intro _
      refine ⟨by omega, ?_⟩
      rw [List.getLast?_drop, if_neg (by omega)]
  | case3 digits hexponent places hlong =>
    refine ⟨['0'], List.replicate (places - digits.length) '0' ++ digits, ?_, ⟨?_, ?_, ?_⟩, ?_, ?_⟩
    · rw [Piece.text]
      · rfl
      · simp [digits, digits_ne_nil]
    · simp
    · simp
    · exact List.forall_mem_append.2 ⟨hzeros _, hdigits⟩
    · refine ⟨0, ?_, ?_⟩
      · rw [List.length_append, List.length_replicate]
        omega
      · rw [List.singleton_append, Nat.ofDigitChars_cons, Nat.ofDigitChars_append, Nat.ofDigitChars_replicate_zero]
        simpa using hvalue
    · intro _
      refine ⟨by omega, ?_⟩
      exact List.getLast?_append_of_ne_nil _ digits_ne_nil

end Decimal

/-! ### Scanning a single piece -/

namespace Piece

theorem split_minus (c : Char) (rest : List Char) :
    split ('-' :: c :: rest) = symbol .minus :: split (c :: rest) := by
  have hpair : TokenKind.symbol? (String.ofList ['-', c]) = none := by
    rw [TokenKind.symbol?, List.find?_eq_none]
    intro kind hkind heq
    have hminus : ∀ kind ∈ TokenKind.symbols, kind.spelling.toList.head? = some '-' →
        kind.spelling.toList.length = 1 := by decide
    have hspelling : kind.spelling = String.ofList ['-', c] := by simpa using heq
    have := hminus kind hkind
    rw [hspelling] at this
    simp at this
  have hone : oneCharacter '-' = symbol .minus := by decide
  rw [split, next_symbol (by decide), nextSymbol, if_neg (by simp), hpair, hone]

variable {whole fraction : List Char}

theorem newlines_number (hp : (number whole fraction).Proper) : (number whole fraction).newlines = 0 :=
  newlines_eq_zero hp (by simp) rfl

theorem located_of_newlines {ps : List Piece} (h : ∀ p ∈ ps, p.newlines = 0) (line : Nat) :
    located line ps = ps.map (line, ·) := by
  induction ps with
  | nil => rfl
  | cons p ps ih =>
    obtain ⟨hp, hps⟩ := List.forall_mem_cons.1 h
    rw [located, hp, Nat.add_zero, ih hps, List.map_cons]

end Piece

/-- A source without newlines gives the tokens and the errors of its pieces, all on the first line. -/
theorem scan_of_split {source : List Char} {ps : List Piece} (hsplit : Piece.split source = ps)
    (hlines : ∀ p ∈ ps, p.newlines = 0) :
    scan (String.ofList source)
      = ⟨ps.filterMap (·.token? 1) ++ [Token.eof 1], ps.filterMap (·.error? 1)⟩ := by
  have hcount : source.count '\n' = 0 := by
    rw [← Piece.flatMap_split source, hsplit, List.count_flatMap, List.sum_eq_zero]
    intro n hn
    obtain ⟨p, hp, rfl⟩ := List.mem_map.1 hn
    exact hlines p hp
  rw [scan_eq, lineCount, String.toList_ofList, hsplit, hcount]
  simp only [Piece.gather, Piece.located_of_newlines hlines]
  simp only [List.filterMap_map, Function.comp_def]

section

variable {whole fraction : List Char}

def numberToken (whole fraction : List Char) : Token :=
  ⟨.number, String.ofList (Piece.number whole fraction).text, some (.number (Number.ofDigits whole fraction)), 1⟩

theorem scan_number (hp : (Piece.number whole fraction).Proper) :
    scan (String.ofList (Piece.number whole fraction).text) = ⟨[numberToken whole fraction, Token.eof 1], []⟩ :=
  scan_of_split (Piece.split_text hp (by simp [Piece.lexeme?]))
    (by simpa using Piece.newlines_number hp)

theorem scan_minus_number (hp : (Piece.number whole fraction).Proper) :
    scan (String.ofList ('-' :: (Piece.number whole fraction).text))
      = ⟨[⟨.minus, "-", none, 1⟩, numberToken whole fraction, Token.eof 1], []⟩ := by
  have hsplit := Piece.split_text hp (by simp [Piece.lexeme?])
  obtain ⟨c, rest, hsource⟩ := List.exists_cons_of_ne_nil hp.text_ne_nil
  have hminus : Piece.split ('-' :: (Piece.number whole fraction).text)
      = [.symbol .minus, .number whole fraction] := by
    rw [hsource, Piece.split_minus, ← hsource, hsplit]
  refine scan_of_split hminus ?_
  rw [List.forall_mem_cons, List.forall_mem_singleton]
  exact ⟨rfl, Piece.newlines_number hp⟩

end

/-! ### The texts of finite numbers -/

/-- Decimal digits with at most one point, which has digits on both sides, and without the fraction
`.0`. -/
structure PlainDecimal (text : List Char) : Prop where
  characters : ∀ c ∈ text, c.isDigit ∨ c = '.'
  atMostOnePoint : text.count '.' ≤ 1
  startsWithDigit : ∃ c, text.head? = some c ∧ c.isDigit
  endsWithDigit : ∃ c, text.getLast? = some c ∧ c.isDigit
  noZeroFraction : ¬ ['.', '0'] <:+ text

private theorem count_point_of_digits {text : List Char} (h : ∀ c ∈ text, c.isDigit) : text.count '.' = 0 := by
  rw [List.count_eq_zero]
  intro hmem
  exact absurd (h '.' hmem) (by decide)

private theorem getLast?_of_digits {text : List Char} (hne : text ≠ []) (h : ∀ c ∈ text, c.isDigit) :
    ∃ c, text.getLast? = some c ∧ c.isDigit :=
  ⟨text.getLast hne, List.getLast?_eq_some_getLast hne, h _ (List.getLast_mem hne)⟩

theorem plainDecimal_of_proper {whole fraction : List Char} (hp : (Piece.number whole fraction).Proper)
    (hlast : fraction.getLast? ≠ some '0') : PlainDecimal (Piece.number whole fraction).text := by
  have hcharacters := fun c => @Piece.mem_text_number whole fraction hp c
  obtain ⟨hne, hwhole, hfraction⟩ := hp
  obtain ⟨c, rest, rfl⟩ := List.exists_cons_of_ne_nil hne
  have hc : c.isDigit := hwhole c List.mem_cons_self
  obtain ⟨-, htext⟩ | ⟨hsome, htext⟩ := Piece.text_number_cases (c :: rest) fraction
  · rw [htext] at hcharacters ⊢
    refine ⟨hcharacters, ?_, ⟨c, rfl, hc⟩, getLast?_of_digits hne hwhole, ?_⟩
    · rw [count_point_of_digits hwhole]
      exact Nat.zero_le 1
    · intro hsuffix
      have hpoint : '.' ∈ c :: rest := hsuffix.subset (by simp)
      exact absurd (hwhole '.' hpoint) (by decide)
  · rw [htext] at hcharacters ⊢
    have hend : (c :: rest ++ '.' :: fraction).getLast? = fraction.getLast? := by
      rw [List.getLast?_append_of_ne_nil _ (by simp), List.getLast?_cons_of_ne_nil hsome]
    refine ⟨hcharacters, ?_, ⟨c, rfl, hc⟩, ?_, ?_⟩
    · rw [List.count_append, List.count_cons_self, count_point_of_digits hwhole, count_point_of_digits hfraction]
    · rw [hend]
      exact getLast?_of_digits hsome hfraction
    · rintro ⟨start, hsuffix⟩
      rw [← hsuffix] at hend
      simp only [List.getLast?_append] at hend
      exact hlast hend.symm

namespace Number

variable {x : Number}

theorem code_lt_of_finite (hx : x.finite) : x.code < infinityCode := by
  simpa [finite] using hx

theorem text_of_finite (hx : x.finite) :
    x.text = String.ofList (x.signText ++ (shortest .up x.code).positional) := by
  have hcode := code_lt_of_finite hx
  rw [text, textIn, if_neg (by omega), if_neg (by omega)]
  rfl

/-- The positional text of the shortest decimal is a plain decimal and is cut into one number piece that is
read as the double. -/
theorem exists_shortest_eq {code : Nat} (hcode : code < infinityCode) : ∃ whole fraction,
    (shortest .up code).positional = (Piece.number whole fraction).text
      ∧ (Piece.number whole fraction).Proper ∧ PlainDecimal (Piece.number whole fraction).text
      ∧ ofDigits whole fraction = ofCode code := by
  obtain ⟨whole, fraction, htext, hp, hspelled, hend⟩ := (shortest .up code).exists_positional_eq
  refine ⟨whole, fraction, htext, hp, plainDecimal_of_proper hp ?_,
    Decimal.ofDigits_of_spelled (reads_shortest .up hcode.le) hspelled⟩
  intro hlast
  obtain ⟨hexponent, hdigits⟩ := hend (by rintro rfl; simp at hlast)
  rw [hlast, Decimal.getLast?_digits, Option.some.injEq] at hdigits
  have hnonzero : ∀ digit < 10, digit ≠ 0 → '0' ≠ Nat.digitChar digit := by decide
  exact hnonzero _ (Nat.mod_lt _ (by decide)) (significand_mod_ten .up hcode.le hexponent) hdigits

theorem isNegative_iff : x.isNegative = true ↔ 2 ^ 63 ≤ x.toBits.toNat := by
  rw [isNegative, decide_eq_true_iff, Nat.pow_eq]

theorem code_eq : x.code = x.toBits.toNat % 2 ^ 63 := by
  rw [code, Nat.pow_eq]

/-- The text of a finite number without a sign is that of a number piece whose digits are read as the number. -/
theorem exists_text_eq (hx : x.finite) (hsign : x.isNegative = false) : ∃ whole fraction,
    x.text = String.ofList (Piece.number whole fraction).text ∧ (Piece.number whole fraction).Proper
      ∧ PlainDecimal (Piece.number whole fraction).text ∧ ofDigits whole fraction = x := by
  obtain ⟨whole, fraction, hpositional, hp, hplain, hdigits⟩ := exists_shortest_eq (code_lt_of_finite hx)
  have hbits : ¬ 2 ^ 63 ≤ x.toBits.toNat := fun h => by simp [isNegative_iff.2 h] at hsign
  refine ⟨whole, fraction, ?_, hp, hplain, ?_⟩
  · rw [text_of_finite hx, signText, hsign, hpositional]
    rfl
  · rw [hdigits, code_eq, Nat.mod_eq_of_lt (by omega), ofCode_toBits]

theorem text_of_nonnegative (hx : x.finite) (hsign : x.isNegative = false) :
    PlainDecimal x.text.toList
      ∧ scan x.text = ⟨[⟨.number, x.text, some (.number x), 1⟩, Token.eof 1], []⟩ := by
  obtain ⟨whole, fraction, htext, hp, hplain, hnumber⟩ := exists_text_eq hx hsign
  rw [htext, String.toList_ofList, scan_number hp, numberToken, hnumber]
  exact ⟨hplain, rfl⟩

def unsigned (x : Number) : Number :=
  ofCode x.code

theorem toNat_toBits_unsigned (hx : x.finite) : x.unsigned.toBits.toNat = x.code :=
  toNat_toBits_ofCode (code_lt_of_finite hx)

theorem code_unsigned (hx : x.finite) : x.unsigned.code = x.code := by
  rw [code_eq, toNat_toBits_unsigned hx, code_eq, Nat.mod_mod]

theorem finite_unsigned (hx : x.finite) : x.unsigned.finite := by
  rwa [finite, code_unsigned hx, ← finite]

theorem isNegative_unsigned (hx : x.finite) : x.unsigned.isNegative = false := by
  rw [Bool.eq_false_iff, Ne, isNegative_iff, toNat_toBits_unsigned hx, code_eq]
  omega

theorem text_of_negative (hx : x.finite) (hsign : x.isNegative = true) :
    x.text = "-" ++ x.unsigned.text
      ∧ scan x.text
        = ⟨[⟨.minus, "-", none, 1⟩, ⟨.number, x.unsigned.text, some (.number x.unsigned), 1⟩, Token.eof 1], []⟩ := by
  obtain ⟨whole, fraction, hpositional, hp, -, hdigits⟩ := exists_shortest_eq (code_lt_of_finite hx)
  have htext : x.text = String.ofList ('-' :: (Piece.number whole fraction).text) := by
    rw [text_of_finite hx, signText, hsign, hpositional]
    rfl
  have hunsigned : x.unsigned.text = String.ofList (Piece.number whole fraction).text := by
    rw [text_of_finite (finite_unsigned hx), signText, isNegative_unsigned hx, code_unsigned hx, hpositional]
    rfl
  rw [htext, hunsigned, scan_minus_number hp, numberToken, hdigits]
  exact ⟨String.ofList_cons, rfl⟩

theorem toNat_toBits_of_negative (hx : x.finite) (hsign : x.isNegative = true) :
    x.toBits.toNat = x.unsigned.toBits.toNat + 2 ^ 63 := by
  have hbits := isNegative_iff.1 hsign
  have hlt := x.toBits.toNat_lt
  rw [toNat_toBits_unsigned hx, code_eq]
  omega

theorem eq_of_text_eq {y : Number} (hx : x.finite) (hy : y.finite) (h : x.text = y.text) : x = y := by
  have hscan := congrArg scan h
  cases hxsign : x.isNegative <;> cases hysign : y.isNegative
  · rw [(text_of_nonnegative hx hxsign).2, (text_of_nonnegative hy hysign).2] at hscan
    obtain ⟨-, hnumber⟩ : x.text = y.text ∧ x = y := by simpa using hscan
    exact hnumber
  · rw [(text_of_nonnegative hx hxsign).2, (text_of_negative hy hysign).2] at hscan
    simp at hscan
  · rw [(text_of_negative hx hxsign).2, (text_of_nonnegative hy hysign).2] at hscan
    simp at hscan
  · rw [(text_of_negative hx hxsign).2, (text_of_negative hy hysign).2] at hscan
    obtain ⟨-, hnumber⟩ : x.unsigned.text = y.unsigned.text ∧ x.unsigned = y.unsigned := by
      simpa using hscan
    rw [← Float.toBits_inj, ← UInt64.toNat_inj, toNat_toBits_of_negative hx hxsign,
      toNat_toBits_of_negative hy hysign, hnumber]

end Number

/-- Printed numbers read back. The text of a finite double without a sign is a plain decimal and is scanned
as one number token with the very double as its literal. With the sign bit set it is a minus sign before
the text of the double without it, and is scanned as such. So different finite doubles have different
texts. -/
theorem scan_text (x : Number) (hx : x.finite) :
    (x.isNegative = false → PlainDecimal x.text.toList
      ∧ scan x.text = ⟨[⟨.number, x.text, some (.number x), 1⟩, Token.eof 1], []⟩)
    ∧ (x.isNegative = true → x.toBits.toNat = x.unsigned.toBits.toNat + 2 ^ 63
      ∧ x.text = "-" ++ x.unsigned.text ∧ PlainDecimal x.unsigned.text.toList
      ∧ scan x.text = ⟨[⟨.minus, "-", none, 1⟩, ⟨.number, x.unsigned.text, some (.number x.unsigned), 1⟩,
          Token.eof 1], []⟩)
    ∧ ∀ y : Number, y.finite → x.text = y.text → x = y := by
  refine ⟨Number.text_of_nonnegative hx, ?_, fun y hy => Number.eq_of_text_eq hx hy⟩
  intro hsign
  obtain ⟨htext, hscan⟩ := Number.text_of_negative hx hsign
  obtain ⟨hplain, -⟩ := Number.text_of_nonnegative (Number.finite_unsigned hx) (Number.isNegative_unsigned hx)
  exact ⟨Number.toNat_toBits_of_negative hx hsign, htext, hplain, hscan⟩

theorem scan_text_minus_tenth :
    let x : Number := Float.ofBits 0xBFB999999999999A
    x.finite ∧ x.text = "-0.1"
      ∧ scan x.text = ⟨[⟨.minus, "-", none, 1⟩, ⟨.number, x.unsigned.text, some (.number x.unsigned), 1⟩,
          Token.eof 1], []⟩ := by
  intro x
  have hx : x.finite := by decide +kernel
  have hsign : x.isNegative = true := by decide +kernel
  exact ⟨hx, by decide +kernel, ((scan_text x hx).2.1 hsign).2.2.2⟩

end Lox

import Lox.Number.Shortest
/-!
# The written forms of numbers

A decimal is laid out positionally or in scientific form. Three formats are built on these: the text a
value prints as, the text a literal shows in a token, and the JSON number of a token dump.
-/

namespace Lox

namespace Decimal

/-- The decimal without an exponent. Nothing stands after the point, and no point, in an integer. -/
def positional (d : Decimal) : List Char :=
  let digits := d.digits
  if 0 ≤ d.exponent then
    digits ++ List.replicate d.exponent.toNat '0'
  else
    let places := (-d.exponent).toNat
    if places < digits.length then
      digits.take (digits.length - places) ++ '.' :: digits.drop (digits.length - places)
    else
      '0' :: '.' :: List.replicate (places - digits.length) '0' ++ digits

/-- The decimal with one digit before the point and a signed exponent. -/
def scientific (d : Decimal) : List Char :=
  let fraction :=
    match d.digits.drop 1 with
    | [] => []
    | rest => '.' :: rest
  let sign := if 0 ≤ d.magnitude then '+' else '-'
  d.digits.take 1 ++ fraction ++ 'e' :: sign :: Nat.toDigits 10 d.magnitude.natAbs

end Decimal

namespace Number

/-- The decisions of a format that writes numbers positionally. -/
structure Format where
  infinity : String
  tie : Tie

/-- A value prints infinity as a word; of two equally near decimals the larger is written. -/
def valueFormat : Format := ⟨"Infinity", .up⟩

/-- A literal in a token shows infinity as `inf`. -/
def literalFormat : Format := ⟨"inf", .up⟩

def signText (x : Number) : List Char :=
  if x.isNegative then ['-'] else []

/-- The positional text of a number. A NaN has no sign, a negative zero has one. -/
def textIn (format : Format) (x : Number) : String :=
  if infinityCode < x.code then "NaN"
  else if x.code = infinityCode then String.ofList (x.signText ++ format.infinity.toList)
  else String.ofList (x.signText ++ (shortest format.tie x.code).positional)

def text (x : Number) : String :=
  x.textIn valueFormat

def literalText (x : Number) : String :=
  x.textIn literalFormat

/-- The JSON form of a decimal: positional for magnitudes from `1e-5` below `1e16`, with a fraction
always written, scientific for all others. -/
def jsonDecimal (d : Decimal) : List Char :=
  if -5 ≤ d.magnitude ∧ d.magnitude < 16 then
    d.positional ++ (if 0 ≤ d.exponent then ['.', '0'] else [])
  else
    d.scientific

/-- The JSON form of a number. What is not finite has none and is written as `null`; of two equally
near decimals the even one is written. -/
def json (x : Number) : String :=
  if !x.finite then "null"
  else if x.code = 0 then String.ofList (x.signText ++ "0.0".toList)
  else String.ofList (x.signText ++ jsonDecimal (shortest .even x.code))

end Number

end Lox

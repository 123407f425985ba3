/-!
# Numbers as binary codes

The numbers of the language are IEEE doubles. A non-negative double is named by its *code*, the
natural number its bit pattern spells; codes count the doubles in increasing order, with the code of
infinity right above the largest finite one. The value of a code is exact in units of `2 ^ -1074`,
the smallest positive double, so rounding is a comparison of natural numbers: a value goes to the
code on its side of the midpoint between two neighbours.
-/

namespace Lox

abbrev Number := Float

namespace Number

/-- The code of positive infinity. Smaller codes are the finite doubles from zero upwards. -/
def infinityCode : Nat := 0x7ff0000000000000

/-- The value of a code in units of `2 ^ -1074`. The code of infinity gets the value that the next
finite double would have, which is the place it takes in rounding. -/
def units (code : Nat) : Nat :=
  if code < Nat.pow 2 52 then code
  else (Nat.pow 2 52 + code % Nat.pow 2 52) * Nat.pow 2 (code / Nat.pow 2 52 - 1)

/-- The largest code whose value is at most `n` units. -/
def codeBelow (n : Nat) : Nat :=
  let shift := n.log2 - 52
  shift * Nat.pow 2 52 + n / Nat.pow 2 shift

/-- The code nearest to `num / den` units. Halfway between two codes the even one is taken, and from
the midpoint above the largest finite double on it is the code of infinity. -/
def nearestCode (num den : Nat) : Nat :=
  let below := codeBelow (num / den)
  let nearest :=
    match compare (2 * num) ((units below + units (below + 1)) * den) with
    | .lt => below
    | .eq => below + below % 2
    | .gt => below + 1
  min nearest infinityCode

/-- The non-negative double with the given code. -/
def ofCode (code : Nat) : Number :=
  Float.ofBits (UInt64.ofNat code)

/-- The double nearest to `num / den`. -/
def ofRatio (num den : Nat) : Number :=
  ofCode (nearestCode (num * Nat.pow 2 1074) den)

/-- The double nearest to the decimal with the given digits before and after its point. -/
def ofDigits (whole fraction : List Char) : Number :=
  ofRatio (Nat.ofDigitChars 10 (whole ++ fraction) 0) (Nat.pow 10 fraction.length)

/-- Whether the sign bit is set. -/
def isNegative (x : Number) : Bool :=
  decide (Nat.pow 2 63 ≤ x.toBits.toNat)

def code (x : Number) : Nat :=
  x.toBits.toNat % Nat.pow 2 63

def finite (x : Number) : Bool :=
  decide (x.code < infinityCode)

end Number

end Lox

import Lox.Number.Binary
/-!
# The shortest decimal of a double

Among the decimals that read back as a given double, the one on the coarsest grid of powers of ten is
chosen, and of two on that grid the nearer. On the grid of `10 ^ -1074` every finite double is a point
itself, so the search from coarse to fine always ends with a decimal that reads back.
-/

namespace Lox

/-- The decimal `significand * 10 ^ exponent`. -/
structure Decimal where
  significand : Nat
  exponent : Int
deriving DecidableEq, Repr

namespace Decimal

/-- The digits of the significand, the most significant one first. -/
def digits (d : Decimal) : List Char :=
  Nat.toDigits 10 d.significand

/-- The exponent of ten that the first digit stands for. -/
def magnitude (d : Decimal) : Int :=
  d.exponent + d.digits.length - 1

end Decimal

/-- What decides between two decimals at the same distance. -/
inductive Tie where
  | up
  | even
deriving DecidableEq, Repr

namespace Number

/-- The factor between units of `2 ^ -1074` and units of `10 ^ -1074`. -/
def fineScale : Nat := Nat.pow 5 1074

/-- Whether `point` steps of the grid `10 ^ (grid - 1074)` read back as the code. -/
def readsBack (code grid point : Nat) : Bool :=
  nearestCode (point * Nat.pow 10 grid) fineScale == code

/-- The value of a code in steps of the grid `10 ^ (grid - 1074)`, rounded down. -/
def lowPoint (code grid : Nat) : Nat :=
  units code * fineScale / Nat.pow 10 grid

/-- The point `low` or the next one, by the side of their midpoint on which the value lies. -/
def nearerPoint (tie : Tie) (low : Nat) : Ordering → Nat
  | .lt => low
  | .gt => low + 1
  | .eq =>
    match tie with
    | .up => low + 1
    | .even => low + low % 2

/-- The one of the points `low` and `low + 1` that reads back, or the nearer one if both do. -/
def pointOf? (tie : Tie) (low : Nat) (side : Ordering) : Bool → Bool → Option Nat
  | false, false => none
  | true, false => some low
  | false, true => some (low + 1)
  | true, true => some (nearerPoint tie low side)

/-- The point of the grid `10 ^ (grid - 1074)` that reads back as the code, if one of the two around
its value does; the nearer one if both do. -/
def gridPoint? (tie : Tie) (code grid : Nat) : Option Nat :=
  let low := lowPoint code grid
  let side := compare (2 * (units code * fineScale)) ((low + (low + 1)) * Nat.pow 10 grid)
  pointOf? tie low side (readsBack code grid low) (readsBack code grid (low + 1))

/-- The first decimal that `point?` gives, from the grid `10 ^ (grid - 1074)` down to finer ones. On the
finest grid it is `finest`. -/
def decimalFrom (point? : Nat → Option Nat) (finest : Nat) : Nat → Decimal
  | 0 => ⟨finest, -1074⟩
  | grid + 1 =>
    match point? (grid + 1) with
    | some point => ⟨point, (grid + 1 : Nat) - 1074⟩
    | none => decimalFrom point? finest grid

/-- The exponent of a power of ten above the value of a code in units of `10 ^ -1074`: a number of `b`
bits has at most `b * 0.30103 + 1` digits. -/
def startGrid (code : Nat) : Nat :=
  ((units code * fineScale).log2 + 1) * 30103 / 100000 + 1

/-- The shortest decimal that reads back as the code of a finite double. -/
def shortest (tie : Tie) (code : Nat) : Decimal :=
  if code = 0 then ⟨0, 0⟩
  else decimalFrom (gridPoint? tie code) (units code * fineScale) (startGrid code)

end Number

end Lox

import Lox.Character.Combining
import Lox.Character.Unassigned
/-!
# Visible characters

Which characters a reader can tell from a text that shows them as they are. Controls, blanks other
than the space, characters that only steer the layout, marks that sit on the character before them,
and codes without an agreed meaning are not visible in this sense.
-/

namespace Lox.Character

/-- The codes of the line, paragraph and space separators beyond the space itself. -/
def separators : List (Nat × Nat) :=
  [(0xa0, 0xa0), (0x1680, 0x1680), (0x2000, 0x200a), (0x2028, 0x2029), (0x202f, 0x202f),
   (0x205f, 0x205f), (0x3000, 0x3000)]

/-- The codes of the characters that steer the layout of what is around them. -/
def formats : List (Nat × Nat) :=
  [(0xad, 0xad), (0x600, 0x605), (0x61c, 0x61c), (0x6dd, 0x6dd), (0x70f, 0x70f), (0x890, 0x891),
   (0x8e2, 0x8e2), (0x180e, 0x180e), (0x200b, 0x200f), (0x202a, 0x202e), (0x2060, 0x2064),
   (0x2066, 0x206f), (0xfeff, 0xfeff), (0xfff9, 0xfffb), (0x110bd, 0x110bd), (0x110cd, 0x110cd),
   (0x13430, 0x1343f), (0x1bca0, 0x1bca3), (0x1d173, 0x1d17a), (0xe0001, 0xe0001),
   (0xe0020, 0xe007f)]

/-- The codes of the letters that only fill a place, with nothing drawn for them. -/
def fillers : List (Nat × Nat) :=
  [(0x115f, 0x1160), (0x3164, 0x3164), (0xffa0, 0xffa0)]

/-- The codes that are left to private agreements. -/
def privateUse : List (Nat × Nat) :=
  [(0xe000, 0xf8ff), (0xf0000, 0xffffd), (0x100000, 0x10fffd)]

def within (ranges : List (Nat × Nat)) (code : Nat) : Bool :=
  ranges.any fun (first, last) => first ≤ code && code ≤ last

def isControl (code : Nat) : Bool :=
  code < 0x20 || (0x7f ≤ code && code < 0xa0)

/-- Whether a character beyond the controls is left out of sight. -/
def isHidden (code : Nat) : Bool :=
  within separators code || within formats code || within fillers code || within privateUse code
    || within combining code || within unassigned code

/-- Whether a character can be told from a text that shows it as it is. Below the no-break space only
the controls cannot. -/
def isVisible (c : Char) : Bool :=
  !isControl c.toNat && (c.toNat < 0xa0 || !isHidden c.toNat)

end Lox.Character

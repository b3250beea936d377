import TermLogic.Text.Combining
import TermLogic.Text.Unassigned

/-!
# Printable characters

A character is *printable* when it can be shown to a reader as it is: it is assigned, it is neither
a control, format, private-use nor extending character, it is no separator other than the space, and
no letter that is blank. The classes are those of Unicode 17.0.

* `controls`, `separators`, `formats`, `privateUse`, `fillers`: tables of inclusive code point
  ranges, one for each class. The tables of extending and of unassigned characters are long and
  stand in modules of their own.
* `Printable.isPrintable c` decides by these tables. Visible ASCII is let through first, as nearly
  all characters that are shown belong to it.
-/

namespace TermLogic.Text.Printable

/-- Control characters (general category `Cc`). -/
def controls : List (Nat × Nat) :=
  [(0x0, 0x1F), (0x7F, 0x9F)]

/-- Separators other than the space (general categories `Zs`, `Zl` and `Zp`). -/
def separators : List (Nat × Nat) :=
  [(0xA0, 0xA0), (0x1680, 0x1680), (0x2000, 0x200A), (0x2028, 0x2029), (0x202F, 0x202F),
   (0x205F, 0x205F), (0x3000, 0x3000)]

/-- Format characters that extend nothing (general category `Cf`). -/
def formats : List (Nat × Nat) :=
  [(0xAD, 0xAD), (0x600, 0x605), (0x61C, 0x61C), (0x6DD, 0x6DD), (0x70F, 0x70F), (0x890, 0x891),
   (0x8E2, 0x8E2), (0x180E, 0x180E), (0x200B, 0x200B), (0x200D, 0x200F), (0x202A, 0x202E),
   (0x2060, 0x2064), (0x2066, 0x206F), (0xFEFF, 0xFEFF), (0xFFF9, 0xFFFB), (0x110BD, 0x110BD),
   (0x110CD, 0x110CD), (0x13430, 0x1343F), (0x1BCA0, 0x1BCA3), (0x1D173, 0x1D17A),
   (0xE0001, 0xE0001)]

/-- Private-use characters (general category `Co`). -/
def privateUse : List (Nat × Nat) :=
  [(0xE000, 0xF8FF), (0xF0000, 0xFFFFD), (0x100000, 0x10FFFD)]

/-- Hangul fillers: letters that are blank by themselves. They are the only letters with the
property `Default_Ignorable_Code_Point`. -/
def fillers : List (Nat × Nat) :=
  [(0x115F, 0x1160), (0x3164, 0x3164), (0xFFA0, 0xFFA0)]

/-- Whether a code point lies in one of the ranges. -/
def covers (ranges : List (Nat × Nat)) (code : Nat) : Bool :=
  ranges.any fun range => range.1 ≤ code && code ≤ range.2

/-- The visible part of ASCII, the space included. -/
def isVisibleAscii (code : Nat) : Bool :=
  0x20 ≤ code && code ≤ 0x7E

/-- Whether a character is shown as it is. -/
def isPrintable (c : Char) : Bool :=
  isVisibleAscii c.toNat ||
    !(covers controls c.toNat || covers separators c.toNat || covers formats c.toNat ||
      covers privateUse c.toNat || covers fillers c.toNat || covers Combining.ranges c.toNat ||
      covers Unassigned.ranges c.toNat)

end TermLogic.Text.Printable

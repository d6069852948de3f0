import Lox.Text.Mark
import Lox.Text.Unassigned

/-!
# Characters that show

A text in quotes should let the reader see what it holds. Some characters do not show by themselves:
they are blank, they only steer how others are set, they join with the character before them, or
they have no agreed look. This module tells them apart, by tables of ranges of code points.

* `Text.isVisible`: the character can stand between quotes as it is.
-/

namespace Lox.Text

/-- Controls, separators other than the plain space, format characters, and characters for private
    use, as ranges with both ends included. -/
def invisibleRanges : Array (Nat × Nat) :=
  #[(0x0, 0x1F), (0x7F, 0xA0), (0xAD, 0xAD), (0x600, 0x605), (0x61C, 0x61C), (0x6DD, 0x6DD),
    (0x70F, 0x70F), (0x890, 0x891), (0x8E2, 0x8E2), (0x1680, 0x1680), (0x180E, 0x180E),
    (0x2000, 0x200F), (0x2028, 0x202F), (0x205F, 0x2064), (0x2066, 0x206F), (0x3000, 0x3000),
    (0xE000, 0xF8FF), (0xFEFF, 0xFEFF), (0xFFF9, 0xFFFB), (0x110BD, 0x110BD), (0x110CD, 0x110CD),
    (0x13430, 0x1343F), (0x1BCA0, 0x1BCA3), (0x1D173, 0x1D17A), (0xE0001, 0xE0001),
    (0xE0020, 0xE007F), (0xF0000, 0xFFFFD), (0x100000, 0x10FFFD)]

/-- Letters that only fill the place of a missing part of a syllable, and are blank themselves, as
    ranges with both ends included. -/
def fillerRanges : Array (Nat × Nat) :=
  #[(0x115F, 0x1160), (0x3164, 0x3164), (0xFFA0, 0xFFA0)]

/-- Whether a number lies in one of the ranges. -/
def inRanges (ranges : Array (Nat × Nat)) (n : Nat) : Bool :=
  ranges.any fun (first, last) => first ≤ n && n ≤ last

/-- Whether a character shows by itself. -/
def isVisible (c : Char) : Bool :=
  !(inRanges invisibleRanges c.toNat || inRanges fillerRanges c.toNat ||
    inRanges markRanges c.toNat || inRanges unassignedRanges c.toNat)

end Lox.Text

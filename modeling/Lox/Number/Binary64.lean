/-!
# Doubles as whole numbers

The magnitude of a double, read as the natural number of its lower 63 bits, counts the doubles
below it. So a magnitude is a position, from `0` (the number zero) up to `infinity`, and the
number at a position is a whole multiple of `2 ^ (-1074)`, the least positive double. Both sides
are natural numbers, and rounding needs no other arithmetic:

* `units p` is the number at the position `p`, in units of `2 ^ (-1074)`;
* `below x` is the last position whose number is at most `x` units;
* `nearest num den` is the position of the double nearest to `num / den`, where a number half way
  between two doubles goes to the even position.

`units infinity` is what would come next if there were no largest double, so a number that is
nearer to it than to the largest double overflows.
-/

namespace Lox.Binary64

/-- The number of units of `2 ^ (-1074)` in one. -/
def one : Nat := Nat.pow 2 1074

/-- The position after the largest double. -/
def infinity : Nat := 0x7FF * Nat.pow 2 52

/-- The number at the position `p`, in units of `2 ^ (-1074)`. The upper bits of `p` say by how
    much the numbers around it are scaled; at the first two scales the step is one unit. -/
def units (p : Nat) : Nat :=
  let scale := p / Nat.pow 2 52 - 1
  (p - scale * Nat.pow 2 52) * Nat.pow 2 scale

/-- The last position whose number is at most `x` units. -/
def below (x : Nat) : Nat :=
  let scale := x.log2 - 52
  scale * Nat.pow 2 52 + x / Nat.pow 2 scale

/-- The position of the double nearest to `num / den`. -/
def nearest (num den : Nat) : Nat :=
  let scaled := num * one
  let p := below (scaled / den)
  let middle := (units p + units (p + 1)) * den
  let rounded :=
    if 2 * scaled < middle then p
    else if middle < 2 * scaled then p + 1
    else if p % 2 = 0 then p else p + 1
  min rounded infinity

/-- The position of the magnitude of `x`. Not-a-numbers lie beyond `infinity`. -/
def position (x : Float) : Nat := x.toBits.toNat % Nat.pow 2 63

/-- Whether the sign of `x` is negative; minus zero is negative too. -/
def isNegative (x : Float) : Bool := Nat.pow 2 63 ≤ x.toBits.toNat

/-- The double at the position `p`, without a sign. -/
def ofPosition (p : Nat) : Float := Float.ofBits (UInt64.ofNat p)

end Lox.Binary64

import Lox.Number.Binary64

/-!
# Decimals and the doubles near them

A decimal is a whole number of some power of ten. It is read as the nearest double
(`Decimal.position`), and a double is written as the decimal with the fewest digits that is read as
it (`Decimal.shortest`): from the coarsest grid of decimals on, the two neighbours of the double are
tried, and the first grid on which one of them reads back decides. That is the definition, so what
is written always reads back.

* `Decimal.position`: the position of the double nearest to a decimal;
* `Decimal.exact`: a double as a decimal, exactly;
* `Decimal.shortest`: a double as the shortest decimal that reads back;
* `Decimal.plain`: a decimal written without an exponent.
-/

namespace Lox

/-- The number `digits * 10 ^ exponent`. -/
structure Decimal where
  /-- The digits, as one whole number. -/
  digits : Nat
  /-- The power of ten that the last digit counts. -/
  exponent : Int
  deriving DecidableEq, Repr

namespace Decimal

open Binary64

/-- The numerator of a decimal over its `denominator`. -/
def numerator (d : Decimal) : Nat := d.digits * Nat.pow 10 d.exponent.toNat

/-- The power of ten that makes a decimal whole. -/
def denominator (d : Decimal) : Nat := Nat.pow 10 (-d.exponent).toNat

/-- The position of the double nearest to a decimal. -/
def position (d : Decimal) : Nat := nearest d.numerator d.denominator

/-- The same number without zeros at the end of its digits, of which at most `fuel` are dropped.
    Zero itself is a whole number. -/
def trim : (fuel : Nat) → Decimal → Decimal
  | 0, d => d
  | fuel + 1, d =>
    if d.digits = 0 then ⟨0, 0⟩
    else if d.digits % 10 = 0 then trim fuel ⟨d.digits / 10, d.exponent + 1⟩
    else d

/-- The double at the position `p` as a decimal, exactly: a unit is `5 ^ 1074` of the smallest
    decimals that are needed. -/
def exact (p : Nat) : Decimal := trim 1074 ⟨units p * Nat.pow 5 1074, -1074⟩

/-- The whole part of a double, given in units, on the grid of `10 ^ exponent`. -/
def floorOn (exponent : Int) (x : Nat) : Nat :=
  x * Nat.pow 10 (-exponent).toNat / (one * Nat.pow 10 exponent.toNat)

/-- Which of two neighbours on a grid is taken if both read back and are equally near. -/
inductive Tie where
  /-- The larger one. -/
  | up
  /-- The one with an even last digit. -/
  | toEven
  deriving DecidableEq, Repr

/-- Whether the upper neighbour `low + 1` is taken rather than `low`, if both read back as the
    number of `x` units. -/
def Tie.takesUpper (tie : Tie) (exponent : Int) (low x : Nat) : Bool :=
  let twice := 2 * x * Nat.pow 10 (-exponent).toNat
  let middle := (2 * low + 1) * (one * Nat.pow 10 exponent.toNat)
  if twice = middle then
    match tie with
    | .up => true
    | .toEven => low % 2 = 1
  else middle < twice

/-- The last decimal on the grid of `10 ^ exponent` that is not above the double at the position
    `p`. -/
def lower (p : Nat) (exponent : Int) : Decimal := ⟨floorOn exponent (units p), exponent⟩

/-- The first decimal on the grid of `10 ^ exponent` that is above the double at the position
    `p`. -/
def upper (p : Nat) (exponent : Int) : Decimal := ⟨floorOn exponent (units p) + 1, exponent⟩

/-- Of two decimals the one that is read as the double at the position `p`, if one of them is. If
    both are, `takesUpper` decides. -/
def pick? (p : Nat) (low high : Decimal) (takesUpper : Bool) : Option Decimal :=
  if low.position = p then
    if high.position = p ∧ takesUpper then some high else some low
  else if high.position = p then some high
  else none

/-- The decimal of the grid of `10 ^ exponent` that is read as the double at the position `p`, if
    one of the two neighbours of the double is. -/
def onGrid? (tie : Tie) (p : Nat) (exponent : Int) : Option Decimal :=
  pick? p (lower p exponent) (upper p exponent)
    (tie.takesUpper exponent (floorOn exponent (units p)) (units p))

/-- The number of decimal digits of a whole number; none of zero. -/
def digitCount (n : Nat) : Nat := if n = 0 then 0 else n.repr.length

/-- How many zeros follow the point of the number of `x` units before its first digit, of which
    at most `fuel` are counted. -/
def leadingZeros (x : Nat) : (fuel : Nat) → Nat
  | 0 => 0
  | fuel + 1 => if one ≤ 10 * x then 0 else leadingZeros (10 * x) fuel + 1

/-- The power of ten right above the first digit of the number of `x` units. -/
def magnitude (x : Nat) : Int :=
  if one ≤ x then digitCount (x / one) else -leadingZeros x 1074

/-- The shortest decimal that is read as the double at the position `p`, and of those the nearest
    to it. Seventeen digits always suffice; `exact` stands behind them, so that no proof of this is
    needed for the result to read back. -/
def shortest (tie : Tie) (p : Nat) : Decimal :=
  let top := magnitude (units p)
  let found := (List.range 17).findSome? fun k : Nat => onGrid? tie p (top - 1 - k)
  trim 17 (found.getD (exact p))

/-- The power of ten that the first digit of a decimal counts. -/
def firstExponent (d : Decimal) : Int := d.exponent + d.digits.repr.length - 1

/-- `n` zeros. -/
def zeros (n : Nat) : String := String.ofList (List.replicate n '0')

/-- A decimal written without an exponent, with as many digits after the point as it has. -/
def plain (d : Decimal) : String :=
  let text := d.digits.repr
  let places := (-d.exponent).toNat
  if places = 0 then text ++ zeros d.exponent.toNat
  else
    let padded := (zeros (places + 1 - text.length) ++ text).toList
    let whole := padded.length - places
    String.ofList (padded.take whole) ++ "." ++ String.ofList (padded.drop whole)

end Decimal

end Lox

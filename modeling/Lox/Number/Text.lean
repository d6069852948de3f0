import Lox.Number.Decimal

/-!
# How numbers are written

A number is written in four places, and each has its own form. All of them come from two decimals of
a double, the shortest one that reads back and the exact one.

* `Number.plain` writes the shortest decimal without an exponent, and the forms below fall back on
  it;
* `Number.display` is the form of values: whole numbers have no point;
* `Number.inToken` is the form in token listings: a whole number ends in `.0`;
* `Number.inTree` is the form in expression trees: a whole number has all its digits and `.0`;
* `Number.json` is the form in JSON: large and small numbers have an exponent.
-/

namespace Lox.Number

open Binary64

/-- The sign in front of a number; minus zero has one. -/
def sign (x : Float) : String := if isNegative x then "-" else ""

/-- Whether a number is whole. Infinities and not-a-numbers are not. -/
def isWhole (x : Float) : Bool :=
  position x < infinity && units (position x) % one == 0

/-- The whole part of the magnitude of a finite number. -/
def wholePart (x : Float) : Nat := units (position x) / one

/-- Whole numbers below `10 ^ 15` have a form of their own in some places. -/
def isSmallWhole (x : Float) : Bool := isWhole x && wholePart x < Nat.pow 10 15

/-- The shortest decimal that reads back, without an exponent and, for a whole number, without a
    point. At a tie the larger decimal is taken. -/
def plain (x : Float) : String :=
  if infinity < position x then "NaN"
  else if position x = infinity then sign x ++ "inf"
  else sign x ++ (Decimal.shortest .up (position x)).plain

/-- A number as a value is displayed. -/
def display (x : Float) : String :=
  if infinity < position x then "NaN"
  else if position x = infinity then sign x ++ "Infinity"
  else if isSmallWhole x && !(position x == 0 && isNegative x) then sign x ++ (wholePart x).repr
  else plain x

/-- A number as a token listing shows it. Minus zero has no sign here. -/
def inToken (x : Float) : String :=
  if isSmallWhole x then
    (if position x = 0 then "" else sign x) ++ (wholePart x).repr ++ ".0"
  else plain x

/-- A number as an expression tree shows it. -/
def inTree (x : Float) : String :=
  if isWhole x then sign x ++ (wholePart x).repr ++ ".0" else plain x

/-- A decimal with one digit before the point and an exponent that always has a sign. -/
def scientific (d : Decimal) : String :=
  let text := d.digits.repr.toList
  let fraction := if text.length ≤ 1 then "" else "." ++ String.ofList (text.drop 1)
  let exponent := d.firstExponent
  let exponentSign := if exponent < 0 then "-" else "+"
  String.ofList (text.take 1) ++ fraction ++ "e" ++ exponentSign ++ exponent.natAbs.repr

/-- A number in JSON, which has no infinities and no not-a-numbers. From `10 ^ (-5)` up to below
    `10 ^ 16` there is no exponent, but always a point. At a tie the even digit is taken. -/
def json (x : Float) : String :=
  if infinity ≤ position x then "null"
  else if position x = 0 then sign x ++ "0.0"
  else
    let d := Decimal.shortest .toEven (position x)
    if -5 ≤ d.firstExponent ∧ d.firstExponent < 16 then
      sign x ++ d.plain ++ (if d.exponent < 0 then "" else ".0")
    else sign x ++ scientific d

end Lox.Number

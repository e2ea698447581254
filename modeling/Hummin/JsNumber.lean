/-
Finite doubles as exact rationals: rounding to the nearest double, ties to even,
and `Number::toString`, the shortest decimal that rounds to the number.
-/
import Mathlib.Data.Int.Log
import Mathlib.Data.Rat.Floor
import Hummin.JsString

namespace Hummin

/-- Round to the nearest integer, ties to even. -/
def roundHalfEven (value : ℚ) : ℤ :=
  let low := ⌊value⌋
  let rest := value - low
  if rest < 1 / 2 then low
  else if 1 / 2 < rest then low + 1
  else if low % 2 = 0 then low else low + 1

/-- The exponent of the last place of the doubles around a value. -/
def lastPlace (value : ℚ) : ℤ :=
  max (Int.log 2 |value| - 52) (-1074)

/-- The nearest double; `none` beyond the largest, where it is an infinity. -/
def roundDouble (value : ℚ) : Option ℚ :=
  let place := lastPlace value
  let rounded := roundHalfEven (value / 2 ^ place) * (2 : ℚ) ^ place
  if |rounded| < 2 ^ (1024 : ℕ) then some rounded else none

/-- The value is that of a finite double: its magnitude rounds to itself. -/
def IsDouble (value : ℚ) : Prop :=
  roundDouble |value| = some |value|

instance (value : ℚ) : Decidable (IsDouble value) :=
  inferInstanceAs (Decidable (_ = _))

/-- Of two neighbouring decimals the one that fits; of two that fit the nearer,
of two as near the even. -/
def chooseDecimal (fits : Nat → Bool) (low : Nat) (below above : ℚ) :
    Option Nat :=
  match fits low, fits (low + 1) with
  | true, false => some low
  | false, true => some (low + 1)
  | false, false => none
  | true, true =>
    if below < above then some low
    else if above < below then some (low + 1)
    else if low % 2 = 0 then some low else some (low + 1)

/-- The decimal with `digits` digits that rounds to a positive value. -/
def nearestDecimal (value : ℚ) (exponent : ℤ) (digits : Nat) : Option Nat :=
  let unit := (10 : ℚ) ^ (exponent - digits)
  let low := ⌊value / unit⌋.toNat
  chooseDecimal
    (fun candidate => decide (roundDouble (candidate * unit) = some value)) low
    (value - low * unit) ((low + 1) * unit - value)

/-- The least number of digits, from `digits` on, for which a decimal is found,
and the decimal. -/
def searchDigits (find : Nat → Option Nat) : Nat → Nat → Option (Nat × Nat)
  | 0, _ => none
  | fuel + 1, digits =>
    match find digits with
    | some decimal => some (digits, decimal)
    | none => searchDigits find fuel (digits + 1)

/-- The digits found and the position of their point; a number that was rounded
up to one digit more is a power of ten. -/
def placeDigits (exponent : ℤ) : Option (Nat × Nat) → JsString × ℤ
  | some (digits, number) =>
    if number = 10 ^ digits then (decimal 1, exponent + 1)
    else (decimal number, exponent)
  | none => ([], exponent)

/-- The significant digits of a positive double and the position of its point:
the value is the digits, with the point `position` places after their start. -/
def significand (value : ℚ) : JsString × ℤ :=
  placeDigits (Int.log 10 value + 1)
    (searchDigits (nearestDecimal value (Int.log 10 value + 1)) 1400 1)

def zeros (count : Nat) : JsString :=
  List.replicate count (digitUnit 0)

def pointUnit : UInt16 := 46
def minusUnit : UInt16 := 45
def plusUnit : UInt16 := 43
def exponentUnit : UInt16 := 101

/-- The layout of the digits: plain, with a point, or with an exponent. -/
def layoutDigits (digits : JsString) (position : ℤ) : JsString :=
  let count := digits.length
  if count ≤ position ∧ position ≤ 21 then
    digits ++ zeros (position.toNat - count)
  else if 0 < position ∧ position ≤ 21 then
    digits.take position.toNat ++ pointUnit :: digits.drop position.toNat
  else if -6 < position ∧ position ≤ 0 then
    digitUnit 0 :: pointUnit :: (zeros (-position).toNat ++ digits)
  else
    let scale := position - 1
    let sign := if scale < 0 then minusUnit else plusUnit
    let mantissa := if count = 1 then digits
      else digits.take 1 ++ pointUnit :: digits.drop 1
    mantissa ++ exponentUnit :: sign :: decimal scale.natAbs

/-- `Number::toString` in base ten of a finite double. -/
def numberText (value : ℚ) : JsString :=
  if value = 0 then [digitUnit 0]
  else
    let (digits, position) := significand |value|
    let text := layoutDigits digits position
    if value < 0 then minusUnit :: text else text

end Hummin

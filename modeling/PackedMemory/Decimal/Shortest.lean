/-!
# Shortest decimals

The fewest decimal digits that single out one binary number among its
neighbours.  A binary number is held together with the interval of reals that
round to it; for a growing number of digits, the two points of the decimal grid
beside the number are tried, and the first grid with a point in the interval
gives the digits.
-/

namespace PackedMemory.Decimal

/--
The reals that round to one binary number.  `low`, `value` and `high` are
numerators over `denominator`; the two ends belong to the interval exactly when
`closed` holds.
-/
structure Interval where
  low : Nat
  value : Nat
  high : Nat
  denominator : Nat
  closed : Bool
deriving DecidableEq, Repr

structure Numeral where
  digits : Nat
  power : Int
deriving DecidableEq, Repr

/--
The interval of `significand * 2 ^ exponent`.  Half a step separates it from the
next number on either side, except that the step below a power of two is half as
wide.  Ties round to an even significand, so an even one owns its ends.
-/
def Interval.around (significand : Nat) (exponent : Int)
    (powerOfTwo : Bool) : Interval :=
  let scale := Nat.pow 2 (exponent - 2).toNat
  let below := if powerOfTwo then 1 else 2
  { low := (4 * significand - below) * scale
    value := 4 * significand * scale
    high := (4 * significand + 2) * scale
    denominator := Nat.pow 2 (2 - exponent).toNat
    closed := significand % 2 == 0 }

def Interval.holds (interval : Interval) (decimal : Numeral) : Bool :=
  let point :=
    decimal.digits * Nat.pow 10 decimal.power.toNat * interval.denominator
  let lift := Nat.pow 10 (-decimal.power).toNat
  if interval.closed then
    interval.low * lift ≤ point && point ≤ interval.high * lift
  else
    interval.low * lift < point && point < interval.high * lift

def digitCount (number : Nat) : Nat :=
  (Nat.toDigits 10 number).length

def Interval.magnitude (interval : Interval) : Int :=
  if interval.denominator ≤ interval.value then
    (digitCount (interval.value / interval.denominator) : Int) - 1
  else
    -(digitCount ((interval.denominator - 1) / interval.value) : Int)

/--
The multiple of `10 ^ power` that lies in the interval and is nearest to its
number, if there is one.  Halfway between two of them the larger is taken.
-/
def Interval.nearest? (interval : Interval) (power : Int) : Option Numeral :=
  let unit := Nat.pow 10 power.toNat * interval.denominator
  let target := interval.value * Nat.pow 10 (-power).toNat
  let below : Numeral := ⟨target / unit, power⟩
  let above : Numeral := ⟨target / unit + 1, power⟩
  match interval.holds below, interval.holds above with
  | true, true =>
      if 2 * target < (2 * below.digits + 1) * unit then
        some below
      else
        some above
  | true, false => some below
  | false, true => some above
  | false, false => none

def Numeral.trim (decimal : Numeral) : Numeral :=
  if 0 < decimal.digits ∧ decimal.digits % 10 = 0 then
    Numeral.trim ⟨decimal.digits / 10, decimal.power + 1⟩
  else
    decimal
termination_by decimal.digits
decreasing_by omega

/-- Seventeen digits single out every number of 53 significant bits. -/
def maximalDigits : Nat := 17

def Interval.shortest (interval : Interval) : Numeral :=
  let magnitude := interval.magnitude
  let found := (List.range maximalDigits).findSome? fun (extra : Nat) =>
    interval.nearest? (magnitude - extra)
  (found.getD ⟨0, 0⟩).trim

theorem Interval.holds_of_nearest? {interval : Interval} {power : Int}
    {decimal : Numeral} (h : interval.nearest? power = some decimal) :
    interval.holds decimal = true := by
  unfold Interval.nearest? at h
  grind

end PackedMemory.Decimal

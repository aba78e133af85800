import TreeCodec.Binary

/-!
# Shortest decimals

The decimal text of a floating point datum: as few digits as still read back
as the same datum, written positionally and never with an exponent.

* `Decimal.between?`: the shortest decimal in an interval around a rational,
  and of two equally short ones the nearer;
* `Binary.shortest`: the shortest decimal that reads back as a finite datum's
  magnitude;
* `Decimal.positional` and `Binary.text`: their spelling.
-/

namespace TreeCodec

/-- The number `digits × 10 ^ exponent`. -/
structure Decimal where
  digits : Nat
  exponent : Int
  deriving DecidableEq

namespace Decimal

/-- The number of decimal digits of `n`, which is one for zero. -/
def width (n : Nat) : Nat := (Nat.toDigits 10 n).length

/-- The exponent of the leading digit of `num / den`, for positive `num` and `den`. -/
def leading (num den : Nat) : Int :=
  if den ≤ num then (width (num / den) : Int) - 1 else -(width ((den - 1) / num) : Int)

/-- An interval `low / den … high / den` around `mid / den`, and whether its
ends belong to it. -/
structure Interval where
  low : Nat
  mid : Nat
  high : Nat
  den : Nat
  closed : Bool

/-- The point of the grid of multiples of `10 ^ exponent` that is nearest to the
middle of the interval, among the two neighbours of the middle, if one of them
lies in the interval. A tie goes to the even one. -/
def Interval.onGrid? (i : Interval) (exponent : Int) : Option Decimal :=
  let unit := i.den * Nat.pow 10 exponent.toNat
  let stretch := Nat.pow 10 (-exponent).toNat
  let floor := i.mid * stretch / unit
  let rest := i.mid * stretch % unit
  let inside (d : Nat) : Bool :=
    if i.closed then i.low * stretch ≤ d * unit && d * unit ≤ i.high * stretch
    else i.low * stretch < d * unit && d * unit < i.high * stretch
  let upFirst := unit < 2 * rest || (unit == 2 * rest && floor % 2 == 1)
  let candidates := if upFirst then [floor + 1, floor] else [floor, floor + 1]
  (candidates.find? inside).map (⟨·, exponent⟩)

/-- The shortest decimal in the interval: the first of the grids with 1, 2, …
digits that has a point in it. -/
def between? (i : Interval) (digits : Nat) : Option Decimal :=
  (List.range digits).findSome? fun n : Nat => i.onGrid? (leading i.mid i.den - (n : Int))

/-- Digits without an exponent: zeros fill the places between the digits and
the point, and a number without a fractional part has no point. -/
def positional (d : Decimal) : String :=
  let digits := Nat.toDigits 10 d.digits
  if 0 ≤ d.exponent then
    String.ofList (digits ++ List.replicate d.exponent.toNat '0')
  else
    let places := (-d.exponent).toNat
    let padded := List.replicate (places + 1 - digits.length) '0' ++ digits
    String.ofList (padded.take (padded.length - places)) ++ "." ++
      String.ofList (padded.drop (padded.length - places))

end Decimal

namespace Binary

variable {F : FloatFormat}

/-- The numbers that round to a positive finite datum, four to a unit of the
last place. The lower end is nearer where the exponent changes, and the ends
round to the datum if its significand is even. -/
def roundingInterval (x : Binary F) : Decimal.Interval :=
  let narrow := x.fraction.val == 0 && 1 < x.exponent.val
  let up := Nat.pow 2 (x.scale - 2).toNat
  let low := 4 * x.significand - if narrow then 1 else 2
  ⟨low * up, 4 * x.significand * up, (4 * x.significand + 2) * up,
    Nat.pow 2 (2 - x.scale).toNat, x.significand % 2 == 0⟩

/-- How many decimal digits always suffice to read a datum of the format back. -/
def enoughDigits (F : FloatFormat) : Nat := Decimal.width (2 * F.fractionCount) + 1

/-- The shortest decimal that reads back as a finite datum's magnitude. -/
def shortest (x : Binary F) : Decimal :=
  if x.isZero then ⟨0, 0⟩
  else (Decimal.between? x.roundingInterval (enoughDigits F)).getD ⟨0, 0⟩

/-- The text of a datum. -/
def text (x : Binary F) : String :=
  if x.isNaN then "NaN"
  else (if x.negative then "-" else "") ++ if x.isFinite then x.shortest.positional else "inf"

end Binary

end TreeCodec

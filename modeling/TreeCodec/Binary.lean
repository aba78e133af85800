/-!
# Binary floating point

The two interchange formats that data and trees hold, as a sign, an exponent
field and a fraction field. Everything here is exact integer arithmetic: a
finite datum stands for `± significand × 2 ^ scale`.

* `Binary.toInt?`: the integer that a finite datum denotes, if it denotes one;
* `Binary.ofScaled`: the datum nearest to `± m × 2 ^ q`, a tie going to the
  even neighbour, and beyond the largest finite datum an infinity;
* `Binary.convert`: the datum of another format nearest to this one;
* `Binary.numEq`: equality as numbers, in which a NaN equals nothing and the
  two zeros are equal.
-/

namespace TreeCodec

/-- A binary interchange format: the widths of its exponent and fraction fields. -/
structure FloatFormat where
  exponentBits : Nat
  fractionBits : Nat
  deriving DecidableEq

namespace FloatFormat

/-- The 32-bit format. -/
def single : FloatFormat := ⟨8, 23⟩

/-- The 64-bit format. -/
def double : FloatFormat := ⟨11, 52⟩

/-- The number of exponent fields. -/
def exponentCount (F : FloatFormat) : Nat := Nat.pow 2 F.exponentBits

/-- The number of fraction fields, which is the weight of a significand's leading bit. -/
def fractionCount (F : FloatFormat) : Nat := Nat.pow 2 F.fractionBits

theorem exponentCount_pos (F : FloatFormat) : 0 < F.exponentCount := Nat.two_pow_pos _

theorem fractionCount_pos (F : FloatFormat) : 0 < F.fractionCount := Nat.two_pow_pos _

/-- What is subtracted from an exponent field to give the exponent of the leading bit. -/
def bias (F : FloatFormat) : Nat := Nat.pow 2 (F.exponentBits - 1) - 1

/-- The scale of the smallest positive datum: no datum is finer. -/
def minScale (F : FloatFormat) : Int := 1 - (F.bias : Int) - F.fractionBits

/-- The exponent field of infinities and NaNs, all ones. -/
def topExponent (F : FloatFormat) : Nat := F.exponentCount - 1

theorem topExponent_lt (F : FloatFormat) : F.topExponent < F.exponentCount :=
  Nat.sub_lt F.exponentCount_pos Nat.one_pos

end FloatFormat

/-- A datum of a binary format, field by field. -/
structure Binary (F : FloatFormat) where
  negative : Bool
  exponent : Fin F.exponentCount
  fraction : Fin F.fractionCount
  deriving DecidableEq

/-- A datum of the 32-bit format. -/
abbrev Binary32 := Binary .single

/-- A datum of the 64-bit format. -/
abbrev Binary64 := Binary .double

namespace Binary

variable {F G : FloatFormat}

/-! ## Bits -/

/-- Exponent and fraction fields side by side, without the sign. Codes are
ordered as the magnitudes they stand for. -/
def code (x : Binary F) : Nat := x.exponent.val * F.fractionCount + x.fraction.val

/-- The datum of a sign and a code, the code read modulo the number of codes. -/
def ofCode (negative : Bool) (code : Nat) : Binary F where
  negative := negative
  exponent := ⟨code / F.fractionCount % F.exponentCount, Nat.mod_lt _ F.exponentCount_pos⟩
  fraction := ⟨code % F.fractionCount, Nat.mod_lt _ F.fractionCount_pos⟩

/-- The whole bit pattern, the sign in the highest bit. -/
def toBits (x : Binary F) : Nat :=
  (if x.negative then F.exponentCount * F.fractionCount else 0) + x.code

/-- The datum of a bit pattern. -/
def ofBits (bits : Nat) : Binary F :=
  ofCode (bits / (F.exponentCount * F.fractionCount) % 2 == 1) bits

/-! ## Classes and special data -/

/-- Neither an infinity nor a NaN. -/
def isFinite (x : Binary F) : Bool := x.exponent.val != F.topExponent

def isNaN (x : Binary F) : Bool := x.exponent.val == F.topExponent && x.fraction.val != 0

/-- Either zero. -/
def isZero (x : Binary F) : Bool := x.exponent.val == 0 && x.fraction.val == 0

/-- The zero of a sign. -/
def zero (negative : Bool) : Binary F := ofCode negative 0

/-- The infinity of a sign. -/
def infinity (negative : Bool) : Binary F where
  negative := negative
  exponent := ⟨F.topExponent, F.topExponent_lt⟩
  fraction := ⟨0, F.fractionCount_pos⟩

/-- The NaN whose fraction field is its highest bit alone. -/
def nan : Binary F where
  negative := false
  exponent := ⟨F.topExponent, F.topExponent_lt⟩
  fraction := ⟨F.fractionCount / 2, Nat.div_lt_self F.fractionCount_pos (by decide)⟩

/-! ## Value -/

/-- The integer part of a finite datum's value: the fraction field, with the
leading bit in front unless the exponent field is zero. -/
def significand (x : Binary F) : Nat :=
  if x.exponent.val = 0 then x.fraction.val else F.fractionCount + x.fraction.val

/-- The exponent of the last bit of a finite datum's significand. -/
def scale (x : Binary F) : Int := F.minScale + ((x.exponent.val : Int) - 1).toNat

/-- The number `m × 2 ^ q`, if it is a natural one. -/
def scaledNat? (m : Nat) (q : Int) : Option Nat :=
  match q with
  | .ofNat q => some (m * Nat.pow 2 q)
  | .negSucc q =>
    if m % Nat.pow 2 (q + 1) = 0 then some (m / Nat.pow 2 (q + 1)) else none

/-- The integer a finite datum denotes, if it denotes one. -/
def toInt? (x : Binary F) : Option Int :=
  if x.isFinite then
    (scaledNat? x.significand x.scale).map fun n => if x.negative then -(n : Int) else n
  else
    none

/-- A finite datum without a fractional part. -/
def isIntegral (x : Binary F) : Bool := x.toInt?.isSome

/-- Equality as numbers: a NaN equals nothing, the two zeros are equal. -/
def numEq (x y : Binary F) : Bool :=
  !x.isNaN && !y.isNaN && (x.isZero && y.isZero || x == y)

/-! ## Rounding -/

/-- The natural number nearest to `m / 2 ^ k`, a tie going to the even one. -/
def shiftRound (m k : Nat) : Nat :=
  let unit := Nat.pow 2 k
  let floor := m / unit
  let rest := m % unit
  if unit < 2 * rest ∨ (2 * rest = unit ∧ floor % 2 = 1) then floor + 1 else floor

/-- The datum nearest to `± m × 2 ^ q`. The significand is cut to the width of
the format at the scale the leading bit asks for, or at the finest scale; a
carry out of the significand moves on to the next exponent by itself, because
codes are consecutive. Codes from that of infinity on give infinity. -/
def ofScaled (negative : Bool) (m : Nat) (q : Int) : Binary F :=
  let scale := max (q + (Nat.log2 m : Int) - F.fractionBits) F.minScale
  let significand :=
    match scale - q with
    | .ofNat k => shiftRound m k
    | .negSucc k => m * Nat.pow 2 (k + 1)
  let code := (scale - F.minScale).toNat * F.fractionCount + significand
  if m = 0 then zero negative
  else if code < F.topExponent * F.fractionCount then ofCode negative code
  else infinity negative

/-- The datum nearest to an integer. -/
def ofInt (n : Int) : Binary F := ofScaled (n < 0) n.natAbs 0

/-- The datum of another format nearest to this one. -/
def convert (x : Binary F) : Binary G :=
  if x.isFinite then ofScaled x.negative x.significand x.scale
  else if x.isNaN then nan
  else infinity x.negative

end Binary

end TreeCodec

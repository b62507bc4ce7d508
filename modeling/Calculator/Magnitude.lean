/-!
Doubles as exact numbers.

A double is no number, an infinity, or a sign with a magnitude
`significand * 2 ^ exponent`; `Form.ofFloat` tells them apart by the bit pattern.
The patterns of the finite magnitudes ascend with their values:
`Magnitude.ofPattern` and `Magnitude.pattern` go between the two.
-/

namespace Calculator

/-- A magnitude `significand * 2 ^ exponent`. -/
structure Magnitude where
  significand : Nat
  exponent : Int
deriving DecidableEq, Repr

namespace Magnitude

/-- The number of magnitudes that share a binary exponent: two to the 52nd. -/
def fractionCount : Nat := 4503599627370496

/-- The binary exponent of the least magnitudes. -/
def leastExponent : Int := -1074

/-- The pattern of infinity, the first one above the finite magnitudes. -/
def infinityPattern : Nat := 2047 * fractionCount

/-- The magnitude with the pattern `p`. Below `fractionCount` the significand is
the pattern itself; from there on the leading bit is implied. -/
def ofPattern (p : Nat) : Magnitude :=
  if p < fractionCount then ⟨p, leastExponent⟩
  else ⟨fractionCount + p % fractionCount, p / fractionCount - 1 + leastExponent⟩

/-- The pattern of a magnitude; magnitudes out of range share that of infinity. A
significand of `2 * fractionCount` counts as the first one of the next exponent, so
a carry out of rounding needs no case of its own. -/
def pattern (m : Magnitude) : Nat :=
  min infinityPattern
    (fractionCount * (m.exponent - leastExponent).toNat + m.significand)

open Float.Model UnpackedFloat in
/-- No bit is set in the fraction of the pattern of infinity, and patterns below it
have a lesser exponent: none of them is a spare pattern of an undefined value. -/
theorem valid_ofNat {p : Nat} (h : p ≤ infinityPattern) :
    Format.binary64.Valid (UInt64.ofNat p).toBitVec := by
  refine ⟨fun exponent mantissa => absurd (BitVec.eq_of_toNat_eq ?_) mantissa⟩
  have exponent := congrArg BitVec.toNat exponent
  simp [unpackExponent, BitVec.extractLsb, BitVec.extractLsb',
    Nat.shiftRight_eq_div_pow] at exponent
  simp [unpackMantissa, BitVec.extractLsb, BitVec.extractLsb']
  simp only [infinityPattern, fractionCount] at h
  omega

theorem pattern_le (m : Magnitude) : m.pattern ≤ infinityPattern :=
  Nat.min_le_left _ _

/-- The double of a magnitude, with a positive sign. -/
def toFloat (m : Magnitude) : Float :=
  .ofModel ⟨UInt64.ofNat m.pattern, valid_ofNat m.pattern_le⟩

end Magnitude

/-- What a double stands for. -/
inductive Form where
  | notANumber
  | infinite (negative : Bool)
  | finite (negative : Bool) (magnitude : Magnitude)
deriving DecidableEq, Repr

/-- The number of patterns without a sign: two to the 63rd. -/
def Form.patternCount : Nat := 9223372036854775808

/-- The sign is the highest of the 64 bits; the rest is the pattern of the
magnitude. -/
def Form.ofFloat (x : Float) : Form :=
  let bits := x.toBits.toNat
  let negative := decide (patternCount ≤ bits)
  let pattern := bits % patternCount
  if pattern < Magnitude.infinityPattern then
    .finite negative (Magnitude.ofPattern pattern)
  else if pattern = Magnitude.infinityPattern then .infinite negative
  else .notANumber

end Calculator

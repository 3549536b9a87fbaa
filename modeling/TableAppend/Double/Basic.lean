/-!
# Floating point numbers

Doubles and singles are bit patterns.  The magnitude of a pattern, its bits without the sign, is
ordered like the value, and every finite value is a whole number of units, the unit being the
smallest positive value of the format.  All arithmetic is exact on these naturals and rounds once, to
the nearest pattern (`BinaryFormat.nearest`).
-/

namespace TableAppend

/-- The quotient to the nearest natural; a half goes to the even neighbour. -/
def divideHalfEven (numerator denominator : Nat) : Nat :=
  let quotient := numerator / denominator
  let rest := numerator % denominator
  if 2 * rest < denominator then quotient
  else if denominator < 2 * rest then quotient + 1
  else quotient + quotient % 2

structure BinaryFormat where
  fractionBits : Nat
  exponentBits : Nat

namespace BinaryFormat

def double : BinaryFormat := ⟨52, 11⟩

def single : BinaryFormat := ⟨23, 8⟩

def signWeight (format : BinaryFormat) : Nat :=
  Nat.pow 2 (format.fractionBits + format.exponentBits)

/-- The magnitude of infinity.  Smaller magnitudes are finite and larger ones no numbers. -/
def infinity (format : BinaryFormat) : Nat :=
  (Nat.pow 2 format.exponentBits - 1) * Nat.pow 2 format.fractionBits

/-- The unit is two to the power of minus `scale`. -/
def scale (format : BinaryFormat) : Nat :=
  Nat.pow 2 (format.exponentBits - 1) - 2 + format.fractionBits

/-- The significand of a finite magnitude, and the power of two by which it counts units. -/
def parts (format : BinaryFormat) (magnitude : Nat) : Nat × Nat :=
  let exponent := magnitude / Nat.pow 2 format.fractionBits
  let fraction := magnitude % Nat.pow 2 format.fractionBits
  if exponent = 0 then (fraction, 0) else (Nat.pow 2 format.fractionBits + fraction, exponent - 1)

def units (format : BinaryFormat) (magnitude : Nat) : Nat :=
  let (significand, shift) := format.parts magnitude
  significand * Nat.pow 2 shift

/-- The magnitude nearest to a quotient; of two equally near ones the even one, and infinity from
half a step past the largest finite value on.  A carry out of the significand moves into the exponent
by itself, since magnitudes are ordered like values. -/
def nearest (format : BinaryFormat) (numerator denominator : Nat) : Nat :=
  let scaled := numerator * Nat.pow 2 format.scale
  let shift := Nat.log2 (scaled / denominator) - format.fractionBits
  let significand := divideHalfEven scaled (denominator * Nat.pow 2 shift)
  min (shift * Nat.pow 2 format.fractionBits + significand) format.infinity

end BinaryFormat

structure Double where
  bits : UInt64
  deriving DecidableEq

namespace Double

def isNegative (x : Double) : Bool :=
  BinaryFormat.double.signWeight ≤ x.bits.toNat

def magnitude (x : Double) : Nat :=
  x.bits.toNat % BinaryFormat.double.signWeight

def ofMagnitude (negative : Bool) (magnitude : Nat) : Double :=
  ⟨UInt64.ofNat ((if negative then BinaryFormat.double.signWeight else 0) + magnitude)⟩

def isFinite (x : Double) : Bool :=
  x.magnitude < BinaryFormat.double.infinity

def isInfinite (x : Double) : Bool :=
  x.magnitude == BinaryFormat.double.infinity

def isNaN (x : Double) : Bool :=
  BinaryFormat.double.infinity < x.magnitude

def units (x : Double) : Nat :=
  BinaryFormat.double.units x.magnitude

def unitsPerOne : Nat :=
  Nat.pow 2 BinaryFormat.double.scale

def ofInt (n : Int) : Double :=
  ofMagnitude (n < 0) (BinaryFormat.double.nearest n.natAbs 1)

/-- The whole number that a double stands for exactly, if its magnitude is below two to the 53. -/
def wholeNumber? (x : Double) : Option Int :=
  if x.isFinite ∧ x.units % unitsPerOne = 0 ∧ x.units < Nat.pow 2 53 * unitsPerOne then
    let n : Int := x.units / unitsPerOne
    some (if x.isNegative then -n else n)
  else none

def nan : Double := ⟨0x7ff8000000000000⟩

end Double

structure Single where
  bits : UInt32
  deriving DecidableEq

namespace Single

def isNegative (x : Single) : Bool :=
  BinaryFormat.single.signWeight ≤ x.bits.toNat

def magnitude (x : Single) : Nat :=
  x.bits.toNat % BinaryFormat.single.signWeight

def ofMagnitude (negative : Bool) (magnitude : Nat) : Single :=
  ⟨UInt32.ofNat ((if negative then BinaryFormat.single.signWeight else 0) + magnitude)⟩

/-- The number of fraction bits that a double has more. -/
def widening : Nat :=
  BinaryFormat.double.fractionBits - BinaryFormat.single.fractionBits

/-- The same value as a double.  What is no number keeps its payload and becomes quiet. -/
def toDouble (x : Single) : Double :=
  .ofMagnitude x.isNegative <|
    if x.magnitude < BinaryFormat.single.infinity then
      BinaryFormat.double.nearest (BinaryFormat.single.units x.magnitude)
        (Nat.pow 2 BinaryFormat.single.scale)
    else if x.magnitude = BinaryFormat.single.infinity then BinaryFormat.double.infinity
    else
      BinaryFormat.double.infinity
        + (x.magnitude % Nat.pow 2 BinaryFormat.single.fractionBits ||| Nat.pow 2 22)
          * Nat.pow 2 widening

/-- The nearest single.  What is no number keeps the leading bits of its payload and becomes
quiet. -/
def ofDouble (x : Double) : Single :=
  .ofMagnitude x.isNegative <|
    if x.magnitude < BinaryFormat.double.infinity then
      BinaryFormat.single.nearest x.units Double.unitsPerOne
    else if x.magnitude = BinaryFormat.double.infinity then BinaryFormat.single.infinity
    else
      BinaryFormat.single.infinity
        + (x.magnitude % Nat.pow 2 BinaryFormat.double.fractionBits / Nat.pow 2 widening
          ||| Nat.pow 2 22)

end Single

end TableAppend

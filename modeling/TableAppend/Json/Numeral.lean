import TableAppend.Double.Text

/-!
# JSON numbers

A number keeps the form in which it is written, because `1`, `1.0` and `-0` are read as different
things.  `integer?` and `natural?` accept whole numbers only; `toDouble?` reads any form and fails
past the largest double; `ofDouble` writes the shortest digits.
-/

namespace TableAppend

/-- The exponent is a sign and a magnitude. -/
structure Numeral where
  negative : Bool
  whole : Nat
  fraction : List Char
  exponent : Option (Bool × Nat)
  deriving DecidableEq

namespace Numeral

def ofNat (n : Nat) : Numeral := ⟨false, n, [], none⟩

def ofInt (n : Int) : Numeral := ⟨n < 0, n.natAbs, [], none⟩

/-- A minus sign before zero makes it no integer. -/
def integer? (n : Numeral) : Option Int :=
  if n.fraction = [] ∧ n.exponent = none ∧ ¬ (n.negative ∧ n.whole = 0) then
    some (if n.negative then -n.whole else n.whole)
  else none

/-- A natural below `bound`. -/
def natural? (bound : Nat) (n : Numeral) : Option Nat :=
  match n.integer? with
  | some (.ofNat m) => if m < bound then some m else none
  | _ => none

@[simp]
theorem integer?_ofNat (n : Nat) : (ofNat n).integer? = some (n : Int) := by
  simp [ofNat, integer?]

@[simp]
theorem natural?_ofNat (bound n : Nat) (h : n < bound) : (ofNat n).natural? bound = some n := by
  simp only [natural?, integer?_ofNat]
  exact if_pos h

/-! ## Reading a double

The leading digits that fit in 64 bits make an integer.  It is rounded to a double and then multiplied
or divided by a power of ten, itself a double, with a second rounding. -/

def wordBound : Nat := Nat.pow 2 64

/-- The longest run of leading digits that fits a word, and the number of digits after it. -/
def leadingDigits : Nat → List Char → Nat × Nat
  | taken, [] => (taken, 0)
  | taken, c :: rest =>
    let next := taken * 10 + (c.toNat - '0'.toNat)
    if next < wordBound then leadingDigits next rest else (taken, rest.length + 1)

def digitsOf (n : Nat) : List Char :=
  Nat.toDigits 10 n

/-- The integer and the power of ten that stand for the digits on both sides of the point. -/
def scaledDigits (n : Numeral) : Nat × Int :=
  let (whole, dropped) := leadingDigits 0 (digitsOf n.whole)
  let (significand, ignored) := leadingDigits whole n.fraction
  (significand, (dropped : Int) - (n.fraction.length - ignored : Nat))

/-- Powers of ten up to this one are finite doubles. -/
def largestPower : Nat := 308

def powerOfTen (exponent : Nat) : Nat :=
  BinaryFormat.double.nearest (Nat.pow 10 exponent) 1

def timesPower (magnitude exponent : Nat) : Nat :=
  let format := BinaryFormat.double
  format.nearest (format.units magnitude * format.units (powerOfTen exponent)) (Nat.pow 4 format.scale)

def overPower (magnitude exponent : Nat) : Nat :=
  let format := BinaryFormat.double
  format.nearest (format.units magnitude) (format.units (powerOfTen exponent))

def overLargePower (magnitude exponent : Nat) : Nat :=
  if exponent ≤ largestPower then overPower magnitude exponent
  else if magnitude = 0 then 0
  else overLargePower (overPower magnitude largestPower) (exponent - largestPower)
termination_by exponent
decreasing_by simp only [largestPower] at *; omega

/-- The magnitude of `significand` times ten to the power of `exponent`, if it is finite. -/
def scaledMagnitude? (significand : Nat) (exponent : Int) : Option Nat :=
  let magnitude := BinaryFormat.double.nearest significand 1
  match exponent with
  | .negSucc k => some (overLargePower magnitude (k + 1))
  | .ofNat e =>
    if e ≤ largestPower then
      let product := timesPower magnitude e
      if product < BinaryFormat.double.infinity then some product else none
    else if magnitude = 0 then some 0
    else none

def toDouble? (n : Numeral) : Option Double :=
  let (significand, places) := n.scaledDigits
  let exponent : Int := match n.exponent with
    | none => 0
    | some (true, e) => -e
    | some (false, e) => e
  (scaledMagnitude? significand (places + exponent)).map (Double.ofMagnitude n.negative)

/-! ## Writing a double -/

/-- From 0.00001 up to, but not including, this power of ten the digits are positional. -/
def positionalBelow : Int := 16

def leastPositional : Int := -5

/-- A finite double in its shortest digits, of two equally near decimals the even one: positional with
at least one digit after the point, or one digit before the point and an exponent. -/
def ofDouble (x : Double) : Numeral :=
  if x.units = 0 then ⟨x.isNegative, 0, ['0'], none⟩
  else
    let decimal := Decimal.shortest .even x
    let digits := Nat.toDigits 10 decimal.digits
    let leading : Int := digits.length - 1 + decimal.exponent
    if leastPositional ≤ leading ∧ leading < positionalBelow then
      let (whole, fraction) := Double.positional decimal
      ⟨x.isNegative, Nat.ofDigitChars 10 whole 0, if fraction.isEmpty then ['0'] else fraction, none⟩
    else
      ⟨x.isNegative, Nat.ofDigitChars 10 (digits.take 1) 0, digits.drop 1,
        some (leading < 0, leading.natAbs)⟩

def render (n : Numeral) : List Char :=
  (if n.negative then ['-'] else [])
    ++ digitsOf n.whole
    ++ (if n.fraction.isEmpty then [] else '.' :: n.fraction)
    ++ (match n.exponent with
        | none => []
        | some (negative, e) => 'e' :: (if negative then '-' else '+') :: digitsOf e)

end Numeral

end TableAppend

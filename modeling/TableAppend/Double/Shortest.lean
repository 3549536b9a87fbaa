import TableAppend.Double.Basic

/-!
# The fewest digits that read back

A finite double is written with the fewest decimal digits that are nearer to it than to any other
double, and among those with the ones nearest to it.  For one digit, two digits and so on, the two
neighbours of the value on the grid with that many digits are tested; the first grid with a neighbour
that reads back wins.  A value may lie halfway between two neighbours that both read back; which of
them is written is for the format to say.
-/

namespace TableAppend

/-- `digits` times ten to the power of `exponent`. -/
structure Decimal where
  digits : Nat
  exponent : Int
  deriving DecidableEq

/-- Which of two equally near neighbours is written: the larger one, or the one with an even last
digit. -/
inductive Tie
  | larger
  | even
  deriving DecidableEq

/-- The neighbour of a value halfway between `below` and its successor. -/
def Tie.settle (below : Nat) : Tie → Nat
  | .larger => below + 1
  | .even => below + below % 2

theorem Tie.settle_even_mod_two (below : Nat) : Tie.even.settle below % 2 = 0 := by
  simp only [settle]
  omega

namespace Decimal

def digitCount (n : Nat) : Nat :=
  (Nat.toDigits 10 n).length

/-- The exponent of the leading digit of a positive quotient. -/
def leadingExponent (numerator denominator : Nat) : Int :=
  if denominator ≤ numerator then digitCount (numerator / denominator) - 1
  else -digitCount ((denominator - 1) / numerator)

/-- The reals nearer to a value than to its neighbours: from `low` to `high` around `value`, all over
`denominator`.  The ends belong to it if `closed` says so. -/
structure Interval where
  low : Nat
  value : Nat
  high : Nat
  denominator : Nat
  closed : Bool

namespace Interval

/-- Quarters of units, because the gap below a power of two is half as wide. -/
def ofMagnitude (format : BinaryFormat) (magnitude : Nat) : Interval :=
  let (significand, shift) := format.parts magnitude
  let narrow := significand = Nat.pow 2 format.fractionBits ∧ 0 < shift
  { low := (4 * significand - if narrow then 1 else 2) * Nat.pow 2 shift
    value := 4 * significand * Nat.pow 2 shift
    high := (4 * significand + 2) * Nat.pow 2 shift
    denominator := 4 * Nat.pow 2 format.scale
    closed := significand % 2 = 0 }

def holds (interval : Interval) (numerator : Nat) : Bool :=
  if interval.closed then interval.low ≤ numerator && numerator ≤ interval.high
  else interval.low < numerator && numerator < interval.high

/-- The interval with every number multiplied so that the grid of step ten to the power of `exponent`
has the step `denominator`. -/
def onGrid (interval : Interval) (exponent : Int) : Interval :=
  let up := Nat.pow 10 (-exponent).toNat
  { interval with
    low := interval.low * up
    value := interval.value * up
    high := interval.high * up
    denominator := interval.denominator * Nat.pow 10 exponent.toNat }

/-- The nearer of the value's two neighbours on the grid, if one of them lies in the interval. -/
def neighbour? (tie : Tie) (interval : Interval) : Option Nat :=
  let below := interval.value / interval.denominator
  let above := below + 1
  let fromBelow := interval.value - below * interval.denominator
  let toAbove := above * interval.denominator - interval.value
  match interval.holds (below * interval.denominator), interval.holds (above * interval.denominator)
    with
  | true, true =>
    some (if fromBelow < toAbove then below
      else if toAbove < fromBelow then above
      else tie.settle below)
  | true, false => some below
  | false, true => some above
  | false, false => none

end Interval

/-- Removes up to `count` zeros at the end of the digits. -/
def trimZeros : Nat → Decimal → Decimal
  | 0, decimal => decimal
  | count + 1, decimal =>
    if decimal.digits % 10 = 0 ∧ decimal.digits ≠ 0 then
      trimZeros count ⟨decimal.digits / 10, decimal.exponent + 1⟩
    else decimal

/-- Seventeen digits always read back. -/
def shortestOfInterval (tie : Tie) (interval : Interval) : Decimal :=
  let leading := leadingExponent interval.value interval.denominator
  let hit := (List.range 17).findSome? fun (count : Nat) =>
    let exponent : Int := leading - count
    ((interval.onGrid exponent).neighbour? tie).map fun digits => Decimal.mk digits exponent
  trimZeros 18 (hit.getD ⟨0, 0⟩)

/-- The shortest digits of a finite double other than zero. -/
def shortest (tie : Tie) (x : Double) : Decimal :=
  shortestOfInterval tie (.ofMagnitude .double x.magnitude)

end Decimal

end TableAppend

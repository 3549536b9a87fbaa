import TableAppend.Double.Shortest

/-!
# Doubles as plain text

The shortest digits without an exponent, however many zeros that takes.  Of two equally near decimals
the larger one, away from zero, is written.
-/

namespace TableAppend.Double

/-- The digits before and after the decimal point. -/
def positional (decimal : Decimal) : List Char × List Char :=
  let digits := Nat.toDigits 10 decimal.digits
  match decimal.exponent with
  | .ofNat zeros => (digits ++ List.replicate zeros '0', [])
  | .negSucc k =>
    let places := k + 1
    if digits.length ≤ places then
      (['0'], List.replicate (places - digits.length) '0' ++ digits)
    else (digits.take (digits.length - places), digits.drop (digits.length - places))

def plainMagnitude (x : Double) : List Char :=
  if x.isInfinite then "inf".toList
  else if x.units = 0 then ['0']
  else
    let (whole, fraction) := positional (.shortest .larger x)
    if fraction.isEmpty then whole else whole ++ '.' :: fraction

/-- The text of a double: `NaN`, or an optional sign followed by `inf` or by plain digits. -/
def plain (x : Double) : String :=
  if x.isNaN then "NaN"
  else String.ofList ((if x.isNegative then ['-'] else []) ++ x.plainMagnitude)

end TableAppend.Double

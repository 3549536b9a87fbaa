import TableAppend.Text.Blank

/-!
# Calendar dates

A stored date is the number of days since the first of January 1970.  It is written as year, month and
day, and read from several written forms.  The years of the Gregorian calendar are counted here from
March on, so that the leap day is the last one, and in cycles of 400.
-/

namespace TableAppend

structure Date where
  year : Int
  month : Nat
  day : Nat
  deriving DecidableEq

namespace Date

def isLeap (year : Int) : Bool :=
  year % 4 = 0 && (year % 100 ≠ 0 || year % 400 = 0)

def monthLength (year : Int) (month : Nat) : Nat :=
  if month = 2 then (if isLeap year then 29 else 28)
  else if month = 4 ∨ month = 6 ∨ month = 9 ∨ month = 11 then 30
  else 31

def yearBound : Int := 262143

def isValid (date : Date) : Bool :=
  -yearBound ≤ date.year && date.year < yearBound
    && 1 ≤ date.month && date.month ≤ 12
    && 1 ≤ date.day && date.day ≤ monthLength date.year date.month

def daysPerCycle : Int := 146097

/-- The day number of the first of March of the year 0, with the sign changed. -/
def daysBeforeEpoch : Int := 719468

/-- The days from the first of March to the first of the month that comes `months` later. -/
def daysToMonth (months : Int) : Int :=
  (153 * months + 2) / 5

def toDays (date : Date) : Int :=
  let months : Int := if 2 < date.month then date.month - 3 else date.month + 9
  let year : Int := if 2 < date.month then date.year else date.year - 1
  let cycle := year / 400
  let yearOfCycle := year % 400
  let dayOfCycle :=
    yearOfCycle * 365 + yearOfCycle / 4 - yearOfCycle / 100 + daysToMonth months + date.day - 1
  cycle * daysPerCycle + dayOfCycle - daysBeforeEpoch

def ofDays (days : Int) : Date :=
  let shifted := days + daysBeforeEpoch
  let cycle := shifted / daysPerCycle
  let dayOfCycle := shifted % daysPerCycle
  let yearOfCycle :=
    (dayOfCycle - dayOfCycle / 1460 + dayOfCycle / 36524 - dayOfCycle / 146096) / 365
  let dayOfYear := dayOfCycle - (365 * yearOfCycle + yearOfCycle / 4 - yearOfCycle / 100)
  let months := (5 * dayOfYear + 2) / 153
  let month := if months < 10 then months + 3 else months - 9
  let year := yearOfCycle + cycle * 400 + (if months < 10 then 0 else 1)
  ⟨year, month.toNat, (dayOfYear - daysToMonth months + 1).toNat⟩

/-! ## Written form -/

def padded (width n : Nat) : List Char :=
  let digits := Nat.toDigits 10 n
  List.replicate (width - digits.length) '0' ++ digits

/-- Years outside four digits carry a sign. -/
def render (date : Date) : String :=
  let sign := if date.year < 0 then ['-'] else if 9999 < date.year then ['+'] else []
  String.ofList (sign ++ padded 4 date.year.natAbs ++ '-' :: padded 2 date.month
    ++ '-' :: padded 2 date.day)

/-! ## Reading -/

def digit? (c : Char) : Option Nat :=
  if c.isDigit then some (c.toNat - '0'.toNat) else none

/-- The number that a text of digits stands for. -/
def digits? (chars : List Char) : Option Nat :=
  (chars.mapM digit?).map fun digits => digits.foldl (fun sofar digit => 10 * sofar + digit) 0

def valid? (year : Int) (month day : Nat) : Option Date :=
  let date : Date := ⟨year, month, day⟩
  if date.isValid then some date else none

/-- Four digits for the year and two each for month and day, with hyphens between them. -/
def ofFull? : List Char → Option Date
  | [y0, y1, y2, y3, '-', m0, m1, '-', d0, d1] => do
    valid? (← digits? [y0, y1, y2, y3]) (← digits? [m0, m1]) (← digits? [d0, d1])
  | _ => none

/-- Four digits for the year and two each for month and day, with nothing between them. -/
def ofCompact? : List Char → Option Date
  | [y0, y1, y2, y3, m0, m1, d0, d1] => do
    valid? (← digits? [y0, y1, y2, y3]) (← digits? [m0, m1]) (← digits? [d0, d1])
  | _ => none

/-- The text before and after the first hyphen. -/
def splitHyphen? (chars : List Char) : Option (List Char × List Char) :=
  match chars.dropWhile (· ≠ '-') with
  | _ :: rest => some (chars.takeWhile (· ≠ '-'), rest)
  | [] => none

/-- A month or a day. -/
def oneOrTwoDigits? (chars : List Char) : Option Nat :=
  if chars.length = 1 ∨ chars.length = 2 then digits? chars else none

/-- Four digits for the year and one or two each for month and day, with hyphens between them.  What
follows the day counts for nothing if it holds no digit. -/
def ofHyphenated? (chars : List Char) : Option Date := do
  let (year, rest) ← splitHyphen? chars
  let (month, rest) ← splitHyphen? rest
  let day := rest.takeWhile Char.isDigit
  if year.length ≠ 4 ∨ (rest.drop day.length).any Char.isDigit then none
  else valid? (← digits? year) (← oneOrTwoDigits? month) (← oneOrTwoDigits? day)

/-- A date without a time of day. -/
def ofShort? (chars : List Char) : Option Date :=
  ofCompact? chars <|> ofHyphenated? chars

/-- One or more digits, after a plus sign if there is one. -/
def unsigned? (chars : List Char) : Option Nat :=
  let digits := if chars.head? = some '+' then chars.tail else chars
  if digits.isEmpty then none else digits? digits

/-- A signed year of at least four digits. -/
def ofSigned? (negative : Bool) (chars : List Char) : Option Date := do
  let (year, rest) ← splitHyphen? chars
  let (month, day) ← splitHyphen? rest
  if year.length < 4 then none
  let magnitude : Int ← digits? year
  valid? (if negative then -magnitude else magnitude) (← unsigned? month) (← unsigned? day)

def secondsPerDay : Int := 86400

/-- Seconds since midnight.  A leap second counts as the one before it. -/
def clock? (hour minute second : Nat) : Option Int :=
  if hour < 24 ∧ minute < 60 ∧ second ≤ 60 then
    some (hour * 3600 + minute * 60 + min second 59)
  else none

/-- A time of day and the text after it: with colons and, if there is a point, a fraction of at least
one digit; or as six digits that are followed by two characters other than digits or by the end. -/
def timeOfDay? : List Char → Option (Int × List Char)
  | h0 :: h1 :: ':' :: m0 :: m1 :: ':' :: s0 :: s1 :: rest => do
    let time ← clock? (← digits? [h0, h1]) (← digits? [m0, m1]) (← digits? [s0, s1])
    match rest with
    | '.' :: fraction =>
      let after := fraction.dropWhile Char.isDigit
      if after.length = fraction.length then none else some (time, after)
    | _ => some (time, rest)
  | h0 :: h1 :: m0 :: m1 :: s0 :: s1 :: rest => do
    let time ← clock? (← digits? [h0, h1]) (← digits? [m0, m1]) (← digits? [s0, s1])
    if (rest.take 2).any Char.isDigit then none else some (time, rest)
  | _ => none

/-- Hours and minutes of a time zone, in seconds. -/
def zoneSeconds? : List Char → Option Int
  | [h0, h1, ':', m0, m1] | [h0, h1, m0, m1] => do
    let hours : Int ← digits? [h0, h1]
    let minutes : Int ← digits? [m0, m1]
    return hours * 3600 + minutes * 60
  | [h0, h1] => do
    let hours : Int ← digits? [h0, h1]
    return hours * 3600
  | _ => none

/-- The seconds that a zone is ahead of universal time.  Blanks may stand before the sign of a zone. -/
def zone? : List Char → Option Int
  | [] | ['Z'] | ['z'] => some 0
  | chars =>
    match chars.dropWhile isBlank with
    | '+' :: rest => (zoneSeconds? rest).filter (· < secondsPerDay)
    | '-' :: rest => ((zoneSeconds? rest).filter (· < secondsPerDay)).map (- ·)
    | _ => none

/-- The day of a date and time in universal time. -/
def daysOfTimestamp? (chars : List Char) : Option Int := do
  let date ← ofFull? (chars.take 10)
  match chars.drop 10 with
  | separator :: rest =>
    if separator = 'T' ∨ separator = 't' ∨ separator = ' ' then
      let (time, zone) ← timeOfDay? rest
      let ahead ← zone? zone
      return date.toDays + (time - ahead) / secondsPerDay
    else none
  | [] => none

/-- The day that a text names: a date with a signed year, a date of at most ten bytes, or a longer
date and time. -/
def parseDays? (text : String) : Option Int :=
  match text.toList with
  | '+' :: rest => (ofSigned? false rest).map toDays
  | '-' :: rest => (ofSigned? true rest).map toDays
  | chars => if 10 < text.utf8ByteSize then daysOfTimestamp? chars else (ofShort? chars).map toDays

end Date

end TableAppend

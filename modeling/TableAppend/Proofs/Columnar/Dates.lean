import TableAppend.Columnar.Date
import TableAppend.Proofs.Digits
import Mathlib.Data.List.TakeWhile
import Mathlib.Data.Nat.Digits.Defs
import Mathlib.Data.String.Basic
import Mathlib.Tactic.IntervalCases

/-!
# Dates that are read back

The date of a day number is a date of the calendar and has this day number.  It is written so that the
same date is read again, also where its year has a sign.
-/

namespace TableAppend.Date

/-! ## Days as dates -/

/-- The day of a cycle of 400 years on which a year begins. -/
def yearStart (year : ℤ) : ℤ :=
  365 * year + year / 4 - year / 100

/-- The last day of a year that has 366 days comes just before a fourth year, which is no hundredth or
the first of the next cycle. -/
def EndsLate (year : ℤ) : Prop :=
  year % 4 = 3 ∧ (year % 100 ≠ 99 ∨ year = 399)

theorem yearStart_le {day year : ℤ} (hday : 0 ≤ day) (hcycle : day < daysPerCycle)
    (hyear : year = (day - day / 1460 + day / 36524 - day / 146096) / 365) :
    0 ≤ year ∧ year < 400 ∧ yearStart year ≤ day ∧ day ≤ yearStart year + 365 ∧
      (day = yearStart year + 365 → EndsLate year) := by
  rw [daysPerCycle] at hcycle
  simp only [yearStart, EndsLate]
  by_cases hlast : day = 146096
  · subst hlast
    omega
  · -- Without the last day of the cycle, centuries and leap years are found by division.
    have hless : day < 146096 := by omega
    obtain ⟨century, hcentury⟩ : ∃ century, century = day / 36524 := ⟨_, rfl⟩
    obtain ⟨four, hfour⟩ : ∃ four, four = day / 1460 := ⟨_, rfl⟩
    have hwhole : year = (day - four + century) / 365 := by omega
    have hparts : year / 100 = century ∧ (four = year / 4 ∨ four = year / 4 + 1) := by
      have hcases : century = 0 ∨ century = 1 ∨ century = 2 ∨ century = 3 := by omega
      clear hyear
      rcases hcases with rfl | rfl | rfl | rfl <;> constructor <;> omega
    clear hyear
    obtain ⟨hhundred, hquarter⟩ := hparts
    rw [hhundred]
    rcases hquarter with hquarter | hquarter
    · refine ⟨?_, ?_, ?_, ?_, ?_⟩ <;> omega
    · refine ⟨?_, ?_, ?_, ?_, ?_⟩ <;> omega

/-- The first of March is day 0 of a year, which ends with February. -/
theorem daysToMonth_le {day months : ℤ} (hday : 0 ≤ day) (hyear : day ≤ 365)
    (hmonths : months = (5 * day + 2) / 153) :
    0 ≤ months ∧ months < 12 ∧ daysToMonth months ≤ day ∧ day < daysToMonth (months + 1) := by
  simp only [daysToMonth]
  omega

/-- Where a day number stands in the calendar: in a cycle, a year and a month, each counted from 0. -/
structure Place (days cycle year months day : ℤ) : Prop where
  days_eq : days = cycle * daysPerCycle + (yearStart year + daysToMonth months + day) - daysBeforeEpoch
  year_nonneg : 0 ≤ year
  year_lt : year < 400
  months_nonneg : 0 ≤ months
  months_lt : months < 12
  day_nonneg : 0 ≤ day
  day_lt : day < daysToMonth (months + 1) - daysToMonth months
  february : months = 11 → day ≤ 28 ∧ (day = 28 → EndsLate year)
  ofDays_eq : ofDays days = ⟨year + cycle * 400 + (if months < 10 then 0 else 1),
    (if months < 10 then months + 3 else months - 9).toNat, (day + 1).toNat⟩

theorem exists_place (days : ℤ) : ∃ cycle year months day, Place days cycle year months day := by
  obtain ⟨dayOfCycle, hdayOfCycle⟩ :
      ∃ dayOfCycle, dayOfCycle = (days + daysBeforeEpoch) % daysPerCycle := ⟨_, rfl⟩
  obtain ⟨year, hyear⟩ : ∃ year, year =
      (dayOfCycle - dayOfCycle / 1460 + dayOfCycle / 36524 - dayOfCycle / 146096) / 365 := ⟨_, rfl⟩
  obtain ⟨months, hmonths⟩ : ∃ months, months = (5 * (dayOfCycle - yearStart year) + 2) / 153 :=
    ⟨_, rfl⟩
  have hcycle : 0 ≤ dayOfCycle ∧ dayOfCycle < daysPerCycle := by
    rw [hdayOfCycle]
    exact ⟨Int.emod_nonneg _ (by decide), Int.emod_lt_of_pos _ (by decide)⟩
  obtain ⟨hnonneg, hlt, hstart, hend, hlate⟩ := yearStart_le hcycle.1 hcycle.2 hyear
  obtain ⟨hmonth, htwelve, hless, hmore⟩ := daysToMonth_le (by omega) (by omega) hmonths
  refine ⟨(days + daysBeforeEpoch) / daysPerCycle, year, months,
    dayOfCycle - yearStart year - daysToMonth months, ?_, hnonneg, hlt, hmonth, htwelve, by omega,
    by omega, ?_, ?_⟩
  · have hparts := Int.mul_ediv_add_emod (days + daysBeforeEpoch) daysPerCycle
    rw [← hdayOfCycle, Int.mul_comm] at hparts
    omega
  · rintro rfl
    have hfebruary : daysToMonth 11 = 337 := rfl
    exact ⟨by omega, fun hday => hlate (by omega)⟩
  · rw [hmonths, hyear, hdayOfCycle]
    rfl

/-- The date of a day number has this day number. -/
theorem toDays_ofDays (days : ℤ) : (ofDays days).toDays = days := by
  obtain ⟨cycle, year, months, day, hplace⟩ := exists_place days
  obtain ⟨hdays, hnonneg, hlt, hmonth, htwelve, hday, -, -, hdate⟩ := hplace
  rw [hdate, toDays, hdays]
  simp only [yearStart, daysPerCycle, daysToMonth]
  by_cases hspring : months < 10
  · have hafter : 2 < (months + 3).toNat := by omega
    simp only [if_pos hspring, if_pos hafter]
    omega
  · have hbefore : ¬ 2 < (months - 9).toNat := by omega
    simp only [if_neg hspring, if_neg hbefore]
    omega

/-- A day whose year can be written. -/
def InCalendar (days : ℤ) : Prop :=
  -yearBound ≤ (ofDays days).year ∧ (ofDays days).year < yearBound

theorem isLeap_of_endsLate {year : ℤ} (hlate : EndsLate year) (cycle : ℤ) :
    isLeap (year + cycle * 400 + 1) = true := by
  obtain ⟨hfour, hhundred⟩ := hlate
  simp only [isLeap, Bool.and_eq_true, Bool.or_eq_true, decide_eq_true_eq]
  omega

/-- All months but February have the same length in every year. -/
theorem daysToMonth_succ {months : ℤ} (hmonths : 0 ≤ months) (hnot : months < 11) (year : ℤ) :
    daysToMonth (months + 1) - daysToMonth months =
      monthLength year (if months < 10 then months + 3 else months - 9).toNat := by
  interval_cases months <;> rfl

theorem isValid_ofDays {days : ℤ} (hdays : InCalendar days) : (ofDays days).isValid = true := by
  obtain ⟨cycle, year, months, day, hplace⟩ := exists_place days
  have hdate := hplace.ofDays_eq
  obtain ⟨hleast, hlargest⟩ := hdays
  rw [hdate] at hleast hlargest ⊢
  obtain ⟨-, -, -, hmonth, htwelve, hday, hlength, hfebruary, -⟩ := hplace
  simp only [isValid, Bool.and_eq_true, decide_eq_true_eq]
  refine ⟨⟨⟨⟨⟨hleast, hlargest⟩, ?_⟩, ?_⟩, by omega⟩, ?_⟩
  · split <;> omega
  · split <;> omega
  · by_cases hlast : months = 11
    · obtain ⟨hmost, hlate⟩ := hfebruary hlast
      subst hlast
      change (day + 1).toNat ≤ if isLeap (year + cycle * 400 + 1) then 29 else 28
      by_cases hleap : day = 28
      · rw [isLeap_of_endsLate (hlate hleap), hleap]
        decide
      · split <;> omega
    · have hsame := daysToMonth_succ hmonth (by omega)
        (year + cycle * 400 + (if months < 10 then 0 else 1))
      omega

/-! ## Digits -/

section Digits

variable {chars : List Char} {number : ℕ}

theorem digits?_eq (hdigits : ∀ c ∈ chars, c.isDigit = true) :
    digits? chars = some (Nat.ofDigitChars 10 chars 0) := by
  have hvalues : chars.mapM digit? = some (chars.map fun c => c.toNat - '0'.toNat) := by
    induction chars with
    | nil => rfl
    | cons c rest ih =>
      obtain ⟨hc, hrest⟩ := List.forall_mem_cons.mp hdigits
      rw [List.mapM_cons, ih hrest, digit?, if_pos hc]
      rfl
  rw [digits?, hvalues, Option.map_some, List.foldl_map]
  rfl

theorem isDigit_of_mem_padded {width : ℕ} {c : Char} (hc : c ∈ padded width number) :
    c.isDigit = true := by
  rw [padded, List.mem_append] at hc
  rcases hc with hzero | hdigit
  · rw [List.eq_of_mem_replicate hzero]
    rfl
  · exact Nat.isDigit_of_mem_toDigits (by decide) (by decide) hdigit

/-- Zeros before a number do not count. -/
theorem digits?_padded (width number : ℕ) : digits? (padded width number) = some number := by
  have hzeros : ∀ count, Nat.ofDigitChars 10 (List.replicate count '0') 0 = 0 := by
    intro count
    induction count with
    | zero => rfl
    | succ count ih => exact ih
  rw [digits?_eq fun _ => isDigit_of_mem_padded, padded, Nat.ofDigitChars_append, hzeros,
    Nat.ofDigitChars_ten_toDigits]

theorem le_length_padded (width number : ℕ) : width ≤ (padded width number).length := by
  rw [padded, List.length_append, List.length_replicate]
  omega

theorem length_padded {width : ℕ} (hwidth : 0 < width) (hnumber : number < 10 ^ width) :
    (padded width number).length = width := by
  have hlength := Nat.toDigits_length 10 number width hwidth hnumber
  rw [padded, List.length_append, List.length_replicate]
  omega

theorem exists_padded {width : ℕ} (hwidth : 0 < width) (number : ℕ) :
    ∃ c rest, padded width number = c :: rest ∧ c.isDigit = true := by
  have hlength := le_length_padded width number
  match hpadded : padded width number with
  | [] =>
    rw [hpadded] at hlength
    exact absurd hlength (by simp; omega)
  | c :: rest => exact ⟨c, rest, rfl, isDigit_of_mem_padded (hpadded ▸ List.mem_cons_self)⟩

theorem ne_of_isDigit {c other : Char} (hc : c.isDigit = true) (hother : other.isDigit = false) :
    c ≠ other := by
  rintro rfl
  rw [hc] at hother
  contradiction

end Digits

theorem utf8Size_eq_one {c : Char} (hc : c.isDigit = true ∨ c = '-') : c.utf8Size = 1 := by
  rcases hc with hdigit | rfl
  · obtain ⟨-, hmost⟩ : 48 ≤ c.toNat ∧ c.toNat ≤ 57 := Char.isDigit_iff_toNat.mp hdigit
    rw [Char.utf8Size_eq_one_iff, UInt32.le_iff_toNat_le]
    exact Nat.le_trans hmost (by decide)
  · rfl

/-! ## Dates that are written -/

theorem splitHyphen?_append {chars rest : List Char} (hchars : ∀ c ∈ chars, c.isDigit = true) :
    splitHyphen? (chars ++ '-' :: rest) = some (chars, rest) := by
  have hkept : ∀ c ∈ chars, (decide (c ≠ '-')) = true := fun c hc =>
    decide_eq_true (ne_of_isDigit (hchars c hc) rfl)
  rw [splitHyphen?, List.dropWhile_append_of_pos hkept, List.takeWhile_append_of_pos hkept]
  simp

theorem unsigned?_padded {width : ℕ} (hwidth : 0 < width) (number : ℕ) :
    unsigned? (padded width number) = some number := by
  obtain ⟨c, rest, hpadded, hc⟩ := exists_padded hwidth number
  have hsign : ¬ (padded width number).head? = some '+' := by
    rw [hpadded, List.head?_cons, Option.some.injEq]
    exact ne_of_isDigit hc rfl
  have hne : (padded width number).isEmpty = false := by rw [hpadded, List.isEmpty_cons]
  rw [unsigned?]
  simp only [if_neg hsign, hne]
  exact digits?_padded width number

/-- A date without its sign, as it is written. -/
def unsignedChars (year month day : ℕ) : List Char :=
  padded 4 year ++ '-' :: (padded 2 month ++ '-' :: padded 2 day)

variable {year month day : ℕ}

theorem ofSigned?_unsignedChars {negative : Bool} {date : Date}
    (hdate : valid? (if negative then -(year : ℤ) else year) month day = some date) :
    ofSigned? negative (unsignedChars year month day) = some date := by
  have hlength : ¬ (padded 4 year).length < 4 := Nat.not_lt.mpr (le_length_padded 4 year)
  rw [ofSigned?, unsignedChars, splitHyphen?_append fun _ => isDigit_of_mem_padded]
  simp only [Option.bind_eq_bind, Option.bind_some]
  rw [splitHyphen?_append fun _ => isDigit_of_mem_padded]
  simp only [Option.bind_some, if_neg hlength, digits?_padded,
    unsigned?_padded (by decide : 0 < 2)]
  exact hdate

theorem ofCompact?_eq_none {chars : List Char} (hlength : chars.length ≠ 8) :
    ofCompact? chars = none := by
  rw [ofCompact?.eq_def]
  split
  · simp at hlength
  · rfl

theorem oneOrTwoDigits?_padded {number : ℕ} (hnumber : number < 100) :
    oneOrTwoDigits? (padded 2 number) = some number := by
  rw [oneOrTwoDigits?, if_pos (.inr (length_padded (by decide) hnumber)), digits?_padded]

theorem ofHyphenated?_eq_bind (chars : List Char) :
    ofHyphenated? chars = (splitHyphen? chars).bind fun (year, rest) =>
      (splitHyphen? rest).bind fun (month, rest) =>
        let day := rest.takeWhile Char.isDigit
        if year.length ≠ 4 ∨ (rest.drop day.length).any Char.isDigit = true then none
        else (digits? year).bind fun number => (oneOrTwoDigits? month).bind fun first =>
          (oneOrTwoDigits? day).bind fun second => valid? number first second :=
  rfl

theorem ofHyphenated?_eq {chars year rest month day : List Char} {number first second : ℕ}
    (hchars : splitHyphen? chars = some (year, rest)) (hrest : splitHyphen? rest = some (month, day))
    (hfour : year.length = 4) (hday : ∀ c ∈ day, c.isDigit = true)
    (hnumber : digits? year = some number) (hfirst : oneOrTwoDigits? month = some first)
    (hsecond : oneOrTwoDigits? day = some second) :
    ofHyphenated? chars = valid? number first second := by
  have htake : day.takeWhile Char.isDigit = day := List.takeWhile_eq_self_iff.mpr hday
  have hfits : ¬ (year.length ≠ 4 ∨ (day.drop day.length).any Char.isDigit = true) := by
    rw [hfour, List.drop_length]
    simp
  rw [ofHyphenated?_eq_bind, hchars, Option.bind_some]
  dsimp only
  rw [hrest, Option.bind_some]
  dsimp only
  rw [htake, if_neg hfits, hnumber, Option.bind_some, hfirst, Option.bind_some, hsecond,
    Option.bind_some]

section Short

variable (hyear : year < 10000) (hmonth : month < 100) (hday : day < 100)

include hyear hmonth hday

theorem length_unsignedChars : (unsignedChars year month day).length = 10 := by
  rw [unsignedChars, List.length_append, List.length_cons, List.length_append, List.length_cons,
    length_padded (by decide) hyear, length_padded (by decide) hmonth, length_padded (by decide) hday]

theorem ofShort?_unsignedChars :
    ofShort? (unsignedChars year month day) = valid? year month day := by
  have hcompact : ofCompact? (unsignedChars year month day) = none := by
    have hlength := length_unsignedChars hyear hmonth hday
    exact ofCompact?_eq_none (by omega)
  have hhyphenated : ofHyphenated? (unsignedChars year month day) = valid? year month day :=
    ofHyphenated?_eq (splitHyphen?_append fun _ => isDigit_of_mem_padded)
      (splitHyphen?_append fun _ => isDigit_of_mem_padded) (length_padded (by decide) hyear)
      (fun _ => isDigit_of_mem_padded) (digits?_padded 4 year) (oneOrTwoDigits?_padded hmonth)
      (oneOrTwoDigits?_padded hday)
  rw [ofShort?, hcompact, hhyphenated, Option.orElse_eq_orElse, Option.orElse_none]

/-- All characters of a date have one byte each. -/
theorem utf8ByteSize_unsignedChars :
    (String.ofList (unsignedChars year month day)).utf8ByteSize = 10 := by
  have hascii : ∀ c ∈ unsignedChars year month day, c.isDigit = true ∨ c = '-' := by
    intro c hc
    simp only [unsignedChars, List.mem_append, List.mem_cons] at hc
    rcases hc with hc | rfl | hc | rfl | hc
    · exact .inl (isDigit_of_mem_padded hc)
    · exact .inr rfl
    · exact .inl (isDigit_of_mem_padded hc)
    · exact .inr rfl
    · exact .inl (isDigit_of_mem_padded hc)
  have hsize : ∀ chars : List Char, (∀ c ∈ chars, c.isDigit = true ∨ c = '-') →
      String.utf8Len chars = chars.length := by
    intro chars hchars
    induction chars with
    | nil => rfl
    | cons c rest ih =>
      obtain ⟨hc, hrest⟩ := List.forall_mem_cons.mp hchars
      rw [String.utf8Len_cons, ih hrest, List.length_cons, utf8Size_eq_one hc]
  rw [String.utf8ByteSize_ofList, hsize _ hascii, length_unsignedChars hyear hmonth hday]

end Short

theorem render_eq (date : Date) :
    date.render = String.ofList
      ((if date.year < 0 then ['-'] else if 9999 < date.year then ['+'] else [])
        ++ unsignedChars date.year.natAbs date.month date.day) := by
  simp only [render, unsignedChars, List.append_assoc, List.cons_append]

theorem valid?_eq_some {date : Date} (hdate : date.isValid = true) :
    valid? date.year date.month date.day = some date := by
  rw [valid?]
  exact if_pos hdate

theorem lt_hundred_of_isValid {date : Date} (hdate : date.isValid = true) :
    date.month < 100 ∧ date.day < 100 := by
  simp only [isValid, Bool.and_eq_true, decide_eq_true_eq] at hdate
  obtain ⟨⟨⟨-, hmonth⟩, -⟩, hday⟩ := hdate
  have hlength : monthLength date.year date.month ≤ 31 := by
    rw [monthLength]
    split_ifs <;> omega
  omega

/-- The written form of a date that is valid is read as this date. -/
theorem parseDays?_render {date : Date} (hdate : date.isValid = true) :
    parseDays? date.render = some date.toDays := by
  have hvalid := valid?_eq_some hdate
  obtain ⟨hmonth, hday⟩ := lt_hundred_of_isValid hdate
  rw [parseDays?, render_eq, String.toList_ofList]
  by_cases hnegative : date.year < 0
  · have hyear : -(date.year.natAbs : ℤ) = date.year := by omega
    rw [if_pos hnegative]
    change (ofSigned? true (unsignedChars _ _ _)).map toDays = _
    rw [ofSigned?_unsignedChars (by rw [if_pos rfl, hyear]; exact hvalid), Option.map_some]
  · have hyear : (date.year.natAbs : ℤ) = date.year := by omega
    rw [if_neg hnegative]
    by_cases hlong : 9999 < date.year
    · rw [if_pos hlong]
      change (ofSigned? false (unsignedChars _ _ _)).map toDays = _
      rw [ofSigned?_unsignedChars (by rw [if_neg Bool.false_ne_true, hyear]; exact hvalid),
        Option.map_some]
    · rw [if_neg hlong, List.nil_append]
      have hfour : date.year.natAbs < 10000 := by omega
      have hshort := ofShort?_unsignedChars hfour hmonth hday
      have hsize := utf8ByteSize_unsignedChars hfour hmonth hday
      obtain ⟨c, rest, hpadded, hc⟩ := exists_padded (by decide : 0 < 4) date.year.natAbs
      have hchars : ∃ more, unsignedChars date.year.natAbs date.month date.day = c :: more := by
        rw [unsignedChars, hpadded]
        exact ⟨_, rfl⟩
      obtain ⟨more, hmore⟩ := hchars
      -- A digit comes first, so there is no sign.
      split
      case h_1 hsign =>
        rw [hmore] at hsign
        exact absurd (List.cons.inj hsign).1 (ne_of_isDigit hc rfl)
      case h_2 hsign =>
        rw [hmore] at hsign
        exact absurd (List.cons.inj hsign).1 (ne_of_isDigit hc rfl)
      case h_3 => rw [hsize, if_neg (by decide), hshort, hyear, hvalid, Option.map_some]

/-- A stored day of the calendar is written so that the same day is read. -/
theorem parseDays?_render_ofDays {days : ℤ} (hdays : InCalendar days) :
    parseDays? (ofDays days).render = some days := by
  rw [parseDays?_render (isValid_ofDays hdays), toDays_ofDays]

end TableAppend.Date

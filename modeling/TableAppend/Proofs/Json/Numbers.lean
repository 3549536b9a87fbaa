import Mathlib
import TableAppend.Proofs.Digits
import TableAppend.Proofs.Json.Strings

/-!
# Reading written numbers

The digits of a natural number are one token, the number itself.  One that fits in 64 bits is a finite
double, since rounding to doubles at most doubles what it rounds.
-/

namespace TableAppend

/-! ## Digits -/

namespace Json.Token

/-- Inside a number whose digits so far are worth this much. -/
def counting (value : ℕ) : Scan :=
  .number ⟨.whole, .ofNat value⟩

theorem scan?_counting {digits : List Char} (hdigits : ∀ c ∈ digits, c.isDigit = true)
    (value : ℕ) (rest : List Char) :
    scan? (counting value) (digits ++ rest) =
      scan? (counting (Nat.ofDigitChars 10 digits value)) rest := by
  induction digits generalizing value with
  | nil => rfl
  | cons c digits ih =>
    have hc := hdigits c List.mem_cons_self
    have hstep : step? (counting value) c =
        some ([], counting (10 * value + (c.toNat - '0'.toNat))) := by
      simp [step?, counting, NumberScan.next?, hc, Numeral.ofNat, digitValue]
    rw [List.cons_append, scan?_cons_inside hstep,
      ih (fun d hd => hdigits d (List.mem_cons_of_mem _ hd)), Nat.ofDigitChars_cons]

/-- After the digits of a positive number. -/
theorem scan?_whole (number : ℕ) {rest : List Char} (hends : Ends rest) :
    scan? (counting number) rest = (scan? .between rest).map (.number (.ofNat number) :: ·) := by
  refine scan?_ended rfl (fun c hc => ?_) hends
  rcases hc with rfl | rfl | rfl <;> rfl

/-- The digits of a number are one token, which the mark after it ends. -/
theorem scan?_digitsOf (number : ℕ) {rest : List Char} (hends : Ends rest) :
    scan? .between (Numeral.digitsOf number ++ rest) =
      (scan? .between rest).map (.number (.ofNat number) :: ·) := by
  rw [Numeral.digitsOf]
  rcases Nat.eq_zero_or_pos number with rfl | hpositive
  · have hbegin : step? .between '0' = some ([], .number ⟨.zero, .ofNat 0⟩) := by decide
    rw [show Nat.toDigits 10 0 = ['0'] by decide, List.singleton_append, scan?_cons_inside hbegin]
    refine scan?_ended rfl (fun c hc => ?_) hends
    rcases hc with rfl | rfl | rfl <;> rfl
  · obtain ⟨c, digits, hdigits, hc⟩ := Digits.exists_toDigits hpositive
    have hall : ∀ d ∈ c :: digits, d.isDigit = true := fun d hd =>
      Nat.isDigit_of_mem_toDigits (by decide) (by decide) (hdigits ▸ hd)
    have hnumber : Nat.ofDigitChars 10 digits (c.toNat - '0'.toNat) = number := by
      have hread := @Nat.ofDigitChars_toDigits 10 number (by decide) (by decide)
      rw [hdigits, Nat.ofDigitChars_cons, Nat.mul_zero, Nat.zero_add] at hread
      exact hread
    have hstep : step? .between c = some ([], counting (c.toNat - '0'.toNat)) := by
      obtain ⟨hdigit, hchar⟩ := Digits.digitChar_of_isDigit (hall c List.mem_cons_self)
      have hvalue : c.toNat - '0'.toNat ≠ 0 := by
        intro hzero
        rw [hzero] at hchar
        exact absurd (hchar ▸ hc) (by decide)
      have hbegin : ∀ value < 10, value ≠ 0 →
          step? .between (Nat.digitChar value) = some ([], counting value) := by decide
      have hbegins := hbegin _ hdigit hvalue
      rwa [hchar] at hbegins
    rw [hdigits, List.cons_append, scan?_cons_inside hstep,
      scan?_counting (fun d hd => hall d (List.mem_cons_of_mem _ hd)), hnumber, scan?_whole _ hends]

end Json.Token

/-! ## Rounding -/

namespace BinaryFormat

theorem divideHalfEven_le (numerator denominator : ℕ) :
    divideHalfEven numerator denominator ≤ numerator / denominator + 1 := by
  rw [divideHalfEven]
  split_ifs <;> omega

variable {format : BinaryFormat} {bits : ℕ}

/-- What is below a power of two is rounded to at most that power. -/
theorem nearest_le {numerator denominator : ℕ}
    (hbits : numerator * 2 ^ format.scale / denominator < 2 ^ (format.fractionBits + bits)) :
    format.nearest numerator denominator ≤ (bits + 1) * 2 ^ format.fractionBits := by
  rw [nearest]
  simp only [Nat.pow_eq]
  refine Nat.le_trans (Nat.min_le_left _ _) ?_
  generalize hquotient : numerator * 2 ^ format.scale / denominator = quotient at hbits ⊢
  generalize hshift : quotient.log2 - format.fractionBits = shift
  have hlog : quotient < 2 ^ (format.fractionBits + 1 + shift) := by
    calc quotient < 2 ^ (quotient.log2 + 1) := Nat.lt_log2_self
      _ ≤ 2 ^ (format.fractionBits + 1 + shift) :=
        Nat.pow_le_pow_right (by decide) (by omega)
  have hsmall : shift ≤ bits - 1 := by
    by_cases hzero : quotient = 0
    · rw [hzero, Nat.log2_zero] at hshift
      omega
    · have hless := (Nat.log2_lt hzero).mpr hbits
      omega
  have hsignificand : divideHalfEven (numerator * 2 ^ format.scale) (denominator * 2 ^ shift) ≤
      quotient / 2 ^ shift + 1 := by
    rw [← hquotient, Nat.div_div_eq_div_mul]
    exact divideHalfEven_le _ _
  have hshifted : shift * 2 ^ format.fractionBits ≤ (bits - 1) * 2 ^ format.fractionBits :=
    Nat.mul_le_mul_right _ hsmall
  rcases Nat.eq_zero_or_pos bits with rfl | hpositive
  · have hdivided : quotient / 2 ^ shift ≤ quotient := Nat.div_le_self _ _
    rw [Nat.add_zero] at hbits
    omega
  · have hdivided : quotient / 2 ^ shift < 2 * 2 ^ format.fractionBits := by
      rw [Nat.div_lt_iff_lt_mul (Nat.two_pow_pos _), ← Nat.pow_succ', ← Nat.pow_add]
      exact hlog
    obtain ⟨less, rfl⟩ := Nat.exists_eq_add_of_le' hpositive
    rw [Nat.add_sub_cancel] at hshifted
    rw [Nat.add_mul, Nat.add_mul]
    omega

theorem units_lt {magnitude : ℕ} (hmagnitude : magnitude ≤ (bits + 1) * 2 ^ format.fractionBits) :
    format.units magnitude < 2 ^ (format.fractionBits + 1 + bits) := by
  have hfraction : magnitude % 2 ^ format.fractionBits < 2 ^ format.fractionBits :=
    Nat.mod_lt _ (Nat.two_pow_pos _)
  have hexponent : magnitude / 2 ^ format.fractionBits ≤ bits + 1 :=
    Nat.div_le_of_le_mul (by rw [Nat.mul_comm]; exact hmagnitude)
  rw [units, parts]
  simp only [Nat.pow_eq]
  split
  · calc magnitude % 2 ^ format.fractionBits * 2 ^ 0
        < 2 ^ format.fractionBits := by rwa [Nat.pow_zero, Nat.mul_one]
      _ ≤ 2 ^ (format.fractionBits + 1 + bits) :=
        Nat.pow_le_pow_right (by decide) (by omega)
  · calc (2 ^ format.fractionBits + magnitude % 2 ^ format.fractionBits) *
          2 ^ (magnitude / 2 ^ format.fractionBits - 1)
        < 2 ^ (format.fractionBits + 1) * 2 ^ (magnitude / 2 ^ format.fractionBits - 1) := by
          refine Nat.mul_lt_mul_of_pos_right ?_ (Nat.two_pow_pos _)
          rw [Nat.pow_succ]
          omega
      _ = 2 ^ (format.fractionBits + 1 + (magnitude / 2 ^ format.fractionBits - 1)) :=
          (Nat.pow_add _ _ _).symm
      _ ≤ 2 ^ (format.fractionBits + 1 + bits) :=
          Nat.pow_le_pow_right (by decide) (by omega)

end BinaryFormat

namespace Numeral

theorem le_ofDigitChars (digits : List Char) (taken : ℕ) :
    taken ≤ Nat.ofDigitChars 10 digits taken := by
  induction digits generalizing taken with
  | nil => exact Nat.le_refl _
  | cons c digits ih =>
    have hnext := ih (10 * taken + (c.toNat - '0'.toNat))
    rw [Nat.ofDigitChars_cons]
    omega

/-- Digits whose number fits a word are all taken. -/
theorem leadingDigits_eq {digits : List Char} {taken : ℕ}
    (hword : Nat.ofDigitChars 10 digits taken < wordBound) :
    leadingDigits taken digits = (Nat.ofDigitChars 10 digits taken, 0) := by
  induction digits generalizing taken with
  | nil => rfl
  | cons c digits ih =>
    rw [Nat.ofDigitChars_cons, Nat.mul_comm] at hword ⊢
    have hnext := le_ofDigitChars digits (taken * 10 + (c.toNat - '0'.toNat))
    rw [leadingDigits, if_pos (Nat.lt_of_le_of_lt hnext hword)]
    exact ih hword

theorem mul_pow_div_pow_four (value scale : ℕ) :
    value * 2 ^ scale * 2 ^ scale / 4 ^ scale = value := by
  have hsquare : 4 ^ scale = 2 ^ scale * 2 ^ scale := Nat.mul_pow 2 2 scale
  rw [hsquare, Nat.mul_assoc]
  exact Nat.mul_div_cancel _ (Nat.mul_pos (Nat.two_pow_pos _) (Nat.two_pow_pos _))

/-- A number of 64 bits is a finite double. -/
theorem isSome_toDouble?_ofNat {number : ℕ} (hnumber : number < UInt64.size) :
    (ofNat number).toDouble?.isSome = true := by
  have hdigits : leadingDigits 0 (digitsOf number) = (number, 0) := by
    have hread := @Nat.ofDigitChars_toDigits 10 number (by decide) (by decide)
    rw [digitsOf, leadingDigits_eq (by rw [hread]; exact hnumber), hread]
  have hmagnitude : BinaryFormat.double.nearest number 1 ≤
      (1086 + 1) * 2 ^ BinaryFormat.double.fractionBits := by
    apply BinaryFormat.nearest_le
    rw [Nat.div_one]
    have hbits : BinaryFormat.double.fractionBits + 1086 = 64 + BinaryFormat.double.scale := by
      decide +kernel
    rw [hbits, pow_add]
    exact Nat.mul_lt_mul_of_pos_right hnumber (pow_pos Nat.two_pos _)
  have hone : BinaryFormat.double.units (powerOfTen 0) = 2 ^ BinaryFormat.double.scale := by
    decide +kernel
  have hproduct : timesPower (BinaryFormat.double.nearest number 1) 0 ≤
      (1087 + 1) * 2 ^ BinaryFormat.double.fractionBits := by
    rw [timesPower, hone]
    apply BinaryFormat.nearest_le
    have hbits : BinaryFormat.double.fractionBits + 1087 =
        BinaryFormat.double.fractionBits + 1 + 1086 := by rw [Nat.add_assoc]
    rw [Nat.pow_eq, mul_pow_div_pow_four, hbits]
    exact BinaryFormat.units_lt hmagnitude
  have hfinite : timesPower (BinaryFormat.double.nearest number 1) 0 <
      BinaryFormat.double.infinity :=
    Nat.lt_of_le_of_lt hproduct (by decide +kernel)
  have hscaled : (ofNat number).scaledDigits = (number, 0) := by
    rw [scaledDigits, ofNat, hdigits]
    rfl
  have hzero : scaledMagnitude? number (.ofNat 0) =
      some (timesPower (BinaryFormat.double.nearest number 1) 0) := by
    rw [scaledMagnitude?]
    dsimp only
    rw [if_pos (Nat.zero_le _), if_pos hfinite]
  rw [toDouble?, hscaled]
  dsimp only [ofNat]
  rw [show (0 + 0 : ℤ) = .ofNat 0 from rfl, hzero]
  rfl

end Numeral

end TableAppend

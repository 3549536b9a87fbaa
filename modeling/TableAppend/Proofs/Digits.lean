import Mathlib.Data.Char
import Mathlib.Data.Nat.Notation

/-!
# Digits of numbers

The decimal digits of a number are those that it is read from, but for zeros before the first other
digit.
-/

namespace TableAppend.Digits

theorem digitChar_of_isDigit {c : Char} (hc : c.isDigit = true) :
    c.toNat - '0'.toNat < 10 ∧ Nat.digitChar (c.toNat - '0'.toNat) = c := by
  have hrange : 48 ≤ c.toNat ∧ c.toNat ≤ 57 := Char.isDigit_iff_toNat.mp hc
  have hdigit : c.toNat - '0'.toNat < 10 := by
    simp only [Char.reduceToNat]
    omega
  refine ⟨hdigit, ?_⟩
  rw [← Char.toNat_inj, Nat.toNat_digitChar_of_lt_ten hdigit]
  simp only [Char.reduceToNat]
  omega

/-- Digits after a positive number are the further digits of one number. -/
theorem toDigits_append {digits : List Char} (hdigits : ∀ c ∈ digits, c.isDigit = true) {lead : ℕ}
    (hlead : 0 < lead) :
    Nat.toDigits 10 lead ++ digits = Nat.toDigits 10 (Nat.ofDigitChars 10 digits lead) := by
  induction digits generalizing lead with
  | nil => simp
  | cons c rest ih =>
    rw [List.forall_mem_cons] at hdigits
    obtain ⟨hdigit, hchar⟩ := digitChar_of_isDigit hdigits.1
    rw [Nat.ofDigitChars_cons, ← ih hdigits.2 (by omega),
      ← Nat.toDigits_append_toDigits (by decide) hlead hdigit, Nat.toDigits_of_lt_base hdigit,
      hchar, List.append_assoc, List.singleton_append]

/-- Digits that do not begin with a zero are those of their number. -/
theorem toDigits_ofDigitChars {c : Char} {digits : List Char}
    (hdigits : ∀ d ∈ c :: digits, d.isDigit = true) (hc : c ≠ '0') :
    Nat.toDigits 10 (Nat.ofDigitChars 10 (c :: digits) 0) = c :: digits := by
  rw [List.forall_mem_cons] at hdigits
  obtain ⟨hdigit, hchar⟩ := digitChar_of_isDigit hdigits.1
  have hlead : 0 < 10 * 0 + (c.toNat - '0'.toNat) := by
    rw [Nat.mul_zero, Nat.zero_add, Nat.pos_iff_ne_zero]
    intro hzero
    rw [hzero] at hchar
    exact hc hchar.symm
  rw [Nat.ofDigitChars_cons, ← toDigits_append hdigits.2 hlead, Nat.mul_zero, Nat.zero_add,
    Nat.toDigits_of_lt_base hdigit, hchar, List.singleton_append]

/-- The digits of a positive number do not begin with a zero. -/
theorem exists_toDigits {number : ℕ} (hpositive : 0 < number) :
    ∃ c rest, Nat.toDigits 10 number = c :: rest ∧ '0' < c := by
  induction number using Nat.strongRecOn with
  | ind number ih =>
    by_cases hsmall : number < 10
    · refine ⟨Nat.digitChar number, [], Nat.toDigits_of_lt_base hsmall, ?_⟩
      rw [Char.lt_def, UInt32.lt_iff_toNat_lt]
      change 48 < (Nat.digitChar number).toNat
      rw [Nat.toNat_digitChar_of_lt_ten hsmall]
      omega
    · obtain ⟨c, rest, hdigits, hc⟩ := ih (number / 10) (by omega) (by omega)
      refine ⟨c, rest ++ [Nat.digitChar (number % 10)], ?_, hc⟩
      rw [Nat.toDigits_of_base_le (by decide) (by omega), hdigits, List.cons_append]

end TableAppend.Digits

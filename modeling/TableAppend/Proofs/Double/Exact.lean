import TableAppend.Proofs.Json.Numbers

/-!
# Values that are represented exactly

Rounding changes nothing in a value that a format can represent.  So integers below two to the 53 are
doubles, and a single that is widened to a double and narrowed again is what it was, but for the payload
of what is no number: that becomes quiet once and stays so.
-/

namespace TableAppend

namespace BinaryFormat

variable {format : BinaryFormat} {significand shift : ℕ}

/-! ## Significands in standard form -/

/-- A significand is as long as the format allows, or it counts single units. -/
structure Standard (format : BinaryFormat) (significand shift : ℕ) : Prop where
  lt : significand < 2 ^ (format.fractionBits + 1)
  long : shift = 0 ∨ 2 ^ format.fractionBits ≤ significand

/-- The magnitude with these parts. -/
def ofParts (format : BinaryFormat) (significand shift : ℕ) : ℕ :=
  shift * 2 ^ format.fractionBits + significand

theorem parts_ofParts (hstandard : format.Standard significand shift) :
    format.parts (format.ofParts significand shift) = (significand, shift) := by
  have hpositive : 0 < 2 ^ format.fractionBits := Nat.two_pow_pos _
  have hlt := hstandard.lt
  rw [Nat.pow_succ] at hlt
  rw [parts, ofParts]
  simp only [Nat.pow_eq]
  rw [Nat.mul_comm shift, Nat.mul_add_div hpositive, Nat.mul_add_mod]
  by_cases hshort : significand < 2 ^ format.fractionBits
  · obtain rfl : shift = 0 := hstandard.long.resolve_right (by omega)
    rw [Nat.div_eq_of_lt hshort, Nat.mod_eq_of_lt hshort, if_pos rfl]
  · have hdiv : significand / 2 ^ format.fractionBits = 1 := by
      rw [Nat.div_eq_iff hpositive]
      omega
    have hmod : significand % 2 ^ format.fractionBits = significand - 2 ^ format.fractionBits := by
      rw [Nat.mod_eq_sub_mod (by omega), Nat.mod_eq_of_lt (by omega)]
    rw [hdiv, hmod, if_neg (by omega)]
    congr 1
    omega

theorem units_ofParts (hstandard : format.Standard significand shift) :
    format.units (format.ofParts significand shift) = significand * 2 ^ shift := by
  rw [units, parts_ofParts hstandard]
  rfl

theorem exists_ofParts (format : BinaryFormat) (magnitude : ℕ) :
    ∃ significand shift, format.Standard significand shift ∧
      magnitude = format.ofParts significand shift := by
  have hpositive : 0 < 2 ^ format.fractionBits := Nat.two_pow_pos _
  have hfraction := Nat.mod_lt magnitude hpositive
  have hwhole := Nat.div_add_mod magnitude (2 ^ format.fractionBits)
  rcases Nat.eq_zero_or_pos (magnitude / 2 ^ format.fractionBits) with hzero | hexponent
  · rw [hzero, Nat.mul_zero, Nat.zero_add] at hwhole
    refine ⟨magnitude, 0, ⟨?_, .inl rfl⟩, by simp [ofParts]⟩
    rw [Nat.pow_succ]
    omega
  · obtain ⟨less, hless⟩ := Nat.exists_eq_add_of_le' hexponent
    refine ⟨2 ^ format.fractionBits + magnitude % 2 ^ format.fractionBits, less, ⟨?_, .inr ?_⟩, ?_⟩
    · rw [Nat.pow_succ]
      omega
    · omega
    · rw [hless, Nat.mul_add, Nat.mul_one, Nat.mul_comm] at hwhole
      rw [ofParts]
      omega

/-- A number of units with few enough binary digits before its zeros has a standard form. -/
theorem exists_standard {digits zeros : ℕ} (hdigits : digits < 2 ^ (format.fractionBits + 1)) :
    ∃ significand shift, format.Standard significand shift ∧ shift ≤ zeros ∧
      digits * 2 ^ zeros = significand * 2 ^ shift := by
  induction zeros generalizing digits with
  | zero => exact ⟨digits, 0, ⟨hdigits, .inl rfl⟩, Nat.le_refl _, rfl⟩
  | succ zeros ih =>
    by_cases hlong : 2 ^ format.fractionBits ≤ digits
    · exact ⟨digits, zeros + 1, ⟨hdigits, .inr hlong⟩, Nat.le_refl _, rfl⟩
    · obtain ⟨significand, shift, hstandard, hshift, hsame⟩ :=
        @ih (digits * 2) (by rw [Nat.pow_succ]; omega)
      refine ⟨significand, shift, hstandard, Nat.le_succ_of_le hshift, ?_⟩
      rw [← hsame, Nat.pow_succ, Nat.mul_comm (2 ^ zeros), Nat.mul_assoc]

/-! ## Rounding what needs none -/

theorem divideHalfEven_mul {denominator : ℕ} (hdenominator : 0 < denominator) (quotient : ℕ) :
    divideHalfEven (quotient * denominator) denominator = quotient := by
  rw [divideHalfEven]
  simp [Nat.mul_div_cancel _ hdenominator, hdenominator]

/-- The shift of a standard form is found from the number of binary digits. -/
theorem log2_sub_fractionBits (hstandard : format.Standard significand shift) :
    (significand * 2 ^ shift).log2 - format.fractionBits = shift := by
  rcases Nat.eq_zero_or_pos significand with rfl | hpositive
  · have hnot : ¬ 2 ^ format.fractionBits ≤ 0 := Nat.not_le.mpr (Nat.two_pow_pos _)
    rw [hstandard.long.resolve_right hnot]
    simp
  · have hne : significand * 2 ^ shift ≠ 0 :=
      Nat.mul_ne_zero (by omega) (Nat.ne_of_gt (Nat.two_pow_pos _))
    have hupper : (significand * 2 ^ shift).log2 < format.fractionBits + 1 + shift := by
      rw [Nat.log2_lt hne, Nat.pow_add]
      exact Nat.mul_lt_mul_of_pos_right hstandard.lt (Nat.two_pow_pos _)
    rcases hstandard.long with rfl | hlong
    · omega
    · have hlower : format.fractionBits + shift ≤ (significand * 2 ^ shift).log2 := by
        rw [Nat.le_log2 hne, Nat.pow_add]
        exact Nat.mul_le_mul_right _ hlong
      omega

/-- A quotient that is a whole number of units in standard form is the nearest value itself. -/
theorem nearest_eq_ofParts (hstandard : format.Standard significand shift)
    (hfinite : format.ofParts significand shift ≤ format.infinity) {numerator denominator : ℕ}
    (hdenominator : 0 < denominator)
    (hexact : numerator * 2 ^ format.scale = significand * 2 ^ shift * denominator) :
    format.nearest numerator denominator = format.ofParts significand shift := by
  have hsignificand : divideHalfEven (significand * 2 ^ shift * denominator)
      (denominator * 2 ^ shift) = significand := by
    rw [Nat.mul_assoc, Nat.mul_comm (2 ^ shift)]
    exact divideHalfEven_mul (Nat.mul_pos hdenominator (Nat.two_pow_pos _)) _
  rw [nearest]
  simp only [Nat.pow_eq]
  rw [hexact, Nat.mul_div_cancel _ hdenominator, log2_sub_fractionBits hstandard, hsignificand]
  exact Nat.min_eq_left hfinite

/-- A magnitude is the one nearest to its value. -/
theorem nearest_units {magnitude : ℕ} (hfinite : magnitude ≤ format.infinity)
    {numerator denominator : ℕ} (hdenominator : 0 < denominator)
    (hexact : numerator * 2 ^ format.scale = format.units magnitude * denominator) :
    format.nearest numerator denominator = magnitude := by
  obtain ⟨significand, shift, hstandard, rfl⟩ := format.exists_ofParts magnitude
  rw [units_ofParts hstandard] at hexact
  exact nearest_eq_ofParts hstandard hfinite hdenominator hexact

/-- A quotient with few enough binary digits before its zeros is represented exactly. -/
theorem units_nearest {digits zeros : ℕ} (hdigits : digits < 2 ^ (format.fractionBits + 1))
    (hzeros : (zeros + 2) * 2 ^ format.fractionBits ≤ format.infinity) {numerator denominator : ℕ}
    (hdenominator : 0 < denominator)
    (hexact : numerator * 2 ^ format.scale = digits * 2 ^ zeros * denominator) :
    format.units (format.nearest numerator denominator) = digits * 2 ^ zeros ∧
      format.nearest numerator denominator < format.infinity := by
  obtain ⟨significand, shift, hstandard, hshift, hsame⟩ := @exists_standard format digits zeros hdigits
  have hsmall : format.ofParts significand shift < format.infinity := by
    refine Nat.lt_of_lt_of_le ?_ hzeros
    have hlt := hstandard.lt
    have hless := Nat.mul_le_mul_right (2 ^ format.fractionBits) hshift
    rw [Nat.pow_succ] at hlt
    rw [ofParts, Nat.add_mul]
    omega
  rw [hsame] at hexact ⊢
  rw [nearest_eq_ofParts hstandard (Nat.le_of_lt hsmall) hdenominator hexact]
  exact ⟨units_ofParts hstandard, hsmall⟩

end BinaryFormat

/-! ## Integers as doubles -/

namespace Double

open BinaryFormat (double)

variable {negative : Bool} {magnitude : ℕ}

theorem toNat_ofMagnitude (hmagnitude : magnitude < double.signWeight) :
    (ofMagnitude negative magnitude).bits.toNat =
      (if negative then double.signWeight else 0) + magnitude := by
  rw [ofMagnitude, UInt64.toNat_ofNat']
  refine Nat.mod_eq_of_lt ?_
  have hweight : double.signWeight = 2 ^ 63 := rfl
  rw [hweight] at hmagnitude ⊢
  split <;> omega

theorem isNegative_ofMagnitude (hmagnitude : magnitude < double.signWeight) :
    (ofMagnitude negative magnitude).isNegative = negative := by
  rw [isNegative, toNat_ofMagnitude hmagnitude]
  cases negative
  · simpa using hmagnitude
  · simp

theorem magnitude_ofMagnitude (hmagnitude : magnitude < double.signWeight) :
    (ofMagnitude negative magnitude).magnitude = magnitude := by
  rw [Double.magnitude, toNat_ofMagnitude hmagnitude]
  cases negative
  · simpa using Nat.mod_eq_of_lt hmagnitude
  · simpa using Nat.mod_eq_of_lt hmagnitude

theorem infinity_lt_signWeight : double.infinity < double.signWeight := by decide

theorem unitsPerOne_eq : unitsPerOne = 2 ^ double.scale := by
  unfold unitsPerOne
  generalize double.scale = scale
  rfl

theorem unitsPerOne_pos : 0 < unitsPerOne := by
  rw [unitsPerOne_eq]
  exact Nat.two_pow_pos _

/-- An integer below two to the 53 is a double, which stands for that whole number. -/
theorem wholeNumber?_ofInt {n : ℤ} (hn : n.natAbs < Nat.pow 2 53) :
    (ofInt n).wholeNumber? = some n := by
  obtain ⟨hunits, hfinite⟩ := @BinaryFormat.units_nearest double n.natAbs double.scale hn
    (by decide) n.natAbs 1 Nat.one_pos (Nat.mul_one _).symm
  have hmagnitude : (ofInt n).magnitude = double.nearest n.natAbs 1 :=
    magnitude_ofMagnitude (Nat.lt_trans hfinite infinity_lt_signWeight)
  have hnegative : (ofInt n).isNegative = decide (n < 0) :=
    isNegative_ofMagnitude (Nat.lt_trans hfinite infinity_lt_signWeight)
  have hvalue : (ofInt n).units = n.natAbs * unitsPerOne := by
    rw [units, hmagnitude, hunits, unitsPerOne_eq]
  have hwhole : (ofInt n).isFinite = true ∧ (ofInt n).units % unitsPerOne = 0 ∧
      (ofInt n).units < Nat.pow 2 53 * unitsPerOne := by
    rw [hvalue, isFinite, hmagnitude]
    exact ⟨decide_eq_true hfinite, Nat.mul_mod_left _ _, Nat.mul_lt_mul_of_pos_right hn unitsPerOne_pos⟩
  have hquotient : ((ofInt n).units : ℤ) / unitsPerOne = n.natAbs := by
    rw [← Int.natCast_ediv, hvalue, Nat.mul_div_cancel _ unitsPerOne_pos]
  rw [wholeNumber?, if_pos hwhole, hquotient, hnegative]
  by_cases hsign : n < 0
  · simp only [hsign, decide_true, if_true, Option.some.injEq]
    omega
  · simp only [hsign, decide_false, Bool.false_eq_true, if_false, Option.some.injEq]
    omega

end Double

/-! ## Singles as doubles -/

namespace Single

open BinaryFormat (double single)

variable {negative : Bool} {magnitude : ℕ}

theorem toNat_ofMagnitude (hmagnitude : magnitude < single.signWeight) :
    (ofMagnitude negative magnitude).bits.toNat =
      (if negative then single.signWeight else 0) + magnitude := by
  rw [ofMagnitude, UInt32.toNat_ofNat']
  refine Nat.mod_eq_of_lt ?_
  have hweight : single.signWeight = 2 ^ 31 := rfl
  rw [hweight] at hmagnitude ⊢
  split <;> omega

theorem isNegative_ofMagnitude (hmagnitude : magnitude < single.signWeight) :
    (ofMagnitude negative magnitude).isNegative = negative := by
  rw [isNegative, toNat_ofMagnitude hmagnitude]
  cases negative
  · simpa using hmagnitude
  · simp

theorem magnitude_ofMagnitude (hmagnitude : magnitude < single.signWeight) :
    (ofMagnitude negative magnitude).magnitude = magnitude := by
  rw [Single.magnitude, toNat_ofMagnitude hmagnitude]
  cases negative
  · simpa using Nat.mod_eq_of_lt hmagnitude
  · simpa using Nat.mod_eq_of_lt hmagnitude

theorem infinity_lt_signWeight : single.infinity < single.signWeight := by decide

/-- The magnitude of a widened single. -/
def widened (magnitude : ℕ) : ℕ :=
  if magnitude < single.infinity then
    double.nearest (single.units magnitude) (Nat.pow 2 single.scale)
  else if magnitude = single.infinity then double.infinity
  else
    double.infinity
      + (magnitude % Nat.pow 2 single.fractionBits ||| Nat.pow 2 22) * Nat.pow 2 widening

/-- The magnitude of a narrowed double. -/
def narrowed (magnitude : ℕ) : ℕ :=
  if magnitude < double.infinity then single.nearest (double.units magnitude) Double.unitsPerOne
  else if magnitude = double.infinity then single.infinity
  else
    single.infinity
      + (magnitude % Nat.pow 2 double.fractionBits / Nat.pow 2 widening ||| Nat.pow 2 22)

theorem toDouble_eq (x : Single) : x.toDouble = .ofMagnitude x.isNegative (widened x.magnitude) :=
  rfl

theorem ofDouble_eq (x : Double) : ofDouble x = .ofMagnitude x.isNegative (narrowed x.magnitude) :=
  rfl

/-- A finite single is the double of the same value, which is narrowed to it again. -/
theorem widened_of_finite (hfinite : magnitude < single.infinity) :
    widened magnitude < double.infinity ∧ narrowed (widened magnitude) = magnitude := by
  obtain ⟨significand, shift, hstandard, hmagnitude⟩ := single.exists_ofParts magnitude
  have hunits : single.units magnitude = significand * 2 ^ shift :=
    hmagnitude ▸ BinaryFormat.units_ofParts hstandard
  have hscale : double.scale = single.scale + 925 := by decide
  have hexact : single.units magnitude * 2 ^ double.scale =
      significand * 2 ^ (shift + 925) * 2 ^ single.scale := by
    rw [hunits, hscale, Nat.mul_assoc, Nat.mul_assoc, ← Nat.pow_add, ← Nat.pow_add]
    congr 2
  have hdigits : significand < 2 ^ (double.fractionBits + 1) :=
    Nat.lt_of_lt_of_le hstandard.lt (Nat.pow_le_pow_right (by decide) (by decide))
  have hzeros : (shift + 925 + 2) * 2 ^ double.fractionBits ≤ double.infinity := by
    have hinfinity : single.infinity = 255 * 2 ^ 23 := rfl
    have hparts : magnitude = shift * 2 ^ 23 + significand := hmagnitude
    have hdouble : double.infinity = 2047 * 2 ^ double.fractionBits := rfl
    rw [hdouble]
    exact Nat.mul_le_mul_right _ (by omega)
  obtain ⟨hvalue, hless⟩ :=
    BinaryFormat.units_nearest hdigits hzeros (Nat.two_pow_pos single.scale) hexact
  have hwidened : widened magnitude = double.nearest (single.units magnitude) (2 ^ single.scale) := by
    rw [widened, if_pos hfinite, Nat.pow_eq]
  rw [hwidened]
  refine ⟨hless, ?_⟩
  rw [narrowed, if_pos hless, hvalue]
  refine BinaryFormat.nearest_units (Nat.le_of_lt hfinite) Double.unitsPerOne_pos ?_
  rw [Double.unitsPerOne_eq, hexact]

theorem widened_infinity : widened single.infinity = double.infinity := by
  rw [widened, if_neg (Nat.lt_irrefl _), if_pos rfl]

theorem narrowed_infinity : narrowed double.infinity = single.infinity := by
  rw [narrowed, if_neg (Nat.lt_irrefl _), if_pos rfl]

/-- What is no number gets a payload whose first bit is set. -/
theorem widened_of_nan (hnan : single.infinity < magnitude) :
    ∃ payload, payload < 2 ^ 23 ∧ payload ||| 2 ^ 22 = payload ∧
      widened magnitude = double.infinity + payload * 2 ^ widening := by
  refine ⟨magnitude % 2 ^ 23 ||| 2 ^ 22, ?_, ?_, ?_⟩
  · exact Nat.or_lt_two_pow (Nat.mod_lt _ (Nat.two_pow_pos _)) (by decide)
  · rw [Nat.or_assoc, Nat.or_self]
  · rw [widened, if_neg (by omega), if_neg (by omega)]
    rfl

theorem pos_of_quiet {payload : ℕ} (hquiet : payload ||| 2 ^ 22 = payload) : 0 < payload := by
  rcases Nat.eq_zero_or_pos payload with rfl | hpositive
  · exact absurd hquiet (by decide)
  · exact hpositive

section Payload

variable {payload : ℕ} (hpayload : payload < 2 ^ 23) (hquiet : payload ||| 2 ^ 22 = payload)

include hpayload hquiet

theorem narrowed_of_payload :
    narrowed (double.infinity + payload * 2 ^ widening) = single.infinity + payload := by
  have hpositive := pos_of_quiet hquiet
  have hinfinity : double.infinity = 2047 * 2 ^ 52 := rfl
  have hwidening : widening = 29 := rfl
  have hrest : (double.infinity + payload * 2 ^ widening) % 2 ^ 52 / 2 ^ widening = payload := by
    rw [hinfinity, hwidening]
    omega
  have hmore : 0 < payload * 2 ^ widening := Nat.mul_pos hpositive (Nat.two_pow_pos _)
  rw [narrowed, if_neg (by omega), if_neg (by omega)]
  exact congrArg (single.infinity + ·) (hrest.symm ▸ hquiet)

theorem widened_of_payload :
    widened (single.infinity + payload) = double.infinity + payload * 2 ^ widening := by
  have hpositive := pos_of_quiet hquiet
  have hinfinity : single.infinity = 255 * 2 ^ 23 := rfl
  have hrest : (single.infinity + payload) % 2 ^ 23 = payload := by
    rw [hinfinity]
    omega
  rw [widened, if_neg (by omega), if_neg (by omega)]
  exact congrArg (double.infinity + · * 2 ^ widening) (hrest.symm ▸ hquiet)

end Payload

theorem widened_again (hmagnitude : magnitude < single.signWeight) :
    widened magnitude < double.signWeight ∧ narrowed (widened magnitude) < single.signWeight ∧
      widened (narrowed (widened magnitude)) = widened magnitude := by
  rcases Nat.lt_trichotomy magnitude single.infinity with hfinite | rfl | hnan
  · obtain ⟨hless, hsame⟩ := widened_of_finite hfinite
    exact ⟨Nat.lt_trans hless Double.infinity_lt_signWeight, hsame.symm ▸ hmagnitude, by rw [hsame]⟩
  · rw [widened_infinity, narrowed_infinity, widened_infinity]
    exact ⟨Double.infinity_lt_signWeight, infinity_lt_signWeight, rfl⟩
  · obtain ⟨payload, hpayload, hquiet, hwidened⟩ := widened_of_nan hnan
    have hweights : double.signWeight = double.infinity + 2 ^ 23 * 2 ^ widening ∧
        single.signWeight = single.infinity + 2 ^ 23 := ⟨rfl, rfl⟩
    rw [hwidened, narrowed_of_payload hpayload hquiet, widened_of_payload hpayload hquiet,
      hweights.1, hweights.2]
    exact ⟨Nat.add_lt_add_left (Nat.mul_lt_mul_of_pos_right hpayload (Nat.two_pow_pos _)) _,
      Nat.add_lt_add_left hpayload _, rfl⟩

theorem magnitude_lt_signWeight (x : Single) : x.magnitude < single.signWeight :=
  Nat.mod_lt _ (by decide)

/-- What a single is widened to is narrowed to a single that is widened to the same again. -/
theorem toDouble_ofDouble_toDouble (x : Single) : (ofDouble x.toDouble).toDouble = x.toDouble := by
  obtain ⟨hwidened, hnarrowed, hagain⟩ := widened_again x.magnitude_lt_signWeight
  have hnegative : x.toDouble.isNegative = x.isNegative := Double.isNegative_ofMagnitude hwidened
  have hmagnitude : x.toDouble.magnitude = widened x.magnitude :=
    Double.magnitude_ofMagnitude hwidened
  rw [toDouble_eq (ofDouble _), ofDouble_eq, hnegative, hmagnitude,
    isNegative_ofMagnitude hnarrowed, magnitude_ofMagnitude hnarrowed, hagain, toDouble_eq]

end Single
end TableAppend

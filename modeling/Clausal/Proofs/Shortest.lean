import Clausal.Proofs.Rounding

/-!
# The shortest decimal reads back

The decimal chosen for a finite number is one that was seen to read back, or the exact value. Neither
trailing zeros nor the bounds beyond which a decimal need not be rounded make a difference.
-/

namespace Clausal

namespace Decimal

/-- A zero at the end of the digits can be moved into the exponent. -/
theorem toBinary64_shift (negative : Bool) (k : Nat) (e : Int) (nonzero : k ≠ 0) :
    toBinary64 negative ⟨k, e + 1⟩ = toBinary64 negative ⟨k * 10, e⟩ := by
  have top : (decimalLength (k * 10) : Int) + e = decimalLength k + (e + 1) := by
    rw [decimalLength_mul_ten k nonzero]
    omega
  have ratio : Binary64.ofRatio negative (k * pow10 (e + 1).toNat) (pow10 (-(e + 1)).toNat) =
      Binary64.ofRatio negative (k * 10 * pow10 e.toNat) (pow10 (-e).toNat) := by
    -- A negative exponent is a power in the denominator, another one a power in the numerator.
    rcases Int.lt_or_le e 0 with below | above
    · obtain ⟨j, rfl⟩ := Int.exists_eq_neg_ofNat (Int.le_of_lt below)
      obtain ⟨i, rfl⟩ : ∃ i, j = i + 1 := Nat.exists_eq_add_of_le' (by omega)
      have up : (-((i + 1 : Nat) : Int) + 1).toNat = 0 := by omega
      have down : (-(-((i + 1 : Nat) : Int) + 1)).toNat = i := by omega
      have before : (-((i + 1 : Nat) : Int)).toNat = 0 := by omega
      have after : (-(-((i + 1 : Nat) : Int))).toNat = i + 1 := by omega
      rw [up, down, before, after, show pow10 (i + 1) = 10 * pow10 i from Nat.pow_succ',
        ← Binary64.ofRatio_mul_left negative 10 _ _ (by decide)]
      congr 1
      rw [Nat.mul_assoc k 10, Nat.mul_left_comm]
    · have up : (e + 1).toNat = e.toNat + 1 := by omega
      have down : (-(e + 1)).toNat = 0 := by omega
      have before : (-e).toNat = 0 := by omega
      rw [up, down, before, show pow10 (e.toNat + 1) = 10 * pow10 e.toNat from Nat.pow_succ',
        Nat.mul_assoc]
  have shifted : k * 10 ≠ 0 := by omega
  simp only [toBinary64, nonzero, shifted, top, ratio, if_false]

theorem toBinary64_dropZeros (negative : Bool) (fuel : Nat) (x : Decimal) :
    toBinary64 negative (dropZeros fuel x) = toBinary64 negative x := by
  induction fuel generalizing x with
  | zero => rfl
  | succ fuel ih =>
    rw [dropZeros]
    split
    next zero =>
      have whole : x.digits / 10 * 10 = x.digits := Nat.div_mul_cancel (Nat.dvd_of_mod_eq_zero zero.2)
      have nonzero : x.digits / 10 ≠ 0 := by omega
      rw [ih, toBinary64_shift negative _ _ nonzero, whole]
    next => rfl

/-- Zeros at the end do not change what a decimal is read as. -/
theorem toBinary64_normalize (negative : Bool) (x : Decimal) :
    toBinary64 negative x.normalize = toBinary64 negative x :=
  toBinary64_dropZeros negative _ x

/-- A decimal with the exact value of a number reads as that number. -/
theorem toBinary64_exact (x : Binary64) (finite : x.isFinite = true) (d : Decimal)
    (nonzero : d.digits ≠ 0) (low : decimalLength d.digits + d.exponent ≤ 310)
    (high : -330 ≤ decimalLength d.digits + d.exponent)
    (equal : d.digits * pow10 d.exponent.toNat * Binary64.unitsPerOne =
      x.units * pow10 (-d.exponent).toNat) : toBinary64 x.negative d = x := by
  unfold toBinary64
  rw [if_neg nonzero, if_neg (by omega), if_neg (by omega)]
  exact x.ofRatio_exact finite _ _ (pow10_pos _) equal

/-- A finite number that an integer reads as is an integer. -/
theorem unitsPerOne_dvd_of_reads (x : Binary64) (finite : x.isFinite = true) (d : Decimal)
    (whole : 0 ≤ d.exponent) (reads : toBinary64 x.negative d = x) : Binary64.unitsPerOne ∣ x.units := by
  have infinite (negative : Bool) : (Binary64.infinity negative).isFinite = false := by
    cases negative <;> decide
  have none (negative : Bool) : (Binary64.zero negative).units = 0 := by
    cases negative <;> decide
  have den : (-d.exponent).toNat = 0 := by omega
  -- Without a denominator the number is zero, infinite or the nearest one to an integer.
  simp only [toBinary64, den] at reads
  split at reads
  · rw [← reads, none]
    exact Nat.dvd_zero _
  · split at reads
    · rw [← reads, infinite] at finite
      exact absurd finite (by decide)
    · split at reads
      · rw [← reads, none]
        exact Nat.dvd_zero _
      · rw [← reads] at finite ⊢
        exact Binary64.unitsPerOne_dvd_units _ _ finite

end Decimal

namespace Binary64

/-- The exact value is read back, though it may have many digits. -/
theorem exactDecimal_reads (x : Binary64) (finite : x.isFinite = true) (nonzero : x.units ≠ 0) :
    x.exactDecimal.toBinary64 x.negative = x := by
  have tens : Nat.pow 5 1074 * unitsPerOne = pow10 1074 := by decide +kernel
  have many : pow10 750 ≤ Nat.pow 5 1074 := by decide +kernel
  have few : pow2 1024 * unitsPerOne * Nat.pow 5 1074 ≤ pow10 1384 := by decide +kernel
  have positive : 0 < Nat.pow 5 1074 := Nat.lt_of_lt_of_le (pow10_pos 750) many
  unfold exactDecimal
  -- The power is never evaluated: only the three facts above are used of it.
  generalize Nat.pow 5 1074 = fives at tens many few positive
  apply Decimal.toBinary64_exact x finite
  case nonzero => exact Nat.mul_ne_zero nonzero (Nat.ne_of_gt positive)
  case low =>
    have bound : decimalLength (x.units * fives) ≤ 1384 := by
      rw [decimalLength_le_iff _ _ (by decide)]
      have below := Nat.mul_lt_mul_of_pos_right (x.units_lt finite) positive
      exact Nat.lt_of_lt_of_le below few
    dsimp only
    omega
  case high =>
    have bound : ¬ decimalLength (x.units * fives) ≤ 750 := by
      rw [decimalLength_le_iff _ _ (by decide), Nat.not_lt]
      exact Nat.le_trans many (Nat.le_mul_of_pos_left _ (Nat.pos_of_ne_zero nonzero))
    dsimp only
    omega
  case equal =>
    have up : (-1074 : Int).toNat = 0 := by decide
    have down : (-(-1074) : Int).toNat = 1074 := by decide
    dsimp only
    rw [up, down, show pow10 0 = 1 from rfl, Nat.mul_one, Nat.mul_assoc, tens]

/-- A decimal is taken only if it is read back. -/
theorem readableAt_reads (x : Binary64) (places : Nat) (d : Decimal)
    (found : x.readableAt places = some d) : d.toBinary64 x.negative = x := by
  unfold readableAt at found
  have readable : x.readsAs d = true := List.find?_some found
  exact eq_of_beq readable

/-- The digits chosen for a number read back. -/
theorem shortest_reads (x : Binary64) (finite : x.isFinite = true) (nonzero : x.units ≠ 0) :
    x.shortest.toBinary64 x.negative = x := by
  unfold shortest
  rw [Decimal.toBinary64_normalize]
  -- Seventeen digits always suffice, but what is needed here is only that the exact value does.
  cases found : (List.range 17).findSome? x.readableAt with
  | none => exact x.exactDecimal_reads finite nonzero
  | some d =>
    obtain ⟨places, -, readable⟩ := List.exists_of_findSome?_eq_some found
    exact x.readableAt_reads places d readable

/-- All digits of a whole number with one decimal place read back. -/
theorem whole_reads (x : Binary64) (finite : x.isFinite = true) (nonzero : x.units ≠ 0)
    (whole : unitsPerOne ∣ x.units) :
    Decimal.toBinary64 x.negative ⟨x.units / unitsPerOne * 10, -1⟩ = x := by
  have exact_ratio := Nat.div_mul_cancel whole
  have unitsPositive : 0 < unitsPerOne := pow2_pos 1074
  have small : x.units / unitsPerOne < pow10 310 := by
    have bound : x.units / unitsPerOne < pow2 1024 :=
      (Nat.div_lt_iff_lt_mul unitsPositive).mpr (x.units_lt finite)
    exact Nat.lt_of_lt_of_le bound (by decide +kernel)
  generalize x.units / unitsPerOne = n at exact_ratio small ⊢
  have positive : n ≠ 0 := by
    rintro rfl
    rw [Nat.zero_mul] at exact_ratio
    exact nonzero exact_ratio.symm
  have length := (decimalLength_le_iff n 310 (by decide)).mpr small
  apply Decimal.toBinary64_exact x finite
  · show n * 10 ≠ 0
    omega
  · show (decimalLength (n * 10) : Int) + -1 ≤ 310
    rw [decimalLength_mul_ten n positive]
    omega
  · show -330 ≤ (decimalLength (n * 10) : Int) + -1
    omega
  · show n * 10 * pow10 0 * unitsPerOne = x.units * pow10 1
    rw [← exact_ratio, show pow10 0 = 1 from rfl, show pow10 1 = 10 from rfl, Nat.mul_one,
      Nat.mul_right_comm]

/-- The only numbers without units are the two zeros. -/
theorem zero_of_units (x : Binary64) (none : x.units = 0) : zero x.negative = x := by
  have significand : x.significand = 0 := by
    rcases Nat.mul_eq_zero.mp none with isZero | impossible
    · exact isZero
    · exact absurd impossible (Nat.ne_of_gt (pow2_pos _))
  have subnormal : x.field = 0 := by
    by_contra normal
    rw [Binary64.significand, if_neg normal, leadingBit_eq] at significand
    omega
  have magnitude : x.magnitude = 0 := by
    rw [x.magnitude_eq_scale, significand, scale, subnormal, Nat.add_zero]
    exact Nat.zero_mul _
  have same := x.ofMagnitude_self
  rwa [magnitude] at same

end Binary64

end Clausal

import Clausal.Number.Shortest

/-!
# Decimal digits

The digits written for a natural number are read as that number, and their number tells how large it
is.
-/

namespace Clausal

theorem Char.toNat_ascii_digit (c : Char) (digit : c.isDigit = true) :
    Byte.isDigit (ascii c) = true ∧ Byte.digit (ascii c) = c.toNat - '0'.toNat := by
  have range : 48 ≤ c.toNat ∧ c.toNat ≤ 57 := by
    simp only [Char.isDigit, Bool.and_eq_true, decide_eq_true_eq, ge_iff_le] at digit
    exact ⟨digit.1, digit.2⟩
  have value : (ascii c).toNat = c.toNat :=
    Nat.mod_eq_of_lt (show c.toNat < 256 by omega)
  constructor
  · simp only [Byte.isDigit, Bool.and_eq_true, decide_eq_true_eq, UInt8.le_iff_toNat_le, value]
    exact range
  · simp only [Byte.digit, value]
    rfl

namespace Text

theorem isDigit_of_mem_ofNat (n : Nat) (b : UInt8) (member : b ∈ ofNat n) :
    Byte.isDigit b = true := by
  obtain ⟨c, inside, rfl⟩ := List.mem_map.mp member
  have digit := Nat.isDigit_of_mem_toDigits (by decide) (by decide) inside
  exact (Char.toNat_ascii_digit c digit).1

theorem ofNat_ne_nil (n : Nat) : ofNat n ≠ [] := by
  simp [ofNat]

/-- What is written for a number is read as that number. -/
theorem toNat_ofNat (n : Nat) : toNat (ofNat n) = n := by
  -- Reading bytes and reading characters agree digit by digit.
  have digits (cs : List Char) (all : ∀ c ∈ cs, c.isDigit = true) (init : Nat) :
      (cs.map ascii).foldl (fun n b => 10 * n + Byte.digit b) init =
        Nat.ofDigitChars 10 cs init := by
    induction cs generalizing init with
    | nil => rfl
    | cons c cs ih =>
      rw [List.forall_mem_cons] at all
      rw [List.map_cons, List.foldl_cons, Nat.ofDigitChars_cons, ih all.2,
        (Char.toNat_ascii_digit c all.1).2]
  unfold toNat ofNat
  rw [digits, Nat.ofDigitChars_ten_toDigits]
  intro c inside
  exact Nat.isDigit_of_mem_toDigits (by decide) (by decide) inside

/-- Leading zeros do not count. -/
theorem toNat_zeros (k : Nat) (t : Text) :
    toNat (List.replicate k (ascii '0') ++ t) = toNat t := by
  have zeros : (List.replicate k (ascii '0')).foldl (fun n b => 10 * n + Byte.digit b) 0 = 0 := by
    induction k with
    | zero => rfl
    | succ k ih =>
      rw [List.replicate_succ, List.foldl_cons, show 10 * 0 + Byte.digit (ascii '0') = 0 from rfl, ih]
  unfold toNat
  rw [List.foldl_append, zeros]

end Text

theorem decimalLength_le_iff (n k : Nat) (positive : 0 < k) :
    decimalLength n ≤ k ↔ n < pow10 k :=
  Nat.length_toDigits_le_iff (by decide) positive

theorem decimalLength_mul_ten (n : Nat) (nonzero : n ≠ 0) :
    decimalLength (n * 10) = decimalLength n + 1 := by
  have shift := Nat.toDigits_of_base_le (b := 10) (n := n * 10) (by decide) (by omega)
  unfold decimalLength
  rw [shift, Nat.mul_div_cancel n (by decide), List.length_append, List.length_singleton]

end Clausal

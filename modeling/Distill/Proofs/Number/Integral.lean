import Distill.Number.Decimal
import Mathlib.Data.Nat.Digits.Defs

/-!
# Integers as doubles

A natural of at most 53 bits is a double of its own: reading its digits rounds nothing away.

## Main statements

* `Double.exists_ofDecimal`, `Double.isNat_ofInt` — the double of a natural of at most 53 bits.
* `digitsValue_toDigits` — the value of the digits of a natural.
-/

namespace Distill

namespace Double

/-- What the double of an integer has to be. -/
structure IsNat (x : Double) (n : Nat) : Prop where
  positive : x.neg = false
  magnitude_eq : x.magnitude = n * unitsPerOne

section

variable {x : Double} {n k : Nat}

theorem log2_mul_two_pow (h : n ≠ 0) (k : Nat) : (n * 2 ^ k).log2 = n.log2 + k := by
  refine (Nat.log2_eq_iff (Nat.mul_ne_zero h (Nat.two_pow_pos k).ne')).mpr ⟨?_, ?_⟩
  · rw [Nat.pow_add]
    exact Nat.mul_le_mul_right _ (Nat.log2_self_le h)
  · rw [Nat.add_right_comm, Nat.pow_add]
    exact Nat.mul_lt_mul_of_pos_right Nat.lt_log2_self (Nat.two_pow_pos k)

theorem unitsPerOne_eq {i j : Nat} (h : i + j = 1074) : unitsPerOne = 2 ^ i * 2 ^ j := by
  unfold unitsPerOne
  rw [← h]
  exact Nat.pow_add 2 i j

theorem unitsPerOne_pos : 0 < unitsPerOne := by
  obtain ⟨i, hi⟩ : ∃ i, i + 0 = 1074 := ⟨1074, rfl⟩
  rw [unitsPerOne_eq hi]
  exact Nat.mul_pos (Nat.two_pow_pos i) (Nat.two_pow_pos 0)

theorem log2_mul_unitsPerOne (h : n ≠ 0) : (n * unitsPerOne).log2 = n.log2 + 1074 := by
  rw [unitsPerOne_eq (Nat.add_zero 1074), Nat.pow_zero, Nat.mul_one, log2_mul_two_pow h]

/-- A quotient without a rest is not rounded. -/
theorem roundDiv_mul (q : Nat) {den : Nat} (h : 0 < den) : roundDiv (q * den) den = q := by
  simp [roundDiv, Nat.mul_div_cancel q h, h.ne]

/-- A natural of at most 53 bits, brought to 53 bits. -/
theorem mul_two_pow_lt (h : n.log2 ≤ 52) : n * 2 ^ (52 - n.log2) < 2 ^ 53 := by
  calc n * 2 ^ (52 - n.log2) < 2 ^ (n.log2 + 1) * 2 ^ (52 - n.log2) :=
        Nat.mul_lt_mul_of_pos_right Nat.lt_log2_self (Nat.two_pow_pos _)
    _ = 2 ^ (n.log2 + 1 + (52 - n.log2)) := (Nat.pow_add ..).symm
    _ = 2 ^ 53 := congrArg (2 ^ ·) (by omega)

/-- A natural of at most 53 bits is not rounded. -/
theorem exists_ofRatio (h0 : n ≠ 0) (h : n < 2 ^ 53) :
    ∃ x, ofRatio false n 1 = some x ∧ x.IsNat n := by
  have hlog : n.log2 ≤ 52 := Nat.lt_succ_iff.mp ((Nat.log2_lt h0).mpr h)
  have hshift : (n * unitsPerOne).log2 + 1 - 53 = n.log2 + 1022 := by
    rw [log2_mul_unitsPerOne h0]
    omega
  have hunits : n * unitsPerOne = n * 2 ^ (52 - n.log2) * 2 ^ (n.log2 + 1022) := by
    rw [unitsPerOne_eq (i := 52 - n.log2) (j := n.log2 + 1022) (by omega), Nat.mul_assoc]
  have hround : roundDiv (n * unitsPerOne) (1 * Nat.pow 2 (n.log2 + 1022)) =
      n * 2 ^ (52 - n.log2) := by
    rw [hunits, Nat.one_mul]
    exact roundDiv_mul _ (Nat.two_pow_pos _)
  have hmant : ¬n * 2 ^ (52 - n.log2) = Nat.pow 2 53 := (mul_two_pow_lt hlog).ne
  refine ⟨⟨false, n * 2 ^ (52 - n.log2), n.log2 + 1022⟩, ?_, rfl, hunits.symm⟩
  simp only [ofRatio, Nat.div_one, hshift, hround, if_neg hmant]
  rw [if_pos (by omega)]

/-- The double that the digits of a natural denote. -/
theorem exists_ofDecimal (h : n < 2 ^ 53) : ∃ x, ofDecimal false ⟨n, 0⟩ = some x ∧ x.IsNat n := by
  rcases Nat.eq_zero_or_pos n with rfl | hpos
  · exact ⟨zero false, rfl, rfl, by simp [zero, magnitude]⟩
  obtain ⟨x, hx, hnat⟩ := exists_ofRatio hpos.ne' h
  have hlength : (Decimal.digits n).length ≤ 16 :=
    Nat.toDigits_length 10 n 16 (by decide) (h.trans (by decide))
  refine ⟨x, ?_, hnat⟩
  simp only [ofDecimal, if_neg hpos.ne']
  rw [if_neg (by omega), if_neg (by omega)]
  simpa using hx

/-- The double of an integer. -/
theorem isNat_ofInt (h : n < 2 ^ 53) : (ofInt n).IsNat n := by
  rcases Nat.eq_zero_or_pos n with rfl | hpos
  · exact ⟨by decide +kernel, by decide +kernel⟩
  · obtain ⟨x, hx, hnat⟩ := exists_ofRatio hpos.ne' h
    have hneg : decide ((n : Int) < 0) = false := decide_eq_false (by omega)
    rwa [ofInt, hneg, Int.natAbs_natCast, hx]

theorem IsNat.isIntegral (hx : x.IsNat n) : x.isIntegral = true := by
  simp [Double.isIntegral, hx.magnitude_eq]

theorem IsNat.magnitude_div (hx : x.IsNat n) : x.magnitude / unitsPerOne = n := by
  rw [hx.magnitude_eq]
  exact Nat.mul_div_cancel n unitsPerOne_pos

theorem IsNat.magnitude_lt (hx : x.IsNat n) (h : n < k) : x.magnitude < k * unitsPerOne := by
  rw [hx.magnitude_eq]
  exact Nat.mul_lt_mul_of_pos_right h unitsPerOne_pos

theorem IsNat.truncate (hx : x.IsNat n) : x.truncate = n := by
  simp [Double.truncate, hx.positive, hx.magnitude_div]

theorem IsNat.truncate_negate (hx : x.IsNat n) : x.negate.truncate = -n := by
  have hmagnitude : x.negate.magnitude / unitsPerOne = n := hx.magnitude_div
  have hneg : x.negate.neg = true := by simp [negate, hx.positive]
  rw [Double.truncate, hmagnitude, if_pos hneg]

/-- An integral double in units of the format. -/
theorem key_of_isIntegral (h : x.isIntegral = true) : x.key = x.truncate * unitsPerOne := by
  have hunits : x.magnitude / unitsPerOne * unitsPerOne = x.magnitude :=
    Nat.div_mul_cancel (Nat.dvd_of_mod_eq_zero (by simpa [Double.isIntegral] using h))
  simp only [key, Double.truncate]
  split
  · rw [Int.neg_mul, ← Int.natCast_mul, hunits]
  · rw [← Int.natCast_mul, hunits]

/-- **The value of a double is an integer exactly if nothing is dropped of it.** -/
theorem key_eq_mul_iff {i : Int} :
    x.key = i * unitsPerOne ↔ x.isIntegral = true ∧ x.truncate = i := by
  constructor
  · intro h
    have hmagnitude : x.magnitude = i.natAbs * unitsPerOne := by
      have habs := congrArg Int.natAbs h
      rw [Int.natAbs_mul, Int.natAbs_natCast] at habs
      rw [← habs, key]
      split
      · rw [Int.natAbs_neg, Int.natAbs_natCast]
      · rw [Int.natAbs_natCast]
    have hintegral : x.isIntegral = true := by simp [Double.isIntegral, hmagnitude]
    have hpos : (unitsPerOne : Int) ≠ 0 := Int.natCast_ne_zero.mpr unitsPerOne_pos.ne'
    rw [key_of_isIntegral hintegral] at h
    exact ⟨hintegral, Int.eq_of_mul_eq_mul_right hpos h⟩
  · rintro ⟨hintegral, rfl⟩
    exact key_of_isIntegral hintegral

theorem natAbs_truncate (x : Double) : x.truncate.natAbs = x.magnitude / unitsPerOne := by
  simp only [Double.truncate]
  split
  · rw [Int.natAbs_neg, Int.natAbs_natCast]
  · rw [Int.natAbs_natCast]

end

end Double

/-! ## Digits -/

theorem digitsValue_toDigits (n : Nat) : digitsValue (Nat.toDigits 10 n) = n := by
  rw [digitsValue, ← Nat.ofDigitChars_eq_foldl, Nat.ofDigitChars_ten_toDigits]

end Distill

import Distill.Json.Reader
import Distill.Proofs.Number.Integral

/-!
# Bounds that rounding keeps

Rounding is monotone, so what is at most a power of ten that is a double stays at most that power,
whatever is rounded: integers, sums, products, quotients, and numbers that are scaled by powers of
ten. In the same way what is at least one stays at least one.

## Main definitions

* `Double.AtMost` — numbers that are not negative and at most a power of ten.

## Main statements

* `Double.exists_ofRatio_le` — rounding keeps a bound that is a double.
* `Double.unitsPerOne_le_of_ofRatio` — rounding keeps one as a bound from below.
* `Elapsed.atMost_toDouble` — measured spans of time.
* `Number.exists_scale` — numbers that are scaled.
-/

namespace Distill

namespace Double

variable {x y : Double} {num den n a b k : Nat}

/-- The number is not negative and at most `10 ^ k`. -/
structure AtMost (x : Double) (k : Nat) : Prop where
  positive : x.neg = false
  magnitude_le : x.magnitude ≤ 10 ^ k * unitsPerOne

theorem AtMost.mono (h : x.AtMost a) (hab : a ≤ b) : x.AtMost b :=
  ⟨h.positive, h.magnitude_le.trans
    (Nat.mul_le_mul_right _ (Nat.pow_le_pow_right (by decide) hab))⟩

theorem atMost_zero (k : Nat) : (zero false).AtMost k := ⟨rfl, by simp [zero, magnitude]⟩

/-- A quotient that is at most a natural is rounded to at most this natural. -/
theorem roundDiv_le (hden : 0 < den) (h : num ≤ den * n) : roundDiv num den ≤ n := by
  have hle : num / den ≤ n := (Nat.div_le_div_right h).trans_eq (Nat.mul_div_cancel_left n hden)
  rw [roundDiv]
  split
  · next hup =>
    -- Something is left of the number, which the bound has not.
    by_contra hgt
    have hq : num / den = n := by omega
    have hmod : num % den = 0 := by
      have hsplit := Nat.div_add_mod num den
      rw [hq] at hsplit
      omega
    simp [hmod] at hup
    omega
  · exact hle

/-- **Rounding keeps a bound that is a double.** -/
theorem exists_ofRatio_le {mant shift : Nat} (hden : 0 < den) (hmant : mant < 2 ^ 53)
    (hshift : shift ≤ 2045) (h : num * unitsPerOne ≤ den * (mant * 2 ^ shift)) :
    ∃ y, ofRatio false num den = some y ∧ y.neg = false ∧ y.magnitude ≤ mant * 2 ^ shift := by
  simp only [ofRatio]
  generalize num * unitsPerOne = scaled at h ⊢
  -- The shift that is chosen is no greater than that of the bound.
  have hlog : (scaled / den).log2 + 1 - 53 ≤ shift := by
    have hquotient : scaled / den ≤ mant * 2 ^ shift :=
      (Nat.div_le_div_right h).trans_eq (Nat.mul_div_cancel_left _ hden)
    rcases Nat.eq_zero_or_pos (scaled / den) with hzero | hpos
    · rw [hzero]
      simp
    · have hlt : scaled / den < 2 ^ (53 + shift) := by
        refine hquotient.trans_lt ?_
        rw [Nat.pow_add]
        exact Nat.mul_lt_mul_of_pos_right hmant (Nat.two_pow_pos shift)
      have hbits := (Nat.log2_lt hpos.ne').mpr hlt
      omega
  generalize (scaled / den).log2 + 1 - 53 = low at hlog ⊢
  obtain ⟨up, rfl⟩ := Nat.exists_eq_add_of_le hlog
  -- In steps of the chosen size the bound is a natural.
  have hround : roundDiv scaled (den * Nat.pow 2 low) ≤ mant * 2 ^ up := by
    refine roundDiv_le (Nat.mul_pos hden (Nat.two_pow_pos low)) (h.trans_eq ?_)
    simp only [Nat.pow_eq, Nat.pow_add]
    ring
  generalize roundDiv scaled (den * Nat.pow 2 low) = rounded at hround ⊢
  have hmagnitude : rounded * 2 ^ low ≤ mant * 2 ^ (low + up) := by
    calc rounded * 2 ^ low ≤ mant * 2 ^ up * 2 ^ low := Nat.mul_le_mul_right _ hround
      _ = mant * 2 ^ (low + up) := by rw [Nat.pow_add]; ring
  by_cases hfull : rounded = Nat.pow 2 53
  · have hlt : low < low + up := by
      by_contra hge
      obtain rfl : up = 0 := by omega
      simp only [Nat.pow_zero, Nat.mul_one] at hround
      simp only [Nat.pow_eq] at hfull
      omega
    refine ⟨⟨false, Nat.pow 2 52, low + 1⟩, ?_, rfl, ?_⟩
    · simp only [if_pos hfull]
      rw [if_pos (by omega)]
    · refine le_trans (le_of_eq ?_) hmagnitude
      rw [magnitude, hfull]
      calc Nat.pow 2 52 * Nat.pow 2 (low + 1) = Nat.pow 2 52 * (2 * 2 ^ low) :=
            congrArg (Nat.pow 2 52 * ·) Nat.pow_succ'
        _ = Nat.pow 2 53 * 2 ^ low := (Nat.mul_assoc ..).symm
  · refine ⟨⟨false, rounded, low⟩, ?_, rfl, hmagnitude⟩
    simp only [if_neg hfull]
    rw [if_pos (by omega)]

/-- **Rounding keeps a power of ten as a bound,** if it is a double. -/
theorem exists_ofRatio_atMost (hk : k ≤ 22) (hden : 0 < den) (h : num ≤ den * 10 ^ k) :
    ∃ y, ofRatio false num den = some y ∧ y.AtMost k := by
  obtain ⟨s, hs⟩ : ∃ s, s + 0 = 1074 := ⟨1074, rfl⟩
  have hshift : k + s ≤ 2045 := by omega
  have hunits : 10 ^ k * unitsPerOne = 5 ^ k * 2 ^ (k + s) := by
    rw [unitsPerOne_eq hs, Nat.pow_add 2 k s, show 10 = 5 * 2 from rfl, Nat.mul_pow, Nat.pow_zero,
      Nat.mul_one, Nat.mul_assoc]
  have hmant : 5 ^ k < 2 ^ 53 :=
    (Nat.pow_le_pow_right (by decide) hk).trans_lt (by decide)
  have hbound : num * unitsPerOne ≤ den * (5 ^ k * 2 ^ (k + s)) := by
    rw [← hunits, ← Nat.mul_assoc]
    exact Nat.mul_le_mul_right unitsPerOne h
  obtain ⟨y, hy, hneg, hmagnitude⟩ := exists_ofRatio_le hden hmant hshift hbound
  exact ⟨y, hy, hneg, hmagnitude.trans_eq hunits.symm⟩

theorem div_le_roundDiv (num den : Nat) : num / den ≤ roundDiv num den := by
  rw [roundDiv]
  split
  · exact Nat.le_succ _
  · exact Nat.le_refl _

/-- **Rounding keeps one as a bound from below.** -/
theorem unitsPerOne_le_of_ofRatio {neg : Bool} (hden : 0 < den) (h : den ≤ num)
    (hy : ofRatio neg num den = some y) : unitsPerOne ≤ y.magnitude := by
  obtain ⟨s, hs⟩ : ∃ s, s + 0 = 1074 := ⟨1074, rfl⟩
  have hunits : unitsPerOne = 2 ^ s := by rw [unitsPerOne_eq hs, Nat.pow_zero, Nat.mul_one]
  have hquotient : 2 ^ s ≤ num * unitsPerOne / den := by
    rw [← hunits, Nat.le_div_iff_mul_le hden, Nat.mul_comm]
    exact Nat.mul_le_mul_right _ h
  simp only [ofRatio] at hy
  generalize num * unitsPerOne = scaled at hquotient hy
  have hpos : scaled / den ≠ 0 := (Nat.two_pow_pos s |>.trans_le hquotient).ne'
  have hlog : s ≤ (scaled / den).log2 := (Nat.le_log2 hpos).mpr hquotient
  obtain ⟨low, hlow⟩ : ∃ low, (scaled / den).log2 = 52 + low :=
    ⟨(scaled / den).log2 - 52, by omega⟩
  have hshift : (scaled / den).log2 + 1 - 53 = low := by omega
  rw [hshift] at hy
  -- The leading digit of the quotient is the leading digit of what is rounded.
  have hround : 2 ^ 52 ≤ roundDiv scaled (den * Nat.pow 2 low) := by
    refine Nat.le_trans ?_ (div_le_roundDiv _ _)
    rw [← Nat.div_div_eq_div_mul]
    refine (Nat.le_div_iff_mul_le (Nat.two_pow_pos low)).mpr ?_
    calc 2 ^ 52 * Nat.pow 2 low = 2 ^ (scaled / den).log2 := by rw [hlow, Nat.pow_add]; rfl
      _ ≤ scaled / den := Nat.log2_self_le hpos
  have hleast : unitsPerOne ≤ 2 ^ 52 * 2 ^ low := by
    rw [hunits, ← Nat.pow_add, ← hlow]
    exact Nat.pow_le_pow_right (by decide) hlog
  generalize roundDiv scaled (den * Nat.pow 2 low) = rounded at hround hy
  by_cases hfull : rounded = Nat.pow 2 53
  · rw [if_pos hfull] at hy
    rw [← Option.some.inj (Option.ite_none_right_eq_some.mp hy).2]
    exact hleast.trans
      (Nat.mul_le_mul_left _ (Nat.pow_le_pow_right (by decide) (Nat.le_succ low)))
  · rw [if_neg hfull] at hy
    rw [← Option.some.inj (Option.ite_none_right_eq_some.mp hy).2]
    exact hleast.trans (Nat.mul_le_mul_right _ hround)

/-! ## Arithmetic -/

theorem atMost_ofInt (hk : k ≤ 22) (h : n ≤ 10 ^ k) : (ofInt n).AtMost k := by
  obtain ⟨y, hy, hle⟩ := exists_ofRatio_atMost hk Nat.one_pos (h.trans_eq (Nat.one_mul _).symm)
  have hneg : decide ((n : Int) < 0) = false := decide_eq_false (by omega)
  rwa [ofInt, hneg, Int.natAbs_natCast, hy]

theorem exists_add (hk : k ≤ 22) (hx : x.neg = false) (hy : y.neg = false)
    (h : x.magnitude + y.magnitude ≤ 10 ^ k * unitsPerOne) :
    ∃ z, x.add y = some z ∧ z.AtMost k := by
  have hkey : x.key + y.key = ((x.magnitude + y.magnitude : Nat) : Int) := by
    simp [key, hx, hy]
  have hneg : (if x.key + y.key = 0 then x.neg && y.neg else decide (x.key + y.key < 0)) =
      false := by
    rw [hkey, hx]
    split
    · rfl
    · exact decide_eq_false (by omega)
  have hadd : x.add y = ofRatio false (x.magnitude + y.magnitude) unitsPerOne := by
    rw [← Int.natAbs_natCast (x.magnitude + y.magnitude), ← hkey, ← hneg]
    rfl
  rw [hadd]
  exact exists_ofRatio_atMost hk unitsPerOne_pos (h.trans_eq (Nat.mul_comm ..))

theorem exists_mul (hk : a + b ≤ 22) (hx : x.AtMost a) (hy : y.AtMost b) :
    ∃ z, x.mul y = some z ∧ z.AtMost (a + b) := by
  have hmul : x.mul y = ofRatio false (x.magnitude * y.magnitude) (unitsPerOne * unitsPerOne) := by
    rw [mul, hx.positive, hy.positive, bne_self_eq_false]
  rw [hmul]
  refine exists_ofRatio_atMost hk (Nat.mul_pos unitsPerOne_pos unitsPerOne_pos) ?_
  calc x.magnitude * y.magnitude ≤ 10 ^ a * unitsPerOne * (10 ^ b * unitsPerOne) :=
        Nat.mul_le_mul hx.magnitude_le hy.magnitude_le
    _ = 10 ^ a * 10 ^ b * (unitsPerOne * unitsPerOne) := Nat.mul_mul_mul_comm ..
    _ = unitsPerOne * unitsPerOne * 10 ^ (a + b) := by rw [← Nat.pow_add 10, Nat.mul_comm]

/-- A number is not made greater by one that is at least one. -/
theorem exists_div (hk : a ≤ 22) (hx : x.AtMost a) (hy : y.neg = false)
    (hone : unitsPerOne ≤ y.magnitude) : ∃ z, x.div y = some z ∧ z.AtMost a := by
  have hdiv : x.div y = ofRatio false x.magnitude y.magnitude := by
    rw [div, hx.positive, hy, bne_self_eq_false]
  rw [hdiv]
  refine exists_ofRatio_atMost hk (unitsPerOne_pos.trans_le hone) ?_
  calc x.magnitude ≤ 10 ^ a * unitsPerOne := hx.magnitude_le
    _ ≤ 10 ^ a * y.magnitude := Nat.mul_le_mul_left _ hone
    _ = y.magnitude * 10 ^ a := Nat.mul_comm ..

end Double

/-- **A measured span of time** is at most `10 ^ 21` seconds. -/
theorem Elapsed.atMost_toDouble (t : Elapsed) : t.toDouble.AtMost 21 := by
  have hseconds : (Double.ofInt t.seconds).AtMost 20 :=
    Double.atMost_ofInt (by decide) (t.seconds_lt.le.trans (by decide))
  have hnanoseconds : (Double.ofInt t.nanoseconds).AtMost 9 :=
    Double.atMost_ofInt (by decide) t.nanoseconds_lt.le
  have hcast : ((1000000000 : Nat) : Int) = 1000000000 := rfl
  have hbillion : (Double.ofInt 1000000000).IsNat 1000000000 :=
    hcast ▸ Double.isNat_ofInt (by decide)
  have hone : Double.unitsPerOne ≤ (Double.ofInt 1000000000).magnitude := by
    rw [hbillion.magnitude_eq]
    exact Nat.le_mul_of_pos_left _ (by decide)
  obtain ⟨fraction, hfraction, hbound⟩ :=
    Double.exists_div (by decide) hnanoseconds hbillion.positive hone
  obtain ⟨sum, hsum, hle⟩ := Double.exists_add (k := 21) (by decide) hseconds.positive
    hbound.positive (by
      calc _ ≤ 10 ^ 20 * Double.unitsPerOne + 10 ^ 9 * Double.unitsPerOne :=
            Nat.add_le_add hseconds.magnitude_le hbound.magnitude_le
        _ = (10 ^ 20 + 10 ^ 9) * Double.unitsPerOne := (Nat.add_mul ..).symm
        _ ≤ 10 ^ 21 * Double.unitsPerOne := Nat.mul_le_mul_right _ (by decide))
  have heq : t.toDouble = sum := by
    rw [toDouble, hfraction, Option.bind_some, hsum, Option.getD_some]
  rw [heq]
  exact hle

/-! ## Powers of ten -/

namespace Number

variable {x : Double} {a k steps : Nat} {e : Int}

theorem ofDecimal_powerOfTen (h : k ≤ 308) :
    Double.ofDecimal false ⟨1, k⟩ = Double.ofRatio false (10 ^ k) 1 := by
  have hdigits : (Decimal.digits 1).length = 1 := by decide
  simp only [Double.ofDecimal, hdigits]
  rw [if_neg (by decide), if_neg (by omega), if_neg (by omega), Nat.one_mul, Int.toNat_natCast]
  simp

/-- A power of ten is a number and at least one. -/
theorem one_le_powerOfTen (h : k ≤ 308) :
    (powerOfTen k).neg = false ∧ Double.unitsPerOne ≤ (powerOfTen k).magnitude := by
  obtain ⟨s, hs⟩ : ∃ s, s + 0 = 1074 := ⟨1074, rfl⟩
  -- The bounds are variables, so that the powers are not evaluated.
  obtain ⟨top, mant, shift, htop, hmant, hshift, hlarge⟩ : ∃ top mant shift,
      308 = top ∧ mant < 2 ^ 53 ∧ shift = 971 ∧ 10 ^ top ≤ mant * 2 ^ shift :=
    ⟨308, 2 ^ 53 - 1, 971, rfl, by decide, rfl, by decide +kernel⟩
  have hle : 10 ^ k ≤ mant * 2 ^ shift :=
    (Nat.pow_le_pow_right (by decide) (htop ▸ h)).trans hlarge
  have hbound : 10 ^ k * Double.unitsPerOne ≤ 1 * (mant * 2 ^ (shift + s)) := by
    rw [Double.unitsPerOne_eq hs, Nat.pow_zero, Nat.mul_one, Nat.one_mul, Nat.pow_add,
      ← Nat.mul_assoc]
    exact Nat.mul_le_mul_right _ hle
  obtain ⟨y, hy, hneg, -⟩ :=
    Double.exists_ofRatio_le Nat.one_pos hmant (by omega) hbound
  have hpower : powerOfTen k = y := by
    rw [powerOfTen, ofDecimal_powerOfTen h, hy, Option.getD_some]
  rw [hpower]
  exact ⟨hneg, Double.unitsPerOne_le_of_ofRatio Nat.one_pos (Nat.one_le_pow _ _ (by decide)) hy⟩

theorem atMost_powerOfTen (h : k ≤ 22) : (powerOfTen k).AtMost k := by
  obtain ⟨y, hy, hle⟩ := Double.exists_ofRatio_atMost h Nat.one_pos (Nat.one_mul (10 ^ k)).ge
  have hpower : powerOfTen k = y := by
    rw [powerOfTen, ofDecimal_powerOfTen (by omega), hy, Option.getD_some]
  rw [hpower]
  exact hle

/-- **A number is made smaller by a negative power of ten.** -/
theorem exists_scale_of_neg (ha : a ≤ 22) (hx : x.AtMost a) (he : e < 0) :
    ∃ y, scale steps x e = some y ∧ y.AtMost a := by
  induction steps generalizing x e with
  | zero => exact ⟨x, rfl, hx⟩
  | succ steps ih =>
      rw [scale]
      by_cases hsmall : e.natAbs ≤ 308
      · obtain ⟨hneg, hone⟩ := one_le_powerOfTen hsmall
        rw [if_pos hsmall, if_neg (by omega)]
        exact Double.exists_div ha hx hneg hone
      · rw [if_neg hsmall]
        by_cases hmant : x.mant = 0
        · rw [if_pos hmant]
          exact ⟨x, rfl, hx⟩
        · obtain ⟨hneg, hone⟩ := one_le_powerOfTen (Nat.le_refl 308)
          obtain ⟨y, hy, hle⟩ := Double.exists_div ha hx hneg hone
          rw [if_neg hmant, if_neg (by omega), hy, Option.bind_some]
          exact ih hle (by omega)

/-- A number is made greater by a power of ten, up to the product of the bounds. -/
theorem exists_scale_of_nonneg (steps : Nat) (ha : a + k ≤ 22) (hx : x.AtMost a) :
    ∃ y, scale (steps + 1) x k = some y ∧ y.AtMost (a + k) := by
  rw [scale, Int.natAbs_natCast, if_pos (by omega), if_pos (Int.natCast_nonneg k)]
  exact Double.exists_mul ha hx (atMost_powerOfTen (by omega))

/-- A significand and an exponent that are small enough for a bound of `10 ^ 21`. -/
structure Scaled.Small (s : Scaled) : Prop where
  significand_le : s.significand ≤ 10 ^ 21
  exponent : ∀ k : Nat, s.exponent = k → k ≤ 21 ∧ s.significand ≤ 10 ^ (21 - k)

/-- **A significand that is scaled.** -/
theorem exists_toDouble? {s : Scaled} (h : s.Small) :
    ∃ y, s.toDouble? false = some y ∧ y.AtMost 21 := by
  have hfound : ∃ y, scale 4 (Double.ofInt s.significand) s.exponent = some y ∧ y.AtMost 21 := by
    cases he : s.exponent with
    | negSucc k =>
        exact exists_scale_of_neg (by decide) (Double.atMost_ofInt (by decide) h.significand_le)
          (Int.negSucc_lt_zero k)
    | ofNat k =>
        obtain ⟨hk, hle⟩ := h.exponent k he
        obtain ⟨y, hy, hbound⟩ := exists_scale_of_nonneg (k := k) 3 (by omega)
          (Double.atMost_ofInt (by omega) hle)
        exact ⟨y, hy, hbound.mono (by omega)⟩
  obtain ⟨y, hy, hle⟩ := hfound
  rw [Scaled.toDouble?, hy]
  exact ⟨_, rfl, rfl, hle.magnitude_le⟩

end Number

end Distill

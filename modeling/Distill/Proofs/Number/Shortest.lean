import Distill.Proofs.Number.Rounding

/-!
# Bounds of shortest digits

The digits that are found for a double have a coefficient of at most seventeen places; and as powers
of ten are on all coarser grids, they are at most a power of ten if the double is.

## Main definitions

* `Decimal.Small` — decimals with these bounds.

## Main statements

* `Double.small_shortest` — the shortest digits of a double.
-/

namespace Distill

variable {x : Double} {d : Decimal} {c k n : Nat} {e position : Int}

/-- A decimal with a coefficient of at most seventeen places, and at most `10 ^ 21`. -/
structure Decimal.Small (d : Decimal) : Prop where
  coeff_le : d.coeff ≤ 10 ^ 17
  exponent : ∀ k : Nat, d.exponent = k → k ≤ 21 ∧ d.coeff ≤ 10 ^ (21 - k)

theorem Decimal.Small.exponent_le (h : d.Small) : d.exponent ≤ 21 := by
  by_contra hgt
  obtain ⟨k, hk⟩ := Int.eq_ofNat_of_zero_le (by omega : 0 ≤ d.exponent)
  have hle := (h.exponent k hk).1
  omega

/-- Zeros that are moved to the exponent change neither bound. -/
theorem Decimal.Small.dropZeros (h : d.Small) (fuel : Nat) : (d.dropZeros fuel).Small := by
  induction fuel generalizing d with
  | zero => exact h
  | succ fuel ih =>
      rw [Decimal.dropZeros]
      split
      · next hzero =>
        simp only [ne_eq, Bool.and_eq_true, decide_eq_true_eq] at hzero
        refine ih ⟨(Nat.div_le_self _ _).trans h.coeff_le, fun k hk => ?_⟩
        cases k with
        | zero =>
            refine ⟨by decide, ?_⟩
            exact (Nat.div_le_self _ _).trans (h.coeff_le.trans (by decide))
        | succ k =>
            obtain ⟨hle, hcoeff⟩ := h.exponent k (by push_cast at hk; omega)
            -- The coefficient has a zero at its end, so the exponent is not yet the greatest.
            have hlt : k < 21 := by
              by_contra hge
              obtain rfl : k = 21 := by omega
              omega
            refine ⟨hlt, Nat.div_le_of_le_mul ?_⟩
            have hpow : 10 ^ (21 - k) = 10 * 10 ^ (21 - (k + 1)) := by
              rw [show 21 - k = 21 - (k + 1) + 1 by omega, Nat.pow_succ']
            exact hcoeff.trans_eq hpow
      · exact h

namespace Double

/-- A natural has as many digits as it needs. -/
theorem lt_pow_length_digits (n : Nat) : n < 10 ^ (Decimal.digits n).length := by
  rw [Decimal.digits]
  induction n using Nat.strongRecOn with
  | ind n ih =>
      rw [Nat.toDigits_eq_if (by decide)]
      split
      · next hsmall => exact hsmall
      · next hlarge =>
        have hrest := ih (n / 10) (Nat.div_lt_self (by omega) (by decide))
        rw [List.length_append, List.length_singleton, Nat.pow_succ]
        omega

/-- A number on the grid is its own neighbour; any other one has a neighbour on each side. -/
theorem coeff_onGrid (h : x.onGrid e = some d) {value unit : Nat}
    (hvalue : x.magnitude * Nat.pow 10 (-e).toNat = value)
    (hunit : unitsPerOne * Nat.pow 10 e.toNat = unit) :
    d.exponent = e ∧ (d.coeff = value / unit ∨ d.coeff = value / unit + 1 ∧ ¬ unit ∣ value) := by
  have hunit_pos : 0 < unit :=
    hunit ▸ Nat.mul_pos unitsPerOne_pos (Nat.pow_pos (by decide))
  have hvalue_pos : x.mant % 2 ≠ 0 → 0 < value := by
    intro hodd
    rw [← hvalue, magnitude]
    exact Nat.mul_pos (Nat.mul_pos (by omega) (Nat.two_pow_pos _)) (Nat.pow_pos (by decide))
  have hstep : 0 < Nat.pow 2 x.shift * Nat.pow 10 (-e).toNat :=
    Nat.mul_pos (Nat.two_pow_pos _) (Nat.pow_pos (by decide))
  have hbelow : 0 < if (decide (x.mant = Nat.pow 2 52) && decide (x.shift ≠ 0)) = true then 1
      else 2 := by
    split <;> decide
  simp only [onGrid, hvalue, hunit] at h
  generalize Nat.pow 2 x.shift * Nat.pow 10 (-e).toNat = step at h hstep
  generalize (if (decide (x.mant = Nat.pow 2 52) && decide (x.shift ≠ 0)) = true then 1
    else 2) = below at h hbelow
  by_cases hdvd : unit ∣ value
  · have hexact : value / unit * unit = value := Nat.div_mul_cancel hdvd
    have hreads : (if x.mant % 2 = 0 then
        decide (4 * value - below * step ≤ 4 * (value / unit) * unit) &&
          decide (4 * (value / unit) * unit ≤ 4 * value + 2 * step)
      else
        decide (4 * value - below * step < 4 * (value / unit) * unit) &&
          decide (4 * (value / unit) * unit < 4 * value + 2 * step)) = true := by
      rw [Nat.mul_assoc 4, hexact]
      have hpos : 0 < below * step := Nat.mul_pos hbelow hstep
      split
      · simp only [Bool.and_eq_true, decide_eq_true_eq]
        omega
      · next hodd =>
        have := hvalue_pos hodd
        simp only [Bool.and_eq_true, decide_eq_true_eq]
        omega
    have hnear : value - value / unit * unit < (value / unit + 1) * unit - value := by
      rw [Nat.add_mul, hexact]
      omega
    rw [hreads] at h
    split at h
    · obtain rfl := Option.some.inj h
      exact ⟨rfl, Or.inl (by simp [hnear])⟩
    · obtain rfl := Option.some.inj h
      exact ⟨rfl, Or.inl rfl⟩
    · next hfalse _ => simp at hfalse
    · next hfalse _ => simp at hfalse
  · split at h
    · obtain rfl := Option.some.inj h
      refine ⟨rfl, ?_⟩
      simp only
      split
      · exact Or.inl rfl
      · exact Or.inr ⟨rfl, hdvd⟩
    · obtain rfl := Option.some.inj h
      exact ⟨rfl, Or.inl rfl⟩
    · obtain rfl := Option.some.inj h
      exact ⟨rfl, Or.inr ⟨rfl, hdvd⟩⟩
    · cases h

/-- A bound that is itself on the grid holds of both neighbours. -/
theorem coeff_onGrid_le (h : x.onGrid e = some d)
    (hle : x.magnitude * Nat.pow 10 (-e).toNat ≤ n * (unitsPerOne * Nat.pow 10 e.toNat)) :
    d.coeff ≤ n := by
  obtain ⟨-, hcoeff⟩ := coeff_onGrid h rfl rfl
  have hunit : 0 < unitsPerOne * Nat.pow 10 e.toNat :=
    Nat.mul_pos unitsPerOne_pos (Nat.pow_pos (by decide))
  generalize x.magnitude * Nat.pow 10 (-e).toNat = value at hcoeff hle
  generalize unitsPerOne * Nat.pow 10 e.toNat = unit at hcoeff hle hunit
  rcases hcoeff with hcoeff | ⟨hcoeff, hdvd⟩
  · rw [hcoeff]
    exact Nat.div_le_of_le_mul (hle.trans_eq (Nat.mul_comm ..))
  · rw [hcoeff, Nat.succ_le_iff, Nat.div_lt_iff_lt_mul hunit]
    refine lt_of_le_of_ne hle fun heq => hdvd ?_
    rw [heq]
    exact Nat.dvd_mul_left ..

/-- The number of digits before the point, as a natural: the count starts 340 places behind it. -/
theorem exists_pointPosition (x : Double) : ∃ (places : Nat) (digits : Nat), places = 340 ∧
    x.pointPosition = (digits : Int) - places ∧
    x.magnitude * 10 ^ places < unitsPerOne * 10 ^ digits ∧
    ∀ a, x.AtMost a → digits ≤ a + places + 1 := by
  obtain ⟨places, hplaces⟩ : ∃ places, places = 340 := ⟨_, rfl⟩
  have hlt := lt_pow_length_digits (x.magnitude * Nat.pow 10 places / unitsPerOne)
  refine ⟨places, (Decimal.digits (x.magnitude * Nat.pow 10 places / unitsPerOne)).length, hplaces,
    ?_, ?_, fun a h => ?_⟩
  · rw [pointPosition, ← hplaces, hplaces]
    rfl
  · rw [Nat.div_lt_iff_lt_mul unitsPerOne_pos] at hlt
    exact hlt.trans_eq (Nat.mul_comm ..)
  · have hle : x.magnitude * Nat.pow 10 places / unitsPerOne ≤ 10 ^ (a + places) := by
      refine Nat.div_le_of_le_mul ?_
      calc x.magnitude * Nat.pow 10 places ≤ 10 ^ a * unitsPerOne * 10 ^ places :=
            Nat.mul_le_mul_right _ h.magnitude_le
        _ = unitsPerOne * 10 ^ (a + places) := by
            rw [Nat.pow_add, Nat.mul_comm (10 ^ a), Nat.mul_assoc]
    exact Nat.toDigits_length 10 _ _ (Nat.succ_pos _)
      (hle.trans_lt (Nat.pow_lt_pow_right (by decide) (Nat.lt_succ_self _)))

/-- **A coefficient on the grid of `n` significant digits** is at most `10 ^ n`. -/
theorem coeff_onGrid_le_pow (h : x.onGrid (x.pointPosition - n) = some d) : d.coeff ≤ 10 ^ n := by
  obtain ⟨places, digits, -, hposition, hlt, -⟩ := x.exists_pointPosition
  rw [hposition] at h
  refine coeff_onGrid_le h ?_
  simp only [Nat.pow_eq]
  rcases Nat.le_total (places + n) digits with hge | hle
  · obtain ⟨up, rfl⟩ := Nat.exists_eq_add_of_le hge
    have hup : ((places + n + up : Nat) : Int) - places - n = up := by omega
    have hcancel : x.magnitude ≤ unitsPerOne * 10 ^ (n + up) := by
      refine Nat.le_of_mul_le_mul_right (hlt.le.trans_eq ?_) (Nat.pow_pos (n := places) (by decide))
      rw [Nat.mul_assoc, ← Nat.pow_add, Nat.add_comm (n + up), Nat.add_assoc]
    rw [hup, Int.toNat_neg_natCast, Int.toNat_natCast, Nat.pow_zero, Nat.mul_one]
    refine hcancel.trans_eq ?_
    rw [Nat.pow_add, Nat.mul_left_comm]
  · obtain ⟨down, hdown⟩ := Nat.exists_eq_add_of_le hle
    have hneg : (digits : Int) - places - n = -(down : Int) := by omega
    rw [hneg, Int.neg_neg, Int.toNat_natCast, Int.toNat_neg_natCast, Nat.pow_zero, Nat.mul_one]
    refine Nat.le_of_mul_le_mul_right ?_ (Nat.pow_pos (n := places) (by decide : 0 < 10))
    calc x.magnitude * 10 ^ down * 10 ^ places = x.magnitude * 10 ^ places * 10 ^ down :=
          Nat.mul_right_comm ..
      _ ≤ unitsPerOne * 10 ^ digits * 10 ^ down := Nat.mul_le_mul_right _ hlt.le
      _ = 10 ^ n * unitsPerOne * 10 ^ places := by
          rw [Nat.mul_assoc, ← Nat.pow_add, ← hdown, Nat.add_comm places, Nat.pow_add,
            ← Nat.mul_assoc, Nat.mul_comm unitsPerOne]

theorem small_onGrid (hx : x.AtMost 21) (hn : n ≤ 17) (hpos : 0 < n)
    (h : x.onGrid (x.pointPosition - n) = some d) : d.Small := by
  refine ⟨(coeff_onGrid_le_pow h).trans (Nat.pow_le_pow_right (by decide) hn), fun k hk => ?_⟩
  obtain ⟨places, digits, -, hposition, -, hdigits⟩ := x.exists_pointPosition
  have hexponent := (coeff_onGrid h rfl rfl).1
  have hle := hdigits 21 hx
  have hk21 : k ≤ 21 := by omega
  refine ⟨hk21, ?_⟩
  rw [← hexponent, hk] at h
  refine coeff_onGrid_le h ?_
  rw [Int.toNat_neg_natCast, Int.toNat_natCast]
  simp only [Nat.pow_eq, Nat.pow_zero, Nat.mul_one]
  refine hx.magnitude_le.trans_eq ?_
  rw [Nat.mul_left_comm, ← Nat.pow_add, Nat.sub_add_cancel hk21, Nat.mul_comm]

theorem small_of_shortestFrom (hx : x.AtMost 21) {fuel : Nat} (hpos : 0 < n)
    (hn : n + fuel ≤ 18) (h : x.shortestFrom x.pointPosition fuel n = some d) : d.Small := by
  induction fuel generalizing n with
  | zero => cases h
  | succ fuel ih =>
      rw [shortestFrom, Option.or_eq_some_iff] at h
      rcases h with h | ⟨-, h⟩
      · exact small_onGrid hx (by omega) hpos h
      · exact ih (Nat.succ_pos n) (by omega) h

/-- **The shortest digits of a number** with a bound. -/
theorem small_shortest (hx : x.AtMost 21) : x.shortest.Small := by
  have hzero : (⟨0, 0⟩ : Decimal).Small :=
    ⟨Nat.zero_le _, fun k hk => ⟨by simp at hk; omega, Nat.zero_le _⟩⟩
  rw [shortest]
  split
  · exact hzero
  · refine Decimal.Small.dropZeros ?_ 20
    cases h : x.shortestFrom x.pointPosition 17 1 with
    | none => exact hzero
    | some d => exact small_of_shortestFrom hx Nat.one_pos (by decide) h

end Double

end Distill

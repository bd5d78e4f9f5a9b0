import Distill.Proofs.Json.Locality
import Distill.Proofs.Number.Shortest
import Mathlib.Data.List.Basic
import Mathlib.Data.List.TakeWhile

/-!
# Numbers that are printed and read

Naturals of 64 bits are read as they were printed. A double need not be: its digits are gathered
into a significand that is rounded before it is scaled. But a number up to `10 ^ 21` is always read
as some number up to `10 ^ 21`, so what was read can be printed and read again.

## Main definitions

* `Number.withDigits` — a natural with further digits.

## Main statements

* `Number.readsBack_natCast` — naturals of 64 bits.
* `Number.exists_read_real` — doubles up to a bound.
-/

namespace Distill

/-! ## Digits -/

/-- The digits of a positive number do not start with a zero. -/
theorem head?_toDigits_ne_zero {n : Nat} (hn : 0 < n) : (Nat.toDigits 10 n).head? ≠ some '0' := by
  induction n using Nat.strongRecOn with
  | ind n ih =>
      rw [Nat.toDigits_eq_if (by decide)]
      split
      · next hsmall =>
        have hdigit : ∀ d < 10, 0 < d → [Nat.digitChar d].head? ≠ some '0' := by decide
        exact hdigit n hsmall hn
      · next hlarge =>
        rw [List.head?_append_of_ne_nil _ Nat.toDigits_ne_nil]
        exact ih (n / 10) (Nat.div_lt_self hn (by decide)) (by omega)

namespace Number

variable {ds fs : List Char} {m n k : Nat} {e : Int}

/-- The number with further digits at its end. -/
def withDigits (n : Nat) (ds : List Char) : Nat :=
  ds.foldl (fun n c => 10 * n + (c.toNat - '0'.toNat)) n

theorem withDigits_append : withDigits n (ds ++ fs) = withDigits (withDigits n ds) fs :=
  List.foldl_append

theorem withDigits_toDigits (n : Nat) : withDigits 0 (Nat.toDigits 10 n) = n :=
  digitsValue_toDigits n

theorem withDigits_zeros (n k : Nat) : withDigits n (List.replicate k '0') = n * 10 ^ k := by
  induction k generalizing n with
  | zero => simp [withDigits]
  | succ k ih =>
      have hzero : '0'.toNat - '0'.toNat = 0 := rfl
      have hnext : withDigits n (List.replicate (k + 1) '0') =
          withDigits (10 * n) (List.replicate k '0') := by
        rw [withDigits, List.replicate_succ, List.foldl_cons, hzero, Nat.add_zero]
        rfl
      rw [hnext, ih, Nat.pow_succ', Nat.mul_comm 10, Nat.mul_assoc]

/-- Digits only make a number larger. -/
theorem le_withDigits (ds : List Char) (n : Nat) : n ≤ withDigits n ds := by
  induction ds generalizing n with
  | nil => exact Nat.le_refl n
  | cons d ds ih =>
      have hnext : n ≤ 10 * n + (d.toNat - '0'.toNat) := by omega
      exact Nat.le_trans hnext (ih _)

/-- All digits are taken while the significand fits. -/
theorem takeIntegral_of_le (h : withDigits n ds ≤ maxSignificand) :
    takeIntegral n ds = (⟨withDigits n ds, 0⟩, true) := by
  induction ds generalizing n with
  | nil => rfl
  | cons d ds ih =>
      have hnext : 10 * n + digitsValue [d] = 10 * n + (d.toNat - '0'.toNat) := by
        simp [digitsValue]
      rw [takeIntegral]
      simp only [hnext]
      rw [if_neg (Nat.not_lt.mpr (Nat.le_trans (le_withDigits ds _) h))]
      exact ih h

/-- All digits of a fraction are taken while the significand fits. -/
theorem takeFraction_of_le (h : withDigits n ds ≤ maxSignificand) :
    takeFraction ⟨n, e⟩ ds = ⟨withDigits n ds, e - ds.length⟩ := by
  induction ds generalizing n e with
  | nil => simp [takeFraction, withDigits]
  | cons d ds ih =>
      have hnext : 10 * n + digitsValue [d] = 10 * n + (d.toNat - '0'.toNat) := by
        simp [digitsValue]
      rw [takeFraction]
      simp only [hnext]
      rw [if_neg (Nat.not_lt.mpr (Nat.le_trans (le_withDigits ds _) h)), ih h, List.length_cons,
        Nat.cast_succ, Int.sub_sub, Int.add_comm 1]
      rfl

/-- Digits up to something else. -/
theorem spanDigits_of_digits (hds : ∀ c ∈ ds, c.isDigit = true) (rest : List Char)
    (hrest : ∀ c ∈ rest.head?, c.isDigit = false) : spanDigits (ds ++ rest) = (ds, rest) := by
  have hnil : rest.takeWhile Char.isDigit = [] ∧ rest.dropWhile Char.isDigit = rest := by
    cases rest with
    | nil => exact ⟨rfl, rfl⟩
    | cons c rest =>
        have hc := hrest c rfl
        simp [hc]
  rw [spanDigits, List.takeWhile_append_of_pos hds, List.dropWhile_append_of_pos hds, hnil.1,
    hnil.2, List.append_nil]

theorem isDigit_of_mem_toDigits {c : Char} (hc : c ∈ Nat.toDigits 10 n) : c.isDigit = true :=
  Nat.isDigit_of_mem_toDigits (by decide) (by decide) hc

/-! ## Naturals -/

/-- Digits that a number may start with. -/
structure Leading (ds : List Char) : Prop where
  ne_nil : ds ≠ []
  digits : ∀ c ∈ ds, c.isDigit = true
  head : 1 < ds.length → ds.head? ≠ some '0'

theorem leading_toDigits (n : Nat) : Leading (Nat.toDigits 10 n) where
  ne_nil := Nat.toDigits_ne_nil
  digits := fun _ => isDigit_of_mem_toDigits
  head := by
    intro hlong
    rcases Nat.eq_zero_or_pos n with rfl | hpos
    · simp [Nat.toDigits_zero] at hlong
    · exact head?_toDigits_ne_zero hpos

theorem Leading.not_refused (h : Leading ds) :
    ¬ (ds = [] ∨ (1 < ds.length ∧ ds.head? = some '0')) := by
  rintro (hnil | ⟨hlong, hzero⟩)
  · exact h.ne_nil hnil
  · exact h.head hlong hzero

/-- Zeros may follow, unless the digits are a zero themselves. -/
theorem Leading.append_zeros (h : Leading ds) (hhead : ds.head? ≠ some '0') (k : Nat) :
    Leading (ds ++ List.replicate k '0') where
  ne_nil := by simp [h.ne_nil]
  digits := by
    intro c hc
    rcases List.mem_append.mp hc with hc | hc
    · exact h.digits c hc
    · rw [List.eq_of_mem_replicate hc]
      rfl
  head _ := by rwa [List.head?_append_of_ne_nil _ h.ne_nil]

/-- The first of the digits may stand alone, unless they are a zero themselves. -/
theorem Leading.take (h : Leading ds) (hhead : ds.head? ≠ some '0') {k : Nat} (hk : 0 < k) :
    Leading (ds.take k) where
  ne_nil := by simp [h.ne_nil, hk.ne']
  digits := fun c hc => h.digits c (List.mem_of_mem_take hc)
  head _ := by rwa [List.head?_take, if_neg hk.ne']

/-- A number that starts with a digit has no sign. -/
theorem Leading.read_eq (h : Leading ds) (rest : List Char) :
    read (ds ++ rest) = readUnsigned false (ds ++ rest) := by
  cases ds with
  | nil => exact absurd rfl h.ne_nil
  | cons c cs =>
      have hc := h.digits c (by simp)
      rw [read]
      intro cs' hcs'
      rw [List.cons_append, List.cons.injEq] at hcs'
      simp [hcs'.1] at hc

/-- **A natural of 64 bits is read as it was printed.** -/
theorem readsBack_natCast (hn : n < Nat.pow 2 64) : (Number.int n).ReadsBack := by
  have htext : (Number.int n).text.toList = Nat.toDigits 10 n := by
    have hrepr : (Number.int n).text = toString n := rfl
    rw [hrepr, Nat.toString_eq_ofList_toDigits, String.toList_ofList]
  have hleading := leading_toDigits n
  have hspan := spanDigits_of_digits hleading.digits [] (by simp)
  have htake : takeIntegral 0 (Nat.toDigits 10 n) = (⟨n, 0⟩, true) := by
    rw [takeIntegral_of_le (by rw [withDigits_toDigits]; exact Nat.le_sub_one_of_lt hn),
      withDigits_toDigits]
  have hread := hleading.read_eq []
  rw [List.append_nil] at hspan hread
  rw [ReadsBack, htext, hread, readUnsigned, hspan]
  simp only [List.isEmpty_iff, if_neg hleading.not_refused, htake]
  simp

/-! ## Doubles -/

/-- Digits with a point among them. -/
theorem readUnsigned_point (hds : Leading ds) (hfs : fs ≠ []) (hdigits : ∀ c ∈ fs, c.isDigit = true)
    (rest : List Char) (hrest : ∀ c ∈ rest.head?, c.isDigit = false)
    (hfits : withDigits 0 (ds ++ fs) ≤ maxSignificand) :
    readUnsigned false (ds ++ '.' :: (fs ++ rest)) =
      readExponent false ⟨withDigits 0 (ds ++ fs), -(fs.length : Int)⟩ rest := by
  have hspan := spanDigits_of_digits hds.digits ('.' :: (fs ++ rest)) (by simp)
  rw [withDigits_append] at hfits ⊢
  rw [readUnsigned, hspan]
  simp only [List.isEmpty_iff, if_neg hds.not_refused,
    takeIntegral_of_le ((le_withDigits fs _).trans hfits), spanDigits_of_digits hdigits _ hrest,
    if_neg hfs, takeFraction_of_le hfits, Int.zero_sub]

/-- Digits with an exponent behind them. -/
theorem readUnsigned_exponent (hds : Leading ds) (rest : List Char)
    (hfits : withDigits 0 ds ≤ maxSignificand) :
    readUnsigned false (ds ++ 'e' :: rest) =
      readExponent false ⟨withDigits 0 ds, 0⟩ ('e' :: rest) := by
  have hspan := spanDigits_of_digits hds.digits ('e' :: rest) (by simp)
  rw [readUnsigned, hspan]
  simp only [List.isEmpty_iff, if_neg hds.not_refused, takeIntegral_of_le hfits]
  simp

/-- A significand with an exponent that is printed. -/
theorem exists_readExponent {s : Scaled} (h : Scaled.Small ⟨s.significand, s.exponent + e⟩)
    (he : e ≤ maxExponent) :
    ∃ y, readExponent false s ('e' :: ((if 0 ≤ e then ['+'] else []) ++ (toString e).toList)) =
      some (.real y, []) ∧ y.AtMost 21 := by
  obtain ⟨y, hy, hle⟩ := exists_toDouble? h
  have hspan : ∀ n, spanDigits (Nat.toDigits 10 n) = (Nat.toDigits 10 n, []) := fun n => by
    have hdigits : ∀ c ∈ Nat.toDigits 10 n, c.isDigit = true := fun _ => isDigit_of_mem_toDigits
    simpa using spanDigits_of_digits hdigits [] (by simp)
  have htext : ∀ n, (toString n).toList = Nat.toDigits 10 n := fun n => by
    rw [Nat.toString_eq_ofList_toDigits, String.toList_ofList]
  cases e with
  | ofNat n =>
      have hchars : (toString (Int.ofNat n)).toList = Nat.toDigits 10 n := htext n
      have hn : ¬ maxExponent < n := Nat.not_lt.mpr (Int.ofNat_le.mp he)
      refine ⟨y, ?_, hle⟩
      have hnonneg : (0 : Int) ≤ Int.ofNat n := Int.natCast_nonneg n
      rw [if_pos hnonneg, hchars, readExponent.eq_def]
      simp only [true_or, if_true, List.cons_append, List.nil_append, hspan, List.isEmpty_iff,
        Nat.toDigits_ne_nil, if_false, digitsValue_toDigits, if_neg hn, Bool.false_eq_true]
      have hy' : Scaled.toDouble? false ⟨s.significand, s.exponent + (n : Int)⟩ = some y := hy
      rw [hy', Option.map_some]
  | negSucc n =>
      have hchars : (toString (Int.negSucc n)).toList = '-' :: Nat.toDigits 10 (n + 1) := by
        have hshown : toString (Int.negSucc n) = "-" ++ toString (n + 1) := rfl
        rw [hshown, String.toList_append, htext]
        rfl
      rw [if_neg (Int.not_le.mpr (Int.negSucc_lt_zero n)), hchars, readExponent.eq_def]
      simp only [true_or, if_true, List.nil_append, hspan, List.isEmpty_iff,
        Nat.toDigits_ne_nil, if_false, digitsValue_toDigits, Bool.not_true, Bool.false_eq_true,
        and_false]
      by_cases hlarge : maxExponent < n + 1
      · exact ⟨Double.zero false, if_pos hlarge, Double.atMost_zero 21⟩
      · refine ⟨y, ?_, hle⟩
        have hy' : Scaled.toDouble? false ⟨s.significand, s.exponent + -((n + 1 : Nat) : Int)⟩ =
            some y := hy
        rw [if_neg hlarge, hy', Option.map_some]

/-- Digits with a point among them and nothing behind them. -/
theorem exists_read_point (hds : Leading ds) (hfs : fs ≠ []) (hdigits : ∀ c ∈ fs, c.isDigit = true)
    (hle : withDigits 0 (ds ++ fs) ≤ 10 ^ 17) :
    ∃ y, read (ds ++ '.' :: fs) = some (.real y, []) ∧ y.AtMost 21 := by
  have hlength : 0 < fs.length := List.length_pos_iff.mpr hfs
  have hpoint := readUnsigned_point hds hfs hdigits [] (by simp)
    (hle.trans (by decide))
  have hsmall : Scaled.Small ⟨withDigits 0 (ds ++ fs), -(fs.length : Int)⟩ :=
    ⟨hle.trans (by decide), fun k hk => by simp only at hk; omega⟩
  obtain ⟨y, hy, hbound⟩ := exists_toDouble? hsmall
  rw [List.append_nil] at hpoint
  refine ⟨y, ?_, hbound⟩
  rw [hds.read_eq, hpoint, readExponent.eq_def]
  simp only [hy, Option.map_some]

section Shortest

variable {d : Decimal}

theorem withDigits_digits (d : Decimal) : withDigits 0 (Decimal.digits d.coeff) = d.coeff :=
  withDigits_toDigits d.coeff

/-- **Digits that are written out are read.** -/
theorem exists_read_positional (h : d.Small) (hcoeff : d.coeff ≠ 0)
    (hexponent : ((Decimal.digits d.coeff).length : Int) - 1 + d.exponent ≤ 15) :
    ∃ y, read (d.positional ++ (if 0 ≤ d.exponent then ['.', '0'] else [])) =
      some (.real y, []) ∧ y.AtMost 21 := by
  have hleading : Leading (Decimal.digits d.coeff) := leading_toDigits d.coeff
  have hhead : (Decimal.digits d.coeff).head? ≠ some '0' :=
    head?_toDigits_ne_zero (Nat.pos_of_ne_zero hcoeff)
  have hvalue := withDigits_digits d
  have hlt := Double.lt_pow_length_digits d.coeff
  rw [Decimal.positional]
  generalize Decimal.digits d.coeff = ds at *
  by_cases hnonneg : 0 ≤ d.exponent
  · -- Zeros up to the unit.
    obtain ⟨k, hk⟩ := Int.eq_ofNat_of_zero_le hnonneg
    rw [if_pos hnonneg, if_pos hnonneg, if_neg hcoeff, hk, Int.toNat_natCast]
    refine exists_read_point (hleading.append_zeros hhead k) (List.cons_ne_nil _ _) (by simp) ?_
    rw [List.append_assoc, ← List.replicate_succ', withDigits_append, withDigits_zeros, hvalue]
    calc d.coeff * 10 ^ (k + 1) ≤ 10 ^ ds.length * 10 ^ (k + 1) := Nat.mul_le_mul_right _ hlt.le
      _ = 10 ^ (ds.length + (k + 1)) := (Nat.pow_add ..).symm
      _ ≤ 10 ^ 17 := Nat.pow_le_pow_right (by decide) (by omega)
  · obtain ⟨places, hplaces⟩ : ∃ places, (-d.exponent).toNat = places := ⟨_, rfl⟩
    have hpos : 0 < places := by omega
    rw [if_neg hnonneg, if_neg hnonneg, List.append_nil, hplaces]
    simp only
    by_cases hinside : places < ds.length
    · -- The point is among the digits.
      rw [if_pos hinside]
      have htake := hleading.take hhead (Nat.sub_pos_of_lt hinside)
      refine exists_read_point htake ?_ (fun c hc => hleading.digits c (List.mem_of_mem_drop hc)) ?_
      · rw [← List.length_pos_iff, List.length_drop]
        omega
      · rw [List.take_append_drop, hvalue]
        exact h.coeff_le
    · -- Zeros stand behind the point.
      rw [if_neg hinside]
      have hzero : Leading ['0'] := ⟨List.cons_ne_nil _ _, by simp, by simp⟩
      refine exists_read_point hzero ?_ (fun c hc => ?_) ?_
      · simp [hleading.ne_nil]
      · rcases List.mem_append.mp hc with hc | hc
        · rw [List.eq_of_mem_replicate hc]
          rfl
        · exact hleading.digits c hc
      · rw [← List.append_assoc, withDigits_append, withDigits_append, withDigits_zeros]
        have hunit : withDigits 0 ['0'] = 0 := rfl
        rw [hunit, Nat.zero_mul, hvalue]
        exact h.coeff_le

/-- **Digits with an exponent are read.** -/
theorem exists_read_scientific (h : d.Small) {e : Int} {mantissa : List Char}
    (he : ((Decimal.digits d.coeff).length : Int) - 1 + d.exponent = e)
    (hmantissa : (match Decimal.digits d.coeff with
      | c :: c' :: rest => c :: '.' :: c' :: rest
      | ds => ds) = mantissa) :
    ∃ y, read (mantissa ++ 'e' :: ((if 0 ≤ e then ['+'] else []) ++ (toString e).toList)) =
      some (.real y, []) ∧ y.AtMost 21 := by
  have hdigits : ∀ c ∈ Decimal.digits d.coeff, c.isDigit = true := fun _ => isDigit_of_mem_toDigits
  have hne : Decimal.digits d.coeff ≠ [] := Nat.toDigits_ne_nil
  have hvalue := withDigits_digits d
  have hfits : withDigits 0 (Decimal.digits d.coeff) ≤ maxSignificand := by
    rw [hvalue]
    exact h.coeff_le.trans (by decide)
  have hlength : (Decimal.digits d.coeff).length ≤ 18 :=
    Nat.toDigits_length 10 _ _ (by decide) (h.coeff_le.trans_lt (by decide))
  have hmax : e ≤ maxExponent := by
    have hlarge : (100 : Int) ≤ maxExponent := by decide
    have hexponent := h.exponent_le
    omega
  have hsmall : ∀ s : Scaled, s.significand = d.coeff → s.exponent + e = d.exponent →
      Scaled.Small ⟨s.significand, s.exponent + e⟩ := by
    intro s hs hse
    rw [hs, hse]
    exact ⟨h.coeff_le.trans (by decide), h.exponent⟩
  generalize Decimal.digits d.coeff = ds at *
  have hsingle : ∀ c ∈ ds, Leading [c] := fun c hc =>
    ⟨List.cons_ne_nil _ _, by simpa using hdigits c hc, by simp⟩
  match ds with
  | [] => exact absurd rfl hne
  | [c] =>
      obtain rfl := hmantissa
      have hc := hsingle c (by simp)
      rw [hc.read_eq, readUnsigned_exponent hc _ hfits, hvalue]
      exact exists_readExponent (hsmall ⟨d.coeff, 0⟩ rfl (by simp at he ⊢; omega)) hmax
  | c :: c' :: rest =>
      obtain rfl := hmantissa
      have hc := hsingle c (by simp)
      have hpoint := readUnsigned_point hc (List.cons_ne_nil c' rest)
        (fun a ha => hdigits a (List.mem_cons_of_mem _ ha))
        ('e' :: ((if 0 ≤ e then ['+'] else []) ++ (toString e).toList)) (by simp) hfits
      have hread := hc.read_eq ('.' :: (c' :: rest ++
        'e' :: ((if 0 ≤ e then ['+'] else []) ++ (toString e).toList)))
      rw [List.singleton_append] at hpoint hread
      rw [List.cons_append, List.cons_append, hread, hpoint]
      refine exists_readExponent (hsmall ⟨_, _⟩ hvalue ?_) hmax
      simp only [List.length_cons] at he ⊢
      omega

/-- **A number up to `10 ^ 21` is read as some number up to `10 ^ 21`.** -/
theorem exists_read_real {x : Double} (hx : x.AtMost 21) :
    ∃ y, read (real x).text.toList = some (.real y, []) ∧ y.AtMost 21 := by
  have hsmall := Double.small_shortest hx
  have htext : (real x).text = x.shortText "+" := rfl
  rw [htext, Double.shortText]
  simp only [hx.positive, Bool.false_eq_true, if_false]
  generalize x.shortest = d at hsmall
  by_cases hzero : d.coeff = 0
  · refine ⟨Double.zero false, ?_, Double.atMost_zero 21⟩
    rw [if_pos hzero]
    decide +kernel
  · rw [if_neg hzero]
    split
    · next hplain =>
      obtain ⟨y, hy, hle⟩ := exists_read_positional hsmall hzero hplain.2
      refine ⟨y, ?_, hle⟩
      rw [String.toList_append, String.toList_ofList, ← hy]
      congr 2
      split <;> rfl
    · obtain ⟨y, hy, hle⟩ := exists_read_scientific hsmall rfl rfl
      refine ⟨y, ?_, hle⟩
      rw [String.toList_append, String.toList_append, String.toList_ofList, ← hy,
        List.append_assoc]
      congr 2
      split <;> rfl

end Shortest

end Number

end Distill

import Distill.Filter.Eval
import Distill.Proofs.Filter.Reading
import Distill.Proofs.Number.Integral

/-!
# Places of items

The place in brackets is read as a double, and it is taken if the double is an integer of fewer than
64 bits besides the sign. The bound is symmetric, so that such a place can be negated, and the sum
of a negative place and the number of items of an array stays in the range of 64-bit integers as
well. So a filter may as well be applied in 64-bit arithmetic, which wraps round beyond its range.

That all places of an expression are in range follows the rules by which it is read. An expression
that is read already goes into the larger one, so that its places must be in range before.

## Main definitions

* `Filter.InRange` — the integers that can be places.
* `Filter.Expr.places`, `Filter.Expr.Placed` — the places in an expression, and that all of them are
  in range.
* `Filter.wordItemAt` — the item at a place, found in 64-bit arithmetic.

## Main statements

* `Filter.place?_eq_some_iff` — which numbers are places.
* `Filter.Reads.placed`, `Filter.Expr.placed_of_parse` — what is read has places in range only.
* `Filter.wordItemAt_eq` — 64-bit arithmetic finds the same item.
* `Filter.Expr.indexes_safely` — what follows for filters.
-/

namespace Distill.Filter

/-! ## The range -/

/-- The integers of fewer than 64 bits besides the sign. -/
def InRange (i : Int) : Prop := -2 ^ 63 < i ∧ i < 2 ^ 63

section Range

variable {i : Int} {length : Nat}

theorem InRange.neg (h : InRange i) : InRange (-i) := by
  simp only [InRange] at *
  omega

/-- A place is a 64-bit integer. -/
theorem InRange.toInt_ofInt (h : InRange i) : (Int64.ofInt i).toInt = i :=
  Int64.toInt_ofInt_of_le (by simp only [InRange] at h; omega) h.2

/-- **A place is negated without overflow.** -/
theorem InRange.toInt_neg (h : InRange i) : (-Int64.ofInt i).toInt = -i := by
  rw [← Int64.ofInt_neg]
  exact h.neg.toInt_ofInt

/-- **A negative place is added to a number of items without overflow.** -/
theorem InRange.toInt_add (h : InRange i) (hneg : i < 0) (hlength : length < 2 ^ 63) :
    (Int64.ofNat length + Int64.ofInt i).toInt = length + i := by
  rw [← Int64.ofInt_eq_ofNat, ← Int64.ofInt_add]
  simp only [InRange] at h
  exact Int64.toInt_ofInt_of_le (by omega) (by omega)

end Range

/-! ## Numbers as places -/

/-- **A number is a place exactly if it is an integer in the range.** -/
theorem place?_eq_some_iff {n : Binary64} {i : Int} : place? n = some i ↔
    ∃ x, n = .finite x ∧ x.key = i * Double.unitsPerOne ∧ InRange i := by
  cases n with
  | infinite | nan => simp only [place?, reduceCtorEq, false_and, exists_false]
  | finite x =>
      have hrange : x.magnitude < Nat.pow 2 63 * Double.unitsPerOne ↔ InRange x.truncate := by
        rw [← Nat.div_lt_iff_lt_mul Double.unitsPerOne_pos, ← Double.natAbs_truncate]
        simp only [InRange, Nat.pow_eq]
        omega
      simp only [place?, Double.key_eq_mul_iff, Binary64.finite.injEq, exists_eq_left']
      split
      · next h =>
        rw [hrange] at h
        rw [Option.some.injEq]
        constructor
        · rintro rfl
          exact ⟨⟨h.1, rfl⟩, h.2⟩
        · exact fun hi => hi.1.2
      · next h =>
        rw [hrange] at h
        constructor
        · intro hnone
          cases hnone
        · rintro ⟨⟨hintegral, rfl⟩, hi⟩
          exact absurd ⟨hintegral, hi⟩ h

theorem inRange_of_place? {n : Binary64} {i : Int} (h : place? n = some i) : InRange i := by
  obtain ⟨-, -, -, hi⟩ := place?_eq_some_iff.mp h
  exact hi

/-! ## Places in expressions -/

/-- The places in an expression, at any depth. -/
def Expr.places : Expr → List Int
  | .index i => [i]
  | .pipe left right | .comma left right | .compare _ left right | .and left right
  | .or left right => left.places ++ right.places
  | .collect inner | .attempt inner | .apply _ inner => inner.places
  | .identity | .field _ | .iterate | .literal _ | .call _ => []

/-- All places in an expression are in range. -/
def Expr.Placed (e : Expr) : Prop := ∀ i ∈ e.places, InRange i

namespace Expr

variable {e left right : Expr}

@[simp] theorem placed_identity : Placed .identity := nofun

@[simp] theorem placed_field (name : String) : Placed (.field name) := nofun

@[simp] theorem placed_iterate : Placed .iterate := nofun

@[simp] theorem placed_literal (v : Json) : Placed (.literal v) := nofun

@[simp] theorem placed_call (f : Nullary) : Placed (.call f) := nofun

@[simp] theorem placed_index {i : Int} : Placed (.index i) ↔ InRange i :=
  List.forall_mem_singleton

@[simp] theorem placed_pipe : Placed (.pipe left right) ↔ left.Placed ∧ right.Placed :=
  List.forall_mem_append

@[simp] theorem placed_comma : Placed (.comma left right) ↔ left.Placed ∧ right.Placed :=
  List.forall_mem_append

@[simp] theorem placed_compare {op : Comparison} :
    Placed (.compare op left right) ↔ left.Placed ∧ right.Placed :=
  List.forall_mem_append

@[simp] theorem placed_and : Placed (.and left right) ↔ left.Placed ∧ right.Placed :=
  List.forall_mem_append

@[simp] theorem placed_or : Placed (.or left right) ↔ left.Placed ∧ right.Placed :=
  List.forall_mem_append

@[simp] theorem placed_collect : Placed (.collect e) ↔ e.Placed := Iff.rfl

@[simp] theorem placed_attempt : Placed (.attempt e) ↔ e.Placed := Iff.rfl

@[simp] theorem placed_apply {f : Unary} : Placed (.apply f e) ↔ e.Placed := Iff.rfl

/-- A selector behind an expression adds its own places. -/
theorem Placed.pipeInto (hleft : left.Placed) (hright : right.Placed) :
    (left.pipeInto right).Placed := by
  cases left <;> simp_all [Expr.pipeInto]

end Expr

section Reading

variable {r : Rank} {t : Token} {p : Part} {us vs : List Token} {e left right : Expr}

/-- **A place in brackets is in range,** with a minus sign in front of it as well. -/
theorem ReadsBracket.placed (h : ReadsBracket us e vs) : e.Placed := by
  cases h with
  | iterate | key => simp
  | place integral => simpa using inRange_of_place? integral
  | negative integral => simpa using (inRange_of_place? integral).neg

theorem ReadsSelector.placed (h : ReadsSelector us e vs) : e.Placed := by
  cases h with
  | word | quoted => simp
  | bracket inside => exact inside.placed

/-- An operator that groups to the left has no places of its own. -/
theorem placed_of_joins? {join : Expr → Expr → Expr} (h : r.joins? t = some join)
    (hleft : left.Placed) (hright : right.Placed) : (join left right).Placed := by
  rw [Rank.joins?.eq_def] at h
  split at h
  · rw [← Option.some.inj h]
    exact Expr.placed_comma.mpr ⟨hleft, hright⟩
  · rw [← Option.some.inj h]
    exact Expr.placed_or.mpr ⟨hleft, hright⟩
  · rw [← Option.some.inj h]
    exact Expr.placed_and.mpr ⟨hleft, hright⟩
  · cases h

/-- What is read before a part, if it goes into the expression of the part, is in range. -/
def Part.Placed : Part → Prop
  | whole _ | primary => True
  | joined _ e | suffixed e => e.Placed

/-- **What is read is in range.** A selector or an operand that is read goes into what was read
before, and what was read before stays in it. -/
theorem Reads.placed (h : Reads p us e vs) (hp : p.Placed) : e.Placed := by
  induction h with
  | suffix _ _ ihfirst ihmore => exact ihmore (ihfirst trivial)
  | operand _ _ ih | last _ _ ih => exact ih trivial
  | compare _ _ _ ihleft ihright => exact Expr.placed_compare.mpr ⟨ihleft trivial, ihright trivial⟩
  | pipe _ _ ihleft ihright => exact Expr.placed_pipe.mpr ⟨ihleft trivial, ihright trivial⟩
  | first _ _ _ ihleft ihmore => exact ihmore (ihleft trivial)
  | done | unsuffixed => exact hp
  | join known _ _ ihright ihmore => exact ihmore (placed_of_joins? known hp (ihright trivial))
  | select selector _ ih => exact ih (hp.pipeInto selector.placed)
  | bracket inside _ ih => exact ih (hp.pipeInto inside.placed)
  | question _ ih => exact ih (Expr.placed_attempt.mpr hp)
  | selector selector => exact selector.placed
  | parens _ ih => exact ih trivial
  | collect _ _ ih => exact Expr.placed_collect.mpr (ih trivial)
  | identity | literal | negative | empty => simp
  | call known =>
      obtain ⟨f, -, rfl⟩ := Option.map_eq_some_iff.mp known
      simp
  | apply _ known ih =>
      obtain ⟨f, -, rfl⟩ := Option.map_eq_some_iff.mp known
      exact Expr.placed_apply.mpr (ih trivial)

/-- **The places of a filter are in range.** -/
theorem Expr.placed_of_parse {s : String} (h : Expr.parse s = .ok e) : e.Placed := by
  obtain ⟨ts, rest, -, hreads, -⟩ := Expr.parse_eq_ok_iff.mp h
  exact hreads.placed trivial

end Reading

/-! ## Items -/

section Items

variable {items : List Json} {i : Int}

/-- The item at a place, found in 64-bit arithmetic: a sum beyond the range wraps round. -/
def wordItemAt (items : List Json) (i : Int64) : Json :=
  let place := if i < 0 then Int64.ofNat items.length + i else i
  if place < 0 then .null else (items[place.toInt.toNat]?).getD .null

/-- **64-bit arithmetic finds the same item.** -/
theorem wordItemAt_eq (hi : InRange i) (hitems : items.length < 2 ^ 63) :
    wordItemAt items (Int64.ofInt i) = itemAt items i := by
  have hneg : Int64.ofInt i < 0 ↔ i < 0 := by
    rw [Int64.lt_iff_toInt_lt, hi.toInt_ofInt, Int64.toInt_zero]
  have hplace : (if Int64.ofInt i < 0 then Int64.ofNat items.length + Int64.ofInt i
      else Int64.ofInt i).toInt = if i < 0 then (items.length : Int) + i else i := by
    by_cases h : i < 0
    · rw [if_pos (hneg.mpr h), if_pos h, hi.toInt_add h hitems]
    · rw [if_neg (mt hneg.mp h), if_neg h, hi.toInt_ofInt]
  simp only [wordItemAt, itemAt]
  rw [← hplace]
  generalize (if Int64.ofInt i < 0 then Int64.ofNat items.length + Int64.ofInt i
    else Int64.ofInt i) = place
  simp only [Int64.lt_iff_toInt_lt, Int64.toInt_zero]

/-- A place that is not negative counts from the start. -/
theorem itemAt_natCast {place : Nat} (h : place < items.length) :
    itemAt items place = items[place] := by
  have hneg : ¬ (place : Int) < 0 := by omega
  simp [itemAt, hneg, h]

/-- A negative place counts from the end. -/
theorem itemAt_of_neg {place : Nat} (h : place < items.length) :
    itemAt items (place - items.length) = items[place] := by
  have hneg : (place : Int) - items.length < 0 := by omega
  have hsum : (items.length : Int) + (place - items.length) = place := by omega
  have hplace : ¬ (place : Int) < 0 := by omega
  simp only [itemAt, if_pos hneg, hsum, if_neg hplace, Int.toNat_natCast]
  simp [h]

/-- A place beyond both ends has no item. -/
theorem itemAt_of_outside (h : i < -items.length ∨ items.length ≤ i) :
    itemAt items i = .null := by
  simp only [itemAt]
  by_cases hneg : i < 0
  · rw [if_pos hneg, if_pos (by omega)]
  · rw [if_neg hneg, if_neg hneg, List.getElem?_eq_none (by omega)]
    rfl

end Items

namespace Expr

/-- **Places are in range, and items are found where they say.** A number is read as a place exactly
if it is an integer whose size is less than `2 ^ 63`, and then it is negated in 64-bit arithmetic
without overflow. All places of a filter are in this range. For an array that has fewer than
`2 ^ 63` items, the sum of a negative place and their number does not overflow either, so that the
filter gives the item which 64-bit arithmetic finds: that at the place from the start, or from the
end if the place is negative, and `null` beyond both ends. -/
theorem indexes_safely :
    (∀ n ts i, readPlace n ts = .ok i ↔
      ∃ x, n = .finite x ∧ x.key = i * Double.unitsPerOne ∧ -2 ^ 63 < i ∧ i < 2 ^ 63) ∧
    (∀ n ts i, readPlace n ts = .ok i →
      (Int64.ofInt i).toInt = i ∧ (-Int64.ofInt i).toInt = -i) ∧
    ∀ s e, parse s = .ok e → ∀ k ∈ e.places, -2 ^ 63 < k ∧ k < 2 ^ 63 ∧
      ∀ items : List Json, items.length < 2 ^ 63 →
        (k < 0 → (Int64.ofNat items.length + Int64.ofInt k).toInt = items.length + k) ∧
        (index k).eval (.array items) = .ok [wordItemAt items (Int64.ofInt k)] ∧
        (∀ place (h : place < items.length), k = place →
          (index k).eval (.array items) = .ok [items[place]]) ∧
        (∀ place (h : place < items.length), k = place - items.length →
          (index k).eval (.array items) = .ok [items[place]]) ∧
        (k < -items.length ∨ items.length ≤ k → (index k).eval (.array items) = .ok [.null]) := by
  refine ⟨fun n ts i => readPlace_eq_ok_iff.trans place?_eq_some_iff, fun n ts i h => ?_,
    fun s e hparse k hk => ?_⟩
  · have hi := inRange_of_place? (readPlace_eq_ok_iff.mp h)
    exact ⟨hi.toInt_ofInt, hi.toInt_neg⟩
  · have hrange : InRange k := placed_of_parse hparse k hk
    refine ⟨hrange.1, hrange.2, fun items hitems => ⟨fun hneg => hrange.toInt_add hneg hitems, ?_,
      ?_, ?_, ?_⟩⟩
    · rw [eval, wordItemAt_eq hrange hitems]
    · rintro place h rfl
      rw [eval, itemAt_natCast h]
    · rintro place h rfl
      rw [eval, itemAt_of_neg h]
    · intro houtside
      rw [eval, itemAt_of_outside houtside]

/-- The greatest place that is taken, and the last item of a list. -/
theorem ends_index_safely : ∃ e, parse ".[9223372036854774784], .[-1]" = .ok e ∧
    (-Int64.ofInt 9223372036854774784).toInt = -9223372036854774784 ∧
    9223372036854774784 ∈ e.places ∧ -1 ∈ e.places ∧
    (index 9223372036854774784).eval (.array [.null, .bool true]) = .ok [.null] ∧
    (index (-1)).eval (.array [.null, .bool true]) = .ok [.bool true] := by
  have hread : (parse ".[9223372036854774784], .[-1]").toOption.map Expr.places =
      some [9223372036854774784, -1] := by decide +kernel
  obtain ⟨e, he, hplaces⟩ := Option.map_eq_some_iff.mp hread
  rw [toOption_eq_some_iff] at he
  have hgreatest : 9223372036854774784 ∈ e.places := by simp [hplaces]
  have hlast : -1 ∈ e.places := by simp [hplaces]
  have hplace : readPlace (.finite (.ofInt 9223372036854774784)) [] = .ok 9223372036854774784 := by
    decide +kernel
  obtain ⟨-, hnegate, hparse⟩ := indexes_safely
  obtain ⟨-, -, hgreatest'⟩ := hparse _ e he _ hgreatest
  obtain ⟨-, -, hlast'⟩ := hparse _ e he _ hlast
  obtain ⟨-, -, -, -, hnull⟩ := hgreatest' [.null, .bool true] (by simp)
  obtain ⟨-, -, -, hend, -⟩ := hlast' [.null, .bool true] (by simp)
  exact ⟨e, he, (hnegate _ _ _ hplace).2, hgreatest, hlast, hnull (by simp),
    hend 1 (by simp) (by simp)⟩

end Expr

end Distill.Filter

import Distill.Proofs.Filter.Equivalence
import Distill.Proofs.Number.Integral

/-!
# Flattening

Flattening by a depth takes that many levels of nesting away, one after another, and changes nothing
else: what is no array stays, in its order. When no level is left, no depth makes a difference.

Neither an induction over values nor one over depths alone is enough. The depth decreases where the
items of an array take its place, so that it carries the induction, with all lists of items; an
induction over the list takes care of one depth.

## Main definitions

* `Json.leaves` — the values in an array that are no arrays.
* `Json.nesting` — how many arrays are nested in each other.

## Main statements

* `Filter.flattenItems_flattenItems` — one depth after another.
* `Filter.leavesOfItems_flattenItems`, `Filter.nestingOfItems_flattenItems` — what stays, and how
  much nesting is left.
* `Filter.flattenItems_of_nesting_le` — depths that leave no array.
* `Filter.flattens_by_levels` — what follows for filters.
-/

namespace Distill

namespace Json

variable {v : Json} {xs ys : List Json}

mutual

/-- The values that are no arrays, from left to right, in an array and in the arrays in it. -/
def leaves : Json → List Json
  | array items => leavesOfItems items
  | v => [v]

/-- The leaves of the items of an array. -/
def leavesOfItems : List Json → List Json
  | [] => []
  | v :: rest => leaves v ++ leavesOfItems rest

end

mutual

/-- How many arrays are nested in each other; what is in an object does not count. -/
def nesting : Json → Nat
  | array items => nestingOfItems items + 1
  | _ => 0

/-- The greatest nesting of an item. -/
def nestingOfItems : List Json → Nat
  | [] => 0
  | v :: rest => max (nesting v) (nestingOfItems rest)

end

theorem leavesOfItems_append (xs ys : List Json) :
    leavesOfItems (xs ++ ys) = leavesOfItems xs ++ leavesOfItems ys := by
  induction xs with
  | nil => rfl
  | cons v xs ih => rw [List.cons_append, leavesOfItems, leavesOfItems, ih, List.append_assoc]

theorem nestingOfItems_append (xs ys : List Json) :
    nestingOfItems (xs ++ ys) = max (nestingOfItems xs) (nestingOfItems ys) := by
  induction xs with
  | nil => simp [nestingOfItems]
  | cons v xs ih => rw [List.cons_append, nestingOfItems, nestingOfItems, ih, Nat.max_assoc]

theorem nesting_eq_zero_iff : v.nesting = 0 ↔ v.kind ≠ .array := by
  cases v <;> simp [nesting, kind]

theorem nestingOfItems_eq_zero_iff : nestingOfItems xs = 0 ↔ ∀ v ∈ xs, v.kind ≠ .array := by
  induction xs with
  | nil => simp [nestingOfItems]
  | cons v xs ih =>
      rw [nestingOfItems, Nat.max_eq_zero_iff, nesting_eq_zero_iff, ih, List.forall_mem_cons]

end Json

namespace Filter

open Json (leaves leavesOfItems nesting nestingOfItems nestingOfItems_append leavesOfItems_append
  nestingOfItems_eq_zero_iff)

variable {v w : Json} {xs ys : List Json} {arg : Expr} {d : Nat}

/-! ## One item -/

/-- What is no array stands in its own place at every depth. -/
theorem flattenItem_of_kind_ne (h : v.kind ≠ .array) (d : Nat) : flattenItem d v = [v] := by
  cases v with
  | array items => exact absurd rfl h
  | _ => cases d <;> rfl

theorem flattenItem_zero (v : Json) : flattenItem 0 v = [v] := by
  cases v <;> rfl

theorem flattenItems_singleton (d : Nat) (v : Json) : flattenItems d [v] = flattenItem d v := by
  rw [flattenItems, flattenItems, List.append_nil]

theorem flattenItems_append (d : Nat) (xs ys : List Json) :
    flattenItems d (xs ++ ys) = flattenItems d xs ++ flattenItems d ys := by
  induction xs with
  | nil => simp [flattenItems]
  | cons v xs ih => rw [List.cons_append, flattenItems, flattenItems, ih, List.append_assoc]

/-- Items without an array among them stay as they are. -/
theorem flattenItems_eq_self (h : ∀ v ∈ xs, v.kind ≠ .array) (d : Nat) :
    flattenItems d xs = xs := by
  induction xs with
  | nil => simp [flattenItems]
  | cons v xs ih =>
      rw [List.forall_mem_cons] at h
      rw [flattenItems, flattenItem_of_kind_ne h.1, ih h.2, List.singleton_append]

/-! ## Levels -/

theorem flattenItems_zero (xs : List Json) : flattenItems 0 xs = xs := by
  induction xs with
  | nil => simp [flattenItems]
  | cons v xs ih => rw [flattenItems, flattenItem_zero, ih, List.singleton_append]

/-- **Flattening by one depth and then by another one is flattening by both.** -/
theorem flattenItems_flattenItems (m n : Nat) (xs : List Json) :
    flattenItems n (flattenItems m xs) = flattenItems (m + n) xs := by
  induction m generalizing xs with
  | zero => rw [flattenItems_zero, Nat.zero_add]
  | succ m ihm =>
      induction xs with
      | nil => simp [flattenItems]
      | cons v xs ih =>
          rw [flattenItems, flattenItems_append, ih, flattenItems]
          congr 1
          by_cases hv : v.kind = .array
          · cases v with
            | array items =>
                rw [Nat.succ_add]
                exact ihm items
            | _ => cases hv
          · rw [flattenItem_of_kind_ne hv, flattenItem_of_kind_ne hv, flattenItems_singleton,
              flattenItem_of_kind_ne hv]

/-- **Flattening keeps what is no array.** -/
theorem leavesOfItems_flattenItems (d : Nat) (xs : List Json) :
    leavesOfItems (flattenItems d xs) = leavesOfItems xs := by
  induction d generalizing xs with
  | zero => rw [flattenItems_zero]
  | succ d ihd =>
      induction xs with
      | nil => simp [flattenItems]
      | cons v xs ih =>
          rw [flattenItems, leavesOfItems_append, ih, leavesOfItems]
          congr 1
          cases v with
          | array items => exact ihd items
          | _ => rfl

/-- **Flattening takes as many levels away as the depth says.** -/
theorem nestingOfItems_flattenItems (d : Nat) (xs : List Json) :
    nestingOfItems (flattenItems d xs) = nestingOfItems xs - d := by
  induction d generalizing xs with
  | zero => rw [flattenItems_zero, Nat.sub_zero]
  | succ d ihd =>
      induction xs with
      | nil => simp [flattenItems, nestingOfItems]
      | cons v xs ih =>
          have hv : nestingOfItems (flattenItem (d + 1) v) = v.nesting - (d + 1) := by
            cases v with
            | array items =>
                rw [nesting, Nat.add_sub_add_right]
                exact ihd items
            | _ => simp [flattenItem, nestingOfItems, nesting]
          rw [flattenItems, nestingOfItems_append, ih, hv, nestingOfItems]
          omega

/-- A depth of at least the nesting leaves no array. -/
theorem kind_ne_of_mem_flattenItems (h : nestingOfItems xs ≤ d) :
    ∀ v ∈ flattenItems d xs, v.kind ≠ .array := by
  rw [← nestingOfItems_eq_zero_iff, nestingOfItems_flattenItems]
  exact Nat.sub_eq_zero_of_le h

/-- **Depths beyond the nesting make no difference.** -/
theorem flattenItems_of_nesting_le (h : nestingOfItems xs ≤ d) :
    flattenItems d xs = flattenItems (nestingOfItems xs) xs := by
  obtain ⟨k, rfl⟩ := Nat.exists_eq_add_of_le h
  rw [← flattenItems_flattenItems]
  exact flattenItems_eq_self (kind_ne_of_mem_flattenItems Nat.le.refl) k

/-! ## Filters -/

/-- An integer of at most 53 bits asks for itself as a depth. -/
theorem flattenDepth_ofNat (h : d < 2 ^ 53) : flattenDepth (.ofNat d) = .ok d := by
  have hd := Double.isNat_ofInt h
  have hkey : 0 ≤ (Double.ofInt d).key := by
    rw [Double.key, if_neg (by simp [hd.positive])]
    exact Int.natCast_nonneg _
  have hle : d ≤ maxFlattenDepth := h.le.trans (by decide)
  simp only [Json.ofNat, flattenDepth, Number.toDouble, hkey, if_true, hd.truncate,
    Int.toNat_natCast, Nat.min_eq_left hle]

theorem Expr.eval_flatten (harg : arg.eval (.array xs) = .ok [w])
    (hdepth : flattenDepth w = .ok d) :
    (Expr.apply .flatten arg).eval (.array xs) = .ok [.array (flattenItems d xs)] := by
  simp [Expr.eval, harg, hdepth, itemsFor, bind, Except.bind, pure, Except.pure]

/-- One filter that flattens behind another one. -/
theorem Expr.eval_flatten_pipe {m n : Nat} {u v w : Json} (hu : flattenDepth u = .ok m)
    (hv : flattenDepth v = .ok n) (hw : flattenDepth w = .ok (m + n)) (xs : List Json) :
    (Expr.pipe (.apply .flatten (.literal u)) (.apply .flatten (.literal v))).eval (.array xs) =
      (Expr.apply .flatten (.literal w)).eval (.array xs) := by
  rw [eval_flatten rfl hw, ← flattenItems_flattenItems, Expr.eval, eval_flatten rfl hu]
  exact (eachOutput_singleton _).trans (eval_flatten rfl hv)

/-- Without an argument the depth is the greatest one. -/
theorem Expr.eval_flatten_all (xs : List Json) :
    (Expr.call .flatten).eval (.array xs) = .ok [.array (flattenItems maxFlattenDepth xs)] := rfl

/-- **Flattening takes levels of nesting away.** Depths add up, no depth changes what is no array or
its order, and without a depth all arrays are taken away, as by every depth of at least their
nesting. -/
theorem flattens_by_levels (xs : List Json) (m n : Nat) :
    flattenItems n (flattenItems m xs) = flattenItems (m + n) xs ∧
      (∀ u v w : Json, flattenDepth u = .ok m → flattenDepth v = .ok n →
        flattenDepth w = .ok (m + n) →
        (Expr.pipe (.apply .flatten (.literal u)) (.apply .flatten (.literal v))).eval (.array xs) =
          (Expr.apply .flatten (.literal w)).eval (.array xs)) ∧
      leavesOfItems (flattenItems m xs) = leavesOfItems xs ∧
      flattenItems 0 xs = xs ∧
      (nestingOfItems xs ≤ maxFlattenDepth → ∃ ys,
        (Expr.call .flatten).eval (.array xs) = .ok [.array ys] ∧
        (∀ y ∈ ys, y.kind ≠ .array) ∧
        (Expr.call .flatten).eval (.array ys) = .ok [.array ys] ∧
        ∀ d, nestingOfItems xs ≤ d → flattenItems d xs = ys) ∧
      (∀ (arg : Expr) (w : Json) (d : Nat), arg.eval (.array xs) = .ok [w] →
        flattenDepth w = .ok d →
        (Expr.apply .flatten arg).eval (.array xs) = .ok [.array (flattenItems d xs)]) ∧
      ∀ d < 2 ^ 53, flattenDepth (.ofNat d) = .ok d := by
  refine ⟨flattenItems_flattenItems m n xs, fun _ _ _ hu hv hw => Expr.eval_flatten_pipe hu hv hw xs,
    leavesOfItems_flattenItems m xs, flattenItems_zero xs, fun h => ?_,
    fun _ _ _ => Expr.eval_flatten, fun _ => flattenDepth_ofNat⟩
  have hflat := kind_ne_of_mem_flattenItems h
  refine ⟨flattenItems maxFlattenDepth xs, Expr.eval_flatten_all xs, hflat, ?_, fun d hd => ?_⟩
  · rw [Expr.eval_flatten_all, flattenItems_eq_self hflat]
  · rw [flattenItems_of_nesting_le hd, flattenItems_of_nesting_le h]

/-- Empty arrays, arrays in arrays, and an array in an object. -/
theorem groups_flatten_by_levels :
    let xs : List Json := [.ofNat 1, .array [.array [], .array [.array [.ofNat 2]]],
      .object [("log", .array [.null])]]
    let ys : List Json := [.ofNat 1, .ofNat 2, .object [("log", .array [.null])]]
    let one : Expr := .apply .flatten (.literal (.ofNat 1))
    nestingOfItems xs ≤ maxFlattenDepth ∧
      (Expr.pipe one one).eval (.array xs) =
        .ok [.array [.ofNat 1, .array [.ofNat 2], .object [("log", .array [.null])]]] ∧
      (Expr.call .flatten).eval (.array xs) = .ok [.array ys] ∧
      (Expr.call .flatten).eval (.array ys) = .ok [.array ys] := by
  intro xs ys one
  have hnesting : nestingOfItems xs ≤ maxFlattenDepth := by decide
  obtain ⟨-, hpipe, -, -, hall, harg, hdepth⟩ := flattens_by_levels xs 1 1
  obtain ⟨zs, hzs, -, hagain, hdeep⟩ := hall hnesting
  obtain rfl : ys = zs := hdeep 3 (by decide)
  have hone := hdepth 1 (by decide)
  have htwo := hdepth 2 (by decide)
  refine ⟨hnesting, ?_, hzs, hagain⟩
  exact (hpipe (.ofNat 1) (.ofNat 1) (.ofNat 2) hone hone htwo).trans
    (harg (.literal (.ofNat 2)) (.ofNat 2) 2 rfl htwo)

end Filter

end Distill

import Distill.Proofs.Filter.Containment

/-!
# Equal values that do not contain each other

The comparisons of filters take all numbers as doubles, containment tells integers from doubles and
compares integers exactly. So a number may be equal to another one that it does not contain, as `1`
and `1.0`, and this is the only way in which a value fails to contain an equal one.

## Main definitions

* `Number.Respelled` — equal numbers of different forms.
* `Json.numbers` — the numbers in a value.

## Main statements

* `Json.same_of_order_eq` — equal values with numbers of the same forms are the same.
* `Json.contains_of_same` — a value contains what is the same.
* `Filter.Pairing.contains_equal_unless_respelled` — what follows for filters.
* `Filter.Pairing.one_does_not_contain_one` — an equal number that is not contained.
-/

namespace Distill

/-! ## Numbers -/

/-- Equal numbers of different forms: an integer and a double, or two integers that round to one
double. -/
inductive Number.Respelled : Number → Number → Prop
  | rounded {i j : Int} (ne : i ≠ j) (key_eq : (Double.ofInt i).key = (Double.ofInt j).key) :
      Respelled (int i) (int j)
  | integral {i : Int} {x : Double} (key_eq : (Double.ofInt i).key = x.key) :
      Respelled (int i) (real x)
  | real {x : Double} {i : Int} (key_eq : x.key = (Double.ofInt i).key) :
      Respelled (real x) (int i)

theorem Number.respelled_iff {m n : Number} :
    m.Respelled n ↔ m.toDouble.key = n.toDouble.key ∧ m.same n = false := by
  constructor
  · rintro (⟨hne, hkey⟩ | hkey | hkey)
    · exact ⟨hkey, beq_false_of_ne hne⟩
    · exact ⟨hkey, rfl⟩
    · exact ⟨hkey, rfl⟩
  · rintro ⟨hkey, hsame⟩
    cases m with
    | int i =>
        cases n with
        | int j => exact .rounded (ne_of_beq_false hsame) hkey
        | real y => exact .integral hkey
    | real x =>
        cases n with
        | int j => exact .real hkey
        | real y => exact absurd hkey (ne_of_beq_false hsame)

instance (m n : Number) : Decidable (m.Respelled n) :=
  decidable_of_iff _ Number.respelled_iff.symm

namespace Json

variable {v w : Json} {xs ys : List Json} {fs gs : List (String × Json)}

mutual

/-- The numbers in a value, from left to right. -/
def numbers : Json → List Number
  | number n => [n]
  | array items => numbersOfItems items
  | object fields => numbersOfValues fields
  | _ => []

/-- The numbers in the items of an array. -/
def numbersOfItems : List Json → List Number
  | [] => []
  | v :: rest => numbers v ++ numbersOfItems rest

/-- The numbers in the values of fields. -/
def numbersOfValues : List (String × Json) → List Number
  | [] => []
  | (_, v) :: rest => numbers v ++ numbersOfValues rest

end

/-! ## Equal values -/

theorem aligned_of_order_eq (h : v.order w = .eq) : Aligned v w := by
  refine aligned_of_rank_eq ?_
  by_contra hne
  rw [order_of_rank_ne hne, Nat.compare_eq_eq] at h
  exact hne h

theorem kind_eq_of_order_eq (h : v.order w = .eq) : v.kind = w.kind := by
  cases aligned_of_order_eq h <;> rfl

mutual

/-- The numbers of equal values stand opposite each other. -/
theorem length_numbers_eq (v w : Json) (h : v.order w = .eq) :
    v.numbers.length = w.numbers.length := by
  match v, w, aligned_of_order_eq h with
  | _, _, .null | _, _, .bool _ | _, _, .number _ _ | _, _, .string _ _ => rfl
  | _, _, .array xs ys => exact length_numbersOfItems_eq xs ys h
  | _, _, .object fs gs =>
      rw [order, Ordering.then_eq_eq, orderKeys_eq_iff] at h
      exact length_numbersOfValues_eq fs gs (length_eq_of_keys h.1) h.2

theorem length_numbersOfItems_eq (xs ys : List Json) (h : orderItems xs ys = .eq) :
    (numbersOfItems xs).length = (numbersOfItems ys).length := by
  match xs, ys with
  | [], [] => rfl
  | [], _ :: _ | _ :: _, [] => cases h
  | x :: xs, y :: ys =>
      rw [orderItems, Ordering.then_eq_eq] at h
      rw [numbersOfItems, numbersOfItems, List.length_append, List.length_append,
        length_numbers_eq x y h.1, length_numbersOfItems_eq xs ys h.2]

theorem length_numbersOfValues_eq (fs gs : List (String × Json)) (hlength : fs.length = gs.length)
    (h : orderValues fs gs = .eq) :
    (numbersOfValues fs).length = (numbersOfValues gs).length := by
  match fs, gs, hlength with
  | [], [], _ => rfl
  | (_, x) :: fs, (_, y) :: gs, hlength =>
      rw [orderValues, Ordering.then_eq_eq] at h
      rw [numbersOfValues, numbersOfValues, List.length_append, List.length_append,
        length_numbers_eq x y h.1, length_numbersOfValues_eq fs gs (Nat.succ.inj hlength) h.2]

end

mutual

/-- **Equal values are the same if their numbers have the same forms.** -/
theorem same_of_order_eq (v w : Json) (h : v.order w = .eq)
    (hforms : ∀ p ∈ v.numbers.zip w.numbers, ¬p.1.Respelled p.2) : v.same w = true := by
  match v, w, aligned_of_order_eq h with
  | _, _, .null => rfl
  | _, _, .bool b => exact beq_self_eq_true b
  | _, _, .number m n =>
      have hkey : m.toDouble.key = n.toDouble.key := Double.compare_eq_eq_iff.mp h
      by_contra hsame
      refine hforms (m, n) List.mem_cons_self (Number.respelled_iff.mpr ⟨hkey, ?_⟩)
      exact Bool.eq_false_of_not_eq_true hsame
  | _, _, .string s t => exact beq_iff_eq.mpr (Std.LawfulEqOrd.compare_eq_iff_eq.mp h)
  | _, _, .array xs ys => exact sameItems_of_orderItems_eq xs ys h hforms
  | _, _, .object fs gs =>
      rw [order, Ordering.then_eq_eq, orderKeys_eq_iff] at h
      exact sameFields_of_orderValues_eq fs gs h.1 h.2 hforms

theorem sameItems_of_orderItems_eq (xs ys : List Json) (h : orderItems xs ys = .eq)
    (hforms : ∀ p ∈ (numbersOfItems xs).zip (numbersOfItems ys), ¬p.1.Respelled p.2) :
    sameItems xs ys = true := by
  match xs, ys with
  | [], [] => rfl
  | [], _ :: _ | _ :: _, [] => cases h
  | x :: xs, y :: ys =>
      rw [orderItems, Ordering.then_eq_eq] at h
      rw [numbersOfItems, numbersOfItems, List.zip_append (length_numbers_eq x y h.1),
        List.forall_mem_append] at hforms
      rw [sameItems, Bool.and_eq_true]
      exact ⟨same_of_order_eq x y h.1 hforms.1, sameItems_of_orderItems_eq xs ys h.2 hforms.2⟩

theorem sameFields_of_orderValues_eq (fs gs : List (String × Json))
    (hkeys : fs.map (·.1) = gs.map (·.1)) (h : orderValues fs gs = .eq)
    (hforms : ∀ p ∈ (numbersOfValues fs).zip (numbersOfValues gs), ¬p.1.Respelled p.2) :
    sameFields fs gs = true := by
  match fs, gs with
  | [], [] => rfl
  | [], _ :: _ | _ :: _, [] => simp at hkeys
  | (k, x) :: fs, (l, y) :: gs =>
      rw [orderValues, Ordering.then_eq_eq] at h
      rw [List.map_cons, List.map_cons, List.cons.injEq] at hkeys
      rw [numbersOfValues, numbersOfValues, List.zip_append (length_numbers_eq x y h.1),
        List.forall_mem_append] at hforms
      rw [sameFields, Bool.and_eq_true, Bool.and_eq_true, beq_iff_eq]
      exact ⟨⟨hkeys.1, same_of_order_eq x y h.1 hforms.1⟩,
        sameFields_of_orderValues_eq fs gs hkeys.2 h.2 hforms.2⟩

end

/-! ## The same values -/

theorem exists_same_of_sameItems {y : Json} (h : sameItems xs ys = true) (hy : y ∈ ys) :
    ∃ x ∈ xs, x.same y = true := by
  induction ys generalizing xs with
  | nil => exact absurd hy List.not_mem_nil
  | cons z ys ih =>
      cases xs with
      | nil => cases h
      | cons x xs =>
          rw [sameItems, Bool.and_eq_true] at h
          rcases List.mem_cons.mp hy with rfl | hy
          · exact ⟨x, List.mem_cons_self, h.1⟩
          · obtain ⟨x', hx', hsame⟩ := ih h.2 hy
            exact ⟨x', List.mem_cons_of_mem x hx', hsame⟩

theorem exists_same_of_sameFields {g : String × Json} (h : sameFields fs gs = true) (hg : g ∈ gs) :
    ∃ x, (g.1, x) ∈ fs ∧ x.same g.2 = true := by
  induction gs generalizing fs with
  | nil => exact absurd hg List.not_mem_nil
  | cons g' gs ih =>
      cases fs with
      | nil => cases h
      | cons f fs =>
          rw [sameFields, Bool.and_eq_true, Bool.and_eq_true, beq_iff_eq] at h
          rcases List.mem_cons.mp hg with rfl | hg
          · exact ⟨f.2, List.mem_cons.mpr (Or.inl (Prod.ext h.1.1.symm rfl)), h.1.2⟩
          · obtain ⟨x, hx, hsame⟩ := ih h.2 hg
            exact ⟨x, List.mem_cons_of_mem f hx, hsame⟩

/-- **A value contains what is the same.** -/
theorem contains_of_same (hv : v.Sorted) (h : v.same w = true) : v.contains w = true := by
  induction w using inductionOn generalizing v with
  | null | bool | number => cases v <;> exact h
  | string t =>
      cases v with
      | string s =>
          obtain rfl := beq_iff_eq.mp h
          exact contains_refl hv
      | _ => cases h
  | array ys ih =>
      cases v with
      | array xs =>
          refine contains_array_iff.mpr ⟨xs, rfl, fun y hy => ?_⟩
          obtain ⟨x, hx, hsame⟩ := exists_same_of_sameItems h hy
          exact ⟨x, hx, ih y hy (sorted_array_iff.mp hv x hx) hsame⟩
      | _ => cases h
  | object gs ih =>
      cases v with
      | object fs =>
          obtain ⟨hkeys, hvalues⟩ := sorted_object_iff.mp hv
          refine contains_object_iff.mpr ⟨fs, rfl, fun g hg => ?_⟩
          obtain ⟨x, hx, hsame⟩ := exists_same_of_sameFields h hg
          exact ⟨x, (field?_eq_some_iff hkeys).mpr hx, ih g hg (hvalues _ hx) hsame⟩
      | _ => cases h

end Json

/-! ## Filters -/

namespace Filter

theorem Comparison.holds_eq_iff {o : Ordering} : Comparison.eq.holds o = true ↔ o = .eq := by
  cases o <;> decide

/-- The input compared with the one output of an expression. -/
theorem Expr.eval_equals {arg : Expr} {a b : Json} (h : arg.eval a = .ok [b]) :
    (Expr.compare .eq .identity arg).eval a =
      .ok [.bool (Comparison.eq.holds (a.order b))] := by
  rw [Expr.eval, h]
  rfl

/-- **A value contains what is equal to it, unless a number in it stands opposite an equal one of
another form.** A number contains an equal number exactly if that has the same form. -/
theorem Pairing.contains_equal_unless_respelled {a b : Json} {arg : Expr} (ha : a.Sorted)
    (harg : arg.eval a = .ok [b])
    (hequal : (Expr.compare .eq .identity arg).eval a = .ok [.bool true]) :
    (Expr.apply (.pairing .contains) arg).eval a = .ok [.bool (a.contains b)] ∧
      ((∀ p ∈ a.numbers.zip b.numbers, ¬p.1.Respelled p.2) → a.contains b = true) ∧
      ∀ m n, a = .number m → b = .number n → (a.contains b = false ↔ m.Respelled n) := by
  have horder : a.order b = .eq := by
    rw [Expr.eval_equals harg] at hequal
    exact Comparison.holds_eq_iff.mp (by simpa using hequal)
  refine ⟨?_, fun hforms => ?_, ?_⟩
  · rw [Expr.eval_contains harg, if_pos (Json.kind_eq_of_order_eq horder)]
  · exact Json.contains_of_same ha (Json.same_of_order_eq a b horder hforms)
  · rintro m n rfl rfl
    have hkey : m.toDouble.key = n.toDouble.key := Double.compare_eq_eq_iff.mp horder
    rw [Number.respelled_iff]
    exact ⟨fun h => ⟨hkey, h⟩, fun h => h.2⟩

/-- Both zeros, and an integer that is no double beside itself. -/
theorem Pairing.zeros_contain_equal_unless_respelled :
    let a : Json := .object [("ids", .array [.number (.int 9007199254740993), .string "a"]),
      ("load", .number (.real ⟨true, 0, 0⟩))]
    let b : Json := .object [("ids", .array [.number (.int 9007199254740993), .string "a"]),
      ("load", .number (.real ⟨false, 0, 0⟩))]
    a.Sorted ∧ (Expr.literal b).eval a = .ok [b] ∧
      (Expr.compare .eq .identity (.literal b)).eval a = .ok [.bool true] ∧
      (∀ p ∈ a.numbers.zip b.numbers, ¬p.1.Respelled p.2) ∧
      (Expr.apply (.pairing .contains) (.literal b)).eval a = .ok [.bool true] := by
  intro a b
  have ha : a.Sorted := by
    rw [Json.sorted_object_iff]
    exact ⟨by unfold Ascending; decide, by simp [Json.sorted_array_iff]⟩
  have hequal : (Expr.compare .eq .identity (.literal b)).eval a = .ok [.bool true] := by
    have horder : a.order b = .eq := by decide +kernel
    rw [Expr.eval_equals rfl, horder]
    rfl
  have hforms : ∀ p ∈ a.numbers.zip b.numbers, ¬p.1.Respelled p.2 := by decide +kernel
  obtain ⟨heval, hcontains, -⟩ := contains_equal_unless_respelled ha rfl hequal
  exact ⟨ha, rfl, hequal, hforms, by rw [heval, hcontains hforms]⟩

/-- **The double one is equal to the integer one and does not contain it.** -/
theorem Pairing.one_does_not_contain_one :
    let one : Json := .number (.real ⟨false, 4503599627370496, 1022⟩)
    one.kind = (Json.ofInt 1).kind ∧
      (Expr.compare .eq .identity (.literal (.ofInt 1))).eval one = .ok [.bool true] ∧
      (Expr.apply (.pairing .contains) (.literal (.ofInt 1))).eval one = .ok [.bool false] := by
  intro one
  have horder : one.order (.ofInt 1) = .eq := by decide +kernel
  refine ⟨rfl, ?_, ?_⟩
  · rw [Expr.eval_equals rfl, horder]
    rfl
  · rw [Expr.eval_contains rfl]
    rfl

end Filter

end Distill

import Distill.Filter.Eval
import Mathlib.Data.List.Forall2
import Mathlib.Data.List.Sort

/-!
# Comparing values

The order of the filter language is a total preorder on values, and two values are equal in it
exactly if they have the same shape: an integer and a double may be equal, and so may two integers
that round to one double.

An item of an array decides where all items before it are equal, so that transitivity needs more of
the items than their own transitivity: if two of three values are equal, they stand alike to the
third one. `Json.Coherent` says so of three orderings and is what the induction carries.

## Main definitions

* `Json.Coherent` — how three values stand to each other in a total preorder.
* `Json.SameShape` — equal scalars, in arrays of the same length and objects with the same keys.

## Main statements

* `Json.order_swap`, `Json.coherent_order` — the order of values is a total preorder.
* `Json.order_eq_iff` — values that are equal in the order.
* `Filter.Comparison.compares_as_total_preorder` — what follows for the comparisons of filters.
-/

namespace Distill

theorem Double.compare_eq_eq_iff {x y : Double} : x.compare y = .eq ↔ x.key = y.key :=
  Std.LawfulEqOrd.compare_eq_iff_eq

namespace Json

/-! ## Three orderings -/

/-- How three values stand to each other in a total preorder: the orderings of the first and
the second, of the second and the third, and of the first and the third value. -/
structure Coherent (ab bc ac : Ordering) : Prop where
  of_eq_left : ab = .eq → ac = bc
  of_eq_right : bc = .eq → ac = ab
  of_agree : ab = bc → ac = ab

section

variable {ab bc ac ab' bc' ac' : Ordering}

theorem Coherent.isLE (h : Coherent ab bc ac) (hab : ab.isLE) (hbc : bc.isLE) : ac.isLE := by
  rcases Ordering.isLE_iff_eq_lt_or_eq_eq.mp hab with rfl | rfl
  · rcases Ordering.isLE_iff_eq_lt_or_eq_eq.mp hbc with rfl | rfl
    · rw [h.of_agree rfl]; rfl
    · rw [h.of_eq_right rfl]; rfl
  · rwa [h.of_eq_left rfl]

/-- Values compared in one respect and, where they are equal in it, in another one. -/
theorem Coherent.then (h : Coherent ab bc ac)
    (h' : ab = .eq → bc = .eq → Coherent ab' bc' ac') :
    Coherent (ab.then ab') (bc.then bc') (ac.then ac') := by
  cases ab with
  | eq =>
      obtain rfl := h.of_eq_left rfl
      cases ac with
      | eq => exact h' rfl rfl
      | lt | gt => exact ⟨fun _ => rfl, nofun, Eq.symm⟩
  | lt | gt =>
      cases bc with
      | eq =>
          obtain rfl := h.of_eq_right rfl
          exact ⟨nofun, fun _ => rfl, fun _ => rfl⟩
      | lt | gt => exact ⟨nofun, nofun, fun hagree => by rw [h.of_agree hagree]; rfl⟩

end

/-- A lawful comparison of anything is coherent. -/
theorem coherent_of_transCmp {α : Type} (cmp : α → α → Ordering) [Std.TransCmp cmp] (a b c : α) :
    Coherent (cmp a b) (cmp b c) (cmp a c) where
  of_eq_left h := Std.TransCmp.congr_left h
  of_eq_right h := (Std.TransCmp.congr_right h).symm
  of_agree h := by
    cases hab : cmp a b with
    | lt => exact Std.TransCmp.lt_trans hab (h ▸ hab)
    | eq => exact Std.TransCmp.eq_trans hab (h ▸ hab)
    | gt => exact Std.TransCmp.gt_trans hab (h ▸ hab)

variable {v w : Json} {xs ys : List Json} {fs gs : List (String × Json)}

/-! ## Keys and ranks -/

theorem orderKeys_eq_compareLex (ks ls : List String) :
    orderKeys ks ls = List.compareLex compare ks ls := by
  induction ks generalizing ls with
  | nil => cases ls <;> rfl
  | cons k ks ih =>
      cases ls with
      | nil => rfl
      | cons l ls => rw [orderKeys, List.compareLex_cons_cons, ih]

instance : Std.TransCmp orderKeys := by
  have h : orderKeys = List.compareLex compare := by
    funext ks ls
    exact orderKeys_eq_compareLex ks ls
  rw [h]
  infer_instance

theorem orderKeys_eq_iff {ks ls : List String} : orderKeys ks ls = .eq ↔ ks = ls := by
  rw [orderKeys_eq_compareLex]
  exact Std.LawfulEqCmp.compare_eq_iff_eq

theorem length_eq_of_keys (h : fs.map (·.1) = gs.map (·.1)) : fs.length = gs.length := by
  simpa using congrArg List.length h

/-- Two values of one rank. -/
inductive Aligned : Json → Json → Prop
  | null : Aligned null null
  | bool (b : Bool) : Aligned (bool b) (bool b)
  | number (m n : Number) : Aligned (number m) (number n)
  | string (s t : String) : Aligned (string s) (string t)
  | array (xs ys : List Json) : Aligned (array xs) (array ys)
  | object (fs gs : List (String × Json)) : Aligned (object fs) (object gs)

theorem aligned_of_rank_eq (h : v.rank = w.rank) : Aligned v w := by
  rcases v with _ | (_ | _) | _ | _ | _ | _ <;> rcases w with _ | (_ | _) | _ | _ | _ | _ <;>
    first | constructor | cases h

/-- Values of different ranks are compared by their ranks. -/
theorem order_of_rank_ne (h : v.rank ≠ w.rank) : v.order w = compare v.rank w.rank := by
  rw [order.eq_def]
  split <;> first | exact absurd rfl h | rfl

theorem order_eq_then_rank (v w : Json) :
    v.order w = (compare v.rank w.rank).then (v.order w) := by
  by_cases h : v.rank = w.rank
  · rw [Nat.compare_eq_eq.mpr h]
    rfl
  · rw [order_of_rank_ne h]
    cases compare v.rank w.rank <;> rfl

/-! ## The other way round -/

mutual

/-- **The other way round, the order of two values is turned around.** -/
theorem order_swap (v w : Json) : w.order v = (v.order w).swap := by
  by_cases h : v.rank = w.rank
  · match v, w, aligned_of_rank_eq h with
    | _, _, .null => rfl
    | _, _, .bool b => cases b <;> rfl
    | _, _, .number m n => exact Std.OrientedOrd.eq_swap
    | _, _, .string s t => exact Std.OrientedOrd.eq_swap
    | _, _, .array xs ys => exact orderItems_swap xs ys
    | _, _, .object fs gs =>
        have hkeys : orderKeys (gs.map (·.1)) (fs.map (·.1)) =
          (orderKeys (fs.map (·.1)) (gs.map (·.1))).swap := Std.OrientedCmp.eq_swap
        rw [order, order, Ordering.swap_then, hkeys, orderValues_swap fs gs]
  · rw [order_of_rank_ne h, order_of_rank_ne (Ne.symm h)]
    exact Std.OrientedOrd.eq_swap

theorem orderItems_swap (xs ys : List Json) : orderItems ys xs = (orderItems xs ys).swap := by
  match xs, ys with
  | [], [] | [], _ :: _ | _ :: _, [] => rfl
  | x :: xs, y :: ys =>
      rw [orderItems, orderItems, Ordering.swap_then, order_swap x y, orderItems_swap xs ys]

theorem orderValues_swap (fs gs : List (String × Json)) :
    orderValues gs fs = (orderValues fs gs).swap := by
  match fs, gs with
  | [], [] | [], _ :: _ | _ :: _, [] => rfl
  | (_, x) :: fs, (_, y) :: gs =>
      rw [orderValues, orderValues, Ordering.swap_then, order_swap x y, orderValues_swap fs gs]

end

/-! ## Three values -/

mutual

/-- **Three values stand to each other as in a total preorder.** -/
theorem coherent_order (a b c : Json) : Coherent (a.order b) (b.order c) (a.order c) := by
  rw [order_eq_then_rank a b, order_eq_then_rank b c, order_eq_then_rank a c]
  refine (coherent_of_transCmp compare a.rank b.rank c.rank).then fun hab hbc => ?_
  match a, b, c, aligned_of_rank_eq (Nat.compare_eq_eq.mp hab),
      aligned_of_rank_eq (Nat.compare_eq_eq.mp hbc) with
  | _, _, _, .null, .null => exact ⟨fun _ => rfl, fun _ => rfl, fun _ => rfl⟩
  | _, _, _, .bool b, .bool _ => cases b <;> exact ⟨fun _ => rfl, fun _ => rfl, fun _ => rfl⟩
  | _, _, _, .number l m, .number _ n =>
      exact coherent_of_transCmp compare l.toDouble.key m.toDouble.key n.toDouble.key
  | _, _, _, .string r s, .string _ t => exact coherent_of_transCmp compare r s t
  | _, _, _, .array xs ys, .array _ zs => exact coherent_orderItems xs ys zs
  | _, _, _, .object fs gs, .object _ hs =>
      rw [order, order, order]
      refine (coherent_of_transCmp orderKeys _ _ _).then fun hfg hgh => ?_
      exact coherent_orderValues fs gs hs (length_eq_of_keys (orderKeys_eq_iff.mp hfg))
        (length_eq_of_keys (orderKeys_eq_iff.mp hgh))

theorem coherent_orderItems (xs ys zs : List Json) :
    Coherent (orderItems xs ys) (orderItems ys zs) (orderItems xs zs) := by
  match xs, ys, zs with
  | [], [], [] | [], [], _ :: _ | [], _ :: _, [] | [], _ :: _, _ :: _ | _ :: _, [], []
  | _ :: _, [], _ :: _ | _ :: _, _ :: _, [] => constructor <;> simp +contextual [orderItems]
  | x :: xs, y :: ys, z :: zs =>
      exact (coherent_order x y z).then fun _ _ => coherent_orderItems xs ys zs

/-- Values of fields are compared place by place, which is coherent only for fields of one number:
where the keys are equal. -/
theorem coherent_orderValues (fs gs hs : List (String × Json)) (hfg : fs.length = gs.length)
    (hgh : gs.length = hs.length) :
    Coherent (orderValues fs gs) (orderValues gs hs) (orderValues fs hs) := by
  match fs, gs, hs, hfg, hgh with
  | [], [], [], _, _ => exact ⟨fun _ => rfl, fun _ => rfl, fun _ => rfl⟩
  | (_, x) :: fs, (_, y) :: gs, (_, z) :: hs, hfg, hgh =>
      exact (coherent_order x y z).then fun _ _ =>
        coherent_orderValues fs gs hs (Nat.succ.inj hfg) (Nat.succ.inj hgh)
end

/-! ## Shapes -/

/-- The same scalars, with numbers compared as doubles, in arrays of the same length and in
objects with the same keys. -/
inductive SameShape : Json → Json → Prop
  | null : SameShape null null
  | bool (b : Bool) : SameShape (bool b) (bool b)
  | number {m n : Number} (key_eq : m.toDouble.key = n.toDouble.key) :
      SameShape (number m) (number n)
  | string (s : String) : SameShape (string s) (string s)
  | array {xs ys : List Json} (length_eq : xs.length = ys.length)
      (items : ∀ (i : Nat) (x y : Json), xs[i]? = some x → ys[i]? = some y → SameShape x y) :
      SameShape (array xs) (array ys)
  | object {fs gs : List (String × Json)} (keys : ∀ k, k ∈ fs.map (·.1) ↔ k ∈ gs.map (·.1))
      (values : ∀ k x y, field? k fs = some x → field? k gs = some y → SameShape x y) :
      SameShape (object fs) (object gs)

theorem sameShape_number_iff {m n : Number} :
    SameShape (number m) (number n) ↔ m.toDouble.key = n.toDouble.key :=
  ⟨fun | .number h => h, .number⟩

theorem sameShape_array_iff : SameShape (array xs) (array ys) ↔ List.Forall₂ SameShape xs ys := by
  rw [List.forall₂_iff_get]
  constructor
  · rintro (_ | _ | _ | _ | ⟨hlength, hitems⟩)
    refine ⟨hlength, fun i hx hy => hitems i _ _ ?_ ?_⟩ <;> simp
  · rintro ⟨hlength, hitems⟩
    refine .array hlength fun i x y hx hy => ?_
    obtain ⟨hxlt, rfl⟩ := List.getElem?_eq_some_iff.mp hx
    obtain ⟨hylt, rfl⟩ := List.getElem?_eq_some_iff.mp hy
    exact hitems i hxlt hylt

/-- Fields in order with the same keys have the same key at each place. -/
theorem map_fst_eq_of_ascending (hfs : Ascending fs) (hgs : Ascending gs)
    (h : ∀ k, k ∈ fs.map (·.1) ↔ k ∈ gs.map (·.1)) : fs.map (·.1) = gs.map (·.1) :=
  List.Pairwise.eq_of_mem_iff hfs hgs h

/-- In ordered fields a key stands once. -/
theorem field?_eq_some_iff (h : Ascending fs) {k : String} {x : Json} :
    field? k fs = some x ↔ (k, x) ∈ fs := by
  rw [field?, List.lookup_eq_some_iff]
  constructor
  · rintro ⟨before, after, rfl, -⟩
    simp
  · intro hmem
    obtain ⟨before, after, rfl⟩ := List.append_of_mem hmem
    refine ⟨before, after, rfl, fun f hf => bne_iff_ne.mpr ?_⟩
    rw [Ascending, List.map_append, List.pairwise_append] at h
    exact (String.ne_of_lt (h.2.2 f.1 (List.mem_map_of_mem hf) k (by simp))).symm

/-- In two lists of fields with the same keys, the values under a key stand at one place. -/
theorem forall₂_values_iff {R : Json → Json → Prop} (hfs : Ascending fs) (hgs : Ascending gs)
    (hkeys : fs.map (·.1) = gs.map (·.1)) :
    List.Forall₂ (fun f g => R f.2 g.2) fs gs ↔
      ∀ k x y, field? k fs = some x → field? k gs = some y → R x y := by
  have hlength := length_eq_of_keys hkeys
  have hkey : ∀ (i : Nat) (hf : i < fs.length) (hg : i < gs.length), fs[i].1 = gs[i].1 := by
    intro i hf hg
    simpa [hf, hg] using congrArg (·[i]?) hkeys
  rw [List.forall₂_iff_get]
  constructor
  · rintro ⟨-, hvalues⟩ k x y hx hy
    obtain ⟨i, hi, hfi⟩ := List.getElem_of_mem ((field?_eq_some_iff hfs).mp hx)
    have hgi : gs[i] = (k, gs[i].2) := Prod.ext (by rw [← hkey i hi (hlength ▸ hi), hfi]) rfl
    have hy' : field? k gs = some gs[i].2 :=
      (field?_eq_some_iff hgs).mpr (hgi ▸ List.getElem_mem (hlength ▸ hi))
    obtain rfl : y = gs[i].2 := Option.some.inj (hy.symm.trans hy')
    simpa [hfi] using hvalues i hi (hlength ▸ hi)
  · refine fun h => ⟨hlength, fun i hf hg => h fs[i].1 _ _ ?_ ?_⟩
    · exact (field?_eq_some_iff hfs).mpr (List.getElem_mem hf)
    · rw [hkey i hf hg]
      exact (field?_eq_some_iff hgs).mpr (List.getElem_mem hg)

theorem sameShape_object_iff (hfs : Ascending fs) (hgs : Ascending gs) :
    SameShape (object fs) (object gs) ↔
      fs.map (·.1) = gs.map (·.1) ∧ List.Forall₂ (fun f g => SameShape f.2 g.2) fs gs := by
  constructor
  · rintro (_ | _ | _ | _ | _ | ⟨hkeys, hvalues⟩)
    have heq := map_fst_eq_of_ascending hfs hgs hkeys
    exact ⟨heq, (forall₂_values_iff hfs hgs heq).mpr hvalues⟩
  · rintro ⟨hkeys, hvalues⟩
    exact .object (fun k => by rw [hkeys]) ((forall₂_values_iff hfs hgs hkeys).mp hvalues)

theorem SameShape.rank_eq (h : SameShape v w) : v.rank = w.rank := by
  cases h <;> rfl

mutual

/-- **Values that are equal in the order have the same shape.** -/
theorem order_eq_iff (v w : Json) (hv : v.Sorted) (hw : w.Sorted) :
    v.order w = .eq ↔ SameShape v w := by
  by_cases h : v.rank = w.rank
  · match v, w, aligned_of_rank_eq h with
    | _, _, .null => exact iff_of_true rfl .null
    | _, _, .bool b => exact iff_of_true (by cases b <;> rfl) (.bool b)
    | _, _, .number m n => rw [sameShape_number_iff, order, Double.compare_eq_eq_iff]
    | _, _, .string s t =>
        rw [order, Std.LawfulEqOrd.compare_eq_iff_eq]
        constructor
        · rintro rfl
          exact .string s
        · rintro ⟨⟩
          rfl
    | _, _, .array xs ys => rw [sameShape_array_iff, order, orderItems_eq_iff xs ys hv hw]
    | _, _, .object fs gs =>
        rw [sameShape_object_iff hv.1 hw.1, order, Ordering.then_eq_eq, orderKeys_eq_iff]
        refine and_congr_right fun hkeys => ?_
        exact orderValues_eq_iff fs gs (length_eq_of_keys hkeys) hv.2 hw.2
  · refine iff_of_false ?_ fun hshape => h hshape.rank_eq
    rwa [order_of_rank_ne h, Nat.compare_eq_eq]

theorem orderItems_eq_iff (xs ys : List Json) (hxs : SortedItems xs) (hys : SortedItems ys) :
    orderItems xs ys = .eq ↔ List.Forall₂ SameShape xs ys := by
  match xs, ys with
  | [], [] => simp [orderItems]
  | [], _ :: _ | _ :: _, [] => simp [orderItems]
  | x :: xs, y :: ys =>
      rw [orderItems, Ordering.then_eq_eq, List.forall₂_cons, order_eq_iff x y hxs.1 hys.1,
        orderItems_eq_iff xs ys hxs.2 hys.2]

theorem orderValues_eq_iff (fs gs : List (String × Json)) (hlength : fs.length = gs.length)
    (hfs : SortedValues fs) (hgs : SortedValues gs) :
    orderValues fs gs = .eq ↔ List.Forall₂ (fun f g => SameShape f.2 g.2) fs gs := by
  match fs, gs, hlength with
  | [], [], _ => simp [orderValues]
  | (_, x) :: fs, (_, y) :: gs, hlength =>
      rw [orderValues, Ordering.then_eq_eq, List.forall₂_cons, order_eq_iff x y hfs.1 hgs.1,
        orderValues_eq_iff fs gs (Nat.succ.inj hlength) hfs.2 hgs.2]

end

/-- The order of values is a total preorder. -/
instance : Std.TransCmp order where
  eq_swap {v w} := order_swap w v
  isLE_trans {a b c} hab hbc := (coherent_order a b c).isLE hab hbc

end Json

namespace Filter.Comparison

theorem holds_le_iff (o : Ordering) : le.holds o = true ↔ o.isLE = true := by
  cases o <;> decide

/-- One value is less than, equal to or greater than another one. -/
theorem existsUnique_holds (o : Ordering) : ∃! op, op ∈ [lt, eq, gt] ∧ op.holds o = true := by
  cases o with
  | lt => exact ⟨lt, by decide, by rintro (_ | _ | _ | _ | _ | _) <;> simp [holds]⟩
  | eq => exact ⟨eq, by decide, by rintro (_ | _ | _ | _ | _ | _) <;> simp [holds]⟩
  | gt => exact ⟨gt, by decide, by rintro (_ | _ | _ | _ | _ | _) <;> simp [holds]⟩

theorem holds_le (o : Ordering) : le.holds o = !gt.holds o := by
  cases o <;> rfl

theorem holds_ge (o : Ordering) : ge.holds o = !lt.holds o := by
  cases o <;> rfl

/-- **Comparing values is a total preorder.** The other way round the order is turned around, `<=`
is transitive, and two values are equal exactly if they have the same shape. -/
theorem compares_as_total_preorder (a b c : Json) :
    b.order a = (a.order b).swap ∧
      (le.holds (a.order b) = true → le.holds (b.order c) = true → le.holds (a.order c) = true) ∧
      (a.Sorted → b.Sorted → (a.order b = .eq ↔ a.SameShape b)) ∧
      (∃! op, op ∈ [lt, eq, gt] ∧ op.holds (a.order b) = true) ∧
      le.holds (a.order b) = !gt.holds (a.order b) ∧ ge.holds (a.order b) = !lt.holds (a.order b) ∧
      ∀ (op : Comparison) (l r : Expr) (v : Json), l.eval v = .ok [a] → r.eval v = .ok [b] →
        (Expr.compare op l r).eval v = .ok [.bool (op.holds (a.order b))] := by
  refine ⟨Json.order_swap a b, fun hab hbc => ?_, Json.order_eq_iff a b, existsUnique_holds _,
    holds_le _, holds_ge _, fun op l r v hl hr => ?_⟩
  · rw [holds_le_iff] at hab hbc ⊢
    exact Std.TransCmp.isLE_trans hab hbc
  · rw [Expr.eval, hl, hr]
    rfl

/-- An integer that is no double, the double next to it, and an object with one more key. -/
theorem rounded_compares_as_total_preorder :
    let a : Json := .object [("id", .ofInt 9007199254740993)]
    let b : Json := .object [("id", .number (.real ⟨false, 4503599627370496, 1075⟩))]
    let c : Json := .object [("id", .ofInt 9007199254740992), ("ok", .null)]
    a.Sorted ∧ b.Sorted ∧ a.SameShape b ∧ le.holds (a.order b) = true ∧
      le.holds (b.order c) = true ∧ le.holds (a.order c) = true ∧
      (Expr.compare .lt (.literal b) (.literal c)).eval .null = .ok [.bool true] := by
  intro a b c
  have ha : a.Sorted := ⟨by simp [Ascending], trivial, trivial⟩
  have hb : b.Sorted := ⟨by simp [Ascending], trivial, trivial⟩
  have hab : a.order b = .eq := by decide +kernel
  have hbc : b.order c = .lt := by decide +kernel
  obtain ⟨-, htrans, hshape, -⟩ := compares_as_total_preorder a b c
  obtain ⟨-, -, -, -, -, -, heval⟩ := compares_as_total_preorder b c a
  have hle : le.holds (a.order b) = true := by rw [hab]; rfl
  have hle' : le.holds (b.order c) = true := by rw [hbc]; rfl
  refine ⟨ha, hb, (hshape ha hb).mp hab, hle, hle', htrans hle hle', ?_⟩
  rw [heval .lt (.literal b) (.literal c) .null rfl rfl, hbc]
  rfl

end Filter.Comparison

end Distill

import Distill.Proofs.Filter.Comparison
import Distill.Proofs.Json.Ordered

/-!
# Containment

What a value contains, by the form of the value that is looked for: itself if that is a scalar, a
text if it stands in it without a gap, an array if each of its items is in an item, and an object
if the value of each of its keys is in the value under this key. In values with ordered fields this
is a preorder, and only values of one kind stand in it.

An item of an array may be found in any item, whatever the items beside it are found in, so that
two arrays of different lengths may contain each other: containment is no order.

## Main statements

* `Json.isInfix_iff` — texts in texts.
* `Json.contains_iff`, and with the values in them `contains_array_iff`, `contains_object_iff` —
  what contains a value.
* `Json.contains_refl`, `Json.contains_trans` — containment is a preorder.
* `Filter.Expr.eval_contains` — what the filter gives for one output of its argument.
* `Filter.Pairing.contains_as_preorder` — what follows for filters.
-/

namespace Distill

namespace Number

theorem same_refl (n : Number) : n.same n = true := by
  cases n <;> simp [same]

theorem same_trans {l m n : Number} (hlm : l.same m = true) (hmn : m.same n = true) :
    l.same n = true := by
  cases l <;> cases m <;> cases n <;> simp_all [same]

end Number

namespace Json

variable {v w : Json} {xs ys : List Json} {fs gs : List (String × Json)}

/-! ## What contains a value -/

theorem isInfix_iff {α : Type} [BEq α] [LawfulBEq α] {part l : List α} :
    isInfix part l = true ↔ part <:+: l := by
  induction l with
  | nil => simp [isInfix]
  | cons c rest ih =>
      rw [isInfix, Bool.or_eq_true, ih, List.isPrefixOf_iff_prefix, List.infix_cons_iff]

/-- What contains a value, by the form of that value. -/
theorem contains_iff : v.contains w = true ↔
    match w with
    | null => v = null
    | bool b => v = bool b
    | number n => ∃ m, v = number m ∧ m.same n = true
    | string t => ∃ s, v = string s ∧ t.toList <:+: s.toList
    | array ys => ∃ xs, v = array xs ∧ containsItems xs ys = true
    | object gs => ∃ fs, v = object fs ∧ containsFields fs gs = true := by
  cases v <;> cases w <;> simp [contains, same, isInfix_iff]

/-- **A value is contained in values of its kind only.** -/
theorem kind_eq_of_contains (h : v.contains w = true) : v.kind = w.kind := by
  cases w with
  | null => obtain rfl := contains_iff.mp h; rfl
  | bool b => obtain rfl := contains_iff.mp h; rfl
  | number n => obtain ⟨m, rfl, -⟩ := contains_iff.mp h; rfl
  | string t => obtain ⟨s, rfl, -⟩ := contains_iff.mp h; rfl
  | array ys => obtain ⟨xs, rfl, -⟩ := contains_iff.mp h; rfl
  | object gs => obtain ⟨fs, rfl, -⟩ := contains_iff.mp h; rfl

/-- The kinds of items need no look: an item that contains another one is of its kind. -/
theorem containsItems_iff :
    containsItems xs ys = true ↔ ∀ y ∈ ys, ∃ x ∈ xs, x.contains y = true := by
  induction ys with
  | nil => simp [containsItems]
  | cons y ys ih =>
      rw [containsItems, Bool.and_eq_true, ih, List.forall_mem_cons, List.any_eq_true]
      refine and_congr_left fun _ => exists_congr fun x => and_congr_right fun _ => ?_
      rw [Bool.and_eq_true, beq_iff_eq]
      exact and_iff_right_of_imp kind_eq_of_contains

theorem containsFields_iff : containsFields fs gs = true ↔
    ∀ g ∈ gs, ∃ x, field? g.1 fs = some x ∧ x.contains g.2 = true := by
  induction gs with
  | nil => simp [containsFields]
  | cons g gs ih =>
      obtain ⟨k, y⟩ := g
      rw [containsFields, Bool.and_eq_true, ih, List.forall_mem_cons]
      refine and_congr_left fun _ => ?_
      cases field? k fs with
      | none => simp
      | some x =>
          simp only [Bool.and_eq_true, beq_iff_eq, Option.some.injEq, exists_eq_left']
          exact and_iff_right_of_imp kind_eq_of_contains

theorem contains_array_iff : v.contains (array ys) = true ↔
    ∃ xs, v = array xs ∧ ∀ y ∈ ys, ∃ x ∈ xs, x.contains y = true := by
  rw [contains_iff]
  exact exists_congr fun xs => and_congr_right fun _ => containsItems_iff

theorem contains_object_iff : v.contains (object gs) = true ↔
    ∃ fs, v = object fs ∧ ∀ g ∈ gs, ∃ x, field? g.1 fs = some x ∧ x.contains g.2 = true := by
  rw [contains_iff]
  exact exists_congr fun fs => and_congr_right fun _ => containsFields_iff

/-! ## A preorder -/

theorem mem_of_field? {k : String} (h : field? k fs = some v) : (k, v) ∈ fs := by
  obtain ⟨before, after, rfl, -⟩ := List.lookup_eq_some_iff.mp h
  simp

/-- **A value with ordered fields contains itself.** Of two fields with one key only the first would
be found. -/
theorem contains_refl (h : v.Sorted) : v.contains v = true := by
  induction v using inductionOn with
  | null => exact contains_iff.mpr rfl
  | bool b => exact contains_iff.mpr rfl
  | number n => exact contains_iff.mpr ⟨n, rfl, n.same_refl⟩
  | string s => exact contains_iff.mpr ⟨s, rfl, List.infix_rfl⟩
  | array items ih =>
      refine contains_array_iff.mpr ⟨items, rfl, fun v hv => ⟨v, hv, ?_⟩⟩
      exact ih v hv (sorted_array_iff.mp h v hv)
  | object fields ih =>
      obtain ⟨hkeys, hvalues⟩ := sorted_object_iff.mp h
      refine contains_object_iff.mpr ⟨fields, rfl, fun f hf => ⟨f.2, ?_, ?_⟩⟩
      · exact (field?_eq_some_iff hkeys).mpr hf
      · exact ih f hf (hvalues f hf)

/-- **What is in a part of a value is in the value.** -/
theorem contains_trans {a b c : Json} (hab : a.contains b = true) (hbc : b.contains c = true) :
    a.contains c = true := by
  induction c using inductionOn generalizing a b with
  | null =>
      obtain rfl := contains_iff.mp hbc
      exact hab
  | bool d =>
      obtain rfl := contains_iff.mp hbc
      exact hab
  | number n =>
      obtain ⟨m, rfl, hmn⟩ := contains_iff.mp hbc
      obtain ⟨l, rfl, hlm⟩ := contains_iff.mp hab
      exact contains_iff.mpr ⟨l, rfl, Number.same_trans hlm hmn⟩
  | string t =>
      obtain ⟨s, rfl, hts⟩ := contains_iff.mp hbc
      obtain ⟨r, rfl, hsr⟩ := contains_iff.mp hab
      exact contains_iff.mpr ⟨r, rfl, hts.trans hsr⟩
  | array zs ih =>
      obtain ⟨ys, rfl, hys⟩ := contains_array_iff.mp hbc
      obtain ⟨xs, rfl, hxs⟩ := contains_array_iff.mp hab
      refine contains_array_iff.mpr ⟨xs, rfl, fun z hz => ?_⟩
      obtain ⟨y, hy, hyz⟩ := hys z hz
      obtain ⟨x, hx, hxy⟩ := hxs y hy
      exact ⟨x, hx, ih z hz hxy hyz⟩
  | object hs ih =>
      obtain ⟨gs, rfl, hgs⟩ := contains_object_iff.mp hbc
      obtain ⟨fs, rfl, hfs⟩ := contains_object_iff.mp hab
      refine contains_object_iff.mpr ⟨fs, rfl, fun h hh => ?_⟩
      obtain ⟨y, hy, hyz⟩ := hgs h hh
      obtain ⟨x, hx, hxy⟩ := hfs (h.1, y) (mem_of_field? hy)
      exact ⟨x, hx, ih h hh hxy hyz⟩

end Json

namespace Filter

/-- Containment is asked of values of one kind only. -/
theorem Expr.eval_contains {arg : Expr} {a b : Json} (h : arg.eval a = .ok [b]) :
    (Expr.apply (.pairing .contains) arg).eval a =
      if a.kind = b.kind then .ok [.bool (a.contains b)]
      else .error (.incomparable a.kind b.kind) := by
  simp only [Expr.eval, h, Pairing.checkInput]
  by_cases hkind : a.kind = b.kind
  · simp [Pairing.eval, hkind, bind, Except.bind, pure, Except.pure]
  · simp [Pairing.eval, hkind, bind, Except.bind]

/-- **Containment is a preorder of values of one kind.** Values of different kinds do not contain
each other, and a filter that asks whether they do has no output. -/
theorem Pairing.contains_as_preorder (a b c : Json) :
    (a.Sorted → a.contains a = true) ∧
      (a.contains b = true → b.contains c = true → a.contains c = true) ∧
      (a.kind ≠ b.kind → a.contains b = false) ∧
      ∀ arg : Expr, arg.eval a = .ok [b] →
        (Expr.apply (.pairing .contains) arg).eval a =
          if a.kind = b.kind then .ok [.bool (a.contains b)]
          else .error (.incomparable a.kind b.kind) := by
  refine ⟨Json.contains_refl, Json.contains_trans, fun hkind => ?_, fun _ => Expr.eval_contains⟩
  exact Bool.eq_false_of_not_eq_true fun h => hkind (Json.kind_eq_of_contains h)

/-- Texts in items, in an order of their own, and a key that is left out. -/
theorem Pairing.events_contain_as_preorder :
    let a : Json := .object [("at", .number (.real ⟨true, 0, 0⟩)),
      ("log", .array [.string "kernel: oom-killer", .array [.null, .bool true], .number (.int 7)])]
    let b : Json := .object [("at", .number (.real ⟨false, 0, 0⟩)),
      ("log", .array [.array [.null, .null], .string "oom-killer", .string "kernel"])]
    let c : Json := .object [("log", .array [.string "oom", .array []])]
    a.Sorted ∧ a.contains a = true ∧ a.contains b = true ∧ b.contains c = true ∧
      a.contains c = true ∧ a.kind ≠ (Json.array []).kind ∧ a.contains (.array []) = false ∧
      (Expr.apply (.pairing .contains) (.literal (.array []))).eval a =
        .error (.incomparable .object .array) := by
  intro a b c
  have ha : a.Sorted := by
    rw [Json.sorted_object_iff]
    exact ⟨by unfold Ascending; decide, by simp [Json.sorted_array_iff]⟩
  have hab : a.contains b = true := by decide +kernel
  have hbc : b.contains c = true := by decide +kernel
  have hkind : a.kind ≠ (Json.array []).kind := by decide
  obtain ⟨hrefl, htrans, -⟩ := contains_as_preorder a b c
  obtain ⟨-, -, hnever, heval⟩ := contains_as_preorder a (.array []) c
  exact ⟨ha, hrefl ha, hab, hbc, htrans hab hbc, hkind, hnever hkind,
    heval (.literal (.array [])) rfl⟩

end Filter

end Distill

import Distill.Filter.Eval
import Distill.Proofs.Filter.Reading
import Distill.Proofs.Json.Ordered

/-!
# What filters make

A filter makes no objects: the objects among its outputs come from its input and from the values
that are written in it. So its outputs have ordered fields if its input has, whatever the filter
does, and the values written in a filter that was read from a text are scalars and empty arrays.
How deep the outputs are nested is bounded by the filter: only a few expressions make arrays.

## Main definitions

* `Filter.Expr.Ordered` — the values written in an expression have ordered fields.
* `Filter.Expr.reach` — how deep the outputs are nested at most.

## Main statements

* `Filter.Expr.within_of_eval` — the outputs of an expression.
* `Filter.Expr.ordered_of_parse` — the expressions of texts.
* `Filter.within_of_apply` — the outputs of a filter.
-/

namespace Distill.Filter

open Json (sorted_array_iff within_array)

/-! ## Functions -/

section Functions

variable {v w arg : Json} {items vs ws : List Json} {n : Nat}

theorem exists_of_mem_eachOutput {f : Json → Outputs} (h : eachOutput f vs = .ok ws)
    (hw : w ∈ ws) : ∃ v ∈ vs, ∃ xs, f v = .ok xs ∧ w ∈ xs := by
  obtain ⟨lists, hlists, rfl⟩ := map_eq_ok_iff.mp h
  obtain ⟨xs, hxs, hw⟩ := List.mem_flatten.mp hw
  obtain ⟨v, hv, hf⟩ := exists_of_mem_mapM hlists hxs
  exact ⟨v, hv, xs, hf, hw⟩

/-- A property of all outputs for each of some values. -/
theorem forall_mem_eachOutput {P : Json → Prop} {f : Json → Outputs} (h : eachOutput f vs = .ok ws)
    (hf : ∀ v ∈ vs, ∀ xs, f v = .ok xs → ∀ w ∈ xs, P w) : ∀ w ∈ ws, P w := by
  intro w hw
  obtain ⟨v, hv, xs, hxs, hw⟩ := exists_of_mem_eachOutput h hw
  exact hf v hv xs hxs w hw

theorem eq_array_of_itemsFor {fault : Json.Kind → EvalError} (h : itemsFor fault v = .ok items) :
    v = .array items := by
  cases v with
  | array vs => rw [← Except.ok.inj h]
  | null | bool | number | string | object => cases h

theorem within_itemAt (h : ∀ v ∈ items, v.Within n) (i : Int) : (itemAt items i).Within n := by
  have hplace : ∀ k : Nat, (items[k]?.getD .null).Within n := by
    intro k
    cases hitem : items[k]? with
    | none => exact Json.within_null n
    | some v => exact h v (List.mem_of_getElem? hitem)
  simp only [itemAt]
  split
  · split
    · exact Json.within_null n
    · exact hplace _
  · exact hplace _

mutual

/-- What is flattened was there before, and is nested no deeper. -/
theorem within_of_mem_flattenItem {depth : Nat} {v : Json} (hv : v.Within n) :
    ∀ w ∈ flattenItem depth v, w.Within n := by
  match depth, v with
  | depth + 1, .array items =>
      exact within_of_mem_flattenItems fun w hw => (hv.forall_items w hw).mono (Nat.sub_le n 1)
  | 0, _ | _ + 1, .object _ => simpa [flattenItem] using hv
  | _ + 1, .null | _ + 1, .bool _ | _ + 1, .number _ | _ + 1, .string _ => simp [flattenItem]

theorem within_of_mem_flattenItems {depth : Nat} {items : List Json}
    (hitems : ∀ v ∈ items, v.Within n) : ∀ w ∈ flattenItems depth items, w.Within n := by
  match items with
  | [] => simp [flattenItems]
  | v :: rest =>
      intro w hw
      rcases List.mem_append.mp hw with hw | hw
      · exact within_of_mem_flattenItem (hitems v List.mem_cons_self) w hw
      · exact within_of_mem_flattenItems (fun u hu => hitems u (List.mem_cons_of_mem _ hu)) w hw

end

/-- A flattened array is nested no deeper. -/
theorem within_array_flattenItems (h : (Json.array items).Within n) (depth : Nat) :
    (Json.array (flattenItems depth items)).Within n :=
  h.replace (within_of_mem_flattenItems h.forall_items)

theorem within_literalNumber (x : Binary64) (n : Nat) : (literalNumber x).Within n := by
  rw [literalNumber.eq_def]
  split
  · split <;> exact Json.within_number _ n
  · exact Json.within_null n

theorem within_lengthOf (h : lengthOf v = .ok w) (n : Nat) : w.Within n := by
  cases v with
  | bool b => cases h
  | number x =>
      rw [← Except.ok.inj h]
      exact within_literalNumber _ n
  | null | string s | array items | object fields =>
      rw [← Except.ok.inj h]
      exact Json.within_number _ n

theorem within_keysOf (h : keysOf v = .ok w) : w.Within 1 := by
  cases v with
  | object fields =>
      rw [← Except.ok.inj h]
      exact within_array (List.forall_mem_map.mpr fun f _ => Json.within_string f.1 0)
  | array items =>
      rw [← Except.ok.inj h]
      exact within_array (List.forall_mem_map.mpr fun i _ => Json.within_number (.int i) 0)
  | null | bool | number | string => cases h

/-- How deep the output of a function is nested at most, for an input nested so deeply. -/
def Nullary.reach : Nullary → Nat → Nat
  | flatten, n | values, n => n
  | keys, _ => 1
  | length, _ | empty, _ | not, _ | tostring, _ | asciiDowncase, _ | asciiUpcase, _ => 0

/-- How deep the output of a function of two values is nested: only parts of a text are a list. -/
def Pairing.reach : Pairing → Nat
  | split => 1
  | contains | startswith | endswith | join | test => 0

/-- **A function without an argument keeps fields in order,** and what it makes is not nested
more deeply than it reaches. -/
theorem Nullary.within_of_eval {f : Nullary} (hv : v.Within n) (h : f.eval v = .ok ws) :
    ∀ w ∈ ws, w.Within (f.reach n) := by
  cases f with
  | flatten =>
      obtain ⟨items, hitems, hws⟩ := bind_eq_ok_iff.mp h
      obtain rfl := eq_array_of_itemsFor hitems
      obtain rfl := Except.ok.inj hws
      rintro w (_ | ⟨_, ⟨⟩⟩)
      exact within_array_flattenItems hv _
  | keys =>
      obtain ⟨u, hu, rfl⟩ := map_eq_ok_iff.mp h
      rintro w (_ | ⟨_, ⟨⟩⟩)
      exact within_keysOf hu
  | length =>
      obtain ⟨u, hu, rfl⟩ := map_eq_ok_iff.mp h
      rintro w (_ | ⟨_, ⟨⟩⟩)
      exact within_lengthOf hu 0
  | values =>
      obtain rfl := Except.ok.inj h
      cases v <;> simp [reach, hv]
  | empty =>
      obtain rfl := Except.ok.inj h
      simp
  | not | tostring =>
      obtain rfl := Except.ok.inj h
      simp
  | asciiDowncase | asciiUpcase =>
      obtain ⟨s, -, h⟩ := bind_eq_ok_iff.mp h
      obtain rfl := Except.ok.inj h
      simp

/-- What a function of two values gives is a scalar, or the parts of a text. -/
theorem Pairing.within_of_eval {f : Pairing} (h : f.eval v arg = .ok w) : w.Within f.reach := by
  cases f with
  | contains =>
      rw [Pairing.eval] at h
      split at h
      · rw [← Except.ok.inj h]
        exact Json.within_bool _ 0
      · cases h
  | startswith | endswith =>
      obtain ⟨s, -, h⟩ := bind_eq_ok_iff.mp h
      obtain ⟨part, -, h⟩ := bind_eq_ok_iff.mp h
      rw [← Except.ok.inj h]
      exact Json.within_bool _ 0
  | split =>
      obtain ⟨s, -, h⟩ := bind_eq_ok_iff.mp h
      obtain ⟨sep, -, h⟩ := bind_eq_ok_iff.mp h
      rw [← Except.ok.inj h]
      exact within_array (List.forall_mem_map.mpr fun part _ => Json.within_string part 0)
  | join =>
      obtain ⟨items, -, h⟩ := bind_eq_ok_iff.mp h
      obtain ⟨sep, -, h⟩ := bind_eq_ok_iff.mp h
      obtain ⟨parts, -, h⟩ := bind_eq_ok_iff.mp h
      rw [← Except.ok.inj h]
      exact Json.within_string _ 0
  | test =>
      obtain ⟨s, -, h⟩ := bind_eq_ok_iff.mp h
      obtain ⟨text, -, h⟩ := bind_eq_ok_iff.mp h
      split at h
      · rw [← Except.ok.inj h]
        exact Json.within_bool _ 0
      · cases h

end Functions

/-! ## Expressions -/

namespace Expr

/-- The values written in an expression have ordered fields. -/
def Ordered : Expr → Prop
  | literal v => v.Sorted
  | pipe left right | comma left right | compare _ left right | and left right | or left right =>
      Ordered left ∧ Ordered right
  | collect inner | attempt inner | apply _ inner => Ordered inner
  | identity | field _ | index _ | iterate | call _ => True

/-- How deep the outputs are nested at most, for an input that is nested so deeply. -/
def reach : Expr → Nat → Nat
  | identity, n => n
  | field _, n | index _, n | iterate, n => n - 1
  | pipe left right, n => right.reach (left.reach n)
  | comma left right, n => max (left.reach n) (right.reach n)
  | literal v, _ => v.depth
  | collect inner, n => inner.reach n + 1
  | compare .., _ | and .., _ | or .., _ => 0
  | attempt inner, n => inner.reach n
  | call f, n => f.reach n
  | apply f arg, n =>
    match f with
    | .select | .flatten => n
    | .map => arg.reach (n - 1) + 1
    | .pairing f => f.reach

variable {e : Expr} {v : Json} {vs : List Json} {n : Nat}

/-- What only tells whether something counts as true. -/
private theorem within_of_truths {outputs : Outputs}
    (h : (outputs.map fun ws => ws.map fun r => .bool r.isTruthy) = .ok vs) :
    ∀ w ∈ vs, w.Within 0 := by
  obtain ⟨ws, -, rfl⟩ := map_eq_ok_iff.mp h
  exact List.forall_mem_map.mpr fun r _ => Json.within_bool _ 0

/-- **An expression keeps fields in order,** and its outputs are not nested more deeply than it
reaches. -/
theorem within_of_eval (he : e.Ordered) (hv : v.Within n) (h : e.eval v = .ok vs) :
    ∀ w ∈ vs, w.Within (e.reach n) := by
  induction e generalizing v vs n with
  | identity =>
      obtain rfl := Except.ok.inj h
      rintro w (_ | ⟨_, ⟨⟩⟩)
      exact hv
  | field name =>
      cases v with
      | object fields =>
          obtain rfl := Except.ok.inj h
          rintro w (_ | ⟨_, ⟨⟩⟩)
          cases hfield : Json.field? name fields with
          | none => exact Json.within_null _
          | some u =>
              obtain ⟨before, after, rfl, -⟩ := List.lookup_eq_some_iff.mp hfield
              exact hv.forall_values (name, u) (by simp)
      | null =>
          obtain rfl := Except.ok.inj h
          simp
      | bool | number | string | array => cases h
  | index i =>
      cases v with
      | array items =>
          obtain rfl := Except.ok.inj h
          rintro w (_ | ⟨_, ⟨⟩⟩)
          exact within_itemAt hv.forall_items i
      | null =>
          obtain rfl := Except.ok.inj h
          simp
      | bool | number | string | object => cases h
  | iterate =>
      cases v with
      | array items =>
          obtain rfl := Except.ok.inj h
          exact hv.forall_items
      | object fields =>
          obtain rfl := Except.ok.inj h
          exact List.forall_mem_map.mpr hv.forall_values
      | null | bool | number | string => cases h
  | pipe left right ihl ihr =>
      obtain ⟨us, hus, h⟩ := bind_eq_ok_iff.mp h
      exact forall_mem_eachOutput h fun u hu xs hxs => ihr he.2 (ihl he.1 hv hus u hu) hxs
  | comma left right ihl ihr =>
      obtain ⟨us, hus, h⟩ := bind_eq_ok_iff.mp h
      obtain ⟨ws, hws, h⟩ := bind_eq_ok_iff.mp h
      obtain rfl := Except.ok.inj h
      exact List.forall_mem_append.mpr
        ⟨fun w hw => (ihl he.1 hv hus w hw).mono (Nat.le_max_left _ _),
          fun w hw => (ihr he.2 hv hws w hw).mono (Nat.le_max_right _ _)⟩
  | literal w =>
      obtain rfl := Except.ok.inj h
      rintro _ (_ | ⟨_, ⟨⟩⟩)
      exact ⟨he, Nat.le_refl _⟩
  | collect inner ih =>
      obtain ⟨us, hus, h⟩ := bind_eq_ok_iff.mp h
      obtain rfl := Except.ok.inj h
      rintro w (_ | ⟨_, ⟨⟩⟩)
      exact within_array (ih he hv hus)
  | compare op left right =>
      obtain ⟨rights, -, h⟩ := bind_eq_ok_iff.mp h
      obtain ⟨lefts, -, h⟩ := bind_eq_ok_iff.mp h
      obtain rfl := Except.ok.inj h
      exact List.forall_mem_flatMap.mpr fun l _ =>
        List.forall_mem_map.mpr fun r _ => Json.within_bool _ 0
  | and left right =>
      obtain ⟨lefts, -, h⟩ := bind_eq_ok_iff.mp h
      refine forall_mem_eachOutput h fun l _ xs hxs => ?_
      split at hxs
      · exact within_of_truths hxs
      · obtain rfl := Except.ok.inj hxs
        simp
  | or left right =>
      obtain ⟨lefts, -, h⟩ := bind_eq_ok_iff.mp h
      refine forall_mem_eachOutput h fun l _ xs hxs => ?_
      split at hxs
      · obtain rfl := Except.ok.inj hxs
        simp
      · exact within_of_truths hxs
  | attempt inner ih =>
      rw [eval] at h
      split at h
      · next us hus =>
        obtain rfl := Except.ok.inj h
        exact ih he hv hus
      · obtain rfl := Except.ok.inj h
        simp
  | call f => exact Nullary.within_of_eval hv h
  | apply f arg ih =>
      cases f with
      | select =>
          obtain ⟨conds, -, h⟩ := bind_eq_ok_iff.mp h
          obtain rfl := Except.ok.inj h
          intro w hw
          obtain ⟨c, -, hc⟩ := List.mem_filterMap.mp hw
          split at hc
          · exact Option.some.inj hc ▸ hv
          · cases hc
      | map =>
          obtain ⟨items, hitems, h⟩ := bind_eq_ok_iff.mp h
          obtain ⟨us, hus, hvs⟩ := bind_eq_ok_iff.mp h
          obtain rfl := eq_array_of_itemsFor hitems
          obtain rfl := Except.ok.inj hvs
          rintro w (_ | ⟨_, ⟨⟩⟩)
          exact within_array
            (forall_mem_eachOutput hus fun u hu xs hxs => ih he (hv.forall_items u hu) hxs)
      | flatten =>
          obtain ⟨args, -, h⟩ := bind_eq_ok_iff.mp h
          obtain ⟨depths, -, h⟩ := bind_eq_ok_iff.mp h
          obtain ⟨items, hitems, hvs⟩ := bind_eq_ok_iff.mp h
          obtain rfl := eq_array_of_itemsFor hitems
          obtain rfl := Except.ok.inj hvs
          exact List.forall_mem_map.mpr fun depth _ => within_array_flattenItems hv depth
      | pairing f =>
          obtain ⟨-, -, h⟩ := bind_eq_ok_iff.mp h
          obtain ⟨args, -, h⟩ := bind_eq_ok_iff.mp h
          intro w hw
          obtain ⟨a, -, ha⟩ := exists_of_mem_mapM h hw
          exact Pairing.within_of_eval ha

end Expr

/-! ## Expressions of texts -/

section Texts

variable {e e' : Expr} {p : Part} {us rest : List Token}

theorem Expr.Ordered.pipeInto (he : e.Ordered) (he' : e'.Ordered) : (e.pipeInto e').Ordered := by
  cases e with
  | identity => exact he'
  | _ => exact ⟨he, he'⟩

/-- A function is applied to the expressions that it is given. -/
theorem Expr.ordered_of_call? {name : String} {args : List Expr}
    (hargs : ∀ arg ∈ args, arg.Ordered) (h : Expr.call? name args = some e) : e.Ordered := by
  match args with
  | [] =>
      obtain ⟨f, -, rfl⟩ := Option.map_eq_some_iff.mp h
      trivial
  | [arg] =>
      obtain ⟨f, -, rfl⟩ := Option.map_eq_some_iff.mp h
      exact hargs arg List.mem_cons_self
  | _ :: _ :: _ => cases h

theorem Rank.ordered_of_joins? {r : Rank} {t : Token} {join : Expr → Expr → Expr}
    (h : r.joins? t = some join) (he : e.Ordered) (he' : e'.Ordered) : (join e e').Ordered := by
  rw [Rank.joins?.eq_def] at h
  split at h
  · obtain rfl := Option.some.inj h
    exact ⟨he, he'⟩
  · obtain rfl := Option.some.inj h
    exact ⟨he, he'⟩
  · obtain rfl := Option.some.inj h
    exact ⟨he, he'⟩
  · cases h

theorem Token.sorted_of_literal? {t : Token} {v : Json} (h : t.literal? = some v) : v.Sorted := by
  cases t with
  | number n =>
      obtain rfl := Option.some.inj h
      exact (within_literalNumber n 0).sorted
  | null | bool | string =>
      obtain rfl := Option.some.inj h
      trivial
  | _ => cases h

theorem ReadsBracket.ordered (h : ReadsBracket us e rest) : e.Ordered := by
  cases h <;> trivial

theorem ReadsSelector.ordered (h : ReadsSelector us e rest) : e.Ordered := by
  cases h with
  | word | quoted => trivial
  | bracket inside => exact inside.ordered

/-- The values written in what was read before a part have ordered fields. -/
def Part.Ordered : Part → Prop
  | joined _ left => left.Ordered
  | suffixed e => e.Ordered
  | whole _ | primary => True

/-- **The values written in what is read have ordered fields.** -/
theorem Reads.ordered (h : Reads p us e rest) (hp : p.Ordered) : e.Ordered := by
  induction h with
  | suffix _ _ ihfirst ihmore => exact ihmore (ihfirst trivial)
  | operand _ _ ih | last _ _ ih => exact ih trivial
  | compare _ _ _ ihl ihr | pipe _ _ ihl ihr => exact ⟨ihl trivial, ihr trivial⟩
  | first _ _ _ ihleft ihmore => exact ihmore (ihleft trivial)
  | done | unsuffixed => exact hp
  | join known _ _ ihright ihmore =>
      exact ihmore (Rank.ordered_of_joins? known hp (ihright trivial))
  | select selector _ ih => exact ih (Expr.Ordered.pipeInto hp selector.ordered)
  | bracket inside _ ih => exact ih (Expr.Ordered.pipeInto hp inside.ordered)
  | question _ ih => exact ih hp
  | identity => trivial
  | selector selector => exact selector.ordered
  | literal known => exact Token.sorted_of_literal? known
  | negative n => exact (within_literalNumber (negated n) 0).sorted
  | parens _ ih => exact ih trivial
  | empty => exact sorted_array_iff.mpr (by simp)
  | collect _ _ ih => exact ih trivial
  | call known => exact Expr.ordered_of_call? (by simp) known
  | apply _ known ih => exact Expr.ordered_of_call? (by simpa using ih trivial) known

/-- The values written in the expression of a text have ordered fields. -/
theorem Expr.ordered_of_parse {s : String} (h : Expr.parse s = .ok e) : e.Ordered := by
  obtain ⟨ts, rest, -, hreads, -⟩ := Expr.parse_eq_ok_iff.mp h
  exact hreads.ordered trivial

end Texts

/-- **A filter that was read from a text keeps fields in order,** and its outputs are not nested
more deeply than it reaches. -/
theorem within_of_apply {f : Filter} {v : Json} {vs : List Json} {n : Nat}
    (hf : Filter.parse f.expression = .ok f) (hv : v.Within n) (h : f.apply v = .ok vs) :
    ∀ w ∈ vs, w.Within (f.expr.reach n) := by
  obtain ⟨e, he, heq⟩ := map_eq_ok_iff.mp hf
  obtain rfl : e = f.expr := congrArg Filter.expr heq
  exact Expr.within_of_eval (Expr.ordered_of_parse he) hv h

end Distill.Filter

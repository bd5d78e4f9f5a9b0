import Distill.Json.Reader

/-!
# Values with ordered fields

A value has ordered fields exactly if its own keys ascend and everything in it has ordered fields.
Whatever is read of a text, as one value or as one of many, has ordered fields. What is in a value
is nested less deeply than the value.

## Main definitions

* `Json.Within` — a value with ordered fields that is nested at most so deeply.

## Main statements

* `Json.inductionOn` — a property that values have if all items or fields in them have it.
* `Json.sortedItems_iff`, `Json.sorted_object_iff` — what is in a value with ordered fields.
* `Json.sorted_sort` — ordering the fields of a value orders them.
* `Json.sorted_of_parseBytes?`, `Json.sorted_of_mem_parseStream?` — values that are read.
* `Json.Within.forall_items`, `Json.within_array` — what is in a value that is nested so deeply.
-/

namespace Distill.Json

variable {v : Json} {items items' vs : List Json} {fields : List (String × Json)} {m n : Nat}

/-! ## Parts of values -/

/-- A value has a property that passes from its items, or from the values of its fields, to it. -/
@[elab_as_elim]
theorem inductionOn {p : Json → Prop} (null : p null) (bool : ∀ b, p (bool b))
    (number : ∀ n, p (number n)) (string : ∀ s, p (string s))
    (array : ∀ items, (∀ v ∈ items, p v) → p (array items))
    (object : ∀ fields, (∀ f ∈ fields, p f.2) → p (object fields)) (v : Json) : p v := by
  -- The recursor carries a property of lists of items, of lists of fields and of fields beside it.
  refine @Json.rec p (fun items => ∀ v ∈ items, p v) (fun fields => ∀ f ∈ fields, p f.2)
    (fun f => p f.2) null bool number string array object ?_ ?_ ?_ ?_ ?_ v
  · exact fun v hv => absurd hv List.not_mem_nil
  · exact fun v rest hv hrest => List.forall_mem_cons.mpr ⟨hv, hrest⟩
  · exact fun f hf => absurd hf List.not_mem_nil
  · exact fun f rest hf hrest => List.forall_mem_cons.mpr ⟨hf, hrest⟩
  · exact fun _ _ hv => hv

@[simp] theorem sorted_null : null.Sorted := trivial

@[simp] theorem sorted_bool (b : Bool) : (bool b).Sorted := trivial

@[simp] theorem sorted_number (n : Number) : (number n).Sorted := trivial

@[simp] theorem sorted_string (s : String) : (string s).Sorted := trivial

theorem sortedItems_iff : SortedItems items ↔ ∀ v ∈ items, v.Sorted := by
  induction items with
  | nil => simp [SortedItems]
  | cons v items ih => simp [SortedItems, ih]

theorem sortedValues_iff : SortedValues fields ↔ ∀ f ∈ fields, f.2.Sorted := by
  induction fields with
  | nil => simp [SortedValues]
  | cons f fields ih => simp [SortedValues, ih]

theorem sorted_array_iff : (array items).Sorted ↔ ∀ v ∈ items, v.Sorted := by
  rw [Sorted, sortedItems_iff]

theorem sorted_object_iff :
    (object fields).Sorted ↔ Ascending fields ∧ ∀ f ∈ fields, f.2.Sorted := by
  rw [Sorted, sortedValues_iff]

/-! ## Ordering -/

/-- Entries that are put in order keep their values. -/
theorem sorted_object_sortKeys (h : ∀ f ∈ fields, f.2.Sorted) :
    (object (sortKeys fields)).Sorted :=
  sorted_object_iff.mpr ⟨ascending_sortKeys fields, fun f hf => h f (mem_of_mem_sortKeys hf)⟩

mutual

/-- **Ordering the fields of a value orders them.** -/
theorem sorted_sort (v : Json) : v.sort.Sorted := by
  match v with
  | null | bool _ | number _ | string _ => trivial
  | array items => exact sortedItems_sortItems items
  | object fields =>
      rw [sort]
      exact sorted_object_sortKeys (sortedValues_iff.mp (sortedValues_sortValues fields))

theorem sortedItems_sortItems (items : List Json) : SortedItems (sortItems items) := by
  match items with
  | [] => trivial
  | v :: items => exact ⟨sorted_sort v, sortedItems_sortItems items⟩

theorem sortedValues_sortValues (fields : List (String × Json)) :
    SortedValues (sortValues fields) := by
  match fields with
  | [] => trivial
  | (_, v) :: fields => exact ⟨sorted_sort v, sortedValues_sortValues fields⟩

end

/-! ## Texts -/

theorem sorted_of_parse? {s : String} (h : parse? s = some v) : v.Sorted := by
  obtain ⟨w, -, rfl⟩ := Option.map_eq_some_iff.mp h
  exact sorted_sort w

/-- A value that is read of octets. -/
theorem sorted_of_parseBytes? {b : Bytes} (h : parseBytes? b = some v) : v.Sorted := by
  obtain ⟨s, -, hs⟩ := Option.bind_eq_some_iff.mp h
  exact sorted_of_parse? hs

private theorem sorted_of_mem_readStream {fuel : Nat} {cs : List Char}
    (h : readStream fuel cs = some vs) : ∀ v ∈ vs, v.Sorted := by
  induction fuel generalizing cs vs with
  | zero => simp [readStream] at h
  | succ fuel ih =>
      rw [readStream] at h
      split at h
      · obtain rfl := Option.some.inj h
        simp
      · obtain ⟨⟨w, rest⟩, -, h⟩ := Option.bind_eq_some_iff.mp h
        dsimp only at h
        split at h
        · obtain ⟨ws, hws, rfl⟩ := Option.map_eq_some_iff.mp h
          rintro v (_ | ⟨_, hv⟩)
          · exact sorted_sort w
          · exact ih hws v hv
        · simp at h

/-- The values that are read of a text. -/
theorem sorted_of_mem_parseStream? {s : String} (h : parseStream? s = some vs) (hv : v ∈ vs) :
    v.Sorted :=
  sorted_of_mem_readStream h v hv

/-! ## Nesting -/

theorem depthItems_le_iff : depthItems items ≤ n ↔ ∀ v ∈ items, v.depth ≤ n := by
  induction items with
  | nil => simp [depthItems]
  | cons v items ih => rw [depthItems, Nat.max_le, ih, List.forall_mem_cons]

theorem depthValues_le_iff : depthValues fields ≤ n ↔ ∀ f ∈ fields, f.2.depth ≤ n := by
  induction fields with
  | nil => simp [depthValues]
  | cons f fields ih => rw [depthValues, Nat.max_le, ih, List.forall_mem_cons]

/-- A value with ordered fields that is nested at most so deeply. -/
structure Within (n : Nat) (v : Json) : Prop where
  sorted : v.Sorted
  depth_le : v.depth ≤ n

theorem Within.mono (h : v.Within m) (hmn : m ≤ n) : v.Within n :=
  ⟨h.sorted, Nat.le_trans h.depth_le hmn⟩

@[simp] theorem within_null (n : Nat) : null.Within n := ⟨trivial, Nat.zero_le n⟩

@[simp] theorem within_bool (b : Bool) (n : Nat) : (bool b).Within n := ⟨trivial, Nat.zero_le n⟩

@[simp] theorem within_number (x : Number) (n : Nat) : (number x).Within n :=
  ⟨trivial, Nat.zero_le n⟩

@[simp] theorem within_string (s : String) (n : Nat) : (string s).Within n :=
  ⟨trivial, Nat.zero_le n⟩

/-- An array is nested one level more than its items. -/
theorem within_array (h : ∀ v ∈ items, v.Within n) : (array items).Within (n + 1) :=
  ⟨sorted_array_iff.mpr fun v hv => (h v hv).sorted,
    Nat.succ_le_succ (depthItems_le_iff.mpr fun v hv => (h v hv).depth_le)⟩

theorem Within.forall_items (h : (array items).Within n) : ∀ v ∈ items, v.Within (n - 1) := by
  have hdepth : depthItems items ≤ n - 1 := Nat.le_sub_one_of_lt h.depth_le
  exact fun v hv => ⟨sorted_array_iff.mp h.sorted v hv, depthItems_le_iff.mp hdepth v hv⟩

theorem Within.forall_values (h : (object fields).Within n) : ∀ f ∈ fields, f.2.Within (n - 1) := by
  have hdepth : depthValues fields ≤ n - 1 := Nat.le_sub_one_of_lt h.depth_le
  exact fun f hf => ⟨(sorted_object_iff.mp h.sorted).2 f hf, depthValues_le_iff.mp hdepth f hf⟩

/-- Other items may stand in the place of the items of an array, if they are nested no deeper. -/
theorem Within.replace (h : (array items).Within n) (hitems : ∀ v ∈ items', v.Within (n - 1)) :
    (array items').Within n := by
  have hpos : 0 < n := Nat.lt_of_lt_of_le (Nat.succ_pos (depthItems items)) h.depth_le
  exact Nat.sub_add_cancel hpos ▸ within_array hitems

end Distill.Json

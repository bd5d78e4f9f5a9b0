import Mathlib.Data.List.Basic

/-!
# Results and errors

A computation in steps has a result exactly when each step has one.

## Main definitions

* `errorOf?` — the error of a computation without a result.

## Main statements

* `bind_eq_ok_iff`, `map_eq_ok_iff` — the steps of a computation with a result.
* `bind_eq_error_iff`, `map_eq_error_iff` — the steps of a computation with an error.
* `exists_of_mem_mapM`, `mapM_eq_ok_iff`, `exists_map_eq_map_ok_iff`, `forM_eq_ok_iff` — the same
  for all items of a list.
* `mapM_eq_error_iff`, `foldlM_eq_error_iff` — the error of a list is that of its first item with
  one.
-/

namespace Distill

variable {ε ε' α β : Type} {x : Except ε α}

theorem bind_eq_ok_iff {f : α → Except ε β} {b : β} :
    x >>= f = .ok b ↔ ∃ a, x = .ok a ∧ f a = .ok b := by
  cases x with
  | error e => simp [bind, Except.bind]
  | ok a => simp [bind, Except.bind]

theorem bind_eq_error_iff {f : α → Except ε β} {e : ε} :
    x >>= f = .error e ↔ x = .error e ∨ ∃ a, x = .ok a ∧ f a = .error e := by
  cases x <;> simp [bind, Except.bind]

theorem map_eq_ok_iff {f : α → β} {b : β} : x.map f = .ok b ↔ ∃ a, x = .ok a ∧ f a = b := by
  cases x with
  | error e => simp [Except.map]
  | ok a => simp [Except.map]

/-- Mapping the result changes no error. -/
theorem map_eq_error_iff {f : α → β} {e : ε} : x.map f = .error e ↔ x = .error e := by
  cases x <;> simp [Except.map]

/-- An error with more to it changes no result. -/
theorem mapError_eq_ok_iff {f : ε → ε'} {a : α} : x.mapError f = .ok a ↔ x = .ok a := by
  cases x <;> simp [Except.mapError]

theorem mapError_eq_error_iff {f : ε → ε'} {e' : ε'} :
    x.mapError f = .error e' ↔ ∃ e, x = .error e ∧ f e = e' := by
  cases x <;> simp [Except.mapError]

theorem toOption_eq_some_iff {a : α} : x.toOption = some a ↔ x = .ok a := by
  cases x <;> simp [Except.toOption]

/-- The error of a computation without a result. -/
def errorOf? : Except ε α → Option ε
  | .ok _ => none
  | .error e => some e

theorem errorOf?_eq_some_iff {e : ε} : errorOf? x = some e ↔ x = .error e := by
  cases x <;> simp [errorOf?]

/-! ## Lists -/

/-- A list is taken apart where the list of its images is. -/
theorem exists_of_map_eq_append_cons {f : α → β} {l : List α} {before after : List β} {b : β}
    (h : l.map f = before ++ b :: after) :
    ∃ xs a ys, l = xs ++ a :: ys ∧ xs.map f = before ∧ f a = b ∧ ys.map f = after := by
  obtain ⟨xs, tail, rfl, hbefore, htail⟩ := List.map_eq_append_iff.mp h
  obtain ⟨a, ys, rfl, ha, hafter⟩ := List.map_eq_cons_iff.mp htail
  exact ⟨xs, a, ys, rfl, hbefore, ha, hafter⟩

/-- An item of a list in a row of lists stands in one of them. -/
theorem exists_of_flatten_eq_append_cons {lists : List (List α)} {before after : List α} {a : α}
    (h : lists.flatten = before ++ a :: after) :
    ∃ above xs ys below, lists = above ++ (xs ++ a :: ys) :: below ∧
      above.flatten ++ xs = before ∧ ys ++ below.flatten = after := by
  obtain ⟨above, tail, rfl, rfl, htail⟩ | ⟨above, xs, c, cs, below, rfl, rfl, htail⟩ :=
    List.flatten_eq_append_iff.mp h
  · obtain ⟨skipped, ys, below, rfl, hskipped, rfl⟩ := List.flatten_eq_cons_iff.mp htail.symm
    refine ⟨above ++ skipped, [], ys, below, by simp, ?_, rfl⟩
    simp [List.flatten_eq_nil_iff.mpr hskipped]
  · obtain ⟨rfl, rfl⟩ := List.cons.inj htail
    exact ⟨above, xs, cs, below, rfl, rfl, rfl⟩

/-- Each of several results comes from one of the items. -/
theorem exists_of_mem_mapM {f : α → Except ε β} {l : List α} {r : List β}
    (h : l.mapM f = .ok r) {b : β} (hb : b ∈ r) : ∃ a ∈ l, f a = .ok b := by
  induction l generalizing r with
  | nil =>
      rw [List.mapM_nil] at h
      simp [← Except.ok.inj h] at hb
  | cons a rest ih =>
      rw [List.mapM_cons, bind_eq_ok_iff] at h
      obtain ⟨c, ha, h⟩ := h
      obtain ⟨tail, htail, h⟩ := bind_eq_ok_iff.mp h
      rw [← Except.ok.inj h] at hb
      rcases List.mem_cons.mp hb with rfl | hb
      · exact ⟨a, List.mem_cons_self, ha⟩
      · obtain ⟨x, hx, hfx⟩ := ih htail hb
        exact ⟨x, List.mem_cons_of_mem _ hx, hfx⟩

/-- There are as many results as items. -/
theorem length_of_mapM {f : α → Except ε β} {l : List α} {r : List β} (h : l.mapM f = .ok r) :
    r.length = l.length := by
  induction l generalizing r with
  | nil =>
      rw [List.mapM_nil] at h
      simp [← Except.ok.inj h]
  | cons a rest ih =>
      rw [List.mapM_cons, bind_eq_ok_iff] at h
      obtain ⟨c, -, h⟩ := h
      obtain ⟨tail, htail, h⟩ := bind_eq_ok_iff.mp h
      rw [← Except.ok.inj h, List.length_cons, List.length_cons, ih htail]

theorem mapM_congr {f g : α → Except ε β} {l : List α} (h : ∀ a ∈ l, f a = g a) :
    l.mapM f = l.mapM g := by
  induction l with
  | nil => rfl
  | cons a rest ih =>
      rw [List.mapM_cons, List.mapM_cons, h a List.mem_cons_self,
        ih fun b hb => h b (List.mem_cons_of_mem _ hb)]

/-- Items of which the same is made, one by one, come to the same. -/
theorem mapM_eq_of_map_eq {γ δ : Type} {p : α → δ} {q : β → δ} {f : α → Except ε γ}
    {g : β → Except ε γ} {l : List α} {m : List β} (h : l.map p = m.map q)
    (hmade : ∀ a b, p a = q b → f a = g b) : l.mapM f = m.mapM g := by
  induction l generalizing m with
  | nil =>
      obtain rfl : m = [] := by simpa using h.symm
      rfl
  | cons a rest ih =>
      cases m with
      | nil => simp at h
      | cons b tail =>
          rw [List.map_cons, List.map_cons, List.cons.injEq] at h
          rw [List.mapM_cons, List.mapM_cons, hmade a b h.1, ih h.2]

/-- There are results exactly if each item has one. -/
theorem mapM_eq_ok_iff {f : α → Except ε β} {l : List α} {r : List β} :
    l.mapM f = .ok r ↔ l.map f = r.map .ok := by
  induction l generalizing r with
  | nil => cases r <;> simp [pure, Except.pure]
  | cons a rest ih =>
      rw [List.mapM_cons, bind_eq_ok_iff, List.map_cons]
      constructor
      · rintro ⟨b, ha, h⟩
        obtain ⟨tail, htail, h⟩ := bind_eq_ok_iff.mp h
        rw [← Except.ok.inj h, ha, ih.mp htail, List.map_cons]
      · cases r with
        | nil => simp
        | cons b tail =>
            rw [List.map_cons, List.cons.injEq]
            rintro ⟨ha, htail⟩
            exact ⟨b, ha, bind_eq_ok_iff.mpr ⟨tail, ih.mpr htail, rfl⟩⟩

/-- There are results exactly if each item has one. -/
theorem exists_map_eq_map_ok_iff {f : α → Except ε β} {l : List α} :
    (∃ r : List β, l.map f = r.map .ok) ↔ ∀ a ∈ l, ∃ b, f a = .ok b := by
  constructor
  · rintro ⟨r, h⟩ a ha
    have hmem : f a ∈ r.map .ok := h ▸ List.mem_map_of_mem ha
    obtain ⟨b, -, hb⟩ := List.mem_map.mp hmem
    exact ⟨b, hb.symm⟩
  · intro h
    induction l with
    | nil => exact ⟨[], rfl⟩
    | cons a rest ih =>
        rw [List.forall_mem_cons] at h
        obtain ⟨b, hb⟩ := h.1
        obtain ⟨r, hr⟩ := ih h.2
        exact ⟨b :: r, by rw [List.map_cons, List.map_cons, hb, hr]⟩

/-- The first item of a kind is the head of a list, or it is behind the head. -/
theorem exists_first_cons_iff {P Q : α → Prop} {a : α} {rest : List α} :
    (∃ before b after, a :: rest = before ++ b :: after ∧ (∀ c ∈ before, P c) ∧ Q b) ↔
      Q a ∨ P a ∧ ∃ before b after, rest = before ++ b :: after ∧ (∀ c ∈ before, P c) ∧ Q b := by
  constructor
  · rintro ⟨_ | ⟨c, before⟩, b, after, hsplit, hbefore, hb⟩
    · obtain ⟨rfl, -⟩ := List.cons.inj hsplit
      exact .inl hb
    · obtain ⟨rfl, rfl⟩ := List.cons.inj hsplit
      rw [List.forall_mem_cons] at hbefore
      exact .inr ⟨hbefore.1, before, b, after, rfl, hbefore.2, hb⟩
  · rintro (ha | ⟨ha, before, b, after, rfl, hbefore, hb⟩)
    · exact ⟨[], a, rest, rfl, by simp, ha⟩
    · exact ⟨a :: before, b, after, rfl, List.forall_mem_cons.mpr ⟨ha, hbefore⟩, hb⟩

/-- The error of several results is that of the first item without one. -/
theorem mapM_eq_error_iff {f : α → Except ε β} {l : List α} {e : ε} :
    l.mapM f = .error e ↔ ∃ before a after,
      l = before ++ a :: after ∧ (∀ b ∈ before, ∃ r, f b = .ok r) ∧ f a = .error e := by
  induction l with
  | nil => simp [pure, Except.pure]
  | cons a rest ih =>
      rw [exists_first_cons_iff, ← ih, List.mapM_cons]
      cases f a with
      | error e' => simp [bind, Except.bind]
      | ok b => cases rest.mapM f <;> simp [bind, Except.bind, pure, Except.pure]

theorem forM_eq_ok_iff {f : α → Except ε Unit} {l : List α} :
    l.forM f = .ok () ↔ ∀ a ∈ l, f a = .ok () := by
  induction l with
  | nil => simp [pure, Except.pure]
  | cons a rest ih =>
      rw [List.forM, bind_eq_ok_iff, List.forall_mem_cons, ← ih]
      constructor
      · rintro ⟨⟨⟩, ha, hrest⟩
        exact ⟨ha, hrest⟩
      · rintro ⟨ha, hrest⟩
        exact ⟨(), ha, hrest⟩

/-- **The error of a list is that of the first item that has one,** behind those before it. -/
theorem foldlM_eq_error_iff {f : β → α → Except ε β} {l : List α} {b : β} {e : ε} :
    l.foldlM f b = .error e ↔ ∃ before a after c,
      l = before ++ a :: after ∧ before.foldlM f b = .ok c ∧ f c a = .error e := by
  induction l generalizing b with
  | nil => simp [pure, Except.pure]
  | cons a rest ih =>
      rw [List.foldlM_cons]
      constructor
      · intro h
        cases ha : f b a with
        | error e' =>
            rw [ha] at h
            obtain rfl : e' = e := Except.error.inj h
            exact ⟨[], a, rest, b, rfl, rfl, ha⟩
        | ok b' =>
            rw [ha] at h
            obtain ⟨before, a', after, c, rfl, hbefore, herror⟩ := ih.mp h
            refine ⟨a :: before, a', after, c, rfl, ?_, herror⟩
            rw [List.foldlM_cons, ha]
            exact hbefore
      · rintro ⟨before, a', after, c, hsplit, hbefore, herror⟩
        cases before with
        | nil =>
            obtain ⟨rfl, rfl⟩ := List.cons.inj hsplit
            obtain rfl : b = c := Except.ok.inj hbefore
            rw [herror]
            rfl
        | cons a'' before =>
            obtain ⟨rfl, rfl⟩ := List.cons.inj hsplit
            rw [List.foldlM_cons, bind_eq_ok_iff] at hbefore
            obtain ⟨b', hb', hbefore⟩ := hbefore
            rw [hb']
            exact ih.mpr ⟨before, a', after, c, rfl, hbefore, herror⟩

end Distill

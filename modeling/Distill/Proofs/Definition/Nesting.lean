import Distill.Definition.Validation
import Distill.Proofs.Results

/-!
# Chains in chains

The step of a record is read with a bound on how deep chains may be nested. The entries of a chain
are values inside the value of its field, so that no chain is nested deeper than its fields are:
the bound is never met, and the step of a chain is made of the steps of its entries.

## Main statements

* `Definition.exists_depth_of_listOfValue` — the fields of entries are less deep than the list.
* `Definition.stepOf_eq_stepWithin` — every bound that the fields keep gives the same step.
* `Definition.stepOf_chain` — the step of a chain, without any bound.
-/

namespace Distill.Definition

open Yaml (Value Complaint)

variable {v : Value} {r : Record} {n : Nat} {fields : List (String × Value)}

/-! ## Depth -/

theorem depth_untagged (v : Value) : depth (untagged v) = depth v := by
  induction v using untagged.induct with
  | case1 tag v ih => rw [untagged, ih, depth]
  | case2 v hv => rw [untagged.eq_2 v hv]

theorem depth_le_depthOfItems {items : List Value} (h : v ∈ items) :
    depth v ≤ depthOfItems items := by
  induction items with
  | nil => simp at h
  | cons w rest ih =>
      rw [depthOfItems]
      rcases List.mem_cons.mp h with rfl | h
      · exact Nat.le_max_left _ _
      · exact Nat.le_trans (ih h) (Nat.le_max_right _ _)

theorem depth_le_depthOfEntries {entries : List (Value × Value)} {e : Value × Value}
    (h : e ∈ entries) : depth e.2 ≤ depthOfEntries entries := by
  induction entries with
  | nil => simp at h
  | cons w rest ih =>
      rw [depthOfEntries]
      rcases List.mem_cons.mp h with rfl | h
      · exact Nat.le_max_left _ _
      · exact Nat.le_trans (ih h) (Nat.le_max_right _ _)

/-! ## Fields -/

namespace Record

/-- A field that is added is one of the others, or its value is the one that is given. -/
theorem mem_others_of_addField {p q : Partial} {key : String} (h : addField p key v = .ok q)
    {f : String × Value} (hf : f ∈ q.others) : f ∈ p.others ∨ f.2 = v := by
  rw [addField] at h
  split at h
  · obtain ⟨name, -, h⟩ := bind_eq_ok_iff.mp h
    rw [← Except.ok.inj h] at hf
    exact Or.inl hf
  · split at h
    · obtain ⟨type, -, h⟩ := bind_eq_ok_iff.mp h
      rw [← Except.ok.inj h] at hf
      exact Or.inl hf
    · split at h
      · obtain ⟨source, -, h⟩ := bind_eq_ok_iff.mp h
        rw [← Except.ok.inj h] at hf
        exact Or.inl hf
      · obtain ⟨⟨⟩, -, h⟩ := bind_eq_ok_iff.mp h
        rw [← Except.ok.inj h, List.mem_append, List.mem_singleton] at hf
        rcases hf with hf | rfl
        · exact Or.inl hf
        · exact Or.inr rfl

/-- The values of the fields of a record are values of its entries. -/
theorem exists_of_ofEntries {entries : List (Value × Value)} (h : ofEntries entries = .ok r)
    {f : String × Value} (hf : f ∈ r.fields) : ∃ e ∈ entries, f.2 = e.2 := by
  obtain ⟨q, hq, h⟩ := bind_eq_ok_iff.mp h
  rw [← Except.ok.inj h] at hf
  have hothers : ∀ {l : List (Value × Value)} {p : Partial},
      l.foldlM (fun p e => do addField p (← asText expectedKey e.1) e.2) p = .ok q →
      f ∈ p.others ∨ ∃ e ∈ l, f.2 = e.2 := by
    intro l
    induction l with
    | nil =>
        intro p hp
        rw [List.foldlM_nil] at hp
        rw [Except.ok.inj hp]
        exact Or.inl (mem_of_mem_sortKeys hf)
    | cons e rest ih =>
        intro p hp
        rw [List.foldlM_cons] at hp
        obtain ⟨p', hadd, hp⟩ := bind_eq_ok_iff.mp hp
        obtain ⟨key, -, hadd⟩ := bind_eq_ok_iff.mp hadd
        rcases ih hp with hmem | ⟨e', he', heq⟩
        · exact (mem_others_of_addField hadd hmem).imp_right fun heq => ⟨e, by simp, heq⟩
        · exact Or.inr ⟨e', List.mem_cons_of_mem _ he', heq⟩
  rcases hothers hq with hnone | hsome
  · simp at hnone
  · exact hsome

/-- The fields of a record are not as deep as its value. -/
theorem depth_lt_of_ofValue (h : ofValue v = .ok r) {f : String × Value} (hf : f ∈ r.fields) :
    depth f.2 < depth v := by
  rw [← depth_untagged v]
  rw [ofValue] at h
  split at h
  · next entries heq =>
    obtain ⟨e, he, hvalue⟩ := exists_of_ofEntries h hf
    rw [heq, hvalue, depth.eq_2]
    exact Nat.lt_succ_of_le (depth_le_depthOfEntries he)
  · obtain ⟨e, he, -⟩ := exists_of_ofEntries h hf
    simp at he
  · cases h

/-- **The fields of the records of a list are not as deep as the list.** -/
theorem exists_depth_of_listOfValue {rs : List Record} (h : listOfValue v = .ok rs) (hr : r ∈ rs) :
    ∃ d, depth v = d + 1 ∧ ∀ f ∈ r.fields, depth f.2 ≤ d := by
  rw [← depth_untagged v]
  rw [listOfValue] at h
  split at h
  · next items heq =>
    refine ⟨depthOfItems items, by rw [heq, depth], fun f hf => ?_⟩
    obtain ⟨item, hitem, hof⟩ := exists_of_mem_mapM h hr
    exact Nat.le_trans (Nat.le_of_lt (depth_lt_of_ofValue hof hf)) (depth_le_depthOfItems hitem)
  · rw [← Except.ok.inj h] at hr
    simp at hr
  · cases h

end Record

/-- A value that is required is that of a field. -/
theorem exists_of_required {α : Type} {decode : Value → Except Complaint α} {field : String} {a : α}
    (h : required decode fields field = .ok a) : ∃ v, (field, v) ∈ fields ∧ decode v = .ok a := by
  obtain ⟨found, hfound, h⟩ := bind_eq_ok_iff.mp h
  cases found with
  | none => cases h
  | some b =>
      rw [← Except.ok.inj h]
      rw [optional] at hfound
      split at hfound
      · cases hfound
      · cases hfound
      · next v _ hlookup =>
        split at hfound
        · next c hdecode =>
          rw [← Option.some.inj (Except.ok.inj hfound)]
          obtain ⟨before, after, rfl, -⟩ := List.lookup_eq_some_iff.mp hlookup
          exact ⟨v, by simp, hdecode⟩
        · cases hfound

/-! ## Steps -/

variable {type : String} {inChain : Bool}

/-- **Bounds that the fields keep give the same step.** -/
theorem stepWithin_congr {m : Nat} (hm : ∀ f ∈ fields, depth f.2 ≤ m)
    (hn : ∀ f ∈ fields, depth f.2 ≤ n) :
    stepWithin m type fields inChain = stepWithin n type fields inChain := by
  induction m using Nat.strongRecOn generalizing n type fields inChain with
  | ind m ih =>
  unfold stepWithin
  refine bind_congr fun _ => ?_
  split
  · rfl
  · rfl
  · rfl
  · rfl
  · cases hrequired : required Record.listOfValue fields "chain" with
    | error e => rfl
    | ok entries =>
        cases entries with
        | nil => rfl
        | cons r rest =>
            -- The list is a sequence, so that neither bound is used up yet.
            obtain ⟨v, hv, hlist⟩ := exists_of_required hrequired
            obtain ⟨d, hd, -⟩ := Record.exists_depth_of_listOfValue hlist List.mem_cons_self
            have hmv := hm _ hv
            have hnv := hn _ hv
            rw [hd] at hmv hnv
            obtain ⟨m, rfl⟩ := Nat.exists_eq_add_one.mpr (Nat.lt_of_lt_of_le d.succ_pos hmv)
            obtain ⟨n, rfl⟩ := Nat.exists_eq_add_one.mpr (Nat.lt_of_lt_of_le d.succ_pos hnv)
            have hentry : ∀ r' ∈ r :: rest,
                (entryType r' >>= fun type => stepWithin m type r'.fields true) =
                  entryType r' >>= fun type => stepWithin n type r'.fields true := by
              intro r' hr'
              obtain ⟨d', hd', hfields⟩ := Record.exists_depth_of_listOfValue hlist hr'
              refine bind_congr fun type => ih m (Nat.lt_succ_self m) ?_ ?_
              all_goals
                intro f hf
                have hbelow := hfields f hf
                omega
            exact congrArg (· >>= fun steps => pure (Step.chain steps)) (mapM_congr hentry)
  · rfl
  · rfl

/-- The bound that is taken is one that the fields keep. -/
theorem depth_le_bound {f : String × Value} (hf : f ∈ fields) :
    depth f.2 ≤ (fields.map fun f => depth f.2).foldl max 0 := by
  have hmem : depth f.2 ∈ fields.map fun f => depth f.2 := List.mem_map_of_mem hf
  rw [List.foldl_max]
  exact Nat.le_trans (List.le_max?_getD_of_mem hmem) (Nat.le_max_right _ _)

/-- **The step of a record does not depend on the bound:** any that its fields keep gives it. -/
theorem stepOf_eq_stepWithin (h : ∀ f ∈ fields, depth f.2 ≤ n) :
    stepOf type fields inChain = stepWithin n type fields inChain :=
  stepWithin_congr (fun _ hf => Nat.le_succ_of_le (depth_le_bound hf)) h

/-- **The step of a chain is made of the steps of its entries,** however deep they are nested. -/
theorem stepOf_chain : stepOf "chain" fields inChain = (do
    checkFields "chain" fields inChain
    let entries ← required Record.listOfValue fields "chain"
    if entries.isEmpty then throw (.of .emptyChain)
    return .chain (← entries.mapM fun r => do stepOf (← entryType r) r.fields true)) := by
  rw [stepOf]
  unfold stepWithin
  refine bind_congr fun _ => ?_
  cases hrequired : required Record.listOfValue fields "chain" with
  | error e => rfl
  | ok entries =>
      have hentry : ∀ r ∈ entries,
          (entryType r >>= fun type =>
            stepWithin ((fields.map fun f => depth f.2).foldl max 0) type r.fields true) =
          entryType r >>= fun type => stepOf type r.fields true := by
        intro r hr
        obtain ⟨v, hv, hlist⟩ := exists_of_required hrequired
        obtain ⟨d, hd, hfields⟩ := Record.exists_depth_of_listOfValue hlist hr
        refine bind_congr fun type => (stepOf_eq_stepWithin fun f hf => ?_).symm
        have hle : depth v ≤ _ := depth_le_bound hv
        have hbelow := hfields f hf
        omega
      cases entries with
      | nil => rfl
      | cons r rest =>
          exact congrArg (· >>= fun steps => pure (Step.chain steps)) (mapM_congr hentry)

end Distill.Definition

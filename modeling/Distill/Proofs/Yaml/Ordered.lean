import Distill.Proofs.Json.Ordered
import Distill.Proofs.Results
import Distill.Yaml.Decode

/-!
# Properties of decoded documents

Documents are decoded from the leaves up: a property of values that the parts of a form keep
holds of whatever is decoded to the form, whichever aliases are followed on the way. So the
documents that are read as JSON have ordered fields.

## Main definitions

* `Yaml.Decoding.Gives` — every value that a decoding gives has a property.
* `Yaml.Form.Keeps` — the parts of a form keep a property.

## Main statements

* `Yaml.Form.Keeps.decodeWithin`, `Yaml.Form.Keeps.readAll` — what is decoded has the property.
* `Yaml.sorted_of_readJson` — documents that are read as JSON have ordered fields.
-/

namespace Distill.Yaml

/-! ## Decodings -/

/-- Every value that a decoding gives has a property. -/
def Decoding.Gives {α : Type} (P : α → Prop) (x : Decoding α) : Prop :=
  ∀ n v n', x n = .ok (v, n') → P v

section Gives

variable {α β : Type} {P : α → Prop} {Q : β → Prop} {x : Decoding α}

theorem Decoding.Gives.pure {v : α} (hv : P v) : (pure v : Decoding α).Gives P := by
  intro n w n' h
  cases h
  exact hv

theorem Decoding.Gives.throw (e : Error) : (throw e : Decoding α).Gives P := nofun

/-- What is done with a value that has one property gives values with another. -/
theorem Decoding.Gives.bind {f : α → Decoding β} (hx : x.Gives P)
    (hf : ∀ v, P v → (f v).Gives Q) : (x >>= f).Gives Q := by
  intro n w n' h
  obtain ⟨⟨v, m⟩, hv, hw⟩ := bind_eq_ok_iff.mp h
  exact hf v (hx n v m hv) m w n' hw

/-- Nothing needs to be known of a value that is not used in the result. -/
theorem Decoding.Gives.bind_of_forall {f : α → Decoding β} (hf : ∀ v, (f v).Gives Q) :
    (x >>= f).Gives Q :=
  .bind (P := fun _ => True) (fun _ _ _ _ => trivial) fun v _ => hf v

theorem Decoding.Gives.map {f : α → β} (hx : x.Gives P) (hf : ∀ v, P v → Q (f v)) :
    (f <$> x).Gives Q := by
  rw [← bind_pure_comp]
  exact hx.bind fun v hv => .pure (hf v hv)

theorem Decoding.Gives.accept {r : Except Complaint α} (h : ∀ v, r = .ok v → P v) :
    (accept r).Gives P := by
  cases r with
  | ok v => exact .pure (h v rfl)
  | error c => exact .throw _

/-- A place that is put to a refusal changes no value. -/
theorem Decoding.Gives.located {mark : Mark} {path : Path} (hx : x.Gives P) :
    (located mark path x).Gives P := by
  intro n v n' h
  rw [Yaml.located] at h
  split at h
  · cases h
  · exact hx n v n' h

end Gives

/-! ## Forms -/

/-- The parts of a form keep a property of values. -/
structure Form.Keeps {κ α : Type} (form : Form κ α) (P : α → Prop) : Prop where
  atom : ∀ a v, form.atom a = .ok v → P v
  sequence : ∀ vs, (∀ v ∈ vs, P v) → P (form.sequence vs)
  mapping : ∀ entries, (∀ e ∈ entries, P e.2) → P (form.mapping entries)
  tagged : ∀ tag wrap, form.tagged tag = .ok wrap → ∀ v, P v → P (wrap v)

namespace Form.Keeps

variable {κ α : Type} {form : Form κ α} {P : α → Prop} {scope : Scope}

theorem decodeItems {sub : Path → Node → Decoding α} (hsub : ∀ path n, (sub path n).Gives P)
    (path : Path) (closed : Bool) (i : Nat) (items : List Node) :
    (decodeItems scope sub path closed i items).Gives fun vs => ∀ v ∈ vs, P v := by
  induction items generalizing i with
  | nil =>
      rw [Yaml.decodeItems]
      split
      · exact .pure (by simp)
      · exact .throw _
  | cons n rest ih =>
      rw [Yaml.decodeItems]
      exact (hsub _ n).bind fun v hv => (ih (i + 1)).bind fun vs hvs =>
        .pure (List.forall_mem_cons.mpr ⟨hv, hvs⟩)

theorem decodeEntries {sub : Path → Node → Decoding α} (hsub : ∀ path n, (sub path n).Gives P)
    (path : Path) (closed : Bool) {done : List (κ × α)} (hdone : ∀ e ∈ done, P e.2)
    (entries : List (Node × Node)) :
    (decodeEntries form scope sub path closed done entries).Gives fun es => ∀ e ∈ es, P e.2 := by
  induction entries generalizing done with
  | nil =>
      rw [Yaml.decodeEntries]
      split
      · exact .pure hdone
      · exact .throw _
  | cons entry rest ih =>
      obtain ⟨k, v⟩ := entry
      rw [Yaml.decodeEntries]
      refine .bind_of_forall fun key => ?_
      split
      · exact .throw _
      · refine (hsub _ v).bind fun value hvalue => ih ?_
        exact List.forall_mem_append.mpr ⟨hdone, by simpa using hvalue⟩

theorem withTag (hform : form.Keeps P) (info : NodeInfo) {content : Decoding α}
    (hcontent : content.Gives P) : (withTag form info content).Gives P := by
  rw [Yaml.withTag]
  split
  · exact hcontent
  · next tag _ =>
    have hwraps : (accept (form.tagged tag)).Gives fun wrap => ∀ v, P v → P (wrap v) :=
      .accept (hform.tagged tag)
    exact hwraps.bind fun wrap hwrap => hcontent.bind fun v hv => .pure (hwrap v hv)

theorem decodeNode (hform : form.Keeps P) {sub : Option (Path → Node → Decoding α)}
    (hsub : ∀ f ∈ sub, ∀ path n, (f path n).Gives P) (path : Path) (n : Node) :
    (decodeNode form scope sub path n).Gives P := by
  rw [Yaml.decodeNode]
  refine .bind_of_forall fun followed => ?_
  cases followed with
  | missing | reference _ => exact .throw _
  | void mark => exact .located (.accept (hform.atom .null))
  | scalar info text style =>
      refine .located (hform.withTag info (.accept fun v h => ?_))
      obtain ⟨a, -, h⟩ := bind_eq_ok_iff.mp h
      exact hform.atom a v h
  | sequence info items closed =>
      refine .located (hform.withTag info ?_)
      cases sub with
      | none => exact .throw _
      | some f => exact (decodeItems (hsub f rfl) path closed 0 items).map hform.sequence
  | mapping info entries closed =>
      refine .located (hform.withTag info ?_)
      cases sub with
      | none => exact .throw _
      | some f => exact (decodeEntries (hsub f rfl) path closed (by simp) entries).map hform.mapping

/-- **Whatever is decoded to a form has the properties that the form keeps.** -/
theorem decodeWithin (hform : form.Keeps P) (levels : Nat) (path : Path) (n : Node) :
    (decodeWithin form scope levels path n).Gives P := by
  induction levels generalizing path n with
  | zero => exact hform.decodeNode (by simp) path n
  | succ levels ih =>
      refine hform.decodeNode (fun f hf => ?_) path n
      obtain rfl := Option.some.inj hf
      exact ih

/-- All documents of a text have the properties that the form keeps. -/
theorem readAll (hform : form.Keeps P) {s : String} {vs : List α}
    (h : readAll form s = .ok vs) : ∀ v ∈ vs, P v := by
  intro v hv
  obtain ⟨d, -, hd⟩ := exists_of_mem_mapM h hv
  obtain ⟨⟨w, n⟩, hw, hd⟩ := bind_eq_ok_iff.mp hd
  dsimp only at hd
  split at hd
  · cases hd
  · obtain rfl := Except.ok.inj hd
    exact hform.decodeWithin maxLevels .root d.root 0 w n hw

end Form.Keeps

/-! ## JSON -/

/-- The fields of a mapping are put in order. -/
theorem keeps_jsonForm : jsonForm.Keeps Json.Sorted where
  atom a v h := by
    cases a with
    | wideInt i => cases h
    | real x => cases x <;> exact Except.ok.inj h ▸ trivial
    | null | bool b | int i | text s => exact Except.ok.inj h ▸ trivial
  sequence _ hvs := Json.sorted_array_iff.mpr hvs
  mapping _ hentries := Json.sorted_object_sortKeys hentries
  tagged _ _ h := nomatch h

/-- **Documents that are read as JSON have ordered fields.** -/
theorem sorted_of_readJson {s : String} {vs : List Json} (h : readJson s = .ok vs) :
    ∀ v ∈ vs, v.Sorted :=
  keeps_jsonForm.readAll h

end Distill.Yaml

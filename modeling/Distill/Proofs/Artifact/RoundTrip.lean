import Distill.Artifact.Value
import Distill.Proofs.Json.Ordered
import Distill.Proofs.Json.Pretty
import Distill.Proofs.Text.Utf8

/-!
# Stored forms that are read back

The stored forms of failures and conclusions are read back, if their numbers are read as they were
printed. A document that is nested too deeply is not read.

## Main definitions

* `Conclusion.Proper`, `ArtifactValue.Proper` — what the types of stored things promise beyond
  their shape: ordered fields, and counts of 64 bits.
* `ArtifactValue.depth` — how deep the stored form of a value is nested.
* `ArtifactValue.NumbersReadBack` — every number of the stored form is read as it was printed.

## Main statements

* `Failure.ofJson?_toJson`, `Conclusion.ofJson?_toJson` — records are read back.
-/

namespace Distill

/-! ## Texts as octets -/

namespace Json

theorem toList_text (v : Json) : v.text.toList = v.chars := by
  rw [text, String.toList_ofList]

/-- What is read of the octets of a value, fields as they stand. -/
theorem parseRawBytes?_text_of_numbersRead {v : Json} (hv : v.NumbersRead) :
    parseRawBytes? (Bytes.ofString v.text) =
      if v.depth ≤ maxDepth then some v.reread else none := by
  rw [parseRawBytes?, Bytes.text?_ofString, Option.bind_some, toList_text,
    parseRaw?_chars_of_numbersRead hv]

theorem parseRawBytes?_text {v : Json} (hv : v.NumbersReadBack) :
    parseRawBytes? (Bytes.ofString v.text) = if v.depth ≤ maxDepth then some v else none := by
  rw [parseRawBytes?_text_of_numbersRead (numbersRead_of_numbersReadBack v hv),
    reread_eq_self v hv]

/-- What is read of the octets of a value with ordered fields. -/
theorem parseBytes?_text {v : Json} (hv : v.NumbersRead) (hsorted : v.Sorted) :
    parseBytes? (Bytes.ofString v.text) = if v.depth ≤ maxDepth then some v.reread else none := by
  rw [parseBytes?, Bytes.text?_ofString, Option.bind_some, parse?, toList_text,
    parseRaw?_chars_of_numbersRead hv]
  split
  · rw [Option.map_some, sort_eq_self v.reread (sorted_reread v hsorted)]
  · rfl

/-- What is read of the octets of a value in the indented form, fields as they stand. -/
theorem parseRawBytes?_prettyText {v : Json} (hv : v.NumbersRead) (hdepth : v.depth ≤ maxDepth) :
    parseRawBytes? (Bytes.ofString v.prettyText) = some v.reread := by
  rw [parseRawBytes?, Bytes.text?_ofString, Option.bind_some, prettyText, String.toList_ofList,
    parseRaw?_prettyChars hv hdepth]

end Json

/-! ## Failures -/

theorem FailureKind.ofName?_name (kind : FailureKind) : ofName? kind.name = some kind := by
  cases kind <;> decide

/-- **A failure is read back.** -/
theorem Failure.ofJson?_toJson (f : Failure) : ofJson? f.toJson = some f := by
  have hrecord : f.toJson.record? ["kind", "message"] =
      some [some (.string f.kind.name), some (.string f.message)] := by
    simp [toJson, Json.record?, Json.uniqueField?]
  rw [ofJson?, hrecord]
  simp [Json.word?, FailureKind.ofName?_name, Json.string?]

/-! ## Conclusions -/

/-- A count has at most 64 bits. -/
def Location.Proper (l : Location) : Prop :=
  ∀ n, some n = l.firstLine ∨ some n = l.lastLine ∨ some n = l.offset ∨ some n = l.length →
    n < Nat.pow 2 64

/-- The places are in the order of their placeholders, and their counts have at most 64 bits. -/
def Detail.Proper (d : Detail) : Prop := Ascending d.fields ∧ ∀ f ∈ d.fields, f.2.Proper

/-- Every detail is proper. -/
def Conclusion.Proper (c : Conclusion) : Prop := ∀ d ∈ c.details, d.Proper

namespace Location

variable {l : Location} {name key : String} {n : Option Nat} {fields : List (String × Json)}

private theorem filter_optionalField (name key : String) (n : Option Nat) :
    (optionalField name n).filter (·.1 == key) =
      if name = key then optionalField name n else [] := by
  cases n with
  | none => simp [optionalField]
  | some n => by_cases h : name = key <;> simp [optionalField, h]

private theorem uniqueField?_of_filter (h : fields.filter (·.1 == name) = optionalField name n) :
    Json.uniqueField? name fields = some (n.map Json.ofNat) := by
  rw [Json.uniqueField?, h]
  cases n <;> rfl

private theorem optional?_ofNat (h : ∀ k, some k = n → k < Nat.pow 2 64) :
    Json.optional? Json.nat64? (n.map Json.ofNat) = some n := by
  cases n with
  | none => rfl
  | some k =>
      have hk := h k rfl
      have hread : Json.nat64? (Json.ofNat k) = some k := by
        simp only [Json.ofNat, Json.nat64?]
        rw [if_pos ⟨Int.natCast_nonneg k, Int.ofNat_lt.mpr hk⟩, Int.toNat_natCast]
      have hsome : Json.optional? Json.nat64? (some (Json.ofNat k)) =
          (Json.nat64? (Json.ofNat k)).map some := rfl
      rw [Option.map_some, hsome, hread, Option.map_some]

/-- The fields of the stored form. -/
private def storedFields (l : Location) : List (String × Json) :=
  ("path", .string l.path) :: optionalField "first_line" l.firstLine
    ++ optionalField "last_line" l.lastLine ++ optionalField "offset" l.offset
    ++ optionalField "length" l.length ++ [("text", .string l.text)]

/-- **A place is read back.** -/
theorem ofJson?_toJson (hl : l.Proper) : ofJson? l.toJson = some l := by
  have hrecord : l.toJson.record? ["path", "first_line", "last_line", "offset", "length", "text"] =
      some [some (.string l.path), l.firstLine.map Json.ofNat, l.lastLine.map Json.ofNat,
        l.offset.map Json.ofNat, l.length.map Json.ofNat, some (.string l.text)] := by
    have hpath : Json.uniqueField? "path" l.storedFields = some (some (.string l.path)) := by
      simp [storedFields, Json.uniqueField?, List.filter_append, filter_optionalField]
    have htext : Json.uniqueField? "text" l.storedFields = some (some (.string l.text)) := by
      simp [storedFields, Json.uniqueField?, List.filter_append, filter_optionalField]
    have hfirst : Json.uniqueField? "first_line" l.storedFields =
        some (l.firstLine.map Json.ofNat) := by
      apply uniqueField?_of_filter
      simp [storedFields, List.filter_append, filter_optionalField]
    have hlast : Json.uniqueField? "last_line" l.storedFields =
        some (l.lastLine.map Json.ofNat) := by
      apply uniqueField?_of_filter
      simp [storedFields, List.filter_append, filter_optionalField]
    have hoffset : Json.uniqueField? "offset" l.storedFields = some (l.offset.map Json.ofNat) := by
      apply uniqueField?_of_filter
      simp [storedFields, List.filter_append, filter_optionalField]
    have hlength : Json.uniqueField? "length" l.storedFields = some (l.length.map Json.ofNat) := by
      apply uniqueField?_of_filter
      simp [storedFields, List.filter_append, filter_optionalField]
    have hobject : l.toJson = .object l.storedFields := rfl
    rw [hobject, Json.record?]
    simp [hpath, htext, hfirst, hlast, hoffset, hlength]
  rw [ofJson?, hrecord]
  simp only [Json.string?, Json.orElse?, Option.bind_eq_bind, Option.bind_some,
    optional?_ofNat fun k hk => hl k (Or.inl hk),
    optional?_ofNat fun k hk => hl k (Or.inr (Or.inl hk)),
    optional?_ofNat fun k hk => hl k (Or.inr (Or.inr (Or.inl hk))),
    optional?_ofNat fun k hk => hl k (Or.inr (Or.inr (Or.inr hk)))]
  rfl

end Location

/-- A list is mapped by steps none of which fails. -/
theorem mapM_eq_pure {m : Type → Type} [Monad m] [LawfulMonad m] {α β : Type} {f : α → m β}
    {g : α → β} {l : List α} (h : ∀ a ∈ l, f a = pure (g a)) : l.mapM f = pure (l.map g) := by
  induction l with
  | nil => rfl
  | cons a l ih =>
      rw [List.mapM_cons, h a (by simp), ih fun b hb => h b (by simp [hb])]
      simp

/-- Decoding the encoded items of a list gives the list. -/
theorem mapM_map {α β : Type} {f : α → β} {g : β → Option α} {l : List α}
    (h : ∀ a ∈ l, g (f a) = some a) : (l.map f).mapM g = some l := by
  have hsome : (l.map f).mapM g = some (l.map fun a => a) := by
    rw [List.mapM_map]
    exact mapM_eq_pure h
  rwa [List.map_id'] at hsome

/-- **A detail is read back.** -/
theorem Detail.ofJson?_toJson {d : Detail} (hd : d.Proper) : ofJson? d.toJson = some d := by
  have hrecord : d.toJson.record? ["description", "fields"] =
      some [some (.string d.description),
        some (.object (d.fields.map fun f => (f.1, f.2.toJson)))] := by
    simp [toJson, Json.record?, Json.uniqueField?]
  have hfields : (d.fields.map fun f => (f.1, f.2.toJson)).mapM
      (fun f => (Location.ofJson? f.2).map (f.1, ·)) = some d.fields := by
    refine mapM_map fun f hf => ?_
    rw [Location.ofJson?_toJson (hd.2 f hf)]
    rfl
  rw [ofJson?, hrecord]
  simp only [Option.bind_eq_bind, Option.bind_some, hfields, Json.string?,
    Json.sortKeys_eq_self hd.1]
  rfl

theorem Level.ofName?_name (level : Level) : ofName? level.name = some level := by
  cases level <;> decide

/-- **A conclusion is read back.** -/
theorem Conclusion.ofJson?_toJson {c : Conclusion} (hc : c.Proper) :
    ofJson? c.toJson = some c := by
  have hrecord : c.toJson.record? fieldNames =
      some [some (.string c.name), some (.string c.level.name), some (.string c.summary),
        some (.string c.description), some (.array (c.results.map .string)),
        some (.array (c.details.map Detail.toJson)), some (.bool c.abnormal), some (.bool c.normal),
        some (.bool c.unknown), some (.number (.real c.duration))] := by
    simp [toJson, Json.record?, Json.uniqueField?, fieldNames]
  have hresults : (c.results.map Json.string).mapM Json.string? = some c.results :=
    mapM_map fun _ _ => rfl
  have hdetails : (c.details.map Detail.toJson).mapM Detail.ofJson? = some c.details :=
    mapM_map fun d hd => Detail.ofJson?_toJson (hc d hd)
  rw [ofJson?, hrecord]
  simp only [Option.bind_eq_bind, Option.bind_some, Json.string?, Json.word?, Level.ofName?_name,
    Json.orElse?, Json.list?, hresults, hdetails, Json.bool?, Json.double?, Number.toDouble]
  rfl

theorem Location.depth_toJson (l : Location) : l.toJson.depth ≤ 1 := by
  refine Nat.succ_le_succ (Json.depthValues_le_iff.mpr fun f hf => ?_)
  simp only [optionalField, Json.ofNat, List.mem_append, List.mem_cons, Option.mem_toList,
    Option.map_eq_some_iff, List.not_mem_nil, or_false] at hf
  rcases hf with ((((rfl | ⟨n, -, rfl⟩) | ⟨n, -, rfl⟩) | ⟨n, -, rfl⟩) | ⟨n, -, rfl⟩) | rfl <;>
    exact Nat.le_refl 0

theorem Detail.depth_toJson (d : Detail) : d.toJson.depth ≤ 3 := by
  have hfields : Json.depthValues (d.fields.map fun f => (f.1, f.2.toJson)) ≤ 1 := by
    refine Json.depthValues_le_iff.mpr fun g hg => ?_
    obtain ⟨f, -, rfl⟩ := List.mem_map.mp hg
    exact f.2.depth_toJson
  simp only [toJson, Json.depth, Json.depthValues]
  omega

/-- Conclusions are nested to a fixed depth. -/
theorem Conclusion.depth_toJson (c : Conclusion) : c.toJson.depth ≤ 5 := by
  have hresults : Json.depthItems (c.results.map Json.string) ≤ 3 := by
    refine Json.depthItems_le_iff.mpr fun v hv => ?_
    obtain ⟨s, -, rfl⟩ := List.mem_map.mp hv
    exact Nat.zero_le 3
  have hdetails : Json.depthItems (c.details.map Detail.toJson) ≤ 3 := by
    refine Json.depthItems_le_iff.mpr fun v hv => ?_
    obtain ⟨d, -, rfl⟩ := List.mem_map.mp hv
    exact d.depth_toJson
  simp only [toJson, Json.depth, Json.depthValues]
  omega

/-! ## Values -/

namespace ArtifactValue

/-- The value that the stored form is the text of; octets are stored as they are. -/
def json? : ArtifactValue → Option Json
  | bytes _ => none
  | document v => some v
  | sequence items => some (.array items)
  | conclusion c => some c.toJson

/-- How deep the stored form is nested. -/
def depth (v : ArtifactValue) : Nat := v.json?.elim 0 Json.depth

/-- Every number of the stored form is read as it was printed. -/
def NumbersReadBack (v : ArtifactValue) : Prop := ∀ w ∈ v.json?, w.NumbersReadBack

/-- What the types promise: ordered fields, and counts of 64 bits. -/
def Proper : ArtifactValue → Prop
  | bytes _ => True
  | document v => v.Sorted
  | sequence items => Json.SortedItems items
  | conclusion c => c.Proper

end ArtifactValue

end Distill

import Distill.Proofs.Step.Checked
import Distill.Step.Analysis

/-!
# Entries of an analysis

An analysis of a sequence gives one result for each entry, and a detail for each entry in which a
place is found for some placeholder of its description. The two lists go along with the entries: a
detail holds the template that is shown for its entry and the places of its placeholders, so that
who reads it can render the result again and link its parts to their files. An entry without such
a place is shown as it is.

## Main definitions

* `Location.DescribedBy`, `Step.Binds` — the places that a record tells of.
* `Step.Linked` — entries with a place for some placeholder.
* `Template.filled` — a template with places in it.
* `Step.Presents`, `Step.Aligned` — results and details that go along with entries.

## Main statements

* `Step.bindToken_eq_some_iff` — what a placeholder is bound to.
* `Step.presents_of_recordDetail`, `Step.recordDetail_eq_none_iff` — the result and the detail of a
  record.
* `Step.aligned_entries` — results and details go along with the entries.
* `Step.results_align_with_entries` — the same for what an analysis concludes.
-/

namespace Distill

/-! ## Entries by their keys -/

section Keyed

variable {α : Type} {entries : List (String × α)} {key : String} {v : α}

/-- **What stands under a key of sorted entries,** if it stands there once. -/
theorem lookup_sortKeys_eq_some_iff
    (h : ∀ v w, (key, v) ∈ entries → (key, w) ∈ entries → v = w) :
    (sortKeys entries).lookup key = some v ↔ (key, v) ∈ entries := by
  -- Behind the entries that are still to be put, what was put before counts for other keys only.
  have hfold : ∀ acc : List (String × α),
      (entries.foldl (fun acc e => insertKey e.1 e.2 acc) acc).lookup key = some v ↔
        (key, v) ∈ entries ∨ key ∉ entries.map (·.1) ∧ acc.lookup key = some v := by
    induction entries with
    | nil => simp
    | cons e rest ih =>
        intro acc
        obtain ⟨k, u⟩ := e
        have hrest := ih fun v w hv hw =>
          h v w (List.mem_cons_of_mem _ hv) (List.mem_cons_of_mem _ hw)
        rw [List.foldl_cons, hrest, lookup_insertKey]
        by_cases hk : key = k
        · subst hk
          have hagain : key ∈ rest.map (·.1) → (key, u) ∈ rest := by
            intro hmem
            obtain ⟨⟨_, w⟩, hw, rfl⟩ := List.mem_map.mp hmem
            rwa [h u w List.mem_cons_self (List.mem_cons_of_mem _ hw)]
          grind
        · grind
  exact (hfold []).trans (by simp)

end Keyed

/-! ## Places -/

/-- A place as the fields of a record tell of it: a path, the text found there (in its compact form
unless it is a string), and numbers where they are unsigned integers. -/
structure Location.DescribedBy (l : Location) (fields : List (String × Json)) : Prop where
  path : Json.field? "path" fields = some (.string l.path)
  text : ∃ v, Json.field? "text" fields = some v ∧ l.text = v.plain
  firstLine : l.firstLine = (Json.field? "first_line" fields).bind Json.nat64?
  lastLine : l.lastLine = (Json.field? "last_line" fields).bind Json.nat64?
  offset : l.offset = (Json.field? "offset" fields).bind Json.nat64?
  length : l.length = (Json.field? "length" fields).bind Json.nat64?

namespace Step

variable {fields : List (String × Json)} {token description result : String} {l : Location}
  {d : Detail} {v : Json}

/-- The place of a placeholder of a record: that of the object under its token, or for the flat
token that of the record itself, if there is no such object. -/
inductive Binds (fields : List (String × Json)) (token : String) (l : Location) : Prop
  | nested {inner : List (String × Json)} (field : Json.field? token fields = some (.object inner))
      (place : l.DescribedBy inner)
  | flat (flat : token = flatToken)
      (field : ∀ inner, Json.field? token fields ≠ some (.object inner))
      (place : l.DescribedBy fields)

theorem locationOf_eq_some_iff : locationOf fields = some l ↔ l.DescribedBy fields := by
  simp only [locationOf, Option.bind_eq_bind, Option.bind_eq_some_iff, Option.pure_def,
    Option.some.injEq]
  constructor
  · rintro ⟨w, hw, path, hpath, text, htext, rfl⟩
    cases w with
    | string s =>
        obtain rfl := Option.some.inj hpath
        exact ⟨hw, ⟨text, htext, rfl⟩, rfl, rfl, rfl, rfl⟩
    | _ => simp [Json.string?] at hpath
  · rintro ⟨hpath, ⟨text, htext, hplain⟩, hfirst, hlast, hoffset, hlength⟩
    refine ⟨_, hpath, _, rfl, text, htext, ?_⟩
    rw [← hfirst, ← hlast, ← hoffset, ← hlength, ← hplain]

/-- **A placeholder is bound to its place.** -/
theorem bindToken_eq_some_iff : bindToken fields token = some l ↔ Binds fields token l := by
  rw [bindToken]
  split
  · next inner hinner =>
    rw [locationOf_eq_some_iff]
    constructor
    · exact .nested hinner
    · rintro (⟨hfield, hplace⟩ | ⟨-, hfield, -⟩)
      · rw [hinner, Option.some.injEq, Json.object.injEq] at hfield
        exact hfield ▸ hplace
      · exact absurd hinner (hfield inner)
  · next hnone =>
    constructor
    · intro h
      split at h
      · next hflat => exact .flat hflat hnone (locationOf_eq_some_iff.mp h)
      · simp at h
    · rintro (⟨hfield, -⟩ | ⟨hflat, -, hplace⟩)
      · exact absurd hfield (hnone _)
      · rw [if_pos hflat]
        exact locationOf_eq_some_iff.mpr hplace

/-- An entry with a place for some placeholder of its description. -/
def Linked (description : String) : Json → Prop
  | .object fields => ∃ t, Template.parse (entryDescription fields description) = .ok t ∧
      ∃ token l, .placeholder token ∈ t.segments ∧ Binds fields token l
  | _ => False

end Step

/-! ## Results -/

/-- A segment with places in it: a placeholder stands for the text of its place, and is left as it
is written if it has none. -/
def Segment.filled (places : List (String × Location)) : Segment → String
  | text s => s
  | placeholder token =>
    match places.lookup token with
    | some l => l.text
    | none => "\x7b" ++ token ++ "\x7d"

/-- A template with places in it. -/
def Template.filled (places : List (String × Location)) (t : Template) : String :=
  String.join (t.segments.map (Segment.filled places))

theorem Template.render_eq_filled (t : Template) (places : List (String × Location)) :
    (t.render fun token => (places.lookup token).map Location.text) = t.filled places := by
  rw [render, filled]
  congr 2
  funext segment
  cases segment with
  | text s => rfl
  | placeholder token =>
      rw [renderSegment, Segment.filled]
      cases places.lookup token <;> rfl

namespace Step

variable {fields : List (String × Json)} {token description result : String} {l : Location}
  {d : Detail} {v : Json} {vs : List Json}

/-- The result and the detail of a record. The detail holds the description of the record, a
template, and a place for each of its placeholders that has one, of which there is at least one;
the result is this template with these places in it. -/
structure Presents (description : String) (fields : List (String × Json)) (result : String)
    (d : Detail) : Prop where
  description_eq : d.description = entryDescription fields description
  fields_ne_nil : d.fields ≠ []
  ascending : Ascending d.fields
  template : ∃ t, Template.parse d.description = .ok t ∧
    (∀ token l, d.fields.lookup token = some l ↔
      .placeholder token ∈ t.segments ∧ Binds fields token l) ∧
    result = t.filled d.fields

/-- Results and details that go along with entries: there is one result for each entry and one
detail for each that is linked, in the order of the entries, and an entry that is not linked is
shown as it is. -/
inductive Aligned (description : String) : List Json → List String → List Detail → Prop
  | nil : Aligned description [] [] []
  | linked {fields vs result results d details} (linked : Linked description (.object fields))
      (head : Presents description fields result d)
      (tail : Aligned description vs results details) :
      Aligned description (.object fields :: vs) (result :: results) (d :: details)
  | plain {v vs results details} (plain : ¬ Linked description v)
      (tail : Aligned description vs results details) :
      Aligned description (v :: vs) (v.plain :: results) details

/-- The places that are kept for the placeholders of a template. -/
theorem lookup_places_eq_some_iff {t : Template} :
    (sortKeys (t.placeholders.filterMap fun token =>
      (bindToken fields token).map (token, ·))).lookup token = some l ↔
        .placeholder token ∈ t.segments ∧ Binds fields token l := by
  have hmem : ∀ l, (token, l) ∈ t.placeholders.filterMap (fun token =>
      (bindToken fields token).map (token, ·)) ↔
        .placeholder token ∈ t.segments ∧ bindToken fields token = some l := by
    intro l
    simp only [List.mem_filterMap, Option.map_eq_some_iff, Prod.mk.injEq]
    rw [← Template.mem_tokens, ← Template.mem_placeholders]
    constructor
    · rintro ⟨token, htoken, l, hl, rfl, rfl⟩
      exact ⟨htoken, hl⟩
    · rintro ⟨htoken, hl⟩
      exact ⟨token, htoken, l, hl, rfl, rfl⟩
  rw [lookup_sortKeys_eq_some_iff, hmem, bindToken_eq_some_iff]
  intro l l' hl hl'
  rw [hmem] at hl hl'
  exact Option.some.inj (hl.2.symm.trans hl'.2)

/-- **The result and the detail of a record** are made of the same template and places. -/
theorem presents_of_recordDetail (h : recordDetail fields description = some (result, d)) :
    Presents description fields result d := by
  rw [recordDetail] at h
  dsimp only at h
  split at h
  · cases h
  · next t ht =>
    split at h
    · cases h
    · next hbound =>
      rw [Option.some.injEq, Prod.mk.injEq] at h
      obtain ⟨rfl, rfl⟩ := h
      refine ⟨rfl, by simpa using hbound, ascending_sortKeys _, t, ht, fun token l => ?_, ?_⟩
      · exact lookup_places_eq_some_iff
      · exact t.render_eq_filled _

/-- A record that has a result and a detail is linked. -/
theorem Presents.linked (h : Presents description fields result d) :
    Linked description (.object fields) := by
  obtain ⟨hdescription, hne, -, t, ht, hplaces, -⟩ := h
  obtain ⟨⟨token, l⟩, rest, hfields⟩ := List.exists_cons_of_ne_nil hne
  have hlookup : d.fields.lookup token = some l := by rw [hfields, List.lookup_cons_self]
  exact ⟨t, hdescription ▸ ht, token, l, (hplaces token l).mp hlookup⟩

/-- **A record has no detail exactly if it is not linked.** -/
theorem recordDetail_eq_none_iff :
    recordDetail fields description = none ↔ ¬ Linked description (.object fields) := by
  constructor
  · rintro h ⟨t, ht, token, l, hplace⟩
    rw [recordDetail, ht] at h
    dsimp only at h
    rw [← lookup_places_eq_some_iff] at hplace
    split at h
    · next hempty =>
      rw [List.isEmpty_iff.mp hempty] at hplace
      cases hplace
    · cases h
  · intro h
    cases hdetail : recordDetail fields description with
    | none => rfl
    | some found => exact absurd (presents_of_recordDetail hdetail).linked h

/-- What a single entry comes to. -/
theorem entry_cases (description : String) (v : Json) :
    (∃ fields d, v = .object fields ∧ Linked description v ∧
      Presents description fields (entry description v).1 d ∧ (entry description v).2 = some d) ∨
    ¬ Linked description v ∧ entry description v = (v.plain, none) := by
  cases v with
  | object fields =>
      cases hdetail : recordDetail fields description with
      | none => exact .inr ⟨recordDetail_eq_none_iff.mp hdetail, by rw [entry, hdetail]; rfl⟩
      | some found =>
          have hpresents := presents_of_recordDetail hdetail
          refine .inl ⟨fields, found.2, rfl, hpresents.linked, ?_⟩
          rw [entry, hdetail]
          exact ⟨hpresents, rfl⟩
  | null | bool | number | string | array => exact .inr ⟨id, rfl⟩

/-- **Results and details go along with the entries.** -/
theorem aligned_entries (description : String) (vs : List Json) :
    Aligned description vs (entries description vs).1 (entries description vs).2 := by
  induction vs with
  | nil => exact .nil
  | cons v rest ih =>
      have hfirst : (entries description (v :: rest)).1 =
          (entry description v).1 :: (entries description rest).1 := rfl
      have hsecond : (entries description (v :: rest)).2 =
          (entry description v).2.toList ++ (entries description rest).2 := by
        cases hdetail : (entry description v).2 <;> simp [entries, hdetail]
      rw [hfirst, hsecond]
      rcases entry_cases description v with ⟨fields, d, rfl, hlinked, hpresents, hd⟩ | ⟨hplain, heq⟩
      · rw [hd]
        exact .linked hlinked hpresents ih
      · rw [heq]
        exact .plain hplain ih

end Step

/-! ## Conclusions -/

/-- The value is a sequence or an array of these entries. -/
def ArtifactValue.Lists (input : ArtifactValue) (vs : List Json) : Prop :=
  input = .sequence vs ∨ input = .document (.array vs)

namespace Step

variable {input : ArtifactValue} {vs : List Json}

theorem findings_of_lists (h : input.Lists vs) (description : String) :
    findings description input = entries description vs := by
  rcases h with rfl | rfl <;> rfl

/-- **The results and details of an analysis go along with the entries of its input.** There is
one result for each entry, which depends on nothing but this entry and the description of the
analysis: it is the same wherever the entry stands, and whatever else is there. Just the entries
with a place for some placeholder have a detail, in the order of the entries. It holds the template
that is shown and the places, so that the result can be rendered again. -/
theorem results_align_with_entries (node : String) (a : AnalysisStep) (spent : Elapsed)
    (h : input.Lists vs) :
    (conclude node a input spent).results.length = vs.length ∧
    Aligned a.description vs (conclude node a input spent).results
      (conclude node a input spent).details ∧
    ∀ node' a' input' spent' vs', ArtifactValue.Lists input' vs' → a'.description = a.description →
      ∀ i j : Nat, vs[i]? = vs'[j]? →
        (conclude node a input spent).results[i]? =
          (conclude node' a' input' spent').results[j]? := by
  have hresults : ∀ node a input spent vs, ArtifactValue.Lists input vs →
      (conclude node a input spent).results = vs.map fun v => (entry a.description v).1 := by
    intro node a input spent vs h
    rw [conclude, findings_of_lists h, entries, List.map_map]
    rfl
  refine ⟨?_, ?_, fun node' a' input' spent' vs' h' hdescription i j hentry => ?_⟩
  · rw [hresults node a input spent vs h, List.length_map]
  · rw [conclude, findings_of_lists h]
    exact aligned_entries a.description vs
  · rw [hresults node a input spent vs h, hresults node' a' input' spent' vs' h', List.getElem?_map,
      List.getElem?_map, hentry, hdescription]

/-- A record with a place for one of its two placeholders, a line with braces of its own, and a
record without a place. -/
def statuses : List Json :=
  [.object [("description", .string "\x7bunit\x7d failed: \x7breason\x7d"),
      ("unit", .object [("path", .string "systemctl"), ("text", .string "httpd")])],
    .string "\x7b0\x7d", .object [("unit", .string "sshd")]]

/-- The placeholder without a place is left, and the line shows the same in an array of its own. -/
theorem statuses_align_with_entries :
    let c := conclude "units" ⟨.error, "failed units", ""⟩ (.sequence statuses) .zero
    let alone := conclude "lines" ⟨.info, "", ""⟩ (.document (.array [.string "\x7b0\x7d"]))
      .zero
    (ArtifactValue.sequence statuses).Lists statuses ∧
    c.results = ["httpd failed: \x7breason\x7d", "\x7b0\x7d", "\x7b\"unit\":\"sshd\"\x7d"] ∧
    c.details = [⟨"\x7bunit\x7d failed: \x7breason\x7d",
      [("unit", ⟨"systemctl", none, none, none, none, "httpd"⟩)]⟩] ∧
    c.results.length = 3 ∧ Aligned "" statuses c.results c.details ∧
    c.results[1]? = alone.results[0]? := by
  intro c alone
  have hlists : (ArtifactValue.sequence statuses).Lists statuses := Or.inl rfl
  obtain ⟨hlength, haligned, hsame⟩ :=
    results_align_with_entries "units" ⟨.error, "failed units", ""⟩ .zero hlists
  refine ⟨hlists, by decide +kernel, by decide +kernel, hlength, haligned, ?_⟩
  exact hsame "lines" ⟨.info, "", ""⟩ _ .zero [.string "\x7b0\x7d"] (Or.inr rfl) rfl 1 0 rfl

end Step

end Distill

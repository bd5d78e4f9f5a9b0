import Distill.Proofs.Artifact.RoundTrip
import Distill.Proofs.Json.Numbers
import Distill.Step.Analysis

/-!
# Conclusions that are stored

Of all the numbers in the stored form of a conclusion only the duration is a double: the counts
of its places are naturals of 64 bits, which are read as they were printed. So a conclusion is
read back but for its duration, which may be another one after it was printed and read. A duration
that was measured is read as a duration that can be stored and read again. What an analysis
concludes is as its type promises, and so is whatever is read from a stored form.

## Main definitions

* `ArtifactValue.conclusion?` — the conclusion that a value is.
* `Conclusion.reread` — what is read of a conclusion that was stored.
* `Conclusion.IsRead`, `Conclusion.Lasting` — conclusions that are read, once and again.
* `ArtifactValue.IsRead`, `ArtifactValue.reread` — values that are read, and what is read of them.
* `ArtifactValue.IfConclusion` — what holds of a value if it is a conclusion.

## Main statements

* `Conclusion.IsRead.reread_toJson` — of the stored form of a conclusion only the duration changes.
* `ArtifactValue.ofPayload?_of_isRead`, `ArtifactValue.ofPayload?_payload` — what is read of a value
  that was stored.
* `ArtifactValue.conclusion?_of_ofPayload?` — a conclusion that was stored is read, and nothing else
  is read as a conclusion.
* `Step.proper_conclude`, `Conclusion.proper_of_ofJson?` — conclusions keep what their type
  promises.
-/

namespace Distill

/-! ## The numbers of conclusions -/

/-- The numbers of values are read back one by one. -/
theorem Json.numbersReadBackValues_iff {fields : List (String × Json)} :
    NumbersReadBackValues fields ↔ ∀ f ∈ fields, f.2.NumbersReadBack := by
  induction fields with
  | nil => simp [NumbersReadBackValues]
  | cons f fields ih => simp [NumbersReadBackValues, ih]

theorem Json.numbersReadBackItems_iff {items : List Json} :
    NumbersReadBackItems items ↔ ∀ v ∈ items, v.NumbersReadBack := by
  induction items with
  | nil => simp [NumbersReadBackItems]
  | cons v items ih => simp [NumbersReadBackItems, ih]

theorem Location.numbersReadBack_toJson {l : Location} (hl : l.Proper) :
    l.toJson.NumbersReadBack := by
  rw [toJson, Json.NumbersReadBack, Json.numbersReadBackValues_iff]
  intro f hf
  simp only [optionalField, Json.ofNat, List.mem_append, List.mem_cons, Option.mem_toList,
    Option.map_eq_some_iff, List.not_mem_nil, or_false] at hf
  have hcount : ∀ n, some n = l.firstLine ∨ some n = l.lastLine ∨ some n = l.offset ∨
      some n = l.length → (Json.number (.int n)).NumbersReadBack := fun n hn =>
    Number.readsBack_natCast (hl n hn)
  rcases hf with ((((rfl | ⟨n, hn, rfl⟩) | ⟨n, hn, rfl⟩) | ⟨n, hn, rfl⟩) | ⟨n, hn, rfl⟩) | rfl
  · simp [Json.NumbersReadBack]
  · exact hcount n (Or.inl hn.symm)
  · exact hcount n (Or.inr (Or.inl hn.symm))
  · exact hcount n (Or.inr (Or.inr (Or.inl hn.symm)))
  · exact hcount n (Or.inr (Or.inr (Or.inr hn.symm)))
  · simp [Json.NumbersReadBack]

theorem Detail.numbersReadBack_toJson {d : Detail} (hd : d.Proper) :
    d.toJson.NumbersReadBack := by
  have hfields : Json.NumbersReadBackValues (d.fields.map fun f => (f.1, f.2.toJson)) := by
    rw [Json.numbersReadBackValues_iff]
    intro g hg
    obtain ⟨f, hf, rfl⟩ := List.mem_map.mp hg
    exact Location.numbersReadBack_toJson (hd.2 f hf)
  simp [toJson, Json.NumbersReadBack, Json.NumbersReadBackValues, hfields]

namespace Conclusion

variable {c : Conclusion}

/-- What is read of the conclusion after it was stored: its duration may be another one. -/
def reread (c : Conclusion) : Conclusion :=
  { c with duration := (Number.real c.duration).reread.toDouble }

/-- A conclusion that is as its type promises, and whose duration is read as a double. -/
structure IsRead (c : Conclusion) : Prop where
  proper : c.Proper
  duration : ∃ y, Number.read (Number.real c.duration).text.toList = some (.real y, [])

theorem duration_reread_of_read {y : Double}
    (hy : Number.read (Number.real c.duration).text.toList = some (.real y, [])) :
    c.reread.duration = y := by
  have hreread : (Number.real c.duration).reread = .real y := by
    rw [Number.reread, hy]
    rfl
  rw [reread, hreread]
  rfl

theorem IsRead.reread_duration (h : c.IsRead) :
    Number.read (Number.real c.duration).text.toList = some (.real c.reread.duration, []) := by
  obtain ⟨y, hy⟩ := h.duration
  rw [duration_reread_of_read hy]
  exact hy

theorem numbersReadBack_results (c : Conclusion) :
    Json.NumbersReadBackItems (c.results.map Json.string) := by
  rw [Json.numbersReadBackItems_iff]
  intro v hv
  obtain ⟨s, -, rfl⟩ := List.mem_map.mp hv
  trivial

theorem Proper.numbersReadBack_details (hc : c.Proper) :
    Json.NumbersReadBackItems (c.details.map Detail.toJson) := by
  rw [Json.numbersReadBackItems_iff]
  intro v hv
  obtain ⟨d, hd, rfl⟩ := List.mem_map.mp hv
  exact Detail.numbersReadBack_toJson (hc d hd)

theorem IsRead.numbersRead (h : c.IsRead) : c.toJson.NumbersRead := by
  have hresults := Json.numbersReadItems_of_numbersReadBack _ c.numbersReadBack_results
  have hdetails := Json.numbersReadItems_of_numbersReadBack _ h.proper.numbersReadBack_details
  have hduration : (Number.real c.duration).IsRead := ⟨_, h.reread_duration⟩
  simp [toJson, Json.NumbersRead, Json.NumbersReadValues, hresults, hdetails, hduration]

/-- **Of the stored form of a conclusion only the duration changes** when it is read. -/
theorem IsRead.reread_toJson (h : c.IsRead) : c.toJson.reread = c.reread.toJson := by
  have hresults := Json.rereadItems_eq_self _ c.numbersReadBack_results
  have hdetails := Json.rereadItems_eq_self _ h.proper.numbersReadBack_details
  have hduration : (Number.real c.duration).reread = .real c.reread.duration := by
    rw [Number.reread, h.reread_duration]
    rfl
  simp only [toJson, Json.reread, Json.rereadValues, hresults, hdetails, hduration]
  rfl

theorem IsRead.ofJson?_reread (h : c.IsRead) : ofJson? c.toJson.reread = some c.reread := by
  rw [h.reread_toJson]
  exact ofJson?_toJson h.proper

/-- A conclusion all of whose numbers are read as they were printed stays as it is. -/
theorem Proper.isRead_of_numbersReadBack (hc : c.Proper) (h : c.toJson.NumbersReadBack) :
    c.IsRead ∧ c.reread = c := by
  rw [toJson, Json.NumbersReadBack, Json.numbersReadBackValues_iff] at h
  have hduration : (Number.real c.duration).ReadsBack :=
    h ("duration", .number (.real c.duration)) (by simp)
  refine ⟨⟨hc, c.duration, hduration⟩, ?_⟩
  rw [reread, hduration.reread_eq]
  rfl

/-- What can be stored and read over and over: a conclusion that is as its type promises, with a
duration that may have been measured. -/
structure Lasting (c : Conclusion) : Prop where
  proper : c.Proper
  duration : c.duration.AtMost 21

theorem Lasting.isRead (h : c.Lasting) : c.IsRead := by
  obtain ⟨y, hy, -⟩ := Number.exists_read_real h.duration
  exact ⟨h.proper, y, hy⟩

/-- **What was read can be stored and read again.** -/
theorem Lasting.reread (h : c.Lasting) : c.reread.Lasting := by
  obtain ⟨y, hy, hle⟩ := Number.exists_read_real h.duration
  have hduration := duration_reread_of_read hy
  refine ⟨h.proper, ?_⟩
  rw [hduration]
  exact hle

/-- A conclusion that is not known lasts. -/
theorem lasting_unevaluated (name : String) (level : Level) (summary description : String) :
    (unevaluated name level summary description).Lasting :=
  ⟨by simp [Proper, unevaluated], Double.atMost_zero 21⟩

end Conclusion

/-! ## What is read from stored forms -/

theorem Json.lt_of_nat64? {v : Json} {n : Nat} (h : nat64? v = some n) : n < Nat.pow 2 64 := by
  rw [nat64?.eq_def] at h
  split at h
  · next i =>
    split at h
    · next hi =>
      obtain rfl := Option.some.inj h
      omega
    · simp at h
  · simp at h

theorem Location.proper_of_ofJson? {v : Json} {l : Location} (h : ofJson? v = some l) :
    l.Proper := by
  have hcount : ∀ {w : Option Json} {n : Option Nat},
      Json.optional? Json.nat64? w = some n → ∀ k, some k = n → k < Nat.pow 2 64 := by
    intro w n hn k hk
    subst hk
    rw [Json.optional?.eq_def] at hn
    split at hn
    · simp at hn
    · simp at hn
    · obtain ⟨m, hm, hmk⟩ := Option.map_eq_some_iff.mp hn
      obtain rfl := Option.some.inj hmk
      exact Json.lt_of_nat64? hm
  rw [ofJson?] at h
  obtain ⟨values, -, h⟩ := Option.bind_eq_some_iff.mp h
  split at h
  · simp only [Option.bind_eq_bind, Option.bind_eq_some_iff, Option.pure_def,
      Option.some.injEq] at h
    obtain ⟨path, -, first, hfirst, last, hlast, offset, hoffset, length, hlength, text, -, rfl⟩ :=
      h
    rintro n (hn | hn | hn | hn)
    · exact hcount hfirst n hn
    · exact hcount hlast n hn
    · exact hcount hoffset n hn
    · exact hcount hlength n hn
  · simp at h

/-- An item of a list that is read comes from an item of the list. -/
theorem exists_of_mem_mapM_option {α β : Type} {f : α → Option β} {l : List α} {l' : List β}
    (h : l.mapM f = some l') {b : β} (hb : b ∈ l') : ∃ a ∈ l, f a = some b := by
  induction l generalizing l' with
  | nil => simp_all
  | cons a l ih =>
      rw [List.mapM_cons] at h
      simp only [Option.bind_eq_bind, Option.bind_eq_some_iff, Option.pure_def,
        Option.some.injEq] at h
      obtain ⟨d, hd, rest, hrest, rfl⟩ := h
      rcases List.mem_cons.mp hb with rfl | hb
      · exact ⟨a, by simp, hd⟩
      · obtain ⟨a', ha', hfa'⟩ := ih hrest hb
        exact ⟨a', List.mem_cons_of_mem _ ha', hfa'⟩

theorem Detail.proper_of_ofJson? {v : Json} {d : Detail} (h : ofJson? v = some d) : d.Proper := by
  rw [ofJson?] at h
  obtain ⟨values, -, h⟩ := Option.bind_eq_some_iff.mp h
  split at h
  · simp only [Option.bind_eq_bind, Option.bind_eq_some_iff, Option.pure_def,
      Option.some.injEq] at h
    obtain ⟨fields, hfields, description, -, rfl⟩ := h
    refine ⟨ascending_sortKeys fields, fun f hf => ?_⟩
    obtain ⟨g, -, hg⟩ := exists_of_mem_mapM_option hfields (mem_of_mem_sortKeys hf)
    obtain ⟨l, hl, rfl⟩ := Option.map_eq_some_iff.mp hg
    exact Location.proper_of_ofJson? hl
  · simp at h

/-- **A conclusion that is read is as its type promises.** -/
theorem Conclusion.proper_of_ofJson? {v : Json} {c : Conclusion} (h : ofJson? v = some c) :
    c.Proper := by
  rw [ofJson?] at h
  obtain ⟨values, -, h⟩ := Option.bind_eq_some_iff.mp h
  split at h
  · simp only [Option.bind_eq_bind, Option.bind_eq_some_iff, Option.pure_def,
      Option.some.injEq] at h
    obtain ⟨name, -, level, -, summary, -, description, -, results, -, details, hdetails, abnormal,
      -, normal, -, unknown, -, duration, -, rfl⟩ := h
    intro d hd
    rw [Json.orElse?.eq_def] at hdetails
    split at hdetails
    · obtain rfl := Option.some.inj hdetails
      simp at hd
    · rw [Json.list?.eq_def] at hdetails
      split at hdetails
      · obtain ⟨w, -, hw⟩ := exists_of_mem_mapM_option hdetails hd
        exact Detail.proper_of_ofJson? hw
      · simp at hdetails
  · simp at h

/-! ## Values that are conclusions -/

namespace ArtifactValue

variable {v w : ArtifactValue} {c : Conclusion}

/-- The conclusion that a value is. -/
def conclusion? : ArtifactValue → Option Conclusion
  | conclusion c => some c
  | bytes _ | document _ | sequence _ => none

theorem conclusion?_eq_some_iff : v.conclusion? = some c ↔ v = conclusion c := by
  cases v <;> simp [conclusion?]

/-- A value of which something holds if it is a conclusion. -/
def IfConclusion (Q : Conclusion → Prop) (v : ArtifactValue) : Prop := ∀ c, v = conclusion c → Q c

theorem ifConclusion_of_none {Q : Conclusion → Prop} (h : v.conclusion? = none) :
    v.IfConclusion Q := by
  rintro c rfl
  simp [conclusion?] at h

/-- What is read of a stored form is a conclusion if one was stored. -/
theorem isSome_conclusion?_of_ofPayload? (h : ofPayload? v.encoding v.payload = some w) :
    w.conclusion?.isSome = v.conclusion?.isSome := by
  cases v with
  | bytes b =>
      obtain rfl := Option.some.inj h
      rfl
  | document d =>
      obtain ⟨e, -, rfl⟩ := Option.map_eq_some_iff.mp h
      rfl
  | sequence items =>
      simp only [encoding, ofPayload?] at h
      split at h
      · obtain rfl := Option.some.inj h
        rfl
      · simp at h
  | conclusion c =>
      obtain ⟨d, -, rfl⟩ := Option.map_eq_some_iff.mp h
      rfl

/-- Whatever is read of a stored form as a conclusion is as its type promises. -/
theorem proper_of_ofPayload? {e : Encoding} {data : Bytes} (h : ofPayload? e data = some v) :
    v.IfConclusion Conclusion.Proper := by
  rintro c rfl
  cases e with
  | bytes => simp [ofPayload?] at h
  | document => simp [ofPayload?] at h
  | sequence =>
      simp only [ofPayload?] at h
      split at h <;> simp at h
  | conclusion =>
      obtain ⟨d, hd, heq⟩ := Option.map_eq_some_iff.mp h
      obtain rfl := conclusion.inj heq
      obtain ⟨w, -, hw⟩ := Option.bind_eq_some_iff.mp hd
      exact Conclusion.proper_of_ofJson? hw

/-- What is read of the value after it was stored: its numbers may be others. -/
def reread : ArtifactValue → ArtifactValue
  | bytes b => bytes b
  | document v => document v.reread
  | sequence items => sequence (Json.rereadItems items)
  | conclusion c => conclusion c.reread

/-- A value that is as its type promises, and whose numbers are read. -/
def IsRead : ArtifactValue → Prop
  | bytes _ => True
  | document v => v.Sorted ∧ v.NumbersRead
  | sequence items => Json.SortedItems items ∧ Json.NumbersReadItems items
  | conclusion c => c.IsRead

/-- **A value that was stored is read, unless it is nested too deeply:** then nothing is read. -/
theorem ofPayload?_of_isRead (hv : v.IsRead) :
    ofPayload? v.encoding v.payload = if v.depth ≤ Json.maxDepth then some v.reread else none := by
  cases v with
  | bytes b => rfl
  | document w =>
      have hdepth : (document w).depth = w.depth := rfl
      rw [encoding, payload, ofPayload?, Json.parseBytes?_text hv.2 hv.1, hdepth]
      split <;> rfl
  | sequence items =>
      have hread : (Json.array items).NumbersRead := hv.2
      have hsorted : (Json.array items).Sorted := hv.1
      have hdepth : (sequence items).depth = (Json.array items).depth := rfl
      rw [encoding, payload, ofPayload?, Json.parseBytes?_text hread hsorted, hdepth]
      by_cases hle : (Json.array items).depth ≤ Json.maxDepth
      · rw [if_pos hle, if_pos hle]
        rfl
      · rw [if_neg hle, if_neg hle]
  | conclusion c =>
      have hread : c.IsRead := hv
      have hdepth : (conclusion c).depth = c.toJson.depth := rfl
      rw [encoding, payload, ofPayload?, Json.parseRawBytes?_text_of_numbersRead hread.numbersRead,
        hdepth]
      by_cases hle : c.toJson.depth ≤ Json.maxDepth
      · rw [if_pos hle, if_pos hle, Option.bind_some, hread.ofJson?_reread, Option.map_some]
        rfl
      · rw [if_neg hle, if_neg hle]
        rfl

/-- A value all of whose numbers are read as they were printed stays as it is. -/
theorem Proper.isRead_of_numbersReadBack (hv : v.Proper) (hnumbers : v.NumbersReadBack) :
    v.IsRead ∧ v.reread = v := by
  cases v with
  | bytes b => exact ⟨trivial, rfl⟩
  | document w =>
      have hw := hnumbers w rfl
      exact ⟨⟨hv, Json.numbersRead_of_numbersReadBack w hw⟩,
        congrArg document (w.reread_eq_self hw)⟩
  | sequence items =>
      have hitems : Json.NumbersReadBackItems items := hnumbers (.array items) rfl
      exact ⟨⟨hv, Json.numbersReadItems_of_numbersReadBack items hitems⟩,
        congrArg sequence (Json.rereadItems_eq_self items hitems)⟩
  | conclusion c =>
      obtain ⟨hread, hsame⟩ :=
        Conclusion.Proper.isRead_of_numbersReadBack hv (hnumbers c.toJson rfl)
      exact ⟨hread, congrArg conclusion hsame⟩

/-- **A value that was stored is read back, unless it is nested too deeply,** if its numbers are
read as they were printed. -/
theorem ofPayload?_payload (hv : v.Proper) (hnumbers : v.NumbersReadBack) :
    ofPayload? v.encoding v.payload = if v.depth ≤ Json.maxDepth then some v else none := by
  obtain ⟨hread, hsame⟩ := hv.isRead_of_numbersReadBack hnumbers
  rw [ofPayload?_of_isRead hread, hsame]

/-- **A conclusion that was stored is read,** and nothing else is read as a conclusion. -/
theorem conclusion?_of_ofPayload? (hv : v.IfConclusion Conclusion.IsRead)
    (h : ofPayload? v.encoding v.payload = some w) :
    w.conclusion? = v.conclusion?.map Conclusion.reread := by
  cases hc : v.conclusion? with
  | none =>
      have hsome := isSome_conclusion?_of_ofPayload? h
      rwa [hc, Option.isSome_none, Option.isSome_eq_false_iff, Option.isNone_iff_eq_none] at hsome
  | some c =>
      obtain rfl := conclusion?_eq_some_iff.mp hc
      have hdepth : (conclusion c).depth ≤ Json.maxDepth := c.depth_toJson.trans (by decide)
      have hread : (conclusion c).IsRead := hv c rfl
      rw [ofPayload?_of_isRead hread, if_pos hdepth] at h
      rw [← Option.some.inj h]
      rfl

theorem lasting_of_ofPayload? (hv : v.IfConclusion Conclusion.Lasting)
    (h : ofPayload? v.encoding v.payload = some w) : w.IfConclusion Conclusion.Lasting := by
  intro c hc
  rw [← conclusion?_eq_some_iff, conclusion?_of_ofPayload? (fun d hd => (hv d hd).isRead) h,
    Option.map_eq_some_iff] at hc
  obtain ⟨d, hd, rfl⟩ := hc
  exact (hv d (conclusion?_eq_some_iff.mp hd)).reread

end ArtifactValue

/-! ## What analyses conclude -/

namespace Step

theorem proper_of_locationOf {fields : List (String × Json)} {l : Location}
    (h : locationOf fields = some l) : l.Proper := by
  simp only [locationOf, Option.bind_eq_bind, Option.bind_eq_some_iff, Option.pure_def,
    Option.some.injEq] at h
  obtain ⟨path, -, -, -, text, -, rfl⟩ := h
  rintro n (hn | hn | hn | hn) <;>
  · obtain ⟨v, -, hv⟩ := Option.bind_eq_some_iff.mp hn.symm
    exact Json.lt_of_nat64? hv

/-- The details of an entry are as their type promises. -/
theorem proper_of_entry {description : String} {v : Json} {d : Detail}
    (h : (entry description v).2 = some d) : d.Proper := by
  cases v with
  | object fields =>
      rw [entry] at h
      split at h
      · next result detail hdetail =>
        obtain rfl := Option.some.inj h
        rw [recordDetail] at hdetail
        simp only at hdetail
        split at hdetail
        · simp at hdetail
        · split at hdetail
          · simp at hdetail
          · simp only [Option.some.injEq, Prod.mk.injEq] at hdetail
            obtain ⟨-, rfl⟩ := hdetail
            refine ⟨ascending_sortKeys _, fun f hf => ?_⟩
            obtain ⟨token, -, htoken⟩ := List.mem_filterMap.mp (mem_of_mem_sortKeys hf)
            obtain ⟨l, hl, rfl⟩ := Option.map_eq_some_iff.mp htoken
            rw [bindToken] at hl
            split at hl
            · exact proper_of_locationOf hl
            · split at hl
              · exact proper_of_locationOf hl
              · simp at hl
      · simp at h
  | null | bool | number | string | array => simp [entry] at h

/-- **What an analysis concludes is as its type promises,** if its input is. -/
theorem proper_conclude (node : String) (a : AnalysisStep) (spent : Elapsed)
    {input : ArtifactValue} (hinput : input.IfConclusion Conclusion.Proper) :
    (conclude node a input spent).Proper := by
  have hentries : ∀ vs, ∀ d ∈ (entries a.description vs).2, d.Proper := by
    intro vs d hd
    simp only [entries, List.mem_filterMap, List.mem_map] at hd
    obtain ⟨e, ⟨v, -, rfl⟩, he⟩ := hd
    exact proper_of_entry he
  have hdetails : ∀ d ∈ (findings a.description input).2, d.Proper := by
    rw [findings.eq_def]
    split
    · simp
    · simp
    · exact hentries _
    · exact hentries _
    · exact hentries _
    · exact hinput _ rfl
  exact hdetails

theorem conclude_duration (node : String) (a : AnalysisStep) (input : ArtifactValue)
    (spent : Elapsed) : (conclude node a input spent).duration = spent.toDouble := by
  rw [conclude]

/-- **What an analysis concludes can be stored and read over and over,** if it is as its type
promises: its duration was measured. -/
theorem lasting_of_proper_conclude {node : String} {a : AnalysisStep} {input : ArtifactValue}
    {spent : Elapsed} (h : (conclude node a input spent).Proper) :
    (conclude node a input spent).Lasting := by
  have hduration := conclude_duration node a input spent
  refine ⟨h, ?_⟩
  rw [hduration]
  exact spent.atMost_toDouble

end Step

end Distill

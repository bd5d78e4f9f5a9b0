import Distill.Proofs.Artifact.Conclusions
import Distill.Proofs.Cache.Entries

/-!
# Files of a cache that are read back

The file of an artifact is decoded to the artifact: a failure always, a success up to its numbers,
which are printed and read, if it is not nested too deeply. A success that is nested too
deeply is refused, so that no file that was written is ever taken for another value. The file of
conclusions is decoded to the conclusions.

## Main definitions

* `Cache.isHollow` — what is not stored, and `Cache.stored` what is stored of the rest.
* `Cache.Readable`, `Cache.reread` — what can be stored and read, and what is read of it.
* `Cache.Storable` — what can be stored and read back.

## Main statements

* `Cache.readMarker_withMarker` — the first line is read back.
* `Cache.decodes_to_what_was_encoded` — an artifact is read back from its file.
* `Cache.valueIn_succeeded`, `Cache.valueIn_failed` — which value is read from a file.
* `Cache.success?_put` — which value is read after an artifact was stored.
* `Cache.decodeConclusions?_of_isRead`, `Cache.decodeConclusions?_encodeConclusions` — conclusions
  are read from their file.
-/

namespace Distill.Cache

variable {c : Cache} {archive node other : String} {a : Artifact} {v w : ArtifactValue}
  {f : Failure}

/-! ## The first line -/

private theorem hexDigit_ne_newline : ∀ n < 16, '\n' ≠ Json.hexDigit n := by decide

private theorem newline_notMem_escapeChar (c : Char) : '\n' ∉ Json.escapeChar c := by
  have hhigh := hexDigit_ne_newline (c.toNat % 16) (Nat.mod_lt _ (by decide))
  rw [Json.escapeChar]
  repeat' split
  all_goals try simp
  · next hc => exact ⟨hexDigit_ne_newline _ (by omega), hhigh⟩
  · next h _ _ _ _ _ => exact fun heq => h heq.symm

private theorem newline_notMem_stringText (s : String) : '\n' ∉ Json.stringText s := by
  intro h
  simp only [Json.stringText, List.mem_cons, List.mem_append, List.mem_flatMap,
    List.not_mem_nil, or_false] at h
  rcases h with h | ⟨c, -, h⟩ | h
  · simp at h
  · exact newline_notMem_escapeChar c h
  · simp at h

theorem Marker.numbersReadBack_toJson (m : Marker) : m.toJson.NumbersReadBack := by
  cases m <;> simp [toJson, Failure.toJson, Json.NumbersReadBack, Json.NumbersReadBackValues]

theorem Marker.depth_toJson (m : Marker) : m.toJson.depth ≤ Json.maxDepth := by
  cases m <;> simp [toJson, Failure.toJson, Json.depth, Json.depthValues, Json.maxDepth]

theorem Marker.newline_notMem_text (m : Marker) : '\n' ∉ m.toJson.text.toList := by
  rw [Json.toList_text]
  cases m <;>
    simp [toJson, Failure.toJson, Json.chars, Json.fieldChars, newline_notMem_stringText]

theorem Encoding.ofName?_name (e : Encoding) : Encoding.ofName? e.name = some e := by
  cases e <;> decide

/-- **A marker is read back.** -/
theorem Marker.ofJson?_toJson (m : Marker) : ofJson? m.toJson = some m := by
  cases m with
  | succeeded node e =>
      simp [toJson, ofJson?, ofFields?, Json.uniqueField?, Json.record?, Json.string?, Json.word?,
        Encoding.ofName?_name]
  | failed node f =>
      simp [toJson, ofJson?, ofFields?, Json.uniqueField?, Json.record?, Json.string?,
        Failure.ofJson?_toJson]

/-- **The first line of a file is read back.** -/
theorem readMarker_withMarker (m : Marker) (payload : Bytes) :
    readMarker (withMarker m payload) = .ok (m, payload) := by
  have hline : ∀ b ∈ Bytes.ofString m.toJson.text, (b != newline) = true := by
    intro b hb
    rw [bne_iff_ne]
    rintro rfl
    exact m.newline_notMem_text (Bytes.newline_mem_ofString hb)
  rw [readMarker, withMarker, List.dropWhile_append_of_pos hline,
    List.takeWhile_append_of_pos hline]
  have hend : (newline != newline) = false := by decide
  simp only [List.dropWhile_cons, List.takeWhile_cons, hend, Bool.false_eq_true, if_false,
    List.append_nil]
  rw [Json.parseRawBytes?_text m.numbersReadBack_toJson, if_pos m.depth_toJson, Option.bind_some,
    m.ofJson?_toJson]

/-! ## Files of artifacts -/

/-- **A success is read from its file, unless it is nested too deeply.** -/
theorem decode_succeeded_of_isRead (hv : v.IsRead) :
    decode (withMarker (.succeeded node v.encoding) v.payload) =
      if v.depth ≤ Json.maxDepth then .ok (.succeeded node v.reread) else .error .malformed := by
  rw [decode, readMarker_withMarker]
  simp only [bind, Except.bind, ArtifactValue.ofPayload?_of_isRead hv]
  by_cases hdepth : v.depth ≤ Json.maxDepth
  · rw [if_pos hdepth, if_pos hdepth]
    rfl
  · rw [if_neg hdepth, if_neg hdepth]
    rfl

theorem decode_succeeded (hv : v.Proper) (hnumbers : v.NumbersReadBack) :
    decode (withMarker (.succeeded node v.encoding) v.payload) =
      if v.depth ≤ Json.maxDepth then .ok (.succeeded node v) else .error .malformed := by
  obtain ⟨hread, hsame⟩ := hv.isRead_of_numbersReadBack hnumbers
  rw [decode_succeeded_of_isRead hread, hsame]

/-- **A failure is read from its file.** -/
theorem decode_failed : decode (withMarker (.failed node f) []) = .ok (.failed node f) := by
  rw [decode, readMarker_withMarker]
  rfl

/-- Whether an artifact is a success without a value. Such an artifact is not stored. -/
def isHollow (a : Artifact) : Bool := a.isSuccess && a.value.isNone

/-- An artifact as it is stored: a failure has no value. -/
def stored (a : Artifact) : Artifact := { a with value := a.value? }

theorem stored_of_value (h : a.value.isSome = a.isSuccess) : stored a = a := by
  obtain ⟨node, status, value⟩ := a
  cases status with
  | succeeded => rfl
  | failed f =>
      have hnone : value = none := by simpa [Artifact.isSuccess] using h
      simp [stored, Artifact.value?, hnone]

theorem encode_of_isHollow (h : isHollow a = true) : encode a = .error .missingValue := by
  obtain ⟨node, status, value⟩ := a
  cases status with
  | failed f => simp [isHollow, Artifact.isSuccess] at h
  | succeeded =>
      cases value with
      | none => rfl
      | some v => simp [isHollow] at h

/-- The file of an artifact starts with the line for it. -/
theorem exists_encode (h : isHollow a = false) :
    ∃ m payload, encode a = .ok (withMarker m payload) := by
  obtain ⟨node, status, value⟩ := a
  cases status with
  | failed f => exact ⟨_, _, rfl⟩
  | succeeded =>
      cases value with
      | none => simp [isHollow, Artifact.isSuccess] at h
      | some v => exact ⟨_, _, rfl⟩

/-- The first line of a file that can be decoded tells whether the artifact is a success. -/
theorem readMarker_of_decode {data : Bytes} (h : decode data = .ok a) :
    (a.isSuccess = true ∧ ∃ e payload, readMarker data = .ok (.succeeded a.node e, payload)) ∨
      (a.isSuccess = false ∧ ∃ f payload, readMarker data = .ok (.failed a.node f, payload)) := by
  rw [decode] at h
  cases hmarker : readMarker data with
  | error e =>
      rw [hmarker] at h
      simp [bind, Except.bind] at h
  | ok line =>
      rw [hmarker] at h
      obtain ⟨m, payload⟩ := line
      cases m with
      | succeeded node e =>
          simp only [bind, Except.bind] at h
          split at h
          · rw [← Except.ok.inj h]
            exact Or.inl ⟨rfl, e, payload, rfl⟩
          · simp [throw, throwThe, MonadExceptOf.throw] at h
      | failed node f =>
          rw [← Except.ok.inj h]
          exact Or.inr ⟨rfl, f, payload, rfl⟩

/-- What can be stored and read back: a failure, and a success whose value is as its type
promises, has numbers that are read as they were printed, and is not nested too deeply. -/
def Storable (a : Artifact) : Prop :=
  ∀ v ∈ a.value?, v.Proper ∧ v.NumbersReadBack ∧ v.depth ≤ Json.maxDepth

/-- What can be stored and read: a failure, and a success whose value is as its type promises, has
numbers that are read, and is not nested too deeply. -/
def Readable (a : Artifact) : Prop := ∀ v ∈ a.value?, v.IsRead ∧ v.depth ≤ Json.maxDepth

/-- An artifact as it is read: a failure has no value, and the numbers of a value may be others. -/
def reread (a : Artifact) : Artifact := { a with value := a.value?.map ArtifactValue.reread }

/-- What can be read back is read as it is stored. -/
theorem Storable.readable (ha : Storable a) : Readable a ∧ reread a = stored a := by
  have hread : ∀ v ∈ a.value?, v.IsRead ∧ v.reread = v := fun v hv =>
    (ha v hv).1.isRead_of_numbersReadBack (ha v hv).2.1
  refine ⟨fun v hv => ⟨(hread v hv).1, (ha v hv).2.2⟩, ?_⟩
  rw [reread, stored]
  cases hvalue : a.value? with
  | none => rfl
  | some v => rw [Option.map_some, (hread v hvalue).2]

/-- **What was encoded is decoded to the artifact as it is read.** -/
theorem decode_of_readable {data : Bytes} (ha : Readable a) (h : encode a = .ok data) :
    decode data = .ok (reread a) := by
  obtain ⟨node, status, value⟩ := a
  cases status with
  | failed f =>
      rw [← Except.ok.inj h]
      exact decode_failed
  | succeeded =>
      cases value with
      | none => simp [encode] at h
      | some v =>
          obtain ⟨hread, hdepth⟩ := ha v rfl
          rw [← Except.ok.inj h, decode_succeeded_of_isRead hread, if_pos hdepth]
          rfl

/-- What was encoded is decoded to the artifact as it is stored. -/
theorem decode_of_encode {data : Bytes} (ha : Storable a) (h : encode a = .ok data) :
    decode data = .ok (stored a) := by
  obtain ⟨hreadable, hsame⟩ := ha.readable
  rw [decode_of_readable hreadable h, hsame]

/-- **An artifact that has a value exactly when it succeeded is read back from its file.** The
first newline ends the first line, whatever stands in the name of the node and in the message
of the failure, and whatever octets follow. -/
theorem decodes_to_what_was_encoded (hvalue : a.value.isSome = a.isSuccess) (ha : Storable a) :
    ∃ line payload, encode a = .ok (line ++ newline :: payload) ∧ newline ∉ line ∧
      decode (line ++ newline :: payload) = .ok a := by
  have hsolid : isHollow a = false := by
    rw [isHollow, ← hvalue]
    cases a.value <;> rfl
  obtain ⟨m, payload, hencode⟩ := exists_encode hsolid
  have hdecode := decode_of_encode ha hencode
  rw [stored_of_value hvalue] at hdecode
  refine ⟨Bytes.ofString m.toJson.text, payload, hencode, ?_, hdecode⟩
  exact fun hmem => m.newline_notMem_text (Bytes.newline_mem_ofString hmem)

/-- A finding whose name and texts go over several lines. -/
def brokenLines : Artifact where
  node := "broken\n\"lines\"\u0001"
  status := .succeeded
  value := some <| .conclusion
    { name := "broken\n\"lines\"\u0001", level := .warning, summary := "é\n",
      description := "see \x7bplace\x7d", results := ["one\ntwo", "\\n"],
      details := [⟨"see \x7bplace\x7d", [("place", ⟨"var/log", some 3, none, some 0, none, "\n"⟩)]⟩],
      abnormal := true, normal := false, unknown := false, duration := Double.zero false }

/-- It is decoded with all the line breaks in its texts. -/
theorem brokenLines_decodes_to_what_was_encoded :
    brokenLines.value.isSome = brokenLines.isSuccess ∧ Storable brokenLines ∧
    ∃ line payload, encode brokenLines = .ok (line ++ newline :: payload) ∧ newline ∉ line ∧
      decode (line ++ newline :: payload) = .ok brokenLines := by
  have hstorable : Storable brokenLines := by
    rintro v hv
    obtain rfl := Option.some.inj hv
    refine ⟨?_, ?_, by decide +kernel⟩
    · simp [ArtifactValue.Proper, Conclusion.Proper, Detail.Proper, Ascending, Location.Proper]
    · have hthree : (Number.int 3).ReadsBack := by unfold Number.ReadsBack; decide
      have hnone : (Number.int 0).ReadsBack := by unfold Number.ReadsBack; decide
      have hzero : (Number.real (Double.zero false)).ReadsBack := by
        unfold Number.ReadsBack
        decide +kernel
      simp [ArtifactValue.NumbersReadBack, ArtifactValue.json?, Conclusion.toJson, Detail.toJson,
        Location.toJson, Location.optionalField, Json.ofNat, Json.NumbersReadBack,
        Json.NumbersReadBackItems, Json.NumbersReadBackValues, hthree, hnone, hzero]
  exact ⟨rfl, hstorable, decodes_to_what_was_encoded rfl hstorable⟩

/-- **The value of a success is read from its file, unless it is nested too deeply.** -/
theorem valueIn_succeeded (hv : v.Proper) (hnumbers : v.NumbersReadBack) :
    valueIn node (withMarker (.succeeded node v.encoding) v.payload) =
      if v.depth ≤ Json.maxDepth then some v else none := by
  rw [valueIn, decode_succeeded hv hnumbers]
  by_cases hdepth : v.depth ≤ Json.maxDepth
  · simp [hdepth]
  · simp [hdepth]

/-- **No value is read from the file of a failure.** -/
theorem valueIn_failed : valueIn other (withMarker (.failed node f) []) = none := by
  rw [valueIn, decode_failed]
  exact ite_self none

/-- **What is read after a success was stored:** its value or, when that could not be stored,
the value that was there. -/
theorem success?_put_succeeded (hc : c.Direct archive) (hv : v.Proper)
    (hnumbers : v.NumbersReadBack) :
    (c.put archive (.succeeded node v)).2.success? archive node =
      if (c.put archive (.succeeded node v)).1 = .ok () then
        if Fits archive node ∧ v.depth ≤ Json.maxDepth then some v else none
      else c.success? archive node := by
  have hfile := fileOf_put c archive (.succeeded node v) archive node
  have hencode : (encode (.succeeded node v)).toOption =
      some (withMarker (.succeeded node v.encoding) v.payload) := rfl
  simp only [Artifact.node_succeeded, and_true, hencode] at hfile
  rw [success?_eq (direct_put hc archive _), hfile]
  by_cases hok : (c.put archive (.succeeded node v)).1 = .ok ()
  · rw [if_pos hok, if_pos hok]
    by_cases hfits : Fits archive node
    · rw [if_pos hfits, Option.bind_some, valueIn_succeeded hv hnumbers]
      simp only [hfits, true_and]
    · rw [if_neg hfits, if_neg fun h => hfits h.1]
  · rw [if_neg hok, if_neg hok, success?_eq hc]

/-- **No value is read after a failure was stored,** but the one that was there when the failure
could not be stored. -/
theorem success?_put_failed (hc : c.Direct archive) :
    (c.put archive (.failed node f)).2.success? archive node =
      if (c.put archive (.failed node f)).1 = .ok () then none
      else c.success? archive node := by
  have hfile := fileOf_put c archive (.failed node f) archive node
  have hencode : (encode (.failed node f)).toOption = some (withMarker (.failed node f) []) := rfl
  simp only [Artifact.node_failed, and_true, hencode] at hfile
  rw [success?_eq (direct_put hc archive _), hfile]
  by_cases hok : (c.put archive (.failed node f)).1 = .ok ()
  · rw [if_pos hok, if_pos hok, Option.bind_some, valueIn_failed, ite_self]
  · rw [if_neg hok, if_neg hok, success?_eq hc]

/-- **A value that was stored is read.** -/
theorem Regular.success?_put (hc : c.Regular archive) (hv : v.Proper)
    (hnumbers : v.NumbersReadBack) (hdepth : v.depth ≤ Json.maxDepth)
    (hok : (c.put archive (.succeeded node v)).1 = .ok ()) :
    (c.put archive (.succeeded node v)).2.success? archive node = some v := by
  have hfile := fileOf_put c archive (.succeeded node v) archive node
  have hencode : (encode (.succeeded node v)).toOption =
      some (withMarker (.succeeded node v.encoding) v.payload) := rfl
  rw [if_pos ⟨hok, rfl, rfl⟩, hencode] at hfile
  have hfits := (hc.put archive _).fits_of_fileOf hfile
  rw [success?_put_succeeded hc.direct hv hnumbers, if_pos hok, if_pos ⟨hfits, hdepth⟩]

/-! ## Files of conclusions -/

/-- **Conclusions are read from their file.** -/
theorem decodeConclusions?_of_isRead {cs : List Conclusion} (hcs : ∀ c ∈ cs, c.IsRead) :
    decodeConclusions? (encodeConclusions cs) = some (cs.map Conclusion.reread) := by
  have hreads : Json.NumbersReadItems (cs.map Conclusion.toJson) := by
    induction cs with
    | nil => trivial
    | cons c cs ih =>
        exact ⟨(hcs c (by simp)).numbersRead, ih fun d hd => hcs d (by simp [hd])⟩
  have hreread : Json.rereadItems (cs.map Conclusion.toJson) =
      cs.map fun c => c.toJson.reread := by
    clear hcs hreads
    induction cs with
    | nil => rfl
    | cons c cs ih => simp only [List.map_cons, Json.rereadItems, ih]
  have hdepth : (Json.array (cs.map Conclusion.toJson)).depth ≤ Json.maxDepth := by
    refine Nat.le_trans (Nat.succ_le_succ (Json.depthItems_le_iff.mpr fun v hv => ?_))
      (by decide : 6 ≤ Json.maxDepth)
    obtain ⟨c, -, rfl⟩ := List.mem_map.mp hv
    exact c.depth_toJson
  rw [decodeConclusions?, encodeConclusions,
    Json.parseRawBytes?_prettyText (by rwa [Json.NumbersRead]) hdepth, Option.bind_some,
    Json.reread, hreread, Json.list?, List.mapM_map]
  exact mapM_eq_pure fun c hc => (hcs c hc).ofJson?_reread

/-- **Conclusions are read back from their file,** if their numbers are read as they were
printed. -/
theorem decodeConclusions?_encodeConclusions {cs : List Conclusion} (hcs : ∀ c ∈ cs, c.Proper)
    (hnumbers : ∀ c ∈ cs, c.toJson.NumbersReadBack) :
    decodeConclusions? (encodeConclusions cs) = some cs := by
  have hread := fun c hc => (hcs c hc).isRead_of_numbersReadBack (hnumbers c hc)
  have hsame : cs.map Conclusion.reread = cs := by
    rw [List.map_congr_left fun c hc => (hread c hc).2, List.map_id']
  rw [decodeConclusions?_of_isRead fun c hc => (hread c hc).1, hsame]

end Distill.Cache

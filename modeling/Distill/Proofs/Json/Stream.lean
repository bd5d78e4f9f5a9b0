import Distill.Proofs.Json.Pretty
import Distill.Proofs.Text.Utf8
import Distill.Step.Run

/-!
# Streams of values

Values that are printed one on a line are read back as a stream, whether or not the last line has an
end. So a filter gives the same for such a text as for the sequence of the values: a text that is no
stream would be taken for one string, and this one never is.

## Main definitions

* `Json.Legible` — values that are read back from their texts.
* `Json.linesText` — the texts of values, one on a line.

## Main statements

* `Json.readStream_chars` — a value in front of the rest of a stream.
* `Json.parseStream?_linesText` — values that are printed on lines are read back.
* `Step.filters_lines_as_sequence` — filters do not tell the lines from the values.
-/

namespace Distill

namespace Json

variable {v : Json} {vs : List Json} {rest : List Char} {fuel : Nat}

/-- A value that is read back from its text as it is. -/
structure Legible (v : Json) : Prop where
  sorted : v.Sorted
  depth_le : v.depth ≤ maxDepth
  numbersReadBack : v.NumbersReadBack

/-- What may stand behind a value on a line: the end of the line or of the text. -/
def EndsLine (rest : List Char) : Prop := ∀ c ∈ rest.head?, c = '\n'

theorem EndsLine.stops (h : EndsLine rest) : Stops rest :=
  fun c hc => .inr (.inr (.inr (h c hc)))

theorem EndsLine.mayFollowScalar (h : EndsLine rest) : mayFollowScalar rest = true := by
  cases rest with
  | nil => rfl
  | cons c rest =>
      obtain rfl := h c rfl
      rfl

/-- A stream goes on behind white space as without it. -/
theorem readStream_newline (fuel : Nat) (cs : List Char) :
    readStream fuel ('\n' :: cs) = readStream fuel cs := by
  have hskip : skipSpace ('\n' :: cs) = skipSpace cs := skipSpace_lineBreak 0 cs
  cases fuel with
  | zero => rfl
  | succ fuel => rw [readStream, readStream, hskip]

/-- **A value that was printed is read in front of the rest of a stream.** -/
theorem readStream_chars (hv : v.Legible) (hrest : EndsLine rest) (fuel : Nat) :
    readStream (fuel + 1) (v.chars ++ rest) = (readStream fuel rest).map (v :: ·) := by
  have hnumbers := numbersRead_of_numbersReadBack v hv.numbersReadBack
  obtain ⟨c, cs, heq, hc⟩ := exists_chars_eq_cons hnumbers
  have hread : readValue (v.chars ++ rest) = some (v, rest) := by
    rw [readValue, read_chars v hnumbers maxDepth _ rest hrest.stops, if_pos hv.depth_le,
      reread_eq_self v hv.numbersReadBack]
    rw [List.length_append]
    omega
  have hskip : skipSpace (v.chars ++ rest) = v.chars ++ rest := by
    rw [heq, List.cons_append, skipSpace_cons hc.1]
  rw [readStream, hskip]
  split
  · next hnil => simp [heq] at hnil
  · simp [hread, hrest.mayFollowScalar, sort_eq_self v hv.sorted]

/-- The texts of values, one on a line, with something behind the last one. -/
def linesText (vs : List Json) (ending : String) : String :=
  "\n".intercalate (vs.map text) ++ ending

theorem toList_linesText_cons_cons (v w : Json) (vs : List Json) (ending : String) :
    (linesText (v :: w :: vs) ending).toList =
      v.chars ++ '\n' :: (linesText (w :: vs) ending).toList := by
  simp [linesText, text, String.toList_append, String.toList_intercalate]

theorem toList_linesText_singleton (v : Json) (ending : String) :
    (linesText [v] ending).toList = v.chars ++ ending.toList := by
  simp [linesText, text, String.toList_append]

section

variable {ending : String} (hending : ending = "" ∨ ending = "\n")

include hending

theorem endsLine_ending : EndsLine ending.toList := by
  rcases hending with rfl | rfl <;> simp [EndsLine]

theorem readStream_ending (fuel : Nat) : readStream (fuel + 1) ending.toList = some [] := by
  rcases hending with rfl | rfl <;> rfl

/-- A stream has as many lines as values, so that the length of the text is fuel enough. -/
theorem readStream_linesText (hvs : ∀ v ∈ vs, v.Legible)
    (hfuel : (linesText vs ending).toList.length < fuel) :
    readStream fuel (linesText vs ending).toList = some vs := by
  induction vs generalizing fuel with
  | nil =>
      obtain ⟨fuel, rfl⟩ := Nat.exists_eq_add_one.mpr (Nat.zero_lt_of_lt hfuel)
      simpa [linesText] using readStream_ending hending fuel
  | cons v vs ih =>
      have hv := hvs v List.mem_cons_self
      have hpos := length_chars_pos (numbersRead_of_numbersReadBack v hv.numbersReadBack)
      obtain ⟨fuel, rfl⟩ := Nat.exists_eq_add_one.mpr (Nat.zero_lt_of_lt hfuel)
      cases vs with
      | nil =>
          rw [toList_linesText_singleton] at hfuel ⊢
          rw [List.length_append] at hfuel
          obtain ⟨fuel, rfl⟩ : ∃ n, fuel = n + 1 := ⟨fuel - 1, by omega⟩
          rw [readStream_chars hv (endsLine_ending hending), readStream_ending hending]
          rfl
      | cons w vs =>
          have hends : EndsLine ('\n' :: (linesText (w :: vs) ending).toList) := by
            simp [EndsLine]
          rw [toList_linesText_cons_cons] at hfuel ⊢
          rw [List.length_append, List.length_cons] at hfuel
          rw [readStream_chars hv hends, readStream_newline,
            ih (fun u hu => hvs u (List.mem_cons_of_mem v hu)) (by omega)]
          rfl

/-- **Values that are printed on lines are read back.** -/
theorem parseStream?_linesText (hvs : ∀ v ∈ vs, v.Legible) :
    parseStream? (linesText vs ending) = some vs :=
  readStream_linesText hending hvs (by rw [String.length_toList]; omega)

end

end Json

namespace Step

/-- **Filters do not tell printed lines from values.** The octets of values that are printed one on
a line, with or without the end of the last line, are read as the documents that the sequence of
the values holds, so that every filter gives the same for them, its failures included; and for one
value as for the document. -/
theorem filters_lines_as_sequence (f : Filter) {vs : List Json} (hvs : ∀ v ∈ vs, v.Legible)
    {ending : String} (hending : ending = "" ∨ ending = "\n") :
    documents (.bytes (Bytes.ofString (Json.linesText vs ending))) = vs ∧
      applyFilter f (.bytes (Bytes.ofString (Json.linesText vs ending))) =
        applyFilter f (.sequence vs) ∧
      ∀ v, vs = [v] → applyFilter f (.bytes (Bytes.ofString (Json.linesText vs ending))) =
        applyFilter f (.document v) := by
  have hdocuments : documents (.bytes (Bytes.ofString (Json.linesText vs ending))) = vs := by
    rw [documents, documentsOfBytes, Bytes.text?_ofString, Option.bind_some,
      Json.parseStream?_linesText hending hvs, Option.getD_some]
  refine ⟨hdocuments, ?_, ?_⟩
  · rw [applyFilter, applyFilter, hdocuments, documents]
  · rintro v rfl
    rw [applyFilter, applyFilter, hdocuments, documents]

/-- A scalar, a text that holds the end of a line, a number and an object, on four lines. -/
theorem readings_filter_lines_as_sequence :
    let values : List Json := [.null, .string "a\nb",
      .number (.real ⟨false, 6755399441055744, 1022⟩), .object [("id", .ofInt 1)]]
    let lines : String := "null\n\"a\\nb\"\n1.5\n\x7b\"id\":1\x7d\n"
    (∀ v ∈ values, v.Legible) ∧ documents (.bytes (Bytes.ofString lines)) = values ∧
      ∀ f, applyFilter f (.bytes (Bytes.ofString lines)) = applyFilter f (.sequence values) := by
  intro values lines
  have hreal : (Number.real ⟨false, 6755399441055744, 1022⟩).ReadsBack := by
    rw [Number.ReadsBack]
    decide +kernel
  have hint : (Number.int 1).ReadsBack := by
    rw [Number.ReadsBack]
    decide +kernel
  have hvalues : ∀ v ∈ values, v.Legible := by
    simp only [values, List.forall_mem_cons, List.not_mem_nil, false_imp_iff, implies_true,
      and_true]
    exact ⟨⟨trivial, by decide, trivial⟩, ⟨trivial, by decide, trivial⟩,
      ⟨trivial, by decide, hreal⟩,
      ⟨⟨by simp [Ascending], trivial, trivial⟩, by decide, hint, trivial⟩⟩
  have hlines : Json.linesText values "\n" = lines := by
    decide +kernel
  have h := fun f => filters_lines_as_sequence f hvalues (.inr rfl)
  rw [hlines] at h
  exact ⟨hvalues, (h default).1, fun f => (h f).2.1⟩

end Step

end Distill

import Distill.Proofs.Step.Entries
import Distill.Proofs.Step.Lines

/-!
# Verdicts of an analysis

A conclusion is abnormal if its input holds something, and its results are what the input holds,
one by one. The two agree unless the input is there and nothing is in it: octets that are all white
space, a blank string, an object without fields. Such an input has results, and the conclusion is
normal nevertheless.

## Main definitions

* `ArtifactValue.Hollow` — inputs that are there, with nothing in them.

## Main statements

* `Bytes.lossyChars_eq_nil_iff`, `Bytes.isBlank_of_mem_lossyChars` — texts of octets.
* `ArtifactValue.isEmpty_iff` — when a conclusion is normal.
* `Step.abnormal_iff_results_unless_hollow` — when the verdict tells of the results.
-/

namespace Distill

/-! ## Octets -/

namespace Bytes

variable {b : Bytes}

/-- Octets that stand for no character are none. -/
theorem lossyChars_eq_nil_iff : lossyChars b = [] ↔ b = [] := by
  fun_cases lossyChars b <;> simp

/-- White space among octets is white space in their text. -/
theorem isBlank_of_mem_lossyChars (h : ∀ x ∈ b, isByteBlank x = true) :
    ∀ c ∈ lossyChars b, isBlank c = true := by
  induction b with
  | nil => simp [lossyChars]
  | cons x rest ih =>
      rw [List.forall_mem_cons] at h
      have hx : x < 0x80 ∧ isBlank (Char.ofNat x.toNat) = true := by
        have hblank := h.1
        simp only [isByteBlank, Bool.or_eq_true, beq_iff_eq] at hblank
        rcases hblank with (((rfl | rfl) | rfl) | rfl) | rfl <;> decide
      rw [lossyChars.eq_def]
      simp only [hx.1, if_true]
      exact List.forall_mem_cons.mpr ⟨hx.2, ih h.2⟩

end Bytes

/-! ## Inputs -/

namespace ArtifactValue

variable {input : ArtifactValue}

/-- The input is there, and nothing is in it: octets that are all white space, a blank string, or
an object without fields. -/
def Hollow : ArtifactValue → Prop
  | bytes b => b ≠ [] ∧ ∀ x ∈ b, isByteBlank x = true
  | document (.string s) => ∀ c ∈ s.toList, isBlank c = true
  | document (.object fields) => fields = []
  | _ => False

/-- **An input is empty if it has no results or is hollow.** -/
theorem isEmpty_iff (h : ∀ c, input ≠ conclusion c) (description : String) :
    input.isEmpty = true ↔ (Step.findings description input).1 = [] ∨ input.Hollow := by
  cases input with
  | bytes b =>
      have hlines : textLines b.lossyText = [] ↔ b = [] := by
        rw [textLines, Bytes.lossyText, String.toList_ofList, List.map_eq_nil_iff,
          lineChars_eq_nil_iff, Bytes.lossyChars_eq_nil_iff]
      rw [isEmpty, Step.findings, List.all_eq_true, hlines, Hollow]
      constructor
      · intro hblank
        by_cases hb : b = []
        · exact Or.inl hb
        · exact Or.inr ⟨hb, hblank⟩
      · rintro (rfl | ⟨-, hblank⟩)
        · simp
        · exact hblank
  | sequence items => simp [isEmpty, Step.findings, Step.entries, Hollow]
  | document v =>
      cases v <;> simp [isEmpty, Json.isEmpty, Step.findings, Step.entries, Hollow]
  | conclusion c => exact absurd rfl (h c)

end ArtifactValue

/-! ## Verdicts -/

namespace Step

variable {input : ArtifactValue}

/-- An object without fields tells of no place. -/
theorem not_linked_nil (description : String) : ¬ Linked description (.object []) := by
  rintro ⟨t, -, token, l, -, ⟨hfield, -⟩ | ⟨-, -, hplace⟩⟩
  · simp [Json.field?] at hfield
  · simpa [Json.field?] using hplace.path

/-- A hollow input has results, all of them blank or braces, and no details. -/
theorem findings_of_hollow (h : input.Hollow) (description : String) :
    (findings description input).1 ≠ [] ∧
    (∀ r ∈ (findings description input).1,
      (∀ c ∈ r.toList, isBlank c = true) ∨ r = "\x7b\x7d") ∧
    (findings description input).2 = [] := by
  cases input with
  | bytes b =>
      obtain ⟨hb, hblank⟩ := h
      refine ⟨?_, fun r hr => Or.inl fun c hc => ?_, rfl⟩
      · rw [findings, textLines, Bytes.lossyText, String.toList_ofList, ne_eq,
          List.map_eq_nil_iff, lineChars_eq_nil_iff, Bytes.lossyChars_eq_nil_iff]
        exact hb
      · obtain ⟨line, hline, rfl⟩ := List.mem_map.mp hr
        rw [String.toList_ofList] at hc
        have hmem := subset_of_mem_lineChars line hline hc
        rw [Bytes.lossyText, String.toList_ofList] at hmem
        exact Bytes.isBlank_of_mem_lossyChars hblank c hmem
  | document v =>
      cases v with
      | string s =>
          refine ⟨by simp [findings, entries], fun r hr => Or.inl ?_, rfl⟩
          obtain rfl : r = s := List.mem_singleton.mp hr
          exact h
      | object fields =>
          obtain rfl : fields = [] := h
          have hentry : entry description (.object []) = ("\x7b\x7d", none) := by
            rw [entry, recordDetail_eq_none_iff.mpr (not_linked_nil description)]
            rfl
          simp [findings, entries, hentry]
      | null | bool | number | array => exact h.elim
  | sequence | conclusion => exact h.elim

/-- **A conclusion is abnormal exactly if it has results, unless its input is hollow.** It is
always known. Otherwise it is normal, although it has results: they are blank, or the braces of an
object without fields, and there is no detail. -/
theorem abnormal_iff_results_unless_hollow (node : String) (a : AnalysisStep) (spent : Elapsed)
    (h : ∀ c, input ≠ .conclusion c) :
    (conclude node a input spent).unknown = false ∧
    (¬ input.Hollow →
      ((conclude node a input spent).abnormal = true ↔ (conclude node a input spent).results ≠ []) ∧
      ((conclude node a input spent).normal = true ↔ (conclude node a input spent).results = [])) ∧
    (input.Hollow →
      (conclude node a input spent).abnormal = false ∧ (conclude node a input spent).normal = true ∧
      (conclude node a input spent).results ≠ [] ∧
      (∀ r ∈ (conclude node a input spent).results,
        (∀ c ∈ r.toList, isBlank c = true) ∨ r = "\x7b\x7d") ∧
      (conclude node a input spent).details = []) := by
  have hempty := ArtifactValue.isEmpty_iff h a.description
  refine ⟨rfl, fun hfull => ?_, fun hhollow => ?_⟩
  · rw [or_iff_left hfull] at hempty
    simp only [conclude, Bool.not_eq_true', Bool.not_not, ← Bool.not_eq_true, hempty, ne_eq,
      and_self]
  · have hyes := hempty.mpr (Or.inr hhollow)
    simp only [conclude, hyes, Bool.not_true, Bool.not_false, true_and]
    exact findings_of_hollow hhollow a.description

/-- Whether a command has any output. -/
def anyOutput : AnalysisStep := ⟨.error, "there is output", ""⟩

/-- A vertical tab is white space for texts and not for octets, so that it is a finding; blanks
with the end of a line are hollow. -/
theorem verticalTab_abnormal_iff_results :
    let tab : ArtifactValue := .bytes [0x0B]
    let blanks : ArtifactValue := .bytes [0x20, 0x0A, 0x09]
    (∀ c, tab ≠ .conclusion c) ∧ ¬ tab.Hollow ∧
    (conclude "output" anyOutput tab .zero).results ≠ [] ∧
    (conclude "output" anyOutput tab .zero).abnormal = true ∧
    (∀ c, blanks ≠ .conclusion c) ∧ blanks.Hollow ∧
    (conclude "output" anyOutput blanks .zero).results = [" ", "\t"] ∧
    (conclude "output" anyOutput blanks .zero).abnormal = false ∧
    (conclude "output" anyOutput blanks .zero).details = [] := by
  intro tab blanks
  have htab : ¬ tab.Hollow := by simp [tab, ArtifactValue.Hollow, isByteBlank]
  have hblanks : blanks.Hollow := by simp [blanks, ArtifactValue.Hollow, isByteBlank]
  have hresults : (conclude "output" anyOutput tab .zero).results ≠ [] := by decide
  obtain ⟨-, hfull, -⟩ :=
    @abnormal_iff_results_unless_hollow tab "output" anyOutput .zero (by simp [tab])
  obtain ⟨-, -, hhollow⟩ :=
    @abnormal_iff_results_unless_hollow blanks "output" anyOutput .zero (by simp [blanks])
  obtain ⟨habnormal, -, -, -, hdetails⟩ := hhollow hblanks
  exact ⟨by simp [tab], htab, hresults, (hfull htab).1.mpr hresults, by simp [blanks], hblanks,
    by decide, habnormal, hdetails⟩

/-- The end of a line, a blank and an object without fields are normal, and each of them has a
result. -/
theorem newline_is_normal_with_results :
    (∃ c, c = conclude "output" anyOutput (.bytes [0x0A]) .zero ∧
      c.normal = true ∧ c.abnormal = false ∧ c.results = [""]) ∧
    (∃ c, c = conclude "output" anyOutput (.document (.string " ")) .zero ∧
      c.normal = true ∧ c.abnormal = false ∧ c.results = [" "]) ∧
    ∃ c, c = conclude "output" anyOutput (.document (.object [])) .zero ∧
      c.normal = true ∧ c.abnormal = false ∧ c.results = ["\x7b\x7d"] := by
  refine ⟨⟨_, rfl, ?_⟩, ⟨_, rfl, ?_⟩, ⟨_, rfl, ?_⟩⟩ <;> decide +kernel

end Step

end Distill

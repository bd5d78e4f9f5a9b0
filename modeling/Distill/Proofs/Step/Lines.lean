import Distill.Proofs.Step.Running

/-!
# Lines

The lines of a text are what stands between its newlines. A carriage return in front of a newline
is lost with it, and a newline at the end starts no line of its own. Nothing else is lost: the lines
with newlines between them are the text, but for those carriage returns and one newline at the end.

All statements follow the text character by character. What is said of the end of a text does not
change when a character is put in front of it, unless the text was empty.

## Main definitions

* `withoutReturns`, `withoutFinalNewline` — what is lost of a text.

## Main statements

* `lineChars_eq_nil_iff`, `subset_of_mem_lineChars`, `newline_notMem_of_mem_lineChars` — lines hold
  what is in the text, newlines apart.
* `intercalate_lineChars` — the lines with newlines between them.
* `length_lineChars` — how many lines there are.
* `Step.splits_at_newlines` — what follows for the step.
-/

namespace Distill

/-! ## What is lost of a text -/

/-- The text with a newline for each pair of a carriage return and a newline, from left to right. -/
def withoutReturns : List Char → List Char
  | '\r' :: '\n' :: rest => '\n' :: withoutReturns rest
  | c :: rest => c :: withoutReturns rest
  | [] => []

/-- The text without one newline at its end, if there is one. -/
def withoutFinalNewline (cs : List Char) : List Char :=
  if cs.getLast? = some '\n' then cs.dropLast else cs

section Lines

variable {c : Char} {cs rest : List Char}

/-- A carriage return is lost in front of a newline, and nothing else is. -/
theorem withoutReturns_cons (c : Char) (rest : List Char) :
    withoutReturns (c :: rest) =
      if c = '\r' ∧ rest.head? = some '\n' then withoutReturns rest
      else c :: withoutReturns rest := by
  rw [withoutReturns.eq_def]
  split
  · next heq =>
    obtain ⟨rfl, rfl⟩ := List.cons.inj heq
    rw [if_pos ⟨rfl, rfl⟩, withoutReturns]
    simp
  · next hpair heq =>
    obtain ⟨rfl, rfl⟩ := List.cons.inj heq
    rw [if_neg]
    rintro ⟨rfl, hhead⟩
    obtain ⟨tail, rfl⟩ := List.head?_eq_some_iff.mp hhead
    exact hpair tail rfl rfl
  · next heq => cases heq

theorem withoutReturns_eq_nil_iff : withoutReturns cs = [] ↔ cs = [] := by
  rw [withoutReturns.eq_def]
  split <;> simp

theorem withoutFinalNewline_cons_of_ne_nil (hrest : rest ≠ []) :
    withoutFinalNewline (c :: rest) = c :: withoutFinalNewline rest := by
  obtain ⟨d, tail, rfl⟩ := List.exists_cons_of_ne_nil hrest
  rw [withoutFinalNewline, withoutFinalNewline, List.getLast?_cons_cons]
  split <;> rfl

theorem withoutFinalNewline_cons_of_ne (hc : c ≠ '\n') :
    withoutFinalNewline (c :: rest) = c :: withoutFinalNewline rest := by
  cases rest with
  | nil => simp [withoutFinalNewline, hc]
  | cons d tail => exact withoutFinalNewline_cons_of_ne_nil (List.cons_ne_nil d tail)

/-! ## Lines -/

/-- A text without lines is empty. -/
theorem lineChars_eq_nil_iff : lineChars cs = [] ↔ cs = [] := by
  fun_induction lineChars cs with
  | case1 => simp
  | case2 => simp
  | case3 c rest hc hreturn ih =>
      have hrest : rest ≠ [] := by
        rintro rfl
        simp at hreturn
      simp [ih, hrest]
  | case4 c rest =>
      cases lineChars rest <;> simp [pushToLine]

/-- A character in front of the first line, which may be a new one. -/
theorem forall_mem_pushToLine {P : List Char → Prop} {lines : List (List Char)}
    (hnew : P [c]) (hfirst : ∀ line, P line → P (c :: line)) (h : ∀ line ∈ lines, P line) :
    ∀ line ∈ pushToLine c lines, P line := by
  cases lines with
  | nil => exact List.forall_mem_singleton.mpr hnew
  | cons first others =>
      rw [List.forall_mem_cons] at h
      exact List.forall_mem_cons.mpr ⟨hfirst first h.1, h.2⟩

/-- The characters of lines are those of the text. -/
theorem subset_of_mem_lineChars : ∀ line ∈ lineChars cs, line ⊆ cs := by
  fun_induction lineChars cs with
  | case1 => simp
  | case2 rest ih =>
      refine List.forall_mem_cons.mpr ⟨List.nil_subset _, fun line hline => ?_⟩
      exact List.subset_cons_of_subset '\n' (ih line hline)
  | case3 c rest hc hreturn ih =>
      exact fun line hline => List.subset_cons_of_subset c (ih line hline)
  | case4 c rest hc hreturn ih =>
      have hrest : ∀ line ∈ lineChars rest, line ⊆ c :: rest :=
        fun line hline => List.subset_cons_of_subset c (ih line hline)
      exact forall_mem_pushToLine (by simp)
        (fun line hline => List.cons_subset.mpr ⟨List.mem_cons_self, hline⟩) hrest

/-- **No line holds a newline.** -/
theorem newline_notMem_of_mem_lineChars : ∀ line ∈ lineChars cs, '\n' ∉ line := by
  fun_induction lineChars cs with
  | case1 => simp
  | case2 rest ih => exact List.forall_mem_cons.mpr ⟨List.not_mem_nil, ih⟩
  | case3 c rest hc hreturn ih => exact ih
  | case4 c rest hc hreturn ih =>
      have hne : '\n' ≠ c := Ne.symm hc
      exact forall_mem_pushToLine (by simp [hne]) (fun line hline => by simp [hne, hline]) ih

theorem intercalate_pushToLine (c : Char) (lines : List (List Char)) :
    ['\n'].intercalate (pushToLine c lines) = c :: ['\n'].intercalate lines := by
  cases lines with
  | nil => rfl
  | cons first others => cases others <;> rfl

/-- **The lines with newlines between them** are the text without the carriage returns in front of
newlines and without one newline at its end. -/
theorem intercalate_lineChars (cs : List Char) :
    ['\n'].intercalate (lineChars cs) = withoutFinalNewline (withoutReturns cs) := by
  fun_induction lineChars cs with
  | case1 => rfl
  | case2 rest ih =>
      rw [withoutReturns_cons, if_neg fun h => absurd h.1 (by decide)]
      by_cases hrest : rest = []
      · subst hrest
        rfl
      · rw [List.intercalate_cons_of_ne_nil (mt lineChars_eq_nil_iff.mp hrest), ih,
          withoutFinalNewline_cons_of_ne_nil (mt withoutReturns_eq_nil_iff.mp hrest)]
        rfl
  | case3 c rest hc hreturn ih => rw [withoutReturns_cons, if_pos hreturn, ih]
  | case4 c rest hc hreturn ih =>
      rw [withoutReturns_cons, if_neg hreturn, intercalate_pushToLine, ih,
        withoutFinalNewline_cons_of_ne hc]

/-- One line for a text that does not end in a newline. -/
def openLines (cs : List Char) : Nat := if cs ≠ [] ∧ cs.getLast? ≠ some '\n' then 1 else 0

theorem openLines_cons_of_ne_nil (hrest : rest ≠ []) : openLines (c :: rest) = openLines rest := by
  obtain ⟨d, tail, rfl⟩ := List.exists_cons_of_ne_nil hrest
  simp only [openLines, List.getLast?_cons_cons, ne_eq, reduceCtorEq, not_false_eq_true, true_and]

theorem length_pushToLine {lines : List (List Char)} (h : lines ≠ []) :
    (pushToLine c lines).length = lines.length := by
  cases lines with
  | nil => exact absurd rfl h
  | cons first others => rfl

/-- **There are as many lines as newlines,** and one more if the text does not end in a newline. -/
theorem length_lineChars (cs : List Char) :
    (lineChars cs).length = cs.count '\n' + openLines cs := by
  fun_induction lineChars cs with
  | case1 => rfl
  | case2 rest ih =>
      rw [List.length_cons, ih, List.count_cons_self]
      by_cases hrest : rest = []
      · subst hrest
        rfl
      · rw [openLines_cons_of_ne_nil hrest]
        omega
  | case3 c rest hc hreturn ih =>
      have hrest : rest ≠ [] := by
        rintro rfl
        simp at hreturn
      rw [ih, List.count_cons_of_ne hc, openLines_cons_of_ne_nil hrest]
  | case4 c rest hc hreturn ih =>
      rw [List.count_cons_of_ne hc]
      by_cases hrest : rest = []
      · subst hrest
        simp [lineChars, pushToLine, openLines, hc]
      · rw [length_pushToLine (mt lineChars_eq_nil_iff.mp hrest), ih,
          openLines_cons_of_ne_nil hrest]

end Lines

namespace Step

/-- **Splitting into lines loses ends of lines only.** For every input the step gives a sequence of
strings without newlines. With newlines between them they are the text of the input, with a newline
for each pair of a carriage return and a newline, and without one newline at the end. There are as
many of them as newlines in the text, and one more if the text goes on behind the last one. -/
theorem splits_at_newlines (input : ArtifactValue) :
    ∃ ls : List String,
      (∀ {σ : Type} (command : ExecStep → Doing σ ArtifactValue) (clock : StateM σ Elapsed)
        (node : String) (w : σ), run command clock node .splitLines (some input) w =
          (.ok (.sequence (ls.map .string)), w)) ∧
      (∀ line ∈ ls, '\n' ∉ line.toList) ∧
      ("\n".intercalate ls).toList = withoutFinalNewline (withoutReturns input.text.toList) ∧
      ls.length = input.text.toList.count '\n' + openLines input.text.toList := by
  refine ⟨textLines input.text,
    fun command clock node w => run_splitLines command clock node input w, ?_, ?_, ?_⟩
  · rw [textLines, List.forall_mem_map]
    intro line hline
    rw [String.toList_ofList]
    exact newline_notMem_of_mem_lineChars line hline
  · rw [textLines, String.toList_intercalate]
    simp only [List.map_map, Function.comp_def, String.toList_ofList, List.map_id']
    exact intercalate_lineChars _
  · rw [textLines, List.length_map, length_lineChars]

/-- Of two carriage returns one is lost with the newline, and that at the end of the text stays. -/
example : lines (.sequence [.string "\r\r\n\r", .string "log\r"]) =
    .sequence [.string "\r", .string "", .string "log\r"] := rfl

end Step

end Distill

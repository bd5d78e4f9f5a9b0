import Distill.Proofs.Json.Locality

/-!
# Values that are printed and read

A value whose numbers can be read is read from its compact form as far as it is not nested too
deeply, with what is read of its numbers; nested more deeply it is refused. So a value whose
numbers read back is read back. Values with ordered fields stay as they are when the fields are
ordered.

## Main definitions

* `Json.NumbersRead`, `Json.reread` — every number of a value is read as some number, and the value
  of these.
* `Json.NumbersReadBack` — every number of a value is read as it was printed.

## Main statements

* `Json.parseRaw?_chars_of_numbersRead`, `Json.parseRaw?_chars` — what is read of a value that was
  printed.
* `Json.sort_eq_self`, `Json.sorted_reread` — ordered fields stay.
-/

namespace Distill

namespace Number

variable {n : Number}

/-- The number is read as some number. -/
def IsRead (n : Number) : Prop := ∃ m, read n.text.toList = some (m, [])

/-- What is read of the number. -/
def reread (n : Number) : Number := ((read n.text.toList).map (·.1)).getD n

theorem IsRead.read_text (h : n.IsRead) : read n.text.toList = some (n.reread, []) := by
  obtain ⟨m, hm⟩ := h
  rw [reread, hm]
  rfl

theorem ReadsBack.isRead (h : n.ReadsBack) : n.IsRead := ⟨n, h⟩

theorem ReadsBack.reread_eq (h : n.ReadsBack) : n.reread = n := by
  rw [reread, h]
  rfl

end Number

namespace Json

/-! ## Numbers of values -/

mutual

/-- The value with what is read of its numbers. -/
def reread : Json → Json
  | null => null
  | bool b => bool b
  | number n => number n.reread
  | string s => string s
  | array items => array (rereadItems items)
  | object fields => object (rereadValues fields)

/-- The items with what is read of their numbers. -/
def rereadItems : List Json → List Json
  | [] => []
  | v :: rest => reread v :: rereadItems rest

/-- The values with what is read of their numbers. -/
def rereadValues : List (String × Json) → List (String × Json)
  | [] => []
  | (k, v) :: rest => (k, reread v) :: rereadValues rest

end

mutual

/-- Every number of the value is read as some number. -/
def NumbersRead : Json → Prop
  | number n => n.IsRead
  | array items => NumbersReadItems items
  | object fields => NumbersReadValues fields
  | _ => True

/-- Every number of the items is read as some number. -/
def NumbersReadItems : List Json → Prop
  | [] => True
  | v :: rest => NumbersRead v ∧ NumbersReadItems rest

/-- Every number of the values is read as some number. -/
def NumbersReadValues : List (String × Json) → Prop
  | [] => True
  | (_, v) :: rest => NumbersRead v ∧ NumbersReadValues rest

end

mutual

/-- Every number of the value is read as it was printed. -/
def NumbersReadBack : Json → Prop
  | number n => n.ReadsBack
  | array items => NumbersReadBackItems items
  | object fields => NumbersReadBackValues fields
  | _ => True

/-- Every number of the items is read as it was printed. -/
def NumbersReadBackItems : List Json → Prop
  | [] => True
  | v :: rest => NumbersReadBack v ∧ NumbersReadBackItems rest

/-- Every number of the values is read as it was printed. -/
def NumbersReadBackValues : List (String × Json) → Prop
  | [] => True
  | (_, v) :: rest => NumbersReadBack v ∧ NumbersReadBackValues rest

end

variable {v : Json} {levels fuel : Nat} {cs rest : List Char}

/-! ## The start of a text -/

/-- A character that a value starts with: no white space and no bracket that closes. -/
def Starts (c : Char) : Prop := isSpace c = false ∧ c ≠ ']' ∧ c ≠ '}'

theorem skipSpace_cons {c : Char} (h : isSpace c = false) (cs : List Char) :
    skipSpace (c :: cs) = c :: cs := by
  simp [skipSpace, h]

private theorem starts_of_number {c : Char} (h : c = '-' ∨ c.isDigit = true) :
    Starts c ∧ c ≠ '"' ∧ c ≠ '[' ∧ c ≠ '{' ∧ c ≠ 'n' ∧ c ≠ 't' ∧ c ≠ 'f' := by
  have hne : ∀ d : Char, d ≠ '-' → d.isDigit = false → c ≠ d := by
    rintro d hminus hdigit rfl
    rcases h with h | h
    · exact hminus h
    · simp [hdigit] at h
  have hspace : isSpace c = false := by
    simp [isSpace, hne ' ' (by decide) (by decide), hne '\n' (by decide) (by decide),
      hne '\t' (by decide) (by decide), hne '\r' (by decide) (by decide)]
  exact ⟨⟨hspace, hne _ (by decide) (by decide), hne _ (by decide) (by decide)⟩,
    hne _ (by decide) (by decide), hne _ (by decide) (by decide), hne _ (by decide) (by decide),
    hne _ (by decide) (by decide), hne _ (by decide) (by decide), hne _ (by decide) (by decide)⟩

/-- The text of a number starts with a digit or a sign. -/
private theorem exists_text_eq_cons {n : Number} (h : n.IsRead) :
    ∃ c cs, n.text.toList = c :: cs ∧ (c = '-' ∨ c.isDigit = true) := by
  have h := h.read_text
  cases htext : n.text.toList with
  | nil =>
      rw [htext] at h
      simp [Number.read, Number.readUnsigned, Number.spanDigits] at h
  | cons c cs =>
      rw [htext] at h
      exact ⟨c, cs, rfl, Number.start_of_read h⟩

/-- The text of a value starts with no white space and no bracket that closes. -/
theorem exists_chars_eq_cons (h : v.NumbersRead) : ∃ c cs, v.chars = c :: cs ∧ Starts c := by
  cases v with
  | null => exact ⟨'n', _, rfl, rfl, by decide, by decide⟩
  | bool b => cases b <;> exact ⟨_, _, rfl, rfl, by decide, by decide⟩
  | number n =>
      rw [NumbersRead] at h
      obtain ⟨c, cs, htext, hc⟩ := exists_text_eq_cons h
      exact ⟨c, cs, by rw [chars, htext], (starts_of_number hc).1⟩
  | string s => exact ⟨'"', _, by rw [chars, stringText], rfl, by decide, by decide⟩
  | array items => exact ⟨'[', _, by rw [chars], rfl, by decide, by decide⟩
  | object fields => exact ⟨'{', _, by rw [chars], rfl, by decide, by decide⟩

theorem length_chars_pos (h : v.NumbersRead) : 0 < v.chars.length := by
  obtain ⟨c, cs, heq, -⟩ := exists_chars_eq_cons h
  simp [heq]

/-! ## Reading what was printed -/

/-- A number is read in front of whatever may stand behind a value. -/
private theorem read_number {n : Number} (h : n.IsRead) (hrest : Stops rest)
    (fuel levels : Nat) :
    read (fuel + 1) levels (n.text.toList ++ rest) = some (number n.reread, rest) := by
  obtain ⟨c, cs, htext, hc⟩ := exists_text_eq_cons h
  have hread := Number.read_append hrest h.read_text
  obtain ⟨⟨hspace, -, -⟩, hquote, hbracket, hbrace, hn, ht, hf⟩ := starts_of_number hc
  rw [htext, List.cons_append] at hread ⊢
  simp [read, skipSpace_cons hspace, hread]

/-- Items after the opening bracket of an array that is not empty. -/
theorem read_array (hne : levels ≠ 0) {c : Char} (hc : Starts c) (fuel : Nat)
    (cs : List Char) :
    read (fuel + 1) levels ('[' :: c :: cs) =
      (readItems fuel (levels - 1) (c :: cs)).map fun (vs, rest) => (array vs, rest) := by
  have hbracket : isSpace '[' = false := by decide
  simp [read, skipSpace_cons hbracket, skipSpace_cons hc.1, hne, hc.2.1]

/-- Fields after the opening brace of an object that is not empty. -/
theorem read_object (hne : levels ≠ 0) (fuel : Nat) (cs : List Char) :
    read (fuel + 1) levels ('{' :: '"' :: cs) =
      (readFields fuel (levels - 1) ('"' :: cs)).map fun (fs, rest) => (object fs, rest) := by
  have hbrace : isSpace '{' = false := by decide
  have hquote : isSpace '"' = false := by decide
  simp [read, skipSpace_cons hbrace, skipSpace_cons hquote, hne]

theorem stops_comma (rest : List Char) : Stops (',' :: rest) := by
  intro c hc
  exact Or.inl (Option.some.inj hc).symm

theorem stops_bracket (rest : List Char) : Stops (']' :: rest) := by
  intro c hc
  exact Or.inr (Or.inl (Option.some.inj hc).symm)

theorem stops_brace (rest : List Char) : Stops ('}' :: rest) := by
  intro c hc
  exact Or.inr (Or.inr (Or.inl (Option.some.inj hc).symm))

theorem stops_newline (rest : List Char) : Stops ('\n' :: rest) := by
  intro c hc
  exact Or.inr (Or.inr (Or.inr (Option.some.inj hc).symm))

private theorem exists_itemChars_eq_cons (h : v.NumbersRead) (items : List Json) :
    ∃ c cs, itemChars (v :: items) = c :: cs ∧ Starts c := by
  obtain ⟨c, cs, heq, hc⟩ := exists_chars_eq_cons h
  cases items with
  | nil => exact ⟨c, cs, by rw [itemChars, heq], hc⟩
  | cons w items => exact ⟨c, _, by rw [itemChars, heq, List.cons_append], hc⟩

private theorem exists_fieldChars_eq_cons (f : String × Json) (fields : List (String × Json)) :
    ∃ cs, fieldChars (f :: fields) = '"' :: cs := by
  cases fields with
  | nil => exact ⟨_, by rw [fieldChars, stringText, List.cons_append]⟩
  | cons g fields => exact ⟨_, by rw [fieldChars, stringText, List.cons_append]⟩

/-- Whether both a value and what follows it are nested too deeply. -/
private theorem if_max_le {α : Type} {a b n : Nat} {x y : α} :
    (if max a b ≤ n then x else y) = if a ≤ n then if b ≤ n then x else y else y := by
  by_cases ha : a ≤ n
  · simp only [Nat.max_le, ha, true_and, if_true]
  · simp only [Nat.max_le, ha, false_and, if_false]

mutual

/-- A value that was printed is read in front of whatever may stand behind it, unless it is nested
too deeply. -/
theorem read_chars (v : Json) (hv : v.NumbersRead) (levels fuel : Nat) (rest : List Char)
    (hrest : Stops rest) (hfuel : v.chars.length ≤ fuel) :
    read fuel levels (v.chars ++ rest) =
      if v.depth ≤ levels then some (v.reread, rest) else none := by
  have hpos := length_chars_pos hv
  obtain ⟨fuel, rfl⟩ : ∃ n, fuel = n + 1 := ⟨fuel - 1, by omega⟩
  match v with
  | null => rfl
  | bool b => cases b <;> rfl
  | number n =>
      have hdepth : (number n).depth = 0 := rfl
      rw [chars, read_number hv hrest, hdepth, if_pos (Nat.zero_le _), reread]
  | string s =>
      have hdepth : (string s).depth = 0 := rfl
      have hquote : isSpace '"' = false := by decide
      rw [chars, stringText, List.cons_append, List.append_assoc, hdepth, if_pos (Nat.zero_le _)]
      simp [read, skipSpace_cons hquote, readString_append, reread]
  | array items =>
      have hbracket : isSpace '[' = false := by decide
      by_cases hlevels : levels = 0
      · subst hlevels
        simp [chars, read, skipSpace_cons hbracket, depth]
      · cases items with
        | nil =>
            have hdepth : (array []).depth = 1 := rfl
            have hclose : isSpace ']' = false := by decide
            rw [hdepth, if_pos (by omega)]
            simp [chars, itemChars, read, skipSpace_cons hbracket, skipSpace_cons hclose, hlevels,
              reread, rereadItems]
        | cons w items =>
            rw [NumbersRead] at hv
            obtain ⟨c, cs, heq, hc⟩ := exists_itemChars_eq_cons hv.1 items
            have hitems := readItems_itemChars (w :: items) (by simp) hv (levels - 1) fuel rest
              (by rw [chars] at hfuel; simp at hfuel; omega)
            rw [heq, List.cons_append] at hitems
            rw [chars, heq, List.cons_append, List.cons_append, List.cons_append, List.append_assoc,
              read_array hlevels hc, List.singleton_append, hitems, depth]
            have hle : depthItems (w :: items) ≤ levels - 1 ↔
                depthItems (w :: items) + 1 ≤ levels := by omega
            simp only [hle]
            split <;> rfl
  | object fields =>
      have hbrace : isSpace '{' = false := by decide
      by_cases hlevels : levels = 0
      · subst hlevels
        simp [chars, read, skipSpace_cons hbrace, depth]
      · cases fields with
        | nil =>
            have hdepth : (object []).depth = 1 := rfl
            have hclose : isSpace '}' = false := by decide
            rw [hdepth, if_pos (by omega)]
            simp [chars, fieldChars, read, skipSpace_cons hbrace, skipSpace_cons hclose, hlevels,
              reread, rereadValues]
        | cons f fields =>
            rw [NumbersRead] at hv
            obtain ⟨cs, heq⟩ := exists_fieldChars_eq_cons f fields
            have hfields := readFields_fieldChars (f :: fields) (by simp) hv (levels - 1) fuel rest
              (by rw [chars] at hfuel; simp at hfuel; omega)
            rw [heq, List.cons_append] at hfields
            rw [chars, heq, List.cons_append, List.cons_append, List.cons_append, List.append_assoc,
              read_object hlevels, List.singleton_append, hfields, depth]
            have hle : depthValues (f :: fields) ≤ levels - 1 ↔
                depthValues (f :: fields) + 1 ≤ levels := by omega
            simp only [hle]
            split <;> rfl

/-- Items that were printed are read. -/
theorem readItems_itemChars (items : List Json) (hne : items ≠ []) (hv : NumbersReadItems items)
    (levels fuel : Nat) (rest : List Char) (hfuel : (itemChars items).length + 1 ≤ fuel) :
    readItems fuel levels (itemChars items ++ ']' :: rest) =
      if depthItems items ≤ levels then some (rereadItems items, rest) else none := by
  obtain ⟨fuel, rfl⟩ : ∃ n, fuel = n + 1 := ⟨fuel - 1, by omega⟩
  have hclose : isSpace ']' = false := by decide
  have hcomma : isSpace ',' = false := by decide
  match items with
  | [] => exact absurd rfl hne
  | [v] =>
      rw [itemChars] at hfuel ⊢
      rw [readItems, read_chars v hv.1 levels fuel _ (stops_bracket rest) (by omega), depthItems,
        depthItems, Nat.max_zero]
      split
      · simp [skipSpace_cons hclose, rereadItems]
      · rfl
  | v :: w :: items =>
      rw [itemChars] at hfuel ⊢
      rw [List.length_append, List.length_cons] at hfuel
      rw [List.append_assoc, List.cons_append, readItems,
        read_chars v hv.1 levels fuel _ (stops_comma _) (by omega), depthItems, if_max_le]
      split
      · have hitems := readItems_itemChars (w :: items) (by simp) hv.2 levels fuel rest (by omega)
        simp only [Option.bind_some, skipSpace_cons hcomma, hitems]
        split <;> rfl
      · rfl

/-- Fields that were printed are read. -/
theorem readFields_fieldChars (fields : List (String × Json)) (hne : fields ≠ [])
    (hv : NumbersReadValues fields) (levels fuel : Nat) (rest : List Char)
    (hfuel : (fieldChars fields).length + 1 ≤ fuel) :
    readFields fuel levels (fieldChars fields ++ '}' :: rest) =
      if depthValues fields ≤ levels then some (rereadValues fields, rest) else none := by
  obtain ⟨fuel, rfl⟩ : ∃ n, fuel = n + 1 := ⟨fuel - 1, by omega⟩
  have hclose : isSpace '}' = false := by decide
  have hcomma : isSpace ',' = false := by decide
  have hcolon : isSpace ':' = false := by decide
  have hquote : isSpace '"' = false := by decide
  match fields with
  | [] => exact absurd rfl hne
  | [(k, v)] =>
      rw [fieldChars] at hfuel ⊢
      rw [List.length_append, List.length_cons] at hfuel
      have hvalue := read_chars v hv.1 levels fuel _ (stops_brace rest) (by omega)
      rw [stringText, List.append_assoc, List.cons_append, List.append_assoc, readFields,
        skipSpace_cons hquote, depthValues, depthValues, Nat.max_zero]
      simp only [List.cons_append, List.nil_append, readString_append, Option.bind_some,
        skipSpace_cons hcolon, hvalue]
      by_cases hdepth : v.depth ≤ levels
      · simp only [if_pos hdepth, Option.bind_some, skipSpace_cons hclose, rereadValues]
      · simp only [if_neg hdepth, Option.bind_none]
  | (k, v) :: f :: fields =>
      rw [fieldChars] at hfuel ⊢
      rw [List.length_append, List.length_cons, List.length_append, List.length_cons] at hfuel
      have hvalue := read_chars v hv.1 levels fuel
        (',' :: (fieldChars (f :: fields) ++ '}' :: rest))
        (stops_comma _) (by omega)
      have hfields := readFields_fieldChars (f :: fields) (by simp) hv.2 levels fuel rest (by omega)
      rw [stringText, List.append_assoc, List.cons_append, List.append_assoc, readFields,
        skipSpace_cons hquote, depthValues, if_max_le]
      simp only [List.cons_append, List.nil_append, List.append_assoc, readString_append,
        Option.bind_some, skipSpace_cons hcolon, hvalue]
      by_cases hdepth : v.depth ≤ levels
      · simp only [if_pos hdepth, Option.bind_some, skipSpace_cons hcomma, hfields]
        split <;> rfl
      · simp only [if_neg hdepth, Option.bind_none]

end

mutual

/-- Numbers that are read as they were printed can be read. -/
theorem numbersRead_of_numbersReadBack (v : Json) (h : v.NumbersReadBack) : v.NumbersRead := by
  match v with
  | null | bool _ | string _ => trivial
  | number n => exact Number.ReadsBack.isRead h
  | array items => exact numbersReadItems_of_numbersReadBack items h
  | object fields => exact numbersReadValues_of_numbersReadBack fields h

theorem numbersReadItems_of_numbersReadBack (items : List Json) (h : NumbersReadBackItems items) :
    NumbersReadItems items := by
  match items with
  | [] => trivial
  | v :: items =>
      exact ⟨numbersRead_of_numbersReadBack v h.1, numbersReadItems_of_numbersReadBack items h.2⟩

theorem numbersReadValues_of_numbersReadBack (fields : List (String × Json))
    (h : NumbersReadBackValues fields) : NumbersReadValues fields := by
  match fields with
  | [] => trivial
  | (k, v) :: fields =>
      exact ⟨numbersRead_of_numbersReadBack v h.1, numbersReadValues_of_numbersReadBack fields h.2⟩

end

mutual

/-- A value whose numbers are read as they were printed stays as it is. -/
theorem reread_eq_self (v : Json) (h : v.NumbersReadBack) : v.reread = v := by
  match v with
  | null | bool _ | string _ => rfl
  | number n => rw [reread, Number.ReadsBack.reread_eq h]
  | array items => rw [reread, rereadItems_eq_self items h]
  | object fields => rw [reread, rereadValues_eq_self fields h]

theorem rereadItems_eq_self (items : List Json) (h : NumbersReadBackItems items) :
    rereadItems items = items := by
  match items with
  | [] => rfl
  | v :: items => rw [rereadItems, reread_eq_self v h.1, rereadItems_eq_self items h.2]

theorem rereadValues_eq_self (fields : List (String × Json)) (h : NumbersReadBackValues fields) :
    rereadValues fields = fields := by
  match fields with
  | [] => rfl
  | (k, v) :: fields => rw [rereadValues, reread_eq_self v h.1, rereadValues_eq_self fields h.2]

end

/-- **What is read of a value that was printed,** unless it is nested too deeply: then nothing is
read. -/
theorem parseRaw?_chars_of_numbersRead (hv : v.NumbersRead) :
    parseRaw? v.chars = if v.depth ≤ maxDepth then some v.reread else none := by
  have hstops : Stops [] := by
    intro c hc
    simp at hc
  have hread := read_chars v hv maxDepth (2 * v.chars.length + 2) [] hstops (by omega)
  rw [List.append_nil] at hread
  rw [parseRaw?, readValue, hread]
  split <;> rfl

/-- **A value that was printed is read back, unless it is nested too deeply:** then nothing is
read. -/
theorem parseRaw?_chars (hv : v.NumbersReadBack) :
    parseRaw? v.chars = if v.depth ≤ maxDepth then some v else none := by
  rw [parseRaw?_chars_of_numbersRead (numbersRead_of_numbersReadBack v hv), reread_eq_self v hv]

/-! ## Ordered fields -/

/-- A key behind all others. -/
theorem insertKey_eq_append {α : Type} {key : String} {w : α} {fields : List (String × α)}
    (h : ∀ f ∈ fields, f.1 < key) : insertKey key w fields = fields ++ [(key, w)] := by
  induction fields with
  | nil => rfl
  | cons f fields ih =>
      have hlt : f.1 < key := h f (by simp)
      have hne : ¬ key = f.1 := fun heq => String.lt_irrefl _ (heq ▸ hlt)
      have hnot : ¬ key < f.1 := fun hlt' => String.lt_irrefl _ (String.lt_trans hlt hlt')
      rw [insertKey, if_neg hnot, if_neg hne, ih fun g hg => h g (by simp [hg])]
      rfl

/-- Entries in ascending order stay as they are. -/
theorem sortKeys_eq_self {α : Type} {fields : List (String × α)} (h : Ascending fields) :
    sortKeys fields = fields := by
  have hfold : ∀ acc : List (String × α), Ascending (acc ++ fields) →
      fields.foldl (fun acc f => insertKey f.1 f.2 acc) acc = acc ++ fields := by
    clear h
    induction fields with
    | nil => simp
    | cons f fields ih =>
        intro acc hacc
        have hlt : ∀ g ∈ acc, g.1 < f.1 := by
          intro g hg
          rw [Ascending, List.map_append, List.pairwise_append] at hacc
          exact hacc.2.2 g.1 (List.mem_map_of_mem hg) f.1 (by simp)
        rw [List.append_cons] at hacc
        rw [List.foldl_cons, insertKey_eq_append hlt, List.append_cons acc f fields]
        exact ih _ hacc
  exact hfold [] h

mutual

/-- **A value with ordered fields stays as it is.** -/
theorem sort_eq_self (v : Json) (h : v.Sorted) : v.sort = v := by
  match v with
  | null | bool _ | number _ | string _ => rfl
  | array items => rw [sort, sortItems_eq_self items h]
  | object fields => rw [sort, sortValues_eq_self fields h.2, sortKeys_eq_self h.1]

theorem sortItems_eq_self (items : List Json) (h : SortedItems items) :
    sortItems items = items := by
  match items with
  | [] => rfl
  | v :: items => rw [sortItems, sort_eq_self v h.1, sortItems_eq_self items h.2]

theorem sortValues_eq_self (fields : List (String × Json)) (h : SortedValues fields) :
    sortValues fields = fields := by
  match fields with
  | [] => rfl
  | (k, v) :: fields => rw [sortValues, sort_eq_self v h.1, sortValues_eq_self fields h.2]

end

theorem keys_rereadValues (fields : List (String × Json)) :
    (rereadValues fields).map (·.1) = fields.map (·.1) := by
  induction fields with
  | nil => rfl
  | cons f fields ih => rw [rereadValues, List.map_cons, List.map_cons, ih]

mutual

/-- Fields are as ordered when their numbers are read. -/
theorem sorted_reread (v : Json) (h : v.Sorted) : v.reread.Sorted := by
  match v with
  | null | bool _ | number _ | string _ => trivial
  | array items => exact sortedItems_rereadItems items h
  | object fields =>
      refine ⟨?_, sortedValues_rereadValues fields h.2⟩
      rw [Ascending, keys_rereadValues]
      exact h.1

theorem sortedItems_rereadItems (items : List Json) (h : SortedItems items) :
    SortedItems (rereadItems items) := by
  match items with
  | [] => trivial
  | v :: items => exact ⟨sorted_reread v h.1, sortedItems_rereadItems items h.2⟩

theorem sortedValues_rereadValues (fields : List (String × Json)) (h : SortedValues fields) :
    SortedValues (rereadValues fields) := by
  match fields with
  | [] => trivial
  | (k, v) :: fields => exact ⟨sorted_reread v h.1, sortedValues_rereadValues fields h.2⟩

end

end Json

end Distill

import Distill.Proofs.Json.RoundTrip

/-!
# Indented texts

A value whose numbers can be read is read from its indented form, too, when it is not nested too
deeply: white space in front of a value, an item or a field makes no difference.

## Main statements

* `Json.parseRaw?_prettyChars` — a value is read from its indented form.
-/

namespace Distill.Json

variable {v : Json} {level levels fuel : Nat} {cs rest : List Char}

/-! ## White space -/

theorem skipSpace_space (cs : List Char) : skipSpace (' ' :: cs) = skipSpace cs := by
  have h : isSpace ' ' = true := by decide
  simp [skipSpace, h]

/-- A new line is white space. -/
theorem skipSpace_lineBreak (level : Nat) (cs : List Char) :
    skipSpace (lineBreak level ++ cs) = skipSpace cs := by
  have hnewline : isSpace '\n' = true := by decide
  have hblanks : ∀ n, skipSpace (List.replicate n ' ' ++ cs) = skipSpace cs := by
    intro n
    induction n with
    | zero => rfl
    | succ n ih => rw [List.replicate_succ, List.cons_append, skipSpace_space, ih]
  rw [← hblanks (2 * level)]
  simp [lineBreak, skipSpace, hnewline]

/-- What is read does not depend on the white space in front of it. -/
theorem read_congr {cs' : List Char} (h : skipSpace cs' = skipSpace cs) :
    read fuel levels cs' = read fuel levels cs := by
  cases fuel with
  | zero => rfl
  | succ fuel => rw [read, read, h]

theorem readItems_congr {cs' : List Char} (h : skipSpace cs' = skipSpace cs) :
    readItems fuel levels cs' = readItems fuel levels cs := by
  cases fuel with
  | zero => rfl
  | succ fuel => rw [readItems, readItems, read_congr h]

theorem readFields_congr {cs' : List Char} (h : skipSpace cs' = skipSpace cs) :
    readFields fuel levels cs' = readFields fuel levels cs := by
  cases fuel with
  | zero => rfl
  | succ fuel => rw [readFields, readFields, h]

/-- An array that is not empty, with white space behind its bracket. -/
private theorem read_array_lineBreak (hne : levels ≠ 0) {c : Char} (hc : Starts c)
    (cs : List Char) :
    read (fuel + 1) levels ('[' :: (lineBreak level ++ c :: cs)) =
      (readItems fuel (levels - 1) (lineBreak level ++ c :: cs)).map
        fun (vs, rest) => (array vs, rest) := by
  rw [readItems_congr (skipSpace_lineBreak level _), ← read_array hne hc]
  have hbracket : isSpace '[' = false := by decide
  simp [read, skipSpace_cons hbracket, skipSpace_lineBreak]

/-- An object that is not empty, with white space behind its brace. -/
private theorem read_object_lineBreak (hne : levels ≠ 0) (cs : List Char) :
    read (fuel + 1) levels ('{' :: (lineBreak level ++ '"' :: cs)) =
      (readFields fuel (levels - 1) (lineBreak level ++ '"' :: cs)).map
        fun (fs, rest) => (object fs, rest) := by
  rw [readFields_congr (skipSpace_lineBreak level _), ← read_object hne]
  have hbrace : isSpace '{' = false := by decide
  simp [read, skipSpace_cons hbrace, skipSpace_lineBreak]

/-! ## Reading what was printed -/

/-- The indented form of a value starts with no white space and no bracket that closes. -/
theorem exists_prettyChars_eq_cons (h : v.NumbersRead) (level : Nat) :
    ∃ c cs, v.prettyChars level = c :: cs ∧ Starts c := by
  cases v with
  | array items =>
      cases items with
      | nil => exact ⟨'[', _, by rw [prettyChars], rfl, by decide, by decide⟩
      | cons w items => exact ⟨'[', _, by rw [prettyChars], rfl, by decide, by decide⟩
  | object fields =>
      cases fields with
      | nil => exact ⟨'{', _, by rw [prettyChars], rfl, by decide, by decide⟩
      | cons f fields => exact ⟨'{', _, by rw [prettyChars], rfl, by decide, by decide⟩
  | null | bool | number | string => exact exists_chars_eq_cons h

theorem length_lineBreak_pos (level : Nat) : 0 < (lineBreak level).length := by
  rw [lineBreak, List.length_cons]
  omega

theorem stops_lineBreak (level : Nat) (rest : List Char) : Stops (lineBreak level ++ rest) :=
  stops_newline _

theorem stops_prettyItems (level : Nat) (items : List Json) (h : Stops rest) :
    Stops (prettyItems level items ++ rest) := by
  cases items with
  | nil => exact h
  | cons w items =>
      rw [prettyItems]
      exact stops_comma _

theorem stops_prettyFields (level : Nat) (fields : List (String × Json)) (h : Stops rest) :
    Stops (prettyFields level fields ++ rest) := by
  cases fields with
  | nil => exact h
  | cons f fields =>
      rw [prettyFields]
      exact stops_comma _

mutual

/-- A value is read from its indented form in front of whatever may stand behind it. -/
theorem read_prettyChars (v : Json) (hv : v.NumbersRead) (level levels fuel : Nat)
    (rest : List Char) (hrest : Stops rest) (hdepth : v.depth ≤ levels)
    (hfuel : (v.prettyChars level).length ≤ fuel) :
    read fuel levels (v.prettyChars level ++ rest) = some (v.reread, rest) := by
  match v with
  | null | bool _ | number _ | string _ =>
      rw [prettyChars] at hfuel ⊢
      rw [read_chars _ hv levels fuel rest hrest hfuel, if_pos hdepth]
      all_goals simp
  | array [] =>
      have hread := read_chars (array []) hv levels fuel rest hrest hfuel
      rw [if_pos hdepth] at hread
      exact hread
  | object [] =>
      have hread := read_chars (object []) hv levels fuel rest hrest hfuel
      rw [if_pos hdepth] at hread
      exact hread
  | array (w :: items) =>
      rw [NumbersRead] at hv
      rw [depth] at hdepth
      rw [prettyChars] at hfuel ⊢
      simp only [List.length_cons, List.length_append] at hfuel
      obtain ⟨fuel, rfl⟩ : ∃ n, fuel = n + 1 := ⟨fuel - 1, by omega⟩
      obtain ⟨c, cs, heq, hc⟩ := exists_prettyChars_eq_cons hv.1 (level + 1)
      have hitems := readItems_prettyItems (w :: items) (by simp) hv (level + 1) (levels - 1) fuel
        level rest (by omega)
        (by simp only [prettyItems, List.length_cons, List.length_append]; omega)
      simp only [prettyItems, List.tail_cons, heq, List.append_assoc, List.cons_append]
        at hitems ⊢
      rw [read_array_lineBreak (by omega) hc, List.nil_append, hitems]
      rfl
  | object ((k, w) :: fields) =>
      rw [NumbersRead] at hv
      rw [depth] at hdepth
      rw [prettyChars] at hfuel ⊢
      simp only [List.length_cons, List.length_append] at hfuel
      obtain ⟨fuel, rfl⟩ : ∃ n, fuel = n + 1 := ⟨fuel - 1, by omega⟩
      have hfields := readFields_prettyFields ((k, w) :: fields) (by simp) hv (level + 1)
        (levels - 1) fuel level rest (by omega)
        (by simp only [prettyFields, List.length_cons, List.length_append]; omega)
      simp only [prettyFields, List.tail_cons, stringText, List.append_assoc, List.cons_append,
        List.nil_append] at hfields ⊢
      rw [read_object_lineBreak (by omega), hfields]
      rfl

/-- Items are read from their indented forms. -/
theorem readItems_prettyItems (items : List Json) (hne : items ≠ [])
    (hv : NumbersReadItems items) (level levels fuel outer : Nat) (rest : List Char)
    (hdepth : depthItems items ≤ levels) (hfuel : (prettyItems level items).length ≤ fuel) :
    readItems fuel levels ((prettyItems level items).tail ++ (lineBreak outer ++ ']' :: rest)) =
      some (rereadItems items, rest) := by
  have hclose : isSpace ']' = false := by decide
  have hcomma : isSpace ',' = false := by decide
  match items with
  | [] => exact absurd rfl hne
  | v :: items =>
      rw [depthItems] at hdepth
      rw [prettyItems] at hfuel ⊢
      simp only [List.length_cons, List.length_append] at hfuel
      obtain ⟨fuel, rfl⟩ : ∃ n, fuel = n + 1 := ⟨fuel - 1, by omega⟩
      have hlines := length_lineBreak_pos level
      have hstops := stops_prettyItems level items (stops_lineBreak outer (']' :: rest))
      have hvalue := read_prettyChars v hv.1 level levels fuel _ hstops (by omega) (by omega)
      rw [← read_congr (skipSpace_lineBreak level _)] at hvalue
      simp only [List.tail_cons, List.append_assoc]
      rw [readItems, hvalue, Option.bind_some]
      match items with
      | [] =>
          rw [prettyItems, List.nil_append]
          simp only [skipSpace_lineBreak, skipSpace_cons hclose, rereadItems]
      | w :: items =>
          have hitems := readItems_prettyItems (w :: items) (by simp) hv.2 level levels fuel outer
            rest (by omega) (by omega)
          rw [prettyItems] at hitems ⊢
          simp only [List.tail_cons, List.cons_append, List.append_assoc, skipSpace_cons hcomma]
            at hitems ⊢
          rw [hitems]
          rfl

/-- Fields are read from their indented forms. -/
theorem readFields_prettyFields (fields : List (String × Json)) (hne : fields ≠ [])
    (hv : NumbersReadValues fields) (level levels fuel outer : Nat) (rest : List Char)
    (hdepth : depthValues fields ≤ levels) (hfuel : (prettyFields level fields).length ≤ fuel) :
    readFields fuel levels ((prettyFields level fields).tail ++
      (lineBreak outer ++ '}' :: rest)) = some (rereadValues fields, rest) := by
  have hclose : isSpace '}' = false := by decide
  have hcomma : isSpace ',' = false := by decide
  have hcolon : isSpace ':' = false := by decide
  have hquote : isSpace '"' = false := by decide
  match fields with
  | [] => exact absurd rfl hne
  | (k, v) :: fields =>
      rw [depthValues] at hdepth
      rw [prettyFields] at hfuel ⊢
      simp only [List.length_cons, List.length_append] at hfuel
      obtain ⟨fuel, rfl⟩ : ∃ n, fuel = n + 1 := ⟨fuel - 1, by omega⟩
      have hlines := length_lineBreak_pos level
      have hstops := stops_prettyFields level fields
        (stops_lineBreak outer ('}' :: rest))
      have hvalue := read_prettyChars v hv.1 level levels fuel _ hstops (by omega) (by omega)
      rw [← read_congr (skipSpace_space _)] at hvalue
      simp only [List.tail_cons, stringText, List.cons_append, List.nil_append, List.append_assoc]
      rw [readFields_congr (skipSpace_lineBreak level _), readFields, skipSpace_cons hquote]
      simp only [readString_append, Option.bind_some, skipSpace_cons hcolon, hvalue]
      match fields with
      | [] =>
          rw [prettyFields, List.nil_append]
          simp only [skipSpace_lineBreak, skipSpace_cons hclose, rereadValues]
      | f :: fields =>
          have hfields := readFields_prettyFields (f :: fields) (by simp) hv.2 level levels fuel
            outer rest (by omega) (by omega)
          obtain ⟨l, w⟩ := f
          rw [prettyFields] at hfields ⊢
          simp only [List.tail_cons, List.cons_append, List.append_assoc, skipSpace_cons hcomma]
            at hfields ⊢
          rw [hfields]
          rfl

end

/-- **A value is read from its indented form** when it is not nested too deeply. -/
theorem parseRaw?_prettyChars (hv : v.NumbersRead) (hdepth : v.depth ≤ maxDepth) :
    parseRaw? (v.prettyChars 0) = some v.reread := by
  have hstops : Stops [] := by
    intro c hc
    simp at hc
  have hread := read_prettyChars v hv 0 maxDepth (2 * (v.prettyChars 0).length + 2) [] hstops hdepth
    (by omega)
  rw [List.append_nil] at hread
  rw [parseRaw?, readValue, hread]
  rfl

end Distill.Json

import Distill.Proofs.Results
import Distill.Template
import Mathlib.Data.List.Chain

/-!
# Templates and their texts

A template is written with every brace of its literal text doubled and every placeholder in
single braces. Reading undoes this: the texts that are templates are those that are written for
canonical lists of segments, and each of them is read as the one list it is written for.

## Main definitions

* `Template.text` — the text of a template.
* `Template.Canonical` — lists of segments that a text can denote.
* `Template.Spells` — which texts stand for which segments, piece by piece.

## Main statements

* `Template.spells_of_parseFrom`, `Template.Spells.parseFrom_eq` — what is read is what is spelled.
* `Template.Spells.chars_eq`, `Template.Spells.canonical` — what is spelled is written so.
* `Template.exists_brace_of_error` — a fault stands at a brace of the text.
* `Template.reads_just_what_is_written` — reading and writing are inverse to each other.
-/

namespace Distill

/-! ## Texts of templates -/

/-- A character as literal text: a brace is doubled. -/
def Template.literal (c : Char) : List Char :=
  if c = opening ∨ c = closing then [c, c] else [c]

/-- The characters of a segment as they are written. -/
def Segment.chars : Segment → List Char
  | text s => s.toList.flatMap Template.literal
  | placeholder token => Template.opening :: (token.toList ++ [Template.closing])

/-- Whether a segment is literal text. -/
def Segment.isText : Segment → Bool
  | text _ => true
  | placeholder _ => false

/-- A literal text is not empty, and a token is a word of ASCII letters, digits and underscores. -/
def Segment.Proper : Segment → Prop
  | text s => s ≠ ""
  | placeholder token => token ≠ "" ∧ ∀ c ∈ token.toList, c.isAlphanum = true ∨ c = '_'

namespace Template

/-- The text of a template. -/
def text (t : Template) : String := String.ofList (t.segments.flatMap Segment.chars)

/-- Segments that a text can denote: each is as it must be, and no literal text stands next to
another one. -/
structure Canonical (segments : List Segment) : Prop where
  proper : ∀ segment ∈ segments, segment.Proper
  apart : segments.IsChain fun a b => ¬ (a.isText = true ∧ b.isText = true)

/-- Texts that stand for segments, a literal character or a placeholder after the other. -/
inductive Spells : List Segment → List Char → Prop
  | nil : Spells [] []
  | literal {segments cs} (c : Char) (rest : Spells segments cs) :
      Spells (pushChar c segments) (literal c ++ cs)
  | placeholder {segments cs} {token : List Char} (word : isToken token = true)
      (rest : Spells segments cs) :
      Spells (.placeholder (String.ofList token) :: segments)
        (opening :: (token ++ closing :: cs))

variable {segments : List Segment} {cs token : List Char} {c : Char} {pos : Nat}

theorem literal_opening : literal opening = [opening, opening] := rfl

theorem literal_closing : literal closing = [closing, closing] := rfl

theorem literal_of_ne (hopening : c ≠ opening) (hclosing : c ≠ closing) : literal c = [c] := by
  simp [literal, hopening, hclosing]

theorem isToken_iff :
    isToken token = true ↔ token ≠ [] ∧ ∀ c ∈ token, c.isAlphanum = true ∨ c = '_' := by
  simp [isToken, isTokenChar]

/-- A brace is no character of a token. -/
theorem ne_of_isToken (h : isToken token = true) (hc : c ∈ token) : c ≠ opening ∧ c ≠ closing := by
  have hchar := (isToken_iff.mp h).2 c hc
  constructor
  · rintro rfl
    exact absurd hchar (by decide)
  · rintro rfl
    exact absurd hchar (by decide)

/-! ## Reading -/

/-- The closing brace that ends a token, and what stands behind it. -/
theorem eq_append_of_dropWhile {head : Char} {after : List Char}
    (h : cs.dropWhile (· != closing) = head :: after) :
    cs = cs.takeWhile (· != closing) ++ closing :: after := by
  have hhead : head = closing := by
    have hstop := List.head_dropWhile_not (· != closing) (l := cs) (by simp [h])
    simpa [h] using hstop
  have hsplit := List.takeWhile_append_dropWhile (p := (· != closing)) (l := cs)
  rw [h, hhead] at hsplit
  exact hsplit.symm

/-- **What is read is spelled by the text.** -/
theorem spells_of_parseFrom (h : parseFrom pos cs = .ok segments) : Spells segments cs := by
  fun_induction parseFrom pos cs generalizing segments with
  | case1 =>
      rw [← Except.ok.inj h]
      exact .nil
  | case3 pos tail ih =>
      obtain ⟨rest, hrest, rfl⟩ := map_eq_ok_iff.mp h
      exact .literal opening (ih hrest)
  | case5 pos d tail hd token head after hafter htoken =>
      rename_i ih
      obtain ⟨rest, hrest, rfl⟩ := map_eq_ok_iff.mp h
      rw [eq_append_of_dropWhile hafter]
      exact .placeholder htoken (ih hrest)
  | case8 pos tail hclosing ih =>
      obtain ⟨rest, hrest, rfl⟩ := map_eq_ok_iff.mp h
      exact .literal closing (ih hrest)
  | case10 pos c tail hopening hclosing ih =>
      obtain ⟨rest, hrest, rfl⟩ := map_eq_ok_iff.mp h
      have hspells := Spells.literal c (ih hrest)
      rwa [literal_of_ne hopening hclosing] at hspells
  | case2 | case4 | case6 | case7 | case9 => cases h

/-- A literal character is read whatever follows it. -/
theorem parseFrom_literal (c : Char) : parseFrom pos (literal c ++ cs) =
    (parseFrom (pos + (literal c).length) cs).map (pushChar c) := by
  by_cases hopening : c = opening
  · rw [hopening, literal_opening]
    simp [parseFrom]
  · by_cases hclosing : c = closing
    · have hne : closing ≠ opening := by decide
      rw [hclosing, literal_closing]
      simp [parseFrom, hne]
    · rw [literal_of_ne hopening hclosing, List.singleton_append, parseFrom.eq_def]
      simp [hopening, hclosing]

/-- A placeholder is read whatever follows it. -/
theorem parseFrom_placeholder (h : isToken token = true) :
    parseFrom pos (opening :: (token ++ closing :: cs)) =
      (parseFrom (pos + token.length + 2) cs).map (.placeholder (String.ofList token) :: ·) := by
  obtain ⟨d, rest, rfl⟩ := List.exists_cons_of_ne_nil (isToken_iff.mp h).1
  have hd : d ≠ opening := (ne_of_isToken h List.mem_cons_self).1
  have hall : ∀ c ∈ d :: rest, (c != closing) = true := fun c hc =>
    bne_iff_ne.mpr (ne_of_isToken h hc).2
  have htake : (d :: (rest ++ closing :: cs)).takeWhile (· != closing) = d :: rest := by
    rw [← List.cons_append, List.takeWhile_append_of_pos hall]
    simp
  have hdrop : (d :: (rest ++ closing :: cs)).dropWhile (· != closing) = closing :: cs := by
    rw [← List.cons_append, List.dropWhile_append_of_pos hall]
    simp
  rw [List.cons_append, parseFrom]
  simp only [hd, if_true, if_false, htake, h]
  split
  · next hnone => simp [hdrop] at hnone
  · next after hafter =>
    rw [hdrop, List.cons.injEq] at hafter
    rw [hafter.2]

/-- A closing brace at the end of a text belongs to nothing. -/
theorem parseFrom_closing : parseFrom pos [closing] = .error (.unmatched pos) := by
  have hne : closing ≠ opening := by decide
  simp [parseFrom, hne]

/-- **What a text spells is read from it.** -/
theorem Spells.parseFrom_eq (h : Spells segments cs) (pos : Nat) :
    parseFrom pos cs = .ok segments := by
  induction h generalizing pos with
  | nil => simp [parseFrom]
  | literal c rest ih => rw [parseFrom_literal, ih, Except.map]
  | placeholder word rest ih => rw [parseFrom_placeholder word, ih, Except.map]

/-! ## Writing -/

theorem chars_pushChar (c : Char) (segments : List Segment) :
    (pushChar c segments).flatMap Segment.chars = literal c ++ segments.flatMap Segment.chars := by
  cases segments with
  | nil => simp [pushChar, Segment.chars]
  | cons segment rest => cases segment <;> simp [pushChar, Segment.chars]

/-- **What a text spells is written as that text.** -/
theorem Spells.chars_eq (h : Spells segments cs) : segments.flatMap Segment.chars = cs := by
  induction h with
  | nil => rfl
  | literal c rest ih => rw [chars_pushChar, ih]
  | placeholder word rest ih => simp [Segment.chars, ih]

theorem canonical_nil : Canonical [] := ⟨by simp, .nil⟩

theorem canonical_cons {segment : Segment} : Canonical (segment :: segments) ↔
    segment.Proper ∧ (∀ next ∈ segments.head?, ¬ (segment.isText = true ∧ next.isText = true)) ∧
      Canonical segments := by
  constructor
  · rintro ⟨hproper, hapart⟩
    rw [List.forall_mem_cons] at hproper
    rw [List.isChain_cons] at hapart
    exact ⟨hproper.1, hapart.1, hproper.2, hapart.2⟩
  · rintro ⟨hsegment, hnext, hproper, hapart⟩
    exact ⟨List.forall_mem_cons.mpr ⟨hsegment, hproper⟩, List.isChain_cons.mpr ⟨hnext, hapart⟩⟩

/-- A token as a segment. -/
theorem proper_placeholder_iff :
    (Segment.placeholder (String.ofList token)).Proper ↔ isToken token = true := by
  rw [isToken_iff, Segment.Proper, String.toList_ofList, ne_eq, String.ofList_eq_empty_iff]

/-- A literal character before canonical segments. -/
theorem Canonical.pushChar (h : Canonical segments) (c : Char) :
    Canonical (pushChar c segments) := by
  have hne : ∀ s : String, String.singleton c ++ s ≠ "" := fun s heq => by
    simpa using congrArg String.toList heq
  cases segments with
  | nil => exact canonical_cons.mpr ⟨by simp [Segment.Proper], by simp, canonical_nil⟩
  | cons segment rest =>
      cases segment with
      | text s =>
          obtain ⟨-, hnext, hrest⟩ := canonical_cons.mp h
          exact canonical_cons.mpr ⟨hne s, hnext, hrest⟩
      | placeholder token =>
          exact canonical_cons.mpr ⟨by simp [Segment.Proper], by simp [Segment.isText], h⟩

/-- **What a text spells is canonical.** -/
theorem Spells.canonical (h : Spells segments cs) : Canonical segments := by
  induction h with
  | nil => exact canonical_nil
  | literal c rest ih => exact ih.pushChar c
  | placeholder word rest ih =>
      exact canonical_cons.mpr ⟨proper_placeholder_iff.mpr word, by simp [Segment.isText], ih⟩

/-- Literal characters stand for one literal text, if none follows. -/
theorem Spells.literals (h : Spells segments cs)
    (hnext : ∀ next ∈ segments.head?, next.isText = false) {s : List Char} (hs : s ≠ []) :
    Spells (.text (String.ofList s) :: segments) (s.flatMap Template.literal ++ cs) := by
  induction s with
  | nil => exact absurd rfl hs
  | cons c s ih =>
      rw [List.flatMap_cons, List.append_assoc]
      by_cases hlast : s = []
      · subst hlast
        have hpush : pushChar c segments = .text (String.ofList [c]) :: segments := by
          cases segments with
          | nil => rfl
          | cons segment rest =>
              cases segment with
              | text t => simp [Segment.isText] at hnext
              | placeholder token => rfl
        have hspells := Spells.literal c h
        rwa [hpush] at hspells
      · have hspells := Spells.literal c (ih hlast)
        rwa [pushChar, String.singleton_eq_ofList, ← String.ofList_append] at hspells

/-- **Canonical segments are spelled by what is written for them.** -/
theorem Canonical.spells (h : Canonical segments) :
    Spells segments (segments.flatMap Segment.chars) := by
  induction segments with
  | nil => exact .nil
  | cons segment rest ih =>
      obtain ⟨hproper, hnext, hrest⟩ := canonical_cons.mp h
      rw [List.flatMap_cons]
      cases segment with
      | text s =>
          have hchars : s.toList ≠ [] := by simpa [Segment.Proper] using hproper
          have hspells := (ih hrest).literals (by simpa [Segment.isText] using hnext) hchars
          rwa [String.ofList_toList] at hspells
      | placeholder token =>
          rw [← String.ofList_toList (s := token), proper_placeholder_iff] at hproper
          have hspells := Spells.placeholder hproper (ih hrest)
          simpa [Segment.chars] using hspells

/-! ## Faults -/

/-- **A fault stands at a brace of the text,** so that nothing behind its end is looked at. -/
theorem exists_brace_of_error {e : TemplateError} (h : parseFrom pos cs = .error e) :
    ∃ k, e.position = pos + k ∧ (cs[k]? = some opening ∨ cs[k]? = some closing) := by
  fun_induction parseFrom pos cs with
  | case1 => cases h
  | case2 | case4 | case6 =>
      rw [← Except.error.inj h]
      exact ⟨0, rfl, Or.inl rfl⟩
  | case7 | case9 =>
      rw [← Except.error.inj h]
      exact ⟨0, rfl, Or.inr rfl⟩
  | case3 pos tail ih | case8 pos tail hclosing ih =>
      obtain ⟨k, hk, hbrace⟩ := ih (map_eq_error_iff.mp h)
      exact ⟨k + 2, by omega, by simpa using hbrace⟩
  | case5 pos d tail hd token head after hafter htoken =>
      rename_i ih
      obtain ⟨k, hk, hbrace⟩ := ih (map_eq_error_iff.mp h)
      have hbehind : (opening :: d :: tail)[token.length + (k + 1) + 1]? = after[k]? := by
        rw [List.getElem?_cons_succ, eq_append_of_dropWhile hafter,
          List.getElem?_append_right (Nat.le_add_right _ _), Nat.add_sub_cancel_left,
          List.getElem?_cons_succ]
      exact ⟨token.length + (k + 1) + 1, by omega, by rwa [hbehind]⟩
  | case10 pos c tail hopening hclosing ih =>
      obtain ⟨k, hk, hbrace⟩ := ih (map_eq_error_iff.mp h)
      exact ⟨k + 1, by omega, by simpa using hbrace⟩

/-- **A text is read exactly if it is written for canonical segments, and as these.** So reading
and writing are inverse to each other between templates and canonical lists of segments. Any other
text has a fault at one of its braces: nothing behind the end of a text is ever looked at. -/
theorem reads_just_what_is_written (s : String) :
    (∀ t : Template, parse s = .ok t ↔ Canonical t.segments ∧ t.text = s) ∧
    ∀ e, parse s = .error e →
      s.toList[e.position]? = some opening ∨ s.toList[e.position]? = some closing := by
  refine ⟨fun t => ?_, fun e he => ?_⟩
  · rw [parse, map_eq_ok_iff]
    constructor
    · rintro ⟨segments, h, rfl⟩
      have hspells := spells_of_parseFrom h
      exact ⟨hspells.canonical, by rw [text, hspells.chars_eq, String.ofList_toList]⟩
    · rintro ⟨hcanonical, rfl⟩
      refine ⟨t.segments, ?_, rfl⟩
      rw [text, String.toList_ofList]
      exact hcanonical.spells.parseFrom_eq 0
  · obtain ⟨k, hk, hbrace⟩ := exists_brace_of_error (map_eq_error_iff.mp he)
    rwa [hk, Nat.zero_add]

/-- A placeholder between literal braces. -/
def braced : Template := ⟨[.text "\x7b", .placeholder "a", .text "\x7d"]⟩

/-- Of three braces the first two are literal text, and so are the last two; one closing brace
more is a fault. -/
theorem braced_reads_just_what_is_written :
    Canonical braced.segments ∧ parse "\x7b\x7b\x7ba\x7d\x7d\x7d" = .ok braced ∧
    parse "\x7b\x7b\x7ba\x7d\x7d\x7d\x7d" = .error (.unmatched 7) ∧
      "\x7b\x7b\x7ba\x7d\x7d\x7d\x7d".toList[7]? = some closing := by
  have hcanonical : Canonical braced.segments := by
    simp [braced, canonical_cons, canonical_nil, Segment.Proper, Segment.isText]
  have hread := ((reads_just_what_is_written "\x7b\x7b\x7ba\x7d\x7d\x7d").1 braced).mpr
    ⟨hcanonical, by decide⟩
  have hfault : parse "\x7b\x7b\x7ba\x7d\x7d\x7d\x7d" = .error (.unmatched 7) := by
    have hchars : "\x7b\x7b\x7ba\x7d\x7d\x7d\x7d".toList =
        literal opening ++ opening :: (['a'] ++ closing :: (literal closing ++ [closing])) := by
      decide
    rw [parse, hchars, parseFrom_literal, parseFrom_placeholder (by decide), parseFrom_literal,
      parseFrom_closing]
    rfl
  refine ⟨hcanonical, hread, hfault, ?_⟩
  exact ((reads_just_what_is_written _).2 _ hfault).resolve_left (by decide)

end Template

end Distill

import Distill.Proofs.Step.Quoting

/-!
# Comments on lines

`Command.dropComment` reads a line by itself, with the quotes that a place is in and a flag whether
the last character was white space. A shell comes to the line from the lines above it and looks for
words instead of white space. The two readings go on in step as long as no number sign stands right
behind an operator: white space that parts no words only lets a word go on, and a number sign in
the word is where the line is cut.

## Main definitions

* `Command.Place.Follows` — how a place goes with the flag that a line is read with.

## Main statements

* `Command.dropComment_spec` — what is cut off a line, and where.
* `Command.dropComment_step` — reading a character, both readings go on in step.
* `Command.dropComment_eq_or_isUnquoted` — a line without comment is kept, or it is cut outside
  quotes.
-/

namespace Distill.Command

variable {p : Place} {b : Bool} {c : Char} {cs line rest : List Char}

/-! ## What is cut off -/

/-- A character is kept, or a comment begins with it. -/
theorem dropComment_cons (q : Quoting) (escaped blank : Bool) (c : Char) (rest : List Char) :
    (∃ q' escaped', dropComment q escaped blank (c :: rest) =
      c :: dropComment q' escaped' (isBlank c) rest) ∨
    c = '#' ∧ blank = true ∧ dropComment q escaped blank (c :: rest) = [] := by
  cases escaped with
  | true => exact .inl ⟨q, false, rfl⟩
  | false =>
      cases q with
      | single => exact .inl ⟨_, _, rfl⟩
      | double =>
          refine .inl ?_
          by_cases hslash : c = '\\'
          · exact ⟨.double, true, if_pos hslash⟩
          · exact ⟨_, false, if_neg hslash⟩
      | plain =>
          by_cases hslash : c = '\\'
          · exact .inl ⟨.plain, true, if_pos hslash⟩
          · grind [dropComment]

/-- A comment is cut off in front of its number sign, which stands behind a blank or at the start
of the line. -/
theorem dropComment_spec (q : Quoting) (escaped blank : Bool) (line : List Char) :
    ∃ comment, dropComment q escaped blank line ++ comment = line ∧
      (comment = [] ∨ (∃ rest, comment = '#' :: rest) ∧
        ((dropComment q escaped blank line).getLast?.map isBlank).getD blank = true) := by
  induction line generalizing q escaped blank with
  | nil => exact ⟨[], rfl, .inl rfl⟩
  | cons c rest ih =>
      obtain ⟨q', escaped', hkept⟩ | ⟨rfl, rfl, hcut⟩ := dropComment_cons q escaped blank c rest
      · obtain ⟨comment, happend, hcomment⟩ := ih q' escaped' (isBlank c)
        refine ⟨comment, by rw [hkept, List.cons_append, happend], hcomment.imp_right ?_⟩
        refine And.imp_right fun hblank => ?_
        rw [hkept, List.getLast?_cons]
        rw [Option.getD_map] at hblank
        exact hblank
      · exact ⟨'#' :: rest, by rw [hcut, List.nil_append], .inr ⟨⟨rest, rfl⟩, by rw [hcut]; rfl⟩⟩

theorem dropComment_blanks (h : ∀ c ∈ cs, isBlank c = true) (rest : List Char) :
    dropComment .plain false true (cs ++ '#' :: rest) = cs := by
  induction cs with
  | nil => rfl
  | cons c cs ih =>
      rw [List.forall_mem_cons] at h
      obtain ⟨hslash, hsingle, hdouble, hnumber⟩ := ne_of_isBlank h.1
      simp [dropComment, hslash, hsingle, hdouble, hnumber, h.1, ih h.2]

theorem dropComment_of_notMem (h : '#' ∉ line) (q : Quoting) (escaped blank : Bool) :
    dropComment q escaped blank line = line := by
  induction line generalizing q escaped blank with
  | nil => rfl
  | cons c rest ih =>
      rw [List.mem_cons, not_or] at h
      obtain ⟨q', escaped', hkept⟩ | ⟨rfl, -⟩ := dropComment_cons q escaped blank c rest
      · rw [hkept, ih h.2]
      · exact absurd rfl h.1

/-! ## Two readings of a line -/

namespace Place

/-- The quotes of a place. -/
def quoting : Place → Quoting
  | single => .single
  | double | doubleEscaped => .double
  | _ => .plain

/-- Behind a backslash. -/
def isEscaped : Place → Bool
  | escaped | doubleEscaped => true
  | _ => false

/-- How a place goes with the flag whether the last character was a blank. -/
structure Follows (p : Place) (last : Bool) : Prop where
  blank : p = .blank → last = true
  operator : p = .operator → last = false
  comment : p.isComment = false

theorem isBlank_of_next (hp : p.isComment = false) (h : p.next c = .blank) : isBlank c = true := by
  refine isBlank_of_isSeparator ?_
  cases p <;> grind [next, isComment]

theorem not_isBlank_of_next (h : p.next c = .operator) : isBlank c = false := by
  refine isBlank_of_isOperator ?_
  cases p <;> grind [next]

theorem Follows.next (h : p.Follows b) (hnext : (p.next c).isComment = false) :
    (p.next c).Follows (isBlank c) :=
  ⟨isBlank_of_next h.comment, not_isBlank_of_next, hnext⟩

end Place

open Place

/-- Reading a character, both readings go on in step, or a comment is cut off outside quotes. -/
theorem dropComment_step (h : p.Follows b) (hglued : p.next c ≠ .comment true) :
    (p.next c).isComment = false ∧ dropComment p.quoting p.isEscaped b (c :: rest) =
        c :: dropComment (p.next c).quoting (p.next c).isEscaped (isBlank c) rest ∨
      p.isUnquoted = true ∧ dropComment p.quoting p.isEscaped b (c :: rest) = [] := by
  obtain ⟨hblank, hoperator, hcomment⟩ := h
  cases p with
  | comment glued => cases hcomment
  | escaped | doubleEscaped => exact .inl ⟨rfl, rfl⟩
  | single | double => grind [dropComment, next, quoting, isEscaped, isComment]
  | blank | operator | word =>
      grind [dropComment, next, quoting, isEscaped, isComment, isUnquoted]

/-- **The two readings of a line agree** unless a number sign stands right behind an operator: the
line is kept and ends in no comment, or it is cut outside quotes and comments. -/
theorem dropComment_eq_or_isUnquoted (h : p.Follows b) (hline : '\n' ∉ line)
    (hglued : scanFrom p line ≠ .comment true) :
    dropComment p.quoting p.isEscaped b line = line ∧ (scanFrom p line).isComment = false ∨
      (scanFrom p (dropComment p.quoting p.isEscaped b line)).isUnquoted = true := by
  induction line generalizing p b with
  | nil => exact .inl ⟨rfl, h.comment⟩
  | cons c rest ih =>
      rw [List.mem_cons, not_or] at hline
      rw [scanFrom_cons] at hglued ⊢
      have hnext : p.next c ≠ .comment true := by
        intro hnext
        rw [hnext, scanFrom_comment hline.2] at hglued
        exact hglued rfl
      obtain ⟨hcomment, hkept⟩ | ⟨hp, hcut⟩ := dropComment_step h hnext
      · rw [hkept, scanFrom_cons, List.cons_inj_right]
        exact ih (h.next hcomment) hline.2 hglued
      · rw [hcut]
        exact .inr hp

end Distill.Command

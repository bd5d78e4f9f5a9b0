import Distill.Step.Command

/-!
# Quotes and comments of scripts

How a shell reads a script from its first character on: where each character stands among quotes,
escapes and comments. A number sign begins a comment where a word would begin: at the start of the
script and behind a blank, the end of a line or an operator that is not quoted.

## Main definitions

* `Command.Place`, `Command.Place.next` — where a shell stands in a script.
* `Command.scan` — where a shell stands behind a script.
* `Command.Idle` — characters that mean nothing to a shell: blanks and comments.
* `Command.Foreign` — white space that is no blank for a shell.

## Main statements

* `Command.isQuoted_scanFrom_blanks` — white space opens and closes no quotes.
* `Command.scanFrom_comment` — a comment goes on up to the end of the line.
* `Command.idle_of_blanks` — white space outside quotes is idle if none of it is foreign.
-/

namespace Distill.Command

/-! ## Places -/

/-- The characters that part words: blanks and the end of a line. -/
def isSeparator (c : Char) : Bool := c == ' ' || c == '\t' || c == '\n'

/-- The characters that operators are made of. -/
def isOperator (c : Char) : Bool := [';', '&', '|', '(', ')', '<', '>'].contains c

/-- Where a shell stands in a script. -/
inductive Place where
  /-- At the start of the script, or behind a blank or the end of a line. -/
  | blank
  /-- Behind an operator. -/
  | operator
  /-- In a word, or right behind it. -/
  | word
  /-- Behind a backslash outside quotes. -/
  | escaped
  | single
  | double
  /-- Behind a backslash in double quotes. -/
  | doubleEscaped
  /-- In a comment. It is glued if its number sign stands right behind an operator. -/
  | comment (glued : Bool)
  deriving DecidableEq, Repr

namespace Place

/-- Outside quotes, escapes and comments. -/
def isUnquoted : Place → Bool
  | blank | operator | word => true
  | _ => false

/-- Inside quotes. -/
def isQuoted : Place → Bool
  | single | double | doubleEscaped => true
  | _ => false

/-- Inside a comment. -/
def isComment : Place → Bool
  | comment _ => true
  | _ => false

/-- The place behind a character. -/
def next (p : Place) (c : Char) : Place :=
  match p with
  | escaped => word
  | single => if c = '\'' then word else single
  | double => if c = '"' then word else if c = '\\' then doubleEscaped else double
  | doubleEscaped => double
  | comment glued => if c = '\n' then blank else comment glued
  | blank | operator | word =>
    if c = '\\' then escaped
    else if c = '\'' then single
    else if c = '"' then double
    else if c = '#' ∧ p ≠ word then comment (p = operator)
    else if isSeparator c then blank
    else if isOperator c then operator
    else word

end Place

/-- The place behind some more characters. -/
def scanFrom (p : Place) (cs : List Char) : Place := cs.foldl Place.next p

/-- The place behind a script. -/
def scan (script : List Char) : Place := scanFrom .blank script

variable {p : Place} {c : Char} {cs ds : List Char} {glued : Bool}

namespace Place

theorem eq_comment (h : p.isComment = true) : ∃ glued, p = comment glued := by
  cases p <;> simp_all [isComment]

theorem not_isUnquoted_of_isComment (h : p.isComment = true) : ¬ p.isUnquoted = true := by
  cases p <;> simp_all [isComment, isUnquoted]

theorem isQuoted_of_isUnquoted (h : p.isUnquoted = true) : p.isQuoted = false := by
  cases p <;> simp_all [isQuoted, isUnquoted]

theorem isUnquoted_of (hquoted : p.isQuoted = false) (hcomment : p.isComment = false)
    (hescaped : p ≠ escaped) : p.isUnquoted = true := by
  cases p <;> simp_all [isQuoted, isComment, isUnquoted]

theorem isUnquoted_next_space (h : p ≠ escaped) : (p.next ' ').isUnquoted = p.isUnquoted := by
  cases p with
  | escaped => exact absurd rfl h
  | _ => rfl

/-- A line begins outside comments, and outside quotes where a word would begin or go on. -/
theorem next_newline (p : Place) : (p.next '\n').isComment = false ∧
    ((p.next '\n').isQuoted = false → p.next '\n' = blank ∨ p.next '\n' = word) := by
  cases p <;> simp [next, isComment, isQuoted, isSeparator]

end Place

@[simp] theorem scanFrom_nil (p : Place) : scanFrom p [] = p := rfl

@[simp] theorem scanFrom_cons (p : Place) (c : Char) (cs : List Char) :
    scanFrom p (c :: cs) = scanFrom (p.next c) cs := rfl

theorem scanFrom_append (p : Place) (cs ds : List Char) :
    scanFrom p (cs ++ ds) = scanFrom (scanFrom p cs) ds := List.foldl_append

theorem scan_append (cs ds : List Char) : scan (cs ++ ds) = scanFrom (scan cs) ds :=
  scanFrom_append _ cs ds

/-- Only a backslash escapes what stands behind it. -/
theorem Place.eq_backslash_of_next (h : p.next c = escaped ∨ p.next c = doubleEscaped) :
    c = '\\' := by
  cases p <;> simp only [next] at h <;> grind

theorem getLast?_eq_backslash (h : scan cs = .escaped ∨ scan cs = .doubleEscaped) :
    cs.getLast? = some '\\' := by
  rcases List.eq_nil_or_concat cs with rfl | ⟨cs, c, rfl⟩
  · simp [scan] at h
  · rw [List.concat_eq_append, scan_append] at h
    rw [List.concat_eq_append, List.getLast?_concat, Place.eq_backslash_of_next h]

/-! ## White space -/

theorem isBlank_of_isSeparator (h : isSeparator c = true) : isBlank c = true := by
  simp only [isSeparator, Bool.or_eq_true, beq_iff_eq] at h
  rcases h with (rfl | rfl) | rfl <;> decide

theorem isBlank_of_isOperator (h : isOperator c = true) : isBlank c = false := by
  simp only [isOperator, List.contains_iff_mem, List.mem_cons, List.not_mem_nil, or_false] at h
  rcases h with rfl | rfl | rfl | rfl | rfl | rfl | rfl <;> decide

theorem ne_of_isBlank (h : isBlank c = true) : c ≠ '\\' ∧ c ≠ '\'' ∧ c ≠ '"' ∧ c ≠ '#' := by
  refine ⟨?_, ?_, ?_, ?_⟩ <;> rintro rfl <;> exact absurd h (by decide)

/-- White space does not change what quotes a place is in. -/
theorem Place.isQuoted_next_blank (h : isBlank c = true) (p : Place) :
    (p.next c).isQuoted = p.isQuoted := by
  obtain ⟨hslash, hsingle, hdouble, hnumber⟩ := ne_of_isBlank h
  cases p <;> grind [next, isQuoted]

theorem isQuoted_scanFrom_blanks (h : ∀ c ∈ cs, isBlank c = true) (p : Place) :
    (scanFrom p cs).isQuoted = p.isQuoted := by
  induction cs generalizing p with
  | nil => rfl
  | cons c cs ih =>
      rw [List.forall_mem_cons] at h
      rw [scanFrom_cons, ih h.2, Place.isQuoted_next_blank h.1]

/-- Outside quotes, white space begins a new word or goes on with one. -/
theorem Place.next_blank (hp : p.isUnquoted = true) (h : isBlank c = true) :
    p.next c = if isSeparator c then blank else word := by
  obtain ⟨hslash, hsingle, hdouble, hnumber⟩ := ne_of_isBlank h
  have hoperator : isOperator c ≠ true := fun hop => by simp [isBlank_of_isOperator hop] at h
  cases p <;> grind [next, isUnquoted]

theorem isUnquoted_scanFrom_blanks (hp : p.isUnquoted = true) (h : ∀ c ∈ cs, isBlank c = true) :
    (scanFrom p cs).isUnquoted = true := by
  induction cs generalizing p with
  | nil => exact hp
  | cons c cs ih =>
      rw [List.forall_mem_cons] at h
      refine ih ?_ h.2
      rw [Place.next_blank hp h.1]
      split <;> rfl

/-! ## Comments -/

theorem isComment_scanFrom (hp : p.isComment = false) (h : '#' ∉ cs) :
    (scanFrom p cs).isComment = false := by
  induction cs generalizing p with
  | nil => exact hp
  | cons c cs ih =>
      rw [List.mem_cons, not_or] at h
      refine ih ?_ h.2
      cases p <;> grind [Place.next, Place.isComment]

theorem scanFrom_comment (h : '\n' ∉ cs) : scanFrom (.comment glued) cs = .comment glued := by
  induction cs with
  | nil => rfl
  | cons c cs ih =>
      rw [List.mem_cons, not_or] at h
      rw [scanFrom_cons, Place.next, if_neg (Ne.symm h.1), ih h.2]

/-! ## What means nothing -/

/-- Every character is a blank or the end of a line outside quotes, or it belongs to a comment. -/
def Idle : Place → List Char → Prop
  | _, [] => True
  | p, c :: rest =>
    ((p.next c).isComment = true ∨
      isSeparator c = true ∧ (p.isUnquoted = true ∨ p.isComment = true)) ∧ Idle (p.next c) rest

/-- Some character is white space outside comments that parts no words. -/
def Foreign : Place → List Char → Prop
  | _, [] => False
  | p, c :: rest =>
    isBlank c = true ∧ isSeparator c = false ∧ (p.next c).isComment = false ∨
      Foreign (p.next c) rest

instance decidableIdle : (p : Place) → (cs : List Char) → Decidable (Idle p cs)
  | _, [] => inferInstanceAs (Decidable True)
  | p, c :: rest =>
    have := decidableIdle (p.next c) rest
    inferInstanceAs (Decidable (_ ∧ _))

instance decidableForeign : (p : Place) → (cs : List Char) → Decidable (Foreign p cs)
  | _, [] => inferInstanceAs (Decidable False)
  | p, c :: rest =>
    have := decidableForeign (p.next c) rest
    inferInstanceAs (Decidable (_ ∨ _))

theorem idle_append : Idle p (cs ++ ds) ↔ Idle p cs ∧ Idle (scanFrom p cs) ds := by
  induction cs generalizing p with
  | nil => simp [Idle]
  | cons c cs ih => rw [List.cons_append, Idle, Idle, ih, scanFrom_cons, and_assoc]

theorem foreign_append : Foreign p (cs ++ ds) ↔ Foreign p cs ∨ Foreign (scanFrom p cs) ds := by
  induction cs generalizing p with
  | nil => simp [Foreign]
  | cons c cs ih => rw [List.cons_append, Foreign, Foreign, ih, scanFrom_cons, or_assoc]

theorem Idle.not_foreign (h : Idle p cs) : ¬ Foreign p cs := by
  induction cs generalizing p with
  | nil => exact id
  | cons c cs ih =>
      rintro (⟨-, hseparator, hcomment⟩ | hforeign)
      · rcases h.1 with h | ⟨h, -⟩
        · simp [hcomment] at h
        · simp [hseparator] at h
      · exact ih h.2 hforeign

theorem idle_comment (h : '\n' ∉ cs) : Idle (.comment glued) cs := by
  induction cs with
  | nil => trivial
  | cons c cs ih =>
      rw [List.mem_cons, not_or] at h
      have hnext : (Place.comment glued).next c = .comment glued := if_neg (Ne.symm h.1)
      exact ⟨.inl (by rw [hnext]; rfl), by rw [hnext]; exact ih h.2⟩

/-- **White space outside quotes is idle if none of it is foreign.** -/
theorem idle_of_blanks (hp : p.isUnquoted = true ∨ p.isComment = true)
    (h : ∀ c ∈ cs, isBlank c = true) (hforeign : ¬ Foreign p cs) : Idle p cs := by
  induction cs generalizing p with
  | nil => trivial
  | cons c cs ih =>
      rw [List.forall_mem_cons] at h
      rw [Foreign, not_or] at hforeign
      rcases hp with hp | hp
      · have hnext := Place.next_blank hp h.1
        cases hseparator : isSeparator c with
        | false =>
            rw [hseparator, if_neg (by decide)] at hnext
            exact absurd ⟨h.1, hseparator, by rw [hnext]; rfl⟩ hforeign.1
        | true =>
            rw [hseparator, if_pos rfl] at hnext
            refine ⟨.inr ⟨hseparator, .inl hp⟩, ih (.inl ?_) h.2 hforeign.2⟩
            rw [hnext]
            rfl
      · obtain ⟨glued, rfl⟩ := Place.eq_comment hp
        by_cases hline : c = '\n'
        · subst hline
          exact ⟨.inr ⟨rfl, .inr rfl⟩, ih (.inl rfl) h.2 hforeign.2⟩
        · have hnext : (Place.comment glued).next c = .comment glued := if_neg hline
          rw [hnext] at hforeign
          exact ⟨.inl (by rw [hnext]; rfl), by rw [hnext]; exact ih (.inr rfl) h.2 hforeign.2⟩

/-- Behind idle white space a word would begin. -/
theorem scanFrom_eq_blank (hp : p.isUnquoted = true) (h : ∀ c ∈ cs, isBlank c = true)
    (hidle : Idle p cs) (hne : cs ≠ []) : scanFrom p cs = .blank := by
  induction cs generalizing p with
  | nil => exact absurd rfl hne
  | cons c cs ih =>
      rw [List.forall_mem_cons] at h
      have hnext := Place.next_blank hp h.1
      have hseparator : isSeparator c = true := by
        rcases hidle.1 with hcomment | ⟨hseparator, -⟩
        · rw [hnext] at hcomment
          split at hcomment <;> cases hcomment
        · exact hseparator
      rw [hseparator, if_pos rfl] at hnext
      cases cs with
      | nil => exact hnext
      | cons d cs =>
          rw [scanFrom_cons, hnext]
          exact ih rfl h.2 (hnext ▸ hidle.2) (List.cons_ne_nil d cs)

end Distill.Command

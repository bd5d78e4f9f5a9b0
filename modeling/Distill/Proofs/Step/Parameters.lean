import Distill.Proofs.Step.Comments
import Mathlib.Data.List.DropRight

/-!
# Parameters of scripts

When the parameters of a script reach its last command. `Command.withParams` takes white space and
a comment off the end of the script and writes the parameters there. It looks for the comment on the
last line alone, as if that line began outside quotes, whereas a shell reads the script from its
first character on. Where the two readings part, the parameters land in quotes or in a comment.

## Main definitions

* `Command.HandsOver` — a script hands the parameters to the last command of another one.
* `Command.Parts` — what stands behind the body of a script.
* `Command.Regular` — the conditions under which the parameters are handed over.
* `Command.StartsPlain` — the last line can be read without the lines above it.

## Main statements

* `Command.exists_parts` — a script is its body, white space, a comment and white space.
* `Command.Parts.isUnquoted_body` — the body of a regular script ends outside quotes and comments.
* `Command.Parts.idle_dropped` — what is dropped from a regular script means nothing.
* `Command.withParams_handsOver_iff` — the parameters are handed over exactly for regular scripts.
-/

namespace Distill.Command

variable {c : Char} {cs ds : List Char} {command s : String}

/-! ## The end of a script -/

/-- What trimming takes off is white space. -/
theorem exists_blanks (cs : List Char) :
    ∃ blanks, dropEndWhile isBlank cs ++ blanks = cs ∧ ∀ c ∈ blanks, isBlank c = true :=
  ⟨cs.rtakeWhile isBlank, List.rdropWhile_append_rtakeWhile, fun _ => List.mem_rtakeWhile_imp⟩

theorem isBlank_getLast?_trim (h : (dropEndWhile isBlank cs).getLast? = some c) :
    isBlank c = false := by
  obtain ⟨hne, rfl⟩ := List.mem_getLast?_eq_getLast h
  exact Bool.eq_false_iff.mpr (List.rdropWhile_last_not isBlank cs hne)

theorem trim_append_blanks (h : ∀ c ∈ ds, isBlank c = true) :
    dropEndWhile isBlank (cs ++ ds) = dropEndWhile isBlank cs := by
  rw [dropEndWhile, List.reverse_append, List.dropWhile_append_of_pos, dropEndWhile]
  simpa using h

theorem trim_append (h : ¬ ∀ c ∈ ds, isBlank c = true) :
    dropEndWhile isBlank (cs ++ ds) = cs ++ dropEndWhile isBlank ds := by
  have hne : (ds.reverse.dropWhile isBlank).isEmpty = false := by
    rw [← Bool.not_eq_true, List.isEmpty_iff, List.dropWhile_eq_nil_iff]
    simpa using h
  rw [dropEndWhile, List.reverse_append, List.dropWhile_append, hne, if_neg (by decide),
    List.reverse_append, List.reverse_reverse, dropEndWhile]

/-- A script without the white space at its end. -/
def trimmed (command : String) : List Char := dropEndWhile isBlank command.toList

def linesAbove (command : String) : List Char := (splitLastLine (trimmed command)).1

def lastLine (command : String) : List Char := (splitLastLine (trimmed command)).2

theorem linesAbove_append_lastLine (command : String) :
    linesAbove command ++ lastLine command = trimmed command :=
  List.suffix_iff_eq_append.mp (List.rtakeWhile_suffix (· != '\n') (trimmed command))

theorem newline_notMem_lastLine (command : String) : '\n' ∉ lastLine command := by
  intro h
  have := List.mem_rtakeWhile_imp h
  simp at this

theorem eq_newline_of_getLast? (h : (linesAbove command).getLast? = some c) : c = '\n' := by
  have habove : linesAbove command = (trimmed command).rdropWhile (· != '\n') := by
    refine (List.append_left_inj (lastLine command)).mp ?_
    rw [linesAbove_append_lastLine]
    exact List.rdropWhile_append_rtakeWhile.symm
  rw [habove] at h
  obtain ⟨hne, rfl⟩ := List.mem_getLast?_eq_getLast h
  simpa using List.rdropWhile_last_not (· != '\n') (trimmed command) hne

theorem scan_linesAbove (command : String) : (scan (linesAbove command)).isComment = false ∧
    ((scan (linesAbove command)).isQuoted = false →
      scan (linesAbove command) = .blank ∨ scan (linesAbove command) = .word) := by
  rcases List.eq_nil_or_concat (linesAbove command) with hnil | ⟨cs, c, hconcat⟩
  · rw [hnil]
    exact ⟨rfl, fun _ => .inl rfl⟩
  · rw [List.concat_eq_append] at hconcat
    have hlast : (linesAbove command).getLast? = some c := by rw [hconcat, List.getLast?_concat]
    rw [hconcat, eq_newline_of_getLast? hlast, scan_append]
    exact Place.next_newline (scan cs)

theorem scan_trimmed_eq (command : String) :
    scan (trimmed command) = scanFrom (scan (linesAbove command)) (lastLine command) := by
  rw [← scan_append, linesAbove_append_lastLine]

theorem isQuoted_trimmed (command : String) :
    (scan (trimmed command)).isQuoted = (scan command.toList).isQuoted := by
  obtain ⟨ends, hwhole, hends⟩ := exists_blanks command.toList
  rw [← isQuoted_scanFrom_blanks hends, ← scan_append, trimmed, hwhole]

/-! ## The parts of a script -/

/-- A script up to the comment that is cut off. -/
def uncommented (command : String) : List Char := dropTrailingComment (trimmed command)

/-- What follows the body of a script. -/
@[irreducible]
def dropped (command : String) : List Char := command.toList.drop (body command).length

theorem uncommented_eq_append (command : String) :
    uncommented command =
      linesAbove command ++ dropComment .plain false true (lastLine command) := rfl

theorem body_eq_trim (command : String) :
    body command = dropEndWhile isBlank (uncommented command) := rfl

/-- A script without a comment at its end is its own body. -/
theorem body_eq_trimmed (h : uncommented command = trimmed command) :
    body command = trimmed command := by
  rw [body_eq_trim, h]
  exact List.rdropWhile_idempotent isBlank command.toList

/-- A script is its body with white space, a comment and white space again behind it. -/
structure Parts (command : String) (blanks comment ends : List Char) : Prop where
  uncommented_eq : uncommented command = body command ++ blanks
  trimmed_eq : trimmed command = uncommented command ++ comment
  whole_eq : command.toList = trimmed command ++ ends
  isBlank_blanks : ∀ c ∈ blanks, isBlank c = true
  isBlank_ends : ∀ c ∈ ends, isBlank c = true
  comment_eq : comment = [] ∨ blanks ≠ [] ∧ ∃ rest, comment = '#' :: rest ∧ '\n' ∉ rest

/-- In front of a comment that is cut off stands white space, be it the end of a line. -/
theorem isBlank_of_getLast?_uncommented
    (h : ((dropComment .plain false true (lastLine command)).getLast?.map isBlank).getD true = true)
    (hlast : (uncommented command).getLast? = some c) : isBlank c = true := by
  rw [uncommented_eq_append, List.getLast?_append] at hlast
  cases hkept : (dropComment .plain false true (lastLine command)).getLast? with
  | none =>
      rw [hkept, Option.none_or] at hlast
      rw [eq_newline_of_getLast? hlast]
      rfl
  | some d =>
      rw [hkept, Option.some_or, Option.some_inj] at hlast
      rw [hkept, hlast] at h
      exact h

theorem exists_parts (hbody : body command ≠ []) :
    ∃ blanks comment ends, Parts command blanks comment ends := by
  obtain ⟨ends, hwhole, hends⟩ := exists_blanks command.toList
  obtain ⟨blanks, huncommented, hblanks⟩ := exists_blanks (uncommented command)
  obtain ⟨comment, hline, hcomment⟩ := dropComment_spec .plain false true (lastLine command)
  refine ⟨blanks, comment, ends, huncommented.symm, ?_, hwhole.symm, hblanks, hends, ?_⟩
  · rw [uncommented_eq_append, List.append_assoc, hline, linesAbove_append_lastLine]
  · refine hcomment.imp_right ?_
    rintro ⟨⟨rest, rfl⟩, hblank⟩
    refine ⟨?_, rest, rfl, ?_⟩
    · rintro rfl
      rw [List.append_nil] at huncommented
      have hlast := List.getLast?_eq_some_getLast hbody
      have hnot := isBlank_getLast?_trim hlast
      rw [isBlank_of_getLast?_uncommented hblank (huncommented ▸ hlast)] at hnot
      cases hnot
    · intro hnewline
      refine newline_notMem_lastLine command ?_
      rw [← hline]
      exact List.mem_append_right _ (List.mem_cons_of_mem _ hnewline)

/-! ## Handing parameters over -/

/-- A script goes on with its parameters, outside quotes and comments, where another one has only
idle characters left. -/
def HandsOver (command s : String) : Prop :=
  ∃ kept rest, command.toList = kept ++ rest ∧ s.toList = kept ++ " \"$@\"".toList ∧
    Idle (scan kept) rest ∧ (scan (kept ++ [' '])).isUnquoted = true

/-- The last line is a comment, and what stands above it ends in one. -/
def CommentAbove (command : String) : Prop :=
  (∃ blanks rest, lastLine command = blanks ++ '#' :: rest ∧ ∀ c ∈ blanks, isBlank c = true) ∧
    (scan (dropEndWhile isBlank (linesAbove command))).isComment = true

/-- The conditions under which the parameters are handed over. -/
structure Regular (command : String) : Prop where
  /-- With the comment cut off, the script ends outside quotes and comments. -/
  cut : (scan (uncommented command)).isUnquoted = true
  above : ¬ CommentAbove command
  dropped : ¬ Foreign (scan (body command)) (dropped command)

theorem handsOver_iff (hcommand : command.toList = cs ++ ds)
    (hs : s.toList = cs ++ " \"$@\"".toList) (hescaped : scan cs ≠ .escaped) :
    HandsOver command s ↔ Idle (scan cs) ds ∧ (scan cs).isUnquoted = true := by
  have hplace : (scan (cs ++ [' '])).isUnquoted = (scan cs).isUnquoted := by
    rw [scan_append, scanFrom_cons, scanFrom_nil]
    exact Place.isUnquoted_next_space hescaped
  constructor
  · rintro ⟨kept, rest, hrest, hkept, hidle, hunquoted⟩
    rw [hs, List.append_left_inj] at hkept
    subst hkept
    rw [hcommand, List.append_right_inj] at hrest
    rw [hrest, ← hplace]
    exact ⟨hidle, hunquoted⟩
  · rintro ⟨hidle, hunquoted⟩
    rw [← hplace] at hunquoted
    exact ⟨cs, ds, hcommand, hs, hidle, hunquoted⟩

theorem of_withParams (h : withParams command = .ok s) :
    body command ≠ [] ∧ scan (body command) ≠ .escaped ∧
      s.toList = body command ++ " \"$@\"".toList := by
  unfold withParams at h
  cases hlast : (body command).getLast? with
  | none => simp [hlast] at h
  | some c =>
      simp only [hlast] at h
      split at h
      · cases h
      case isFalse hoperator =>
        refine ⟨?_, ?_, ?_⟩
        · intro hnil
          rw [hnil] at hlast
          cases hlast
        · intro hescaped
          rw [getLast?_eq_backslash (.inl hescaped), Option.some_inj] at hlast
          exact hoperator (hlast ▸ by decide)
        · rw [← Except.ok.inj h, String.toList_append, String.toList_ofList]

theorem CommentAbove.isComment_body (h : CommentAbove command) :
    (scan (body command)).isComment = true := by
  obtain ⟨⟨blanks, rest, hline, hblanks⟩, hcomment⟩ := h
  rw [body_eq_trim, uncommented_eq_append, hline, dropComment_blanks hblanks,
    trim_append_blanks hblanks]
  exact hcomment

namespace Parts

variable {blanks comment ends : List Char}

theorem dropped_eq (h : Parts command blanks comment ends) :
    dropped command = blanks ++ (comment ++ ends) := by
  rw [dropped, h.whole_eq, h.trimmed_eq, h.uncommented_eq, List.append_assoc, List.append_assoc,
    List.drop_left]

theorem whole_eq_append (h : Parts command blanks comment ends) :
    command.toList = body command ++ dropped command := by
  rw [h.dropped_eq, h.whole_eq, h.trimmed_eq, h.uncommented_eq]
  simp only [List.append_assoc]

/-- In front of a comment that is cut off a word would begin. -/
theorem scan_uncommented (h : Parts command blanks comment ends) (hne : comment ≠ [])
    (hunquoted : (scan (body command)).isUnquoted = true)
    (hforeign : ¬ Foreign (scan (body command)) (dropped command)) :
    scan (uncommented command) = .blank := by
  rw [h.dropped_eq, foreign_append, not_or] at hforeign
  rw [h.uncommented_eq, scan_append]
  refine scanFrom_eq_blank hunquoted h.isBlank_blanks ?_ (h.comment_eq.resolve_left hne).1
  exact idle_of_blanks (.inl hunquoted) h.isBlank_blanks hforeign.1

theorem scan_trimmed (h : Parts command blanks comment ends) (hne : comment ≠ [])
    (hblank : scan (uncommented command) = .blank) :
    Idle (scan (uncommented command)) comment ∧ scan (trimmed command) = .comment false := by
  obtain ⟨-, rest, rfl, hline⟩ := h.comment_eq.resolve_left hne
  have hnext : Place.blank.next '#' = .comment false := rfl
  rw [h.trimmed_eq, scan_append, hblank, scanFrom_cons, hnext, scanFrom_comment hline]
  exact ⟨⟨.inl rfl, idle_comment hline⟩, rfl⟩

/-- If the body of a script ends in a comment that the white space behind it closes, then the
last line is a comment, too. -/
theorem commentAbove (h : Parts command blanks comment ends)
    (hcut : (scan (uncommented command)).isUnquoted = true)
    (hcomment : (scan (body command)).isComment = true) : CommentAbove command := by
  have htrimmed := h.trimmed_eq
  have hbody := body_eq_trim command
  rcases h.comment_eq with rfl | ⟨-, rest, rfl, -⟩
  · rw [List.append_nil] at htrimmed
    rw [body_eq_trimmed htrimmed.symm, htrimmed] at hcomment
    exact absurd hcut (Place.not_isUnquoted_of_isComment hcomment)
  · rw [← linesAbove_append_lastLine, uncommented_eq_append, List.append_assoc,
      List.append_right_inj] at htrimmed
    by_cases hkept : ∀ c ∈ dropComment .plain false true (lastLine command), isBlank c = true
    · rw [uncommented_eq_append, trim_append_blanks hkept] at hbody
      exact ⟨⟨_, rest, htrimmed, hkept⟩, hbody ▸ hcomment⟩
    · -- The white space lies on the last line, so that it closes no comment.
      have hblanks := h.uncommented_eq
      rw [uncommented_eq_append, trim_append hkept] at hbody
      rw [uncommented_eq_append, hbody, List.append_assoc, List.append_right_inj] at hblanks
      have hnewline : '\n' ∉ blanks := by
        intro hmem
        refine newline_notMem_lastLine command ?_
        rw [htrimmed, hblanks]
        exact List.mem_append_left _ (List.mem_append_right _ hmem)
      obtain ⟨glued, hglued⟩ := Place.eq_comment hcomment
      rw [h.uncommented_eq, scan_append, hglued, scanFrom_comment hnewline] at hcut
      cases hcut

theorem isUnquoted_body (h : Parts command blanks comment ends)
    (hescaped : scan (body command) ≠ .escaped) (hregular : Regular command) :
    (scan (body command)).isUnquoted = true := by
  have hcut := hregular.cut
  refine Place.isUnquoted_of ?_ ?_ hescaped
  · rw [← isQuoted_scanFrom_blanks h.isBlank_blanks, ← scan_append, ← h.uncommented_eq]
    exact Place.isQuoted_of_isUnquoted hcut
  · exact Bool.eq_false_iff.mpr fun hcomment => hregular.above (h.commentAbove hcut hcomment)

theorem idle_dropped (h : Parts command blanks comment ends)
    (hescaped : scan (body command) ≠ .escaped) (hregular : Regular command) :
    Idle (scan (body command)) (dropped command) := by
  have hbody := h.isUnquoted_body hescaped hregular
  have hforeign := hregular.dropped
  have huncommented := scan_append (body command) blanks
  have htrimmed := scan_append (uncommented command) comment
  rw [← h.uncommented_eq] at huncommented
  rw [← h.trimmed_eq] at htrimmed
  rw [h.dropped_eq, foreign_append, foreign_append, not_or, not_or, ← huncommented,
    ← htrimmed] at hforeign
  rw [h.dropped_eq, idle_append, idle_append, ← huncommented, ← htrimmed]
  refine ⟨idle_of_blanks (.inl hbody) h.isBlank_blanks hforeign.1, ?_⟩
  by_cases hne : comment = []
  · subst hne
    refine ⟨trivial, idle_of_blanks (.inl ?_) h.isBlank_ends hforeign.2.2⟩
    rw [htrimmed, scanFrom_nil]
    exact hregular.cut
  · have hblank := h.scan_uncommented hne hbody hregular.dropped
    obtain ⟨hidle, hscan⟩ := h.scan_trimmed hne hblank
    refine ⟨hidle, idle_of_blanks (.inr ?_) h.isBlank_ends hforeign.2.2⟩
    rw [hscan]
    rfl

/-- In a regular script no number sign of a comment stands right behind an operator. -/
theorem scan_trimmed_ne (h : Parts command blanks comment ends)
    (hescaped : scan (body command) ≠ .escaped) (hregular : Regular command) :
    scan (trimmed command) ≠ .comment true := by
  intro hglued
  by_cases hne : comment = []
  · subst hne
    have hcut := hregular.cut
    have htrimmed := h.trimmed_eq
    rw [List.append_nil] at htrimmed
    rw [← htrimmed, hglued] at hcut
    cases hcut
  · have hbody := h.isUnquoted_body hescaped hregular
    have hscan := (h.scan_trimmed hne (h.scan_uncommented hne hbody hregular.dropped)).2
    rw [hglued] at hscan
    cases hscan

end Parts

/-! ## Last lines that can be read alone -/

/-- The last line can be read without the lines above it: it begins outside quotes, or it has no
number sign. -/
def StartsPlain (command : String) : Prop :=
  (scan (linesAbove command)).isQuoted = false ∨ '#' ∉ lastLine command

theorem follows_linesAbove (h : (scan (linesAbove command)).isQuoted = false) (line : List Char) :
    (scan (linesAbove command)).Follows true ∧
      dropComment (scan (linesAbove command)).quoting (scan (linesAbove command)).isEscaped true
        line = dropComment .plain false true line := by
  rcases (scan_linesAbove command).2 h with hplace | hplace <;> rw [hplace] <;>
    exact ⟨⟨by simp, by simp, rfl⟩, rfl⟩

theorem uncommented_of_startsPlain (h : StartsPlain command)
    (hglued : scan (trimmed command) ≠ .comment true) :
    uncommented command = trimmed command ∧ (scan (trimmed command)).isComment = false ∨
      (scan (uncommented command)).isUnquoted = true := by
  rw [uncommented_eq_append, scan_append, scan_trimmed_eq]
  rcases h with hquoted | hnumber
  · obtain ⟨hfollows, hreading⟩ := follows_linesAbove hquoted (lastLine command)
    rw [scan_trimmed_eq] at hglued
    rw [← hreading]
    refine (dropComment_eq_or_isUnquoted hfollows (newline_notMem_lastLine _) hglued).imp_left ?_
    refine And.imp_left fun hline => ?_
    rw [hline, linesAbove_append_lastLine]
  · rw [dropComment_of_notMem hnumber]
    exact .inl ⟨linesAbove_append_lastLine command,
      isComment_scanFrom (scan_linesAbove command).1 hnumber⟩

theorem cut_of_startsPlain (h : StartsPlain command) (hescaped : scan (body command) ≠ .escaped)
    (hquotes : (scan command.toList).isQuoted = false)
    (hglued : scan (trimmed command) ≠ .comment true) :
    (scan (uncommented command)).isUnquoted = true := by
  rcases uncommented_of_startsPlain h hglued with ⟨hline, hcomment⟩ | hcut
  · rw [body_eq_trimmed hline] at hescaped
    rw [← isQuoted_trimmed] at hquotes
    rw [hline]
    exact Place.isUnquoted_of hquotes hcomment hescaped
  · exact hcut

/-- **The parameters reach the last command exactly if the script is regular.** In any case they
follow a start of the script. A script that ends outside quotes and whose last line can be read
alone is regular unless a comment on that line begins right behind an operator, that line is a
comment below another comment, or white space that is dropped belongs to a word. -/
theorem withParams_handsOver_iff (hok : withParams command = .ok s) :
    (body command <+: command.toList ∧ s.toList = body command ++ " \"$@\"".toList) ∧
    (HandsOver command s ↔ Regular command) ∧
    ((scan command.toList).isQuoted = false → StartsPlain command → (Regular command ↔
      scan (trimmed command) ≠ .comment true ∧ ¬ CommentAbove command ∧
        ¬ Foreign (scan (body command)) (dropped command))) := by
  obtain ⟨hne, hescaped, hs⟩ := of_withParams hok
  obtain ⟨blanks, comment, ends, hparts⟩ := exists_parts hne
  refine ⟨⟨⟨_, hparts.whole_eq_append.symm⟩, hs⟩, ?_, fun hquotes hplain => ?_⟩
  · rw [handsOver_iff hparts.whole_eq_append hs hescaped]
    constructor
    · rintro ⟨hidle, hunquoted⟩
      refine ⟨?_, ?_, hidle.not_foreign⟩
      · rw [hparts.uncommented_eq, scan_append]
        exact isUnquoted_scanFrom_blanks hunquoted hparts.isBlank_blanks
      · intro habove
        exact Place.not_isUnquoted_of_isComment habove.isComment_body hunquoted
    · intro hregular
      exact ⟨hparts.idle_dropped hescaped hregular, hparts.isUnquoted_body hescaped hregular⟩
  · constructor
    · intro hregular
      exact ⟨hparts.scan_trimmed_ne hescaped hregular, hregular.above, hregular.dropped⟩
    · rintro ⟨hglued, habove, hforeign⟩
      exact ⟨cut_of_startsPlain hplain hescaped hquotes hglued, habove, hforeign⟩

/-- A comment behind the last command is no hindrance. -/
theorem listing_handsOver :
    withParams "echo start\nprintf '%s,' # list params\n\n" =
        .ok "echo start\nprintf '%s,' \"$@\"" ∧
      HandsOver "echo start\nprintf '%s,' # list params\n\n"
        "echo start\nprintf '%s,' \"$@\"" := by
  have hok : withParams "echo start\nprintf '%s,' # list params\n\n" =
      .ok "echo start\nprintf '%s,' \"$@\"" := by decide
  obtain ⟨-, hhands, hregular⟩ := withParams_handsOver_iff hok
  refine ⟨hok, hhands.mpr ((hregular (by decide) (.inl (by decide))).mpr ⟨by decide, ?_, ?_⟩)⟩
  · exact fun habove => absurd habove.2 (by decide)
  · rw [dropped]
    decide

/-- The end of a quotation on the last line is taken for the start of one, and the comment behind it
swallows the parameters. -/
theorem quotation_not_handsOver :
    (scan "echo 'a\nb' # c".toList).isQuoted = false ∧
      withParams "echo 'a\nb' # c" = .ok "echo 'a\nb' # c \"$@\"" ∧
      ¬ HandsOver "echo 'a\nb' # c" "echo 'a\nb' # c \"$@\"" := by
  refine ⟨by decide, by decide, ?_⟩
  have hcommand : "echo 'a\nb' # c".toList = "echo 'a\nb' # c".toList ++ [] := by
    rw [List.append_nil]
  rw [handsOver_iff hcommand (by decide) (by decide)]
  decide

end Distill.Command

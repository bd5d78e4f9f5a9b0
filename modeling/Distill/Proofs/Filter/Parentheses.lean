import Distill.Proofs.Filter.Precedence
import Distill.Proofs.Filter.Reading

/-!
# Texts in parentheses

A reader stops at a closing parenthesis or bracket as it does at the end of the filter, so that a
text that is accepted on its own is read with the same expression inside them, whatever stands
behind. In parentheses it is an operand.

## Main definitions

* `Filter.closeWith` — tokens with others in place of the end.
* `Filter.parenthesised` — the characters of a text in parentheses.

## Main statements

* `Filter.Reads.close` — what is read before a closing parenthesis or bracket.
* `Filter.Expr.exists_reads_closed` — an accepted text in front of one.
* `Filter.Expr.exists_reads_parenthesised` — an accepted text in parentheses is an operand.
-/

namespace Distill.Filter

/-! ## The end of the filter and closing tokens -/

/-- A parenthesis or a bracket that closes. -/
def Token.Closes (t : Token) : Prop := t = .rightParen ∨ t = .rightBracket

/-- The tokens up to the end of the filter, and others in place of it. -/
def closeWith (tail ts : List Token) : List Token := ts.takeWhile (· ≠ .finish) ++ tail

section CloseWith

variable {tail ts rest : List Token} {p : Part} {e : Expr}

theorem closeWith_cons (t : Token) (h : t ≠ .finish) (ts : List Token) :
    closeWith tail (t :: ts) = t :: closeWith tail ts := by
  simp [closeWith, h]

theorem closeWith_of_nextToken (h : nextToken ts = .finish) : closeWith tail ts = tail := by
  cases ts with
  | nil => rfl
  | cons t ts =>
      rw [nextToken_cons] at h
      simp [closeWith, h]

theorem closeWith_concat {us : List Token} (h : .finish ∉ us) (ts : List Token) :
    closeWith tail (us ++ .finish :: ts) = us ++ tail := by
  induction us with
  | nil => exact closeWith_of_nextToken rfl
  | cons u us ih =>
      have hu : u ≠ .finish := (List.ne_of_not_mem_cons h).symm
      rw [List.cons_append, closeWith_cons u hu, ih (List.not_mem_of_not_mem_cons h),
        List.cons_append]

/-- What holds of the next token and does not tell the end from tokens that close. -/
theorem nextToken_closeWith (htail : (nextToken tail).Closes) {P : Token → Prop}
    (h : P (nextToken ts)) (hsame : P .finish → P .rightParen ∧ P .rightBracket) :
    P (nextToken (closeWith tail ts)) := by
  by_cases hfinish : nextToken ts = .finish
  · obtain ⟨hparen, hbracket⟩ := hsame (hfinish ▸ h)
    rw [closeWith_of_nextToken hfinish]
    rcases htail with htail | htail
    · exact htail ▸ hparen
    · exact htail ▸ hbracket
  · cases ts with
    | nil => exact absurd rfl hfinish
    | cons t ts =>
        rw [closeWith_cons t hfinish]
        exact h

theorem goesOn_closeWith (htail : (nextToken tail).Closes) (h : goesOn ts = false) :
    goesOn (closeWith tail ts) = false := by
  by_cases hfinish : nextToken ts = .finish
  · rw [closeWith_of_nextToken hfinish, goesOn]
    rcases htail with htail | htail <;> rw [htail]
  · cases ts with
    | nil => exact absurd rfl hfinish
    | cons t ts =>
        rw [closeWith_cons t hfinish]
        cases t with
        | dot =>
            exact nextToken_closeWith (P := (opensDotSuffix · = false)) htail h
              fun _ => ⟨rfl, rfl⟩
        | _ => exact h

theorem ReadsBracket.close (h : ReadsBracket ts e rest) :
    ReadsBracket (closeWith tail ts) e (closeWith tail rest) := by
  cases h with
  | iterate =>
      rw [closeWith_cons .rightBracket nofun]
      exact .iterate _
  | key name =>
      rw [closeWith_cons (.string name) nofun, closeWith_cons .rightBracket nofun]
      exact .key name _
  | @place n i integral =>
      rw [closeWith_cons (.number n) nofun, closeWith_cons .rightBracket nofun]
      exact .place integral _
  | @negative n i integral =>
      rw [closeWith_cons .minus nofun, closeWith_cons (.number n) nofun,
        closeWith_cons .rightBracket nofun]
      exact .negative integral _

theorem ReadsSelector.close (h : ReadsSelector ts e rest) :
    ReadsSelector (closeWith tail ts) e (closeWith tail rest) := by
  cases h with
  | word name =>
      rw [closeWith_cons (.field name) nofun]
      exact .word name _
  | quoted name =>
      rw [closeWith_cons .dot nofun, closeWith_cons (.string name) nofun]
      exact .quoted name _
  | bracket inside =>
      rw [closeWith_cons .dot nofun, closeWith_cons .leftBracket nofun]
      exact .bracket inside.close

/-- **A closing parenthesis or bracket ends a filter as its end does.** -/
theorem Reads.close (h : Reads p ts e rest) (htail : (nextToken tail).Closes) :
    Reads p (closeWith tail ts) e (closeWith tail rest) := by
  induction h with
  | suffix _ _ ihFirst ihMore => exact .suffix ihFirst ihMore
  | operand _ stop ih =>
      exact .operand ih (nextToken_closeWith (P := (Comparison.ofToken? · = none)) htail stop
        fun _ => ⟨rfl, rfl⟩)
  | @compare _ _ t _ _ _ _ _ known _ ihLeft ihRight =>
      rw [closeWith_cons t (by rintro rfl; cases known)] at ihLeft
      exact .compare ihLeft known ihRight
  | last _ stop ih =>
      exact .last ih (nextToken_closeWith (P := (· ≠ .pipe)) htail stop fun _ => ⟨nofun, nofun⟩)
  | pipe _ _ ihLeft ihRight =>
      rw [closeWith_cons .pipe nofun] at ihLeft
      exact .pipe ihLeft ihRight
  | first groups _ _ ihLeft ihMore => exact .first groups ihLeft ihMore
  | @done r e ts stop =>
      refine .done (nextToken_closeWith (P := (r.joins? · = none)) htail stop fun _ => ?_)
      cases r <;> exact ⟨rfl, rfl⟩
  | @join r t _ _ _ _ _ _ _ known _ _ ihRight ihMore =>
      rw [closeWith_cons t (by rintro rfl; cases r <;> cases known)]
      exact .join known ihRight ihMore
  | unsuffixed stop => exact .unsuffixed (goesOn_closeWith htail stop)
  | select selector _ ih => exact .select selector.close ih
  | bracket inside _ ih =>
      rw [closeWith_cons .leftBracket nofun]
      exact .bracket inside.close ih
  | question _ ih =>
      rw [closeWith_cons .question nofun]
      exact .question ih
  | identity stop =>
      rw [closeWith_cons .dot nofun]
      exact .identity (nextToken_closeWith (P := (opensDotSuffix · = false)) htail stop
        fun _ => ⟨rfl, rfl⟩)
  | selector selector => exact .selector selector.close
  | @literal t _ known =>
      rw [closeWith_cons t (by rintro rfl; cases known)]
      exact .literal known _
  | negative n =>
      rw [closeWith_cons .minus nofun, closeWith_cons (.number n) nofun]
      exact .negative n _
  | parens _ ih =>
      rw [closeWith_cons .rightParen nofun] at ih
      rw [closeWith_cons .leftParen nofun]
      exact .parens ih
  | empty =>
      rw [closeWith_cons .leftBracket nofun, closeWith_cons .rightBracket nofun]
      exact .empty _
  | collect _ _ ih =>
      rw [closeWith_cons .rightBracket nofun] at ih
      rw [closeWith_cons .leftBracket nofun]
      exact .collect (ih.ne_rightBracket rfl) ih
  | @call name _ _ known stop =>
      rw [closeWith_cons (.identifier name) nofun]
      exact .call known (nextToken_closeWith (P := (· ≠ .leftParen)) htail stop
        fun _ => ⟨nofun, nofun⟩)
  | @apply name _ _ _ _ _ known ih =>
      rw [closeWith_cons .rightParen nofun] at ih
      rw [closeWith_cons (.identifier name) nofun, closeWith_cons .leftParen nofun]
      exact .apply ih known

end CloseWith

/-! ## Accepted texts -/

/-- The characters of a text in parentheses. -/
def parenthesised (s : String) : List Char := '(' :: (s.toList ++ [')'])

/-- A symbol prolongs no token. -/
theorem parted_of_symbol {c : Char} {t : Token} (h : symbol? c = some t) (cs : List Char) :
    Parted (c :: cs) := by
  refine parted_cons ?_ cs
  rw [symbol?.eq_def] at h
  split at h
  case h_10 => cases h
  all_goals decide

/-- **An accepted text in front of a token that closes** is read as its expression: its tokens do
not depend on what stands behind it. -/
theorem Expr.exists_reads_closed {s : String} {e : Expr} (h : Expr.parse s = .ok e) :
    ∃ us, ∀ ⦃c : Char⦄ ⦃u : Token⦄ ⦃cs : List Char⦄ ⦃ts : List Token⦄, symbol? c = some u →
      u.Closes → Lexes cs ts → Lexes (s.toList ++ c :: cs) (us ++ u :: ts) ∧
        Reads (.whole .pipe) (us ++ u :: ts) e (u :: ts) := by
  obtain ⟨ts₀, rest₀, hlexes, hreads, hrest⟩ := Expr.parse_eq_ok_iff.mp h
  obtain ⟨us, rfl, hus⟩ := hlexes.exists_eq_concat
  refine ⟨us, fun c u cs ts hsymbol hcloses hcs => ⟨?_, ?_⟩⟩
  · exact hlexes.append (parted_of_symbol hsymbol cs) (.token (.symbol hsymbol cs) hcs)
  · have hinside := hreads.close (show (nextToken (u :: ts)).Closes from hcloses)
    rwa [closeWith_concat hus, closeWith_of_nextToken hrest] at hinside

/-- **An accepted text in parentheses is an operand**: its tokens do not depend on what stands
behind it, and they are read as the expression of the text. -/
theorem Expr.exists_reads_parenthesised {s : String} {e : Expr} (h : Expr.parse s = .ok e) :
    ∃ us, ∀ ⦃cs : List Char⦄ ⦃ts : List Token⦄, Lexes cs ts →
      Lexes (parenthesised s ++ cs) (us ++ ts) ∧ Reads .primary (us ++ ts) e ts := by
  obtain ⟨us, hus⟩ := exists_reads_closed h
  refine ⟨.leftParen :: (us ++ [.rightParen]), fun cs ts hcs => ?_⟩
  obtain ⟨hlexes, hreads⟩ := hus (c := ')') rfl (.inl rfl) hcs
  constructor
  · simp only [parenthesised, List.cons_append, List.append_assoc, List.nil_append]
    exact .token (.symbol rfl _) hlexes
  · rw [List.cons_append, List.append_assoc]
    exact .parens hreads

end Distill.Filter

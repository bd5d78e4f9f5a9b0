import Distill.Proofs.Filter.Equivalence
import Distill.Proofs.Filter.RoundTrip

/-!
# Splitting and joining

A text is split where a separator is found from left to right, and what is left of the text after
one separator is split in the same way, so that separators never overlap. Whatever the separator
is, joining the parts with it gives the text back.

The splitter looks at every character once and skips the rest of a separator that it has found. The
part that it is reading is kept beside the characters that are left: no separator starts inside of
it, although one may start with its last characters.

## Main definitions

* `Filter.SplitBy` — the parts of a text between separators.

## Main statements

* `Filter.splitBy_splitParts` — what the splitter does.
* `Filter.SplitBy.intercalate_eq`, `SplitBy.not_infix` — the parts make up the text, and no part
  holds the separator.
* `Filter.Pairing.splits_and_joins_back` — what follows for filters.
-/

namespace Distill.Filter

/-! ## Parts of a text -/

/-- The parts of a text between the places where a separator is found. It is found at the first place
at which it starts, so that it is not even in the part in front of it together with all but the last
character of the separator. What is behind it is split in the same way. -/
inductive SplitBy (sep : List Char) : List Char → List (List Char) → Prop
  | last {part} (absent : ¬ sep <:+: part) : SplitBy sep part [part]
  | next {part rest parts} (first : ¬ sep <:+: part ++ sep.dropLast)
      (more : SplitBy sep rest parts) : SplitBy sep (part ++ (sep ++ rest)) (part :: parts)

section SplitBy

variable {sep part cs : List Char} {parts : List (List Char)}

theorem SplitBy.ne_nil (h : SplitBy sep cs parts) : parts ≠ [] := by
  cases h <;> exact List.cons_ne_nil _ _

/-- **The parts with the separator between them are the text.** -/
theorem SplitBy.intercalate_eq (h : SplitBy sep cs parts) : sep.intercalate parts = cs := by
  induction h with
  | last => exact List.intercalate_singleton
  | next _ more ih =>
      rw [List.intercalate_cons_of_ne_nil more.ne_nil, ih, List.append_assoc]

/-- **No part holds the separator.** -/
theorem SplitBy.not_infix (h : SplitBy sep cs parts) : ∀ part ∈ parts, ¬ sep <:+: part := by
  induction h with
  | last absent => simpa using absent
  | next first _ ih =>
      rw [List.forall_mem_cons]
      exact ⟨fun hpart => first (hpart.trans (List.prefix_append _ _).isInfix), ih⟩

/-- A separator that starts in no part does not fit into the part and too few characters behind. -/
private theorem not_infix_append {behind rest : List Char} (hbehind : behind <+: rest)
    (hlength : behind.length < sep.length)
    (hfirst : ∀ before after, part ++ rest = before ++ (sep ++ after) →
      part.length ≤ before.length) : ¬ sep <:+: part ++ behind := by
  rintro ⟨before, after, h⟩
  obtain ⟨rest, rfl⟩ := hbehind
  have hle := hfirst before (after ++ rest) (by rw [← List.append_assoc part, ← h]; simp)
  have htotal := congrArg List.length h
  simp only [List.length_append] at htotal
  omega

/-- **The splitter finds the separators.** The induction is on the characters that are left, of
which some may belong to a separator; no separator starts in the part that is being read. -/
theorem splitBy_splitParts (part cs : List Char) (hsep : sep ≠ []) {skip : Nat}
    (hskip : skip ≤ cs.length)
    (hfirst : ∀ before after, part.reverse ++ cs.drop skip = before ++ (sep ++ after) →
      part.length ≤ before.length) :
    SplitBy sep (part.reverse ++ cs.drop skip) (splitParts sep skip part cs) := by
  have hpos : 0 < sep.length := List.length_pos_iff.mpr hsep
  fun_induction splitParts sep skip part cs with
  | case1 skip part =>
      rw [List.drop_nil] at hfirst ⊢
      have habsent : ¬ sep <:+: part.reverse ++ [] :=
        not_infix_append List.nil_prefix hpos (by rwa [List.length_reverse])
      rw [List.append_nil] at habsent ⊢
      exact .last habsent
  | case2 skip part c rest ih => exact ih (Nat.le_of_succ_le_succ hskip) hfirst
  | case3 part c rest hfound ih =>
      obtain ⟨rest', hrest⟩ := List.isPrefixOf_iff_prefix.mp hfound
      have hlength := congrArg List.length hrest
      rw [List.length_append, List.length_cons] at hlength
      have hdrop : rest.drop (sep.length - 1) = rest' := by
        have := congrArg (List.drop sep.length) hrest
        rw [List.drop_left, ← Nat.succ_pred_eq_of_pos hpos, List.drop_succ_cons] at this
        exact this.symm
      have hmore := ih (by omega) (fun _ _ _ => Nat.zero_le _)
      rw [List.reverse_nil, List.nil_append, hdrop] at hmore
      rw [List.drop_zero, ← hrest] at hfirst ⊢
      have hlast : sep.dropLast <+: sep ++ rest' :=
        (List.dropLast_prefix sep).trans (List.prefix_append sep rest')
      refine .next (not_infix_append hlast ?_ ?_) hmore
      · rw [List.length_dropLast]
        omega
      · rwa [List.length_reverse]
  | case4 part c rest hnot ih =>
      have htext : (c :: part).reverse ++ rest.drop 0 = part.reverse ++ (c :: rest).drop 0 := by simp
      rw [← htext]
      refine ih (Nat.zero_le _) fun before after h => ?_
      have hle := hfirst before after (htext.symm.trans h)
      refine Nat.lt_of_le_of_ne hle fun hlen => hnot ?_
      -- A separator right behind the part would have been found.
      rw [htext] at h
      have hinj := List.append_inj h (by rw [List.length_reverse, hlen])
      exact List.isPrefixOf_iff_prefix.mpr ⟨after, hinj.2.symm⟩

end SplitBy

/-! ## Texts -/

variable {s sep : String}

/-- A text that is not empty is split by every separator that is not empty. -/
theorem splitBy_splitText (hs : s ≠ "") (hsep : sep ≠ "") :
    SplitBy sep.toList s.toList ((splitText s sep).map String.toList) := by
  have hchars : sep.toList ≠ [] := by simpa using hsep
  have hsplit : SplitBy sep.toList s.toList (splitParts sep.toList 0 [] s.toList) :=
    splitBy_splitParts [] s.toList hchars (Nat.zero_le _) fun _ _ _ => Nat.zero_le _
  rw [splitText, if_neg (by simpa using hs), if_neg (by simpa using hsep)]
  simpa only [List.map_map, Function.comp_def, String.toList_ofList, List.map_id'] using hsplit

/-- Nothing between the parts. -/
theorem intercalate_nil_left {α : Type} (parts : List (List α)) :
    [].intercalate parts = parts.flatten := by
  induction parts with
  | nil => rfl
  | cons part parts ih =>
      cases parts with
      | nil => simp
      | cons next parts =>
          rw [List.intercalate_cons_cons, ih, List.append_nil, List.flatten_cons (l := part)]

/-- **Joining the parts of a text gives the text,** whatever the separator is. -/
theorem intercalate_splitText (s sep : String) : sep.intercalate (splitText s sep) = s := by
  rw [← String.toList_inj, String.toList_intercalate]
  by_cases hs : s = ""
  · subst hs
    rfl
  by_cases hsep : sep = ""
  · subst hsep
    have hsplit : splitText s "" = "" :: (s.toList.map String.singleton ++ [""]) := by
      rw [splitText, if_neg (by simpa using hs), if_pos (by simp)]
    rw [hsplit, String.toList_empty, intercalate_nil_left]
    simp [Function.comp_def, ← List.flatMap_def]
  · exact (splitBy_splitText hs hsep).intercalate_eq

/-! ## Filters -/

theorem mapM_joinText (parts : List String) : (parts.map Json.string).mapM joinText = .ok parts := by
  rw [mapM_eq_ok_iff, List.map_map]
  rfl

/-- The parts of the input, for a separator that is the one output of the argument. -/
theorem Expr.eval_split {arg : Expr} (h : arg.eval (.string s) = .ok [.string sep]) :
    (Expr.apply (.pairing .split) arg).eval (.string s) =
      .ok [.array ((splitText s sep).map .string)] := by
  rw [Expr.eval, h]
  rfl

/-- Strings with a separator between them that is the one output of the argument. -/
theorem Expr.eval_join {arg : Expr} {parts : List String}
    (h : arg.eval (.array (parts.map .string)) = .ok [.string sep]) :
    (Expr.apply (.pairing .join) arg).eval (.array (parts.map .string)) =
      .ok [.string (sep.intercalate parts)] := by
  have hjoin : Pairing.join.eval (.array (parts.map .string)) (.string sep) =
      .ok (.string (sep.intercalate parts)) := by
    rw [Pairing.eval, itemsFor, expectString]
    simp only [bind, Except.bind, mapM_joinText, pure, Except.pure]
  simp [Expr.eval, Pairing.checkInput, itemsFor, Except.map, h, hjoin, bind, Except.bind, pure,
    Except.pure]

/-- **Splitting and joining gives the text back.** The text of the filter is read as the filter, and
between the two stands the array of the parts. If neither the text nor the separator is empty, these
are the parts between the separators, and none of them holds the separator. -/
theorem Pairing.splits_and_joins_back (s sep : String) :
    let split : Expr := .apply (.pairing .split) (.literal (.string sep))
    let join : Expr := .apply (.pairing .join) (.literal (.string sep))
    (Expr.pipe split join).eval (.string s) = .ok [.string s] ∧
      Expr.parse (Expr.pipe split join).text = .ok (.pipe split join) ∧
      split.eval (.string s) = .ok [.array ((splitText s sep).map .string)] ∧
      (s ≠ "" → sep ≠ "" →
        SplitBy sep.toList s.toList ((splitText s sep).map String.toList) ∧
        ∀ part ∈ splitText s sep, ¬ sep.toList <:+: part.toList) := by
  intro split join
  have hsplit : split.eval (.string s) = .ok [.array ((splitText s sep).map .string)] :=
    Expr.eval_split rfl
  have hjoin : join.eval (.array ((splitText s sep).map .string)) = .ok [.string s] := by
    rw [Expr.eval_join rfl, intercalate_splitText]
  refine ⟨?_, Expr.parse_text ⟨trivial, trivial⟩, hsplit, fun hs hsep => ?_⟩
  · rw [Expr.eval, hsplit]
    exact (eachOutput_singleton _).trans hjoin
  · have hparts := splitBy_splitText hs hsep
    exact ⟨hparts, fun part hpart => hparts.not_infix _ (List.mem_map_of_mem hpart)⟩

/-- A separator that overlaps itself: it is found at the start, and not inside of what it took. -/
theorem Pairing.overlapping_splits_and_joins_back :
    let split : Expr := .apply (.pairing .split) (.literal (.string "aba"))
    let join : Expr := .apply (.pairing .join) (.literal (.string "aba"))
    "ababac" ≠ "" ∧ "aba" ≠ "" ∧
      split.eval (.string "ababac") = .ok [.array [.string "", .string "bac"]] ∧
      (Expr.pipe split join).eval (.string "ababac") = .ok [.string "ababac"] ∧
      Expr.parse "split(\"aba\") | join(\"aba\")" = .ok (.pipe split join) ∧
      SplitBy ['a', 'b', 'a'] ['a', 'b', 'a', 'b', 'a', 'c'] [[], ['b', 'a', 'c']] ∧
      ¬ ['a', 'b', 'a'] <:+: ['b', 'a', 'c'] := by
  intro split join
  obtain ⟨hback, hparse, hsplit, hparts⟩ := splits_and_joins_back "ababac" "aba"
  have htext : splitText "ababac" "aba" = ["", "bac"] := by decide +kernel
  rw [htext] at hsplit hparts
  obtain ⟨hby, habsent⟩ := hparts (by decide) (by decide)
  exact ⟨by decide, by decide, hsplit, hback, hparse, hby, habsent "bac" (by simp)⟩

end Distill.Filter

import Distill.Proofs.Filter.Equivalence
import Distill.Proofs.Filter.Parentheses
import Distill.Proofs.Filter.RoundTrip

/-!
# Selectors behind an expression and pipes

Selectors that are written behind an expression are read as pipes that group to the left, and the
input itself at their start is dropped; between `|` pipes group to the right. No result tells the
two apart.

## Main definitions

* `Filter.Expr.pipedWith` — pipes that group to the right.
* `Filter.writtenBehind` — the text of selectors behind a text.

## Main statements

* `Filter.Expr.parse_juxtaposed`, `Expr.parse_pipedWith` — how the two texts are read.
* `Filter.Expr.equivalent_foldl_pipeInto` — the two groupings are equivalent.
* `Filter.Expr.laws` — the laws of pipes and commas, and the congruence.
-/

namespace Distill.Filter

namespace Expr

/-- An expression with others behind it, by pipes that group to the right. -/
def pipedWith : Expr → List Expr → Expr
  | e, [] => e
  | e, s :: ss => .pipe e (pipedWith s ss)

section Grouping

variable {a b : Expr}

/-- The input itself may be dropped at the start of a pipe. -/
theorem equivalent_pipeInto (e s : Expr) : Equivalent (e.pipeInto s) (.pipe e s) := by
  cases e with
  | identity => exact (Equivalent.identity_pipe s).symm
  | _ => exact .refl _

theorem Equivalent.pipedWith (h : a.Equivalent b) (ss : List Expr) :
    Equivalent (a.pipedWith ss) (b.pipedWith ss) := by
  cases ss with
  | nil => exact h
  | cons s ss => exact h.pipe (.refl _)

theorem equivalent_pipedWith_pipe (e s : Expr) (ss : List Expr) :
    Equivalent ((Expr.pipe e s).pipedWith ss) (e.pipedWith (s :: ss)) := by
  cases ss with
  | nil => exact .refl _
  | cons t ss => exact .pipe_assoc e s (t.pipedWith ss)

/-- **Pipes that group to the left, without the input itself at their start, are pipes that group
to the right.** -/
theorem equivalent_foldl_pipeInto (e : Expr) (ss : List Expr) :
    Equivalent (ss.foldl pipeInto e) (e.pipedWith ss) := by
  induction ss generalizing e with
  | nil => exact .refl e
  | cons s ss ih =>
      have hstep := (equivalent_pipeInto e s).pipedWith ss
      exact ((ih (e.pipeInto s)).trans hstep).trans (equivalent_pipedWith_pipe e s ss)

end Grouping

end Expr

/-! ## Texts -/

/-- A text with those of expressions behind it. -/
def writtenBehind (separator text : String) (ss : List Expr) : String :=
  ss.foldl (fun text s => text ++ separator ++ s.text) text

theorem toList_writtenBehind (separator text : String) (ss : List Expr) :
    (writtenBehind separator text ss).toList =
      text.toList ++ ss.flatMap fun s => separator.toList ++ s.chars .pipe := by
  induction ss generalizing text with
  | nil => simp [writtenBehind]
  | cons s ss ih =>
      have hcons : writtenBehind separator text (s :: ss) =
          writtenBehind separator (text ++ separator ++ s.text) ss := rfl
      simp [hcons, ih, String.toList_append, Expr.text]

theorem toList_parens (s : String) : ("(" ++ s ++ ")").toList = parenthesised s := by
  simp [parenthesised, String.toList_append]

namespace Expr

section Texts

variable {s : String} {e : Expr} {ss : List Expr}

theorem IsSelector.exists_chars_eq {r : Rank} (h : e.IsSelector) :
    ∃ cs, e.chars r = '.' :: cs := by
  cases e with
  | field | index | iterate => exact ⟨_, rfl⟩
  | _ => exact h.elim

/-- Selectors one behind the other without spaces. -/
theorem exists_juxtaposed_tokens (hss : ∀ s ∈ ss, s.IsSelector) :
    ∃ us, Lexes (ss.flatMap fun s => s.chars .pipe) us ∧
      ∀ ⦃e e' : Expr⦄ ⦃rest : List Token⦄,
        Reads (.suffixed (ss.foldl pipeInto e)) [.finish] e' rest →
          Reads (.suffixed e) us e' rest := by
  induction ss with
  | nil => exact ⟨[.finish], .finish, fun _ _ _ h => h⟩
  | cons s ss ih =>
      obtain ⟨us, hus, hreads⟩ := ih fun x hx => hss x (List.mem_cons_of_mem s hx)
      obtain ⟨vs, hselector, hlexes⟩ := (hss s List.mem_cons_self).exists_tokens .pipe
      have hhead : ∀ c ∈ (ss.flatMap fun s => s.chars .pipe).head?, isWordChar c = false := by
        cases ss with
        | nil => simp
        | cons t ss =>
            obtain ⟨cs, hcs⟩ := (hss t (by simp)).exists_chars_eq (r := .pipe)
            rw [List.flatMap_cons, hcs]
            rintro _ ⟨⟩
            decide
      refine ⟨vs ++ us, ?_, fun e e' rest h => .select (hselector us) (hreads h)⟩
      rw [List.flatMap_cons]
      exact hlexes hhead hus

/-- **Selectors behind a text in parentheses** are read as pipes that group to the left. -/
theorem parse_juxtaposed (h : Expr.parse s = .ok e) (hss : ∀ x ∈ ss, x.IsSelector) :
    Expr.parse (writtenBehind "" ("(" ++ s ++ ")") ss) = .ok (ss.foldl pipeInto e) := by
  obtain ⟨us, hus⟩ := Expr.exists_reads_parenthesised h
  obtain ⟨vs, hvs, hselectors⟩ := exists_juxtaposed_tokens hss
  obtain ⟨hlexes, hprimary⟩ := hus hvs
  have hstarts : Starts .suffix (us ++ vs) (ss.foldl pipeInto e) [.finish] :=
    fun _ _ hgoes => .suffix hprimary (hselectors hgoes.suffixed_of_suffix)
  have hwhole : Starts .pipe (us ++ vs) (ss.foldl pipeInto e) [.finish] :=
    hstarts.lower (by decide)
  refine hwhole.parse ?_
  rw [toList_writtenBehind, toList_parens]
  exact hlexes

/-- Pipes between the texts of selectors. -/
theorem exists_piped_tokens (hss : ∀ s ∈ ss, s.IsSelector) :
    ∃ ts, Lexes (ss.flatMap fun s => " | ".toList ++ s.chars .pipe) ts ∧
      ∀ ⦃e : Expr⦄ ⦃us : List Token⦄, Starts .comma us e ts →
        Starts .pipe us (e.pipedWith ss) [.finish] := by
  induction ss with
  | nil => exact ⟨[.finish], .finish, fun _ _ h => h.lower (by decide)⟩
  | cons s ss ih =>
      obtain ⟨ts, hts, hstarts⟩ := ih fun x hx => hss x (List.mem_cons_of_mem s hx)
      obtain ⟨vs, hselector, hlexes⟩ := (hss s List.mem_cons_self).exists_tokens .pipe
      have hhead : ∀ c ∈ (ss.flatMap fun s => " | ".toList ++ s.chars .pipe).head?,
          isWordChar c = false := by
        cases ss with
        | nil => simp
        | cons t ss =>
            rintro _ ⟨⟩
            decide
      have hselected : Starts .comma (vs ++ ts) s ts :=
        (Starts.of_primary fun _ => .selector (hselector ts)).lower (by decide)
      refine ⟨.pipe :: (vs ++ ts), ?_, fun e us h => h.pipe (hstarts hselected)⟩
      exact Lexes.spaced (.symbol (c := '|') rfl []) (hlexes hhead hts)

/-- **Selectors behind pipes** are read as pipes that group to the right. -/
theorem parse_pipedWith (h : Expr.parse s = .ok e) (hss : ∀ x ∈ ss, x.IsSelector) :
    Expr.parse (writtenBehind " | " ("(" ++ s ++ ")") ss) = .ok (e.pipedWith ss) := by
  obtain ⟨us, hus⟩ := Expr.exists_reads_parenthesised h
  obtain ⟨ts, hts, hpiped⟩ := exists_piped_tokens hss
  obtain ⟨hlexes, hprimary⟩ := hus hts
  have hstarts : Starts .comma (us ++ ts) e ts :=
    (Starts.of_primary fun _ => hprimary).lower (by decide)
  refine (hpiped hstarts).parse ?_
  rw [toList_writtenBehind, toList_parens]
  exact hlexes

end Texts

/-- **The laws of filters.** Pipes and commas may be grouped either way, the input itself may be
dropped, a pipe out of a comma is a comma of pipes, and a filter may be replaced by an equivalent
one wherever it stands. So it makes no difference in any place that the reader drops the input
itself, nor that selectors behind a filter are grouped to the left and those behind pipes to the
right. -/
theorem laws :
    (∀ a b c : Expr, Equivalent (.pipe (.pipe a b) c) (.pipe a (.pipe b c))) ∧
    (∀ a : Expr, Equivalent (.pipe .identity a) a ∧ Equivalent (.pipe a .identity) a) ∧
    (∀ a b c : Expr, Equivalent (.comma (.comma a b) c) (.comma a (.comma b c))) ∧
    (∀ a b c : Expr, Equivalent (.pipe (.comma a b) c) (.comma (.pipe a c) (.pipe b c))) ∧
    (∀ a b : Expr, a.Equivalent b → ∀ C : Context, (C.fill a).Equivalent (C.fill b)) ∧
    (∀ (e s : Expr) (C : Context), (C.fill (e.pipeInto s)).Equivalent (C.fill (.pipe e s))) ∧
    (∀ (e : Expr) (ss : List Expr) (C : Context),
      (C.fill (ss.foldl pipeInto e)).Equivalent (C.fill (e.pipedWith ss))) ∧
    ∀ (s : String) (e : Expr) (ss : List Expr), Expr.parse s = .ok e → (∀ x ∈ ss, x.IsSelector) →
      Expr.parse (writtenBehind "" ("(" ++ s ++ ")") ss) = .ok (ss.foldl pipeInto e) ∧
      Expr.parse (writtenBehind " | " ("(" ++ s ++ ")") ss) = .ok (e.pipedWith ss) := by
  refine ⟨.pipe_assoc, fun a => ⟨.identity_pipe a, .pipe_identity a⟩, .comma_assoc, .comma_pipe,
    ?_, ?_, ?_, ?_⟩
  · exact fun a b h C => h.fill C
  · exact fun e s C => (equivalent_pipeInto e s).fill C
  · exact fun e ss C => (equivalent_foldl_pipeInto e ss).fill C
  · exact fun s e ss h hss => ⟨parse_juxtaposed h hss, parse_pipedWith h hss⟩

/-- The items of a field, with the input itself in front, as they stand and behind pipes. -/
theorem laws_of_items :
    Expr.parse "(.).a.[]" = .ok (.pipe (.field "a") .iterate) ∧
    Expr.parse "(.) | .a | .[]" = .ok (.pipe .identity (.pipe (.field "a") .iterate)) ∧
    Equivalent (.apply .select (.collect (.pipe (.field "a") .iterate)))
      (.apply .select (.collect (.pipe .identity (.pipe (.field "a") .iterate)))) := by
  obtain ⟨-, -, -, -, -, -, hgroup, htexts⟩ := laws
  have hselectors : ∀ x ∈ [Expr.field "a", .iterate], x.IsSelector := by
    simp [IsSelector]
  obtain ⟨hleft, hright⟩ := htexts "." .identity [.field "a", .iterate] written_identity.parse hselectors
  exact ⟨hleft, hright, hgroup .identity [.field "a", .iterate] [.collect, .apply .select]⟩

end Expr

end Distill.Filter

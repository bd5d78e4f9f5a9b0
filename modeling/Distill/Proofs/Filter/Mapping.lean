import Distill.Proofs.Filter.Equivalence
import Distill.Proofs.Filter.Parentheses
import Distill.Proofs.Filter.RoundTrip

/-!
# Mapping

A filter is mapped over the items of an array, and what it makes of all items can be collected with
a pipe in brackets. The two are one and the same for every input but an object: a pipe takes the
values of its fields one after another, and mapping refuses it.

## Main definitions

* `Filter.Expr.collected` — what a filter makes of all items, in brackets.

## Main statements

* `Filter.Expr.parse_applied`, `Expr.parse_collected` — how the two texts are read.
* `Filter.Expr.eval_map`, `Expr.eval_collected` — the items that are taken, and what is made of them.
* `Filter.Expr.maps_as_collected_unless_object` — for which inputs the two agree.
-/

namespace Distill.Filter

open Json (Kind)

namespace Expr

/-- The array of what a filter makes of all items, or of the values of all fields. -/
def collected (f : Expr) : Expr := .collect (.pipe .iterate f)

/-! ## Texts -/

section Texts

variable {s : String} {e : Expr}

/-- **A name with an accepted text in parentheses** is read as the function with the argument. -/
theorem parse_applied (f : Unary) (h : Expr.parse s = .ok e) :
    Expr.parse (f.name ++ "(" ++ s ++ ")") = .ok (.apply f e) := by
  obtain ⟨us, hus⟩ := exists_reads_closed h
  obtain ⟨hlexes, hreads⟩ := hus (c := ')') rfl (.inl rfl) .finish
  have hopen : Lexes ('(' :: (s.toList ++ [')'])) (.leftParen :: (us ++ [.rightParen, .finish])) :=
    .token (.symbol rfl _) hlexes
  have hname := spells_token f.readsToken_name (parted_cons (by decide) _) hopen
  have hstarts : Starts .suffix (.identifier f.name :: .leftParen :: (us ++ [.rightParen, .finish]))
      (.apply f e) [.finish] := .of_primary fun _ => .apply hreads (f.call_name e)
  exact (hstarts.lower (by decide)).parse (by simpa [String.toList_append] using hname)

/-- **An accepted text behind all items, in brackets,** is read as what it makes of them. -/
theorem parse_collected (h : Expr.parse s = .ok e) :
    Expr.parse ("[.[] | " ++ s ++ "]") = .ok (collected e) := by
  obtain ⟨us, hus⟩ := exists_reads_closed h
  obtain ⟨hlexes, hreads⟩ := hus (c := ']') rfl (.inr rfl) .finish
  obtain ⟨vs, hselector, hitems⟩ := IsSelector.exists_tokens (e := .iterate) trivial .pipe
  have hpiped : Lexes (".[]".toList ++ " | ".toList ++ (s.toList ++ [']']))
      (vs ++ .pipe :: (us ++ [.rightBracket, .finish])) :=
    hitems (by rintro _ ⟨⟩; decide) (.spaced (.symbol (c := '|') rfl []) hlexes)
  have hleft : Starts .comma (vs ++ .pipe :: (us ++ [.rightBracket, .finish])) .iterate
      (.pipe :: (us ++ [.rightBracket, .finish])) :=
    (Starts.of_primary fun _ => .selector (hselector _)).lower (by decide)
  have hinside : Reads (.whole .pipe) (vs ++ .pipe :: (us ++ [.rightBracket, .finish]))
      (.pipe .iterate e) [.rightBracket, .finish] :=
    .pipe (hleft.reads (.of_reach rfl (by decide) _)) hreads
  have hstarts : Starts .suffix (.leftBracket :: (vs ++ .pipe :: (us ++ [.rightBracket, .finish])))
      (collected e) [.finish] :=
    .of_primary fun _ => .collect (hinside.ne_rightBracket rfl) hinside
  have hopen := Lexes.token (.symbol (c := '[') rfl _) hpiped
  exact (hstarts.lower (by decide)).parse (by simpa [String.toList_append] using hopen)

end Texts

/-! ## Outputs -/

section Outputs

variable {v : Json} (f : Expr)

/-- The array of what a filter makes of some values. -/
def collectFrom (items : List Json) : Outputs := do
  let ws ← eachOutput f.eval items
  return [.array ws]

theorem eval_map (v : Json) :
    (Expr.apply .map f).eval v = itemsFor .notIterable v >>= f.collectFrom := rfl

theorem eval_collected (v : Json) :
    (collected f).eval v = Expr.iterate.eval v >>= f.collectFrom :=
  bind_assoc (Expr.iterate.eval v) (eachOutput f.eval) fun ws => pure [Json.array ws]

/-- Objects apart, all items are those that a function takes. -/
theorem eval_iterate_of_kind_ne (h : v.kind ≠ .object) :
    Expr.iterate.eval v = itemsFor .notIterable v := by
  cases v with
  | object fields => exact absurd rfl h
  | _ => rfl

theorem itemsFor_of_kind_eq_object {fault : Kind → EvalError} (h : v.kind = .object) :
    itemsFor fault v = .error (fault .object) := by
  cases v with
  | object fields => rfl
  | _ => cases h

theorem eval_map_of_kind_ne (h : v.kind ≠ .object) :
    (Expr.apply .map f).eval v = (collected f).eval v := by
  rw [eval_map, eval_collected, eval_iterate_of_kind_ne h]

theorem eval_map_of_kind_eq_object (h : v.kind = .object) :
    (Expr.apply .map f).eval v = .error (.notIterable .object) := by
  rw [eval_map, itemsFor_of_kind_eq_object h]
  rfl

end Outputs

/-- **Mapping is collecting what the filter makes of all items, unless the input is an object.** An
object is refused whatever the filter is, so that the two agree exactly if the input is no object or
the filter fails for one of its values. Collecting gives one array, of the outputs for the items one
after another. The texts of the two are those of the filter between `map(` and `)`, and between
`[.[] | ` and `]`. -/
theorem maps_as_collected_unless_object (f : Expr) (v : Json) :
    (v.kind ≠ .object → (Expr.apply .map f).eval v = (collected f).eval v) ∧
      (v.kind = .object → (Expr.apply .map f).eval v = .error (.notIterable .object)) ∧
      (Agree ((Expr.apply .map f).eval v) ((collected f).eval v) ↔
        v.kind ≠ .object ∨ ∃ e, (collected f).eval v = .error e) ∧
      (∀ vs, (collected f).eval v = .ok vs ↔
        ∃ items ws, Expr.iterate.eval v = .ok items ∧ eachOutput f.eval items = .ok ws ∧
          vs = [.array ws]) ∧
      ∀ s, Expr.parse s = .ok f →
        Expr.parse ("map(" ++ s ++ ")") = .ok (.apply .map f) ∧
        Expr.parse ("[.[] | " ++ s ++ "]") = .ok (collected f) := by
  refine ⟨eval_map_of_kind_ne f, eval_map_of_kind_eq_object f, ?_, fun vs => ?_,
    fun s hs => ⟨parse_applied .map hs, parse_collected hs⟩⟩
  · by_cases hkind : v.kind = .object
    · rw [eval_map_of_kind_eq_object f hkind]
      cases (collected f).eval v <;> simp [Agree, hkind]
    · rw [eval_map_of_kind_ne f hkind]
      exact iff_of_true (.refl _) (.inl hkind)
  · rw [eval_collected, bind_eq_ok_iff]
    refine exists_congr fun items => ?_
    rw [collectFrom, bind_eq_ok_iff, ← exists_and_left]
    simp only [pure, Except.pure, Except.ok.injEq, eq_comm]

/-- An item without outputs, and one with two. -/
theorem lengths_map_as_collected :
    let f : Expr := .comma (.call .values) (.call .length)
    let v : Json := .array [.null, .array [.null], .array []]
    Expr.parse "map(values , length)" = .ok (.apply .map f) ∧
      Expr.parse "[.[] | values , length]" = .ok (collected f) ∧ v.kind ≠ .object ∧
      (Expr.apply .map f).eval v = (collected f).eval v ∧
      (collected f).eval v =
        .ok [.array [.ofNat 0, .array [.null], .ofNat 1, .array [], .ofNat 0]] := by
  intro f v
  obtain ⟨heval, -, -, -, htexts⟩ := maps_as_collected_unless_object f v
  have hf : Expr.parse "values , length" = .ok f := parse_text (e := f) ⟨trivial, trivial⟩
  obtain ⟨hmap, hcollected⟩ := htexts _ hf
  have hkind : v.kind ≠ .object := by decide
  exact ⟨hmap, hcollected, hkind, heval hkind, rfl⟩

/-- **The value of a field is collected and not mapped.** -/
theorem field_collected_not_mapped :
    let v : Json := .object [("a", .ofInt 1)]
    (collected .identity).eval v = .ok [.array [.ofInt 1]] ∧
      (Expr.apply .map .identity).eval v = .error (.notIterable .object) ∧
      ¬ Agree ((Expr.apply .map .identity).eval v) ((collected .identity).eval v) :=
  ⟨rfl, rfl, id⟩

end Expr

end Distill.Filter

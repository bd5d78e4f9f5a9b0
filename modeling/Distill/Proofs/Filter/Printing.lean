import Distill.Proofs.Filter.Grammar
import Distill.Proofs.Filter.Lexing
import Distill.Proofs.Number.Integral

/-!
# Filters as texts

The text of an expression has parentheses only where the levels of precedence require them.
Operators stand between spaces, and quotes and backslashes in strings are escaped.

## Main definitions

* `Filter.Expr.chars`, `Filter.Expr.text` — the text of an expression.
* `Filter.Expr.Writable` — expressions whose numbers can be written.
* `Filter.Spells` — characters that stand for tokens.

## Main statements

* `Filter.spells_string`, `spells_word`, `exists_spells_number` — the texts of leaves.
* `Filter.Expr.IsSelector.exists_tokens` — the texts of selectors.
-/

namespace Distill.Filter

/-! ## The text of an expression -/

/-- A string with quotes and backslashes escaped. -/
def escaped : List Char → List Char
  | [] => []
  | c :: cs => if c = '"' ∨ c = '\\' then '\\' :: c :: escaped cs else c :: escaped cs

/-- A string in quotes. -/
def quotedChars (s : String) : List Char := '"' :: (escaped s.toList ++ ['"'])

/-- Whether characters make a word. -/
def isWord : List Char → Bool
  | [] => false
  | c :: cs => isWordStart c && cs.all isWordChar

/-- A key as a selector, in quotes unless it is a word. -/
def keyChars (name : String) : List Char :=
  '.' :: if isWord name.toList then name.toList else quotedChars name

/-- The digits of an integer. -/
def intChars (i : Int) : List Char :=
  if i < 0 then '-' :: Nat.toDigits 10 i.natAbs else Nat.toDigits 10 i.natAbs

/-- A literal. Of arrays only the empty one is written, and no objects or doubles. -/
def literalChars : Json → List Char
  | .null => "null".toList
  | .bool b => if b then "true".toList else "false".toList
  | .string s => quotedChars s
  | .number (.int i) => intChars i
  | _ => ['[', ']']

/-- A comparison. -/
def Comparison.chars : Comparison → List Char
  | eq => ['=', '=']
  | ne => ['!', '=']
  | lt => ['<']
  | le => ['<', '=']
  | gt => ['>']
  | ge => ['>', '=']

/-- An operator between its operands. -/
def infixChars (left operator right : List Char) : List Char :=
  left ++ ' ' :: (operator ++ ' ' :: right)

/-- An expression of a level where one of another level is wanted. -/
def enclosed (wanted own : Rank) (cs : List Char) : List Char :=
  if own.level < wanted.level then '(' :: (cs ++ [')']) else cs

namespace Expr

/-- The characters of an expression where one of a level of precedence is wanted. -/
def chars : Rank → Expr → List Char
  | _, identity => ['.']
  | _, field name => keyChars name
  | _, index i => '.' :: '[' :: (intChars i ++ [']'])
  | _, iterate => ['.', '[', ']']
  | r, pipe left right =>
    enclosed r .pipe (infixChars (left.chars .comma) ['|'] (right.chars .pipe))
  | r, comma left right =>
    enclosed r .comma (infixChars (left.chars .comma) [','] (right.chars .or))
  | _, literal v => literalChars v
  | _, collect inner => '[' :: (inner.chars .pipe ++ [']'])
  | r, compare op left right =>
    enclosed r .comparison (infixChars (left.chars .suffix) op.chars (right.chars .suffix))
  | r, and left right =>
    enclosed r .and (infixChars (left.chars .and) "and".toList (right.chars .comparison))
  | r, or left right => enclosed r .or (infixChars (left.chars .or) "or".toList (right.chars .and))
  | _, attempt inner => inner.chars .suffix ++ ['?']
  | _, call f => f.name.toList
  | _, apply f arg => f.name.toList ++ '(' :: (arg.chars .pipe ++ [')'])

/-- The text of an expression. -/
def text (e : Expr) : String := String.ofList (e.chars .pipe)

/-- Literals that can be written: no doubles, no integers of `9 · 10 ^ 15` or more in size, and
of arrays and objects the empty array only. -/
def IsWritableLiteral : Json → Prop
  | .null | .bool _ | .string _ => True
  | .number (.int i) => i.natAbs < 9 * 10 ^ 15
  | .array items => items = []
  | _ => False

/-- Expressions whose literals can be written and whose places have at most 53 bits. -/
def Writable : Expr → Prop
  | identity | field _ | iterate | call _ => True
  | index i => i.natAbs < 2 ^ 53
  | literal v => IsWritableLiteral v
  | pipe left right | comma left right | compare _ left right | and left right | or left right =>
    left.Writable ∧ right.Writable
  | collect inner | attempt inner | apply _ inner => inner.Writable

/-- A key, a place of at most 53 bits, or all items. -/
def IsSelector : Expr → Prop
  | field _ | iterate => True
  | index i => i.natAbs < 2 ^ 53
  | _ => False

end Expr

/-! ## The tokens of leaves -/

/-- The characters stand for the tokens, whatever follows them, if it does not prolong them. -/
def Spells (cs : List Char) (us : List Token) : Prop :=
  ∀ ⦃rest : List Char⦄ ⦃ts : List Token⦄, Parted rest → Lexes rest ts →
    Lexes (cs ++ rest) (us ++ ts)

section Spells

variable {c : Char} {cs rest : List Char} {t : Token} {us ts : List Token}

theorem spells_token (h : ReadsToken cs t []) : Spells cs [t] :=
  fun _ _ hrest hlexes => .token (h.append hrest) hlexes

/-- A token of one character is not prolonged by what follows it. -/
theorem spells_symbol_cons (h : symbol? c = some t) (hspells : Spells cs us) :
    Spells (c :: cs) (t :: us) :=
  fun _ _ hrest hlexes => .token (.symbol h _) (hspells hrest hlexes)

/-! ### Strings -/

theorem readsString_escaped (s rest : List Char) :
    ReadsString (escaped s ++ '"' :: rest) s rest := by
  induction s with
  | nil => exact .close rest
  | cons c s ih =>
      rw [escaped]
      split
      · next h =>
        have hknown : escape? c = some c := by rcases h with rfl | rfl <;> rfl
        exact .escape hknown ih
      · next h => exact .plain (fun hc => h (.inl hc)) (fun hc => h (.inr hc)) ih

theorem readsToken_quoted (s : String) (rest : List Char) :
    ReadsToken (quotedChars s ++ rest) (.string s) rest := by
  have hread := ReadsToken.string (readsString_escaped s.toList rest)
  rw [String.ofList_toList] at hread
  simpa [quotedChars] using hread

/-! ### Words -/

theorem all_of_isWord (h : isWord cs = true) : cs.all isWordChar = true := by
  cases cs with
  | nil => exact absurd h Bool.false_ne_true
  | cons c cs =>
      rw [isWord, Bool.and_eq_true] at h
      rw [List.all_cons, isWordChar_of_isWordStart h.1, h.2, Bool.and_self]

theorem takeWhile_of_all {p : Char → Bool} (h : cs.all p = true) : cs.takeWhile p = cs :=
  List.takeWhile_eq_self_iff.mpr (List.all_eq_true.mp h)

theorem dropWhile_of_all {p : Char → Bool} (h : cs.all p = true) : cs.dropWhile p = [] :=
  List.dropWhile_eq_nil_iff.mpr (List.all_eq_true.mp h)

theorem readsToken_word (h : isWord cs = true) : ReadsToken cs (wordToken cs) [] := by
  have hall := all_of_isWord h
  cases cs with
  | nil => exact absurd h Bool.false_ne_true
  | cons c cs =>
      rw [isWord, Bool.and_eq_true] at h
      have hrule := ReadsToken.word h.1 cs
      rwa [takeWhile_of_all hall, dropWhile_of_all hall] at hrule

/-- A word behind a dot ends where a character comes that is not one of a word. -/
theorem readsToken_field (h : isWord cs = true) (hrest : ∀ c ∈ rest.head?, isWordChar c = false) :
    ReadsToken ('.' :: (cs ++ rest)) (.field (String.ofList cs)) rest := by
  have hall := all_of_isWord h
  have htake := takeWhile_append_of_head hrest cs
  have hdrop := dropWhile_append_of_head hrest cs
  rw [takeWhile_of_all hall] at htake
  rw [dropWhile_of_all hall, List.nil_append] at hdrop
  cases cs with
  | nil => exact absurd h Bool.false_ne_true
  | cons c cs =>
      rw [isWord, Bool.and_eq_true] at h
      have hrule := ReadsToken.field h.1 (cs ++ rest)
      rwa [← List.cons_append, htake, hdrop] at hrule

/-! ### Numbers -/

theorem readNumber_digits (h : cs.all Char.isDigit = true) :
    readNumber cs = (.number (.ofDecimal false ⟨digitsValue cs, 0⟩), []) := by
  simp only [readNumber, takeWhile_of_all h, dropWhile_of_all h]

/-- The digits of a natural of at most 53 bits. -/
theorem exists_readsToken_digits {n : Nat} (h : n < 2 ^ 53) :
    ∃ x : Double, x.IsNat n ∧ ReadsToken (Nat.toDigits 10 n) (.number (.finite x)) [] := by
  obtain ⟨x, hx, hnat⟩ := Double.exists_ofDecimal h
  have hall : (Nat.toDigits 10 n).all Char.isDigit = true := List.all_eq_true.mpr fun c hc =>
    Nat.isDigit_of_mem_toDigits (by decide) (by decide) hc
  have hread : readNumber (Nat.toDigits 10 n) = (.number (.finite x), []) := by
    rw [readNumber_digits hall, digitsValue_toDigits, Binary64.ofDecimal, hx]
  refine ⟨x, hnat, ?_⟩
  cases hdigits : Nat.toDigits 10 n with
  | nil => exact absurd hdigits Nat.toDigits_ne_nil
  | cons c cs =>
      rw [hdigits] at hall hread
      exact .number (List.all_eq_true.mp hall c List.mem_cons_self) hread

theorem place_of_isNat {n : Nat} {x : Double} (hx : x.IsNat n) (h : n < 2 ^ 53) :
    place? (.finite x) = some (n : Int) := by
  have hlt : x.magnitude < Nat.pow 2 63 * Double.unitsPerOne :=
    hx.magnitude_lt (h.trans (by decide))
  rw [place?, if_pos ⟨hx.isIntegral, hlt⟩, hx.truncate]

theorem literalNumber_of_isNat {n : Nat} {x : Double} (hx : x.IsNat n) (h : n < 9 * 10 ^ 15) :
    literalNumber (.finite x) = .ofInt n := by
  have hlt : x.magnitude < 9000000000000000 * Double.unitsPerOne := hx.magnitude_lt h
  rw [literalNumber, if_pos ⟨hx.isIntegral, hlt⟩, hx.truncate]

theorem literalNumber_of_isNat_negate {n : Nat} {x : Double} (hx : x.IsNat n)
    (h : n < 9 * 10 ^ 15) : literalNumber (.finite x.negate) = .ofInt (-n) := by
  have hlt : x.magnitude < 9000000000000000 * Double.unitsPerOne := hx.magnitude_lt h
  have hpos : x.negate.isIntegral = true ∧
      x.negate.magnitude < 9000000000000000 * Double.unitsPerOne := ⟨hx.isIntegral, hlt⟩
  rw [literalNumber, if_pos hpos, hx.truncate_negate]

/-- An integer in brackets, as a place. -/
theorem exists_spells_place {i : Int} (h : i.natAbs < 2 ^ 53) :
    ∃ us, Spells (intChars i) us ∧
      ∀ ts, ReadsBracket (us ++ .rightBracket :: ts) (.index i) ts := by
  obtain ⟨x, hx, hread⟩ := exists_readsToken_digits h
  have hplace := place_of_isNat hx h
  have hspells := spells_token hread
  rw [intChars]
  split
  · next hneg =>
    have hi : i = -(i.natAbs : Int) := by omega
    refine ⟨[.minus, .number (.finite x)], spells_symbol_cons rfl hspells, fun ts => ?_⟩
    rw [hi]
    exact .negative hplace ts
  · next hneg =>
    have hi : i = (i.natAbs : Int) := by omega
    refine ⟨[.number (.finite x)], hspells, fun ts => ?_⟩
    rw [hi]
    exact .place hplace ts

/-- An integer as a literal. -/
theorem exists_spells_number {i : Int} (h : i.natAbs < 9 * 10 ^ 15) :
    ∃ us, Spells (intChars i) us ∧
      ∀ ts, Reads .primary (us ++ ts) (.literal (.ofInt i)) ts := by
  obtain ⟨x, hx, hread⟩ := exists_readsToken_digits (h.trans (by decide))
  have hspells := spells_token hread
  rw [intChars]
  split
  · next hneg =>
    have hi : i = -(i.natAbs : Int) := by omega
    refine ⟨[.minus, .number (.finite x)], spells_symbol_cons rfl hspells, fun ts => ?_⟩
    rw [hi, ← literalNumber_of_isNat_negate hx h]
    exact .negative (.finite x) ts
  · next hneg =>
    have hi : i = (i.natAbs : Int) := by omega
    refine ⟨[.number (.finite x)], hspells, fun ts => ?_⟩
    rw [hi, ← literalNumber_of_isNat hx h]
    exact .literal rfl ts

end Spells

/-! ## Selectors -/

/-- The tokens of a selector. Another selector may stand behind it without a space. -/
theorem Expr.IsSelector.exists_tokens {e : Expr} (h : e.IsSelector) (r : Rank) :
    ∃ us, (∀ ts, ReadsSelector (us ++ ts) e ts) ∧
      ∀ ⦃rest : List Char⦄ ⦃ts : List Token⦄, (∀ c ∈ rest.head?, isWordChar c = false) →
        Lexes rest ts → Lexes (e.chars r ++ rest) (us ++ ts) := by
  cases e with
  | field name =>
      by_cases hword : isWord name.toList = true
      · refine ⟨[.field name], fun ts => .word name ts, fun rest ts hrest hlexes => ?_⟩
        have hread := readsToken_field hword hrest
        rw [String.ofList_toList] at hread
        simp only [chars, keyChars, hword, if_true]
        exact .token hread hlexes
      · refine ⟨[.dot, .string name], fun ts => .quoted name ts, fun rest ts hrest hlexes => ?_⟩
        have hdot : ReadsToken ('.' :: (quotedChars name ++ rest)) .dot
            (quotedChars name ++ rest) := .dot (by rintro _ ⟨⟩; decide)
        simp only [chars, keyChars, hword]
        exact .token hdot (.token (readsToken_quoted name rest) hlexes)
  | index i =>
      obtain ⟨us, hspells, hreads⟩ := exists_spells_place h
      refine ⟨.dot :: .leftBracket :: (us ++ [.rightBracket]), fun ts => ?_,
        fun rest ts hrest hlexes => ?_⟩
      · have hinside := hreads ts
        simpa using ReadsSelector.bracket hinside
      · have hclose : Lexes (']' :: rest) (.rightBracket :: ts) := .token (.symbol rfl rest) hlexes
        have hinside := hspells (parted_cons (by decide) rest) hclose
        have hdot : ReadsToken ('.' :: '[' :: (intChars i ++ ']' :: rest)) .dot
            ('[' :: (intChars i ++ ']' :: rest)) := .dot (by rintro _ ⟨⟩; decide)
        simpa [chars] using Lexes.token hdot (.token (.symbol (c := '[') rfl _) hinside)
  | iterate =>
      refine ⟨[.dot, .leftBracket, .rightBracket], fun ts => .bracket (.iterate ts),
        fun rest ts hrest hlexes => ?_⟩
      have hdot : ReadsToken ('.' :: '[' :: ']' :: rest) .dot ('[' :: ']' :: rest) :=
        .dot (by rintro _ ⟨⟩; decide)
      exact .token hdot (.token (.symbol rfl _) (.token (.symbol rfl _) hlexes))
  | _ => exact h.elim

end Distill.Filter

import Distill.Proofs.Filter.Printing

/-!
# Tokens as they are written

A token can be written in many ways: the digits of a number with zeros in front of them or at their
end, the characters of a string as they are or by one of several escapes. Each of these ways is read
as the token.

## Main definitions

* `Filter.CharSpelling`, `Filter.Spelling` — the ways to write a character of a string and a token.
* `Filter.Token.Spellable` — the tokens that can be written.

## Main statements

* `Filter.Spelling.readsToken` — a token is read off each of its spellings.
* `Filter.exists_spelling_iff` — which tokens have a spelling.
-/

namespace Distill.Filter

/-! ## Spellings -/

/-- The ways to write a character inside a string: as it is, by a letter behind a backslash, or by
the four hexadecimal digits of its number. -/
inductive CharSpelling : Char → List Char → Prop
  | plain {c} (quote : c ≠ '"') (backslash : c ≠ '\\') : CharSpelling c [c]
  | escape {c d} (known : escape? d = some c) : CharSpelling c ['\\', d]
  | unicode {c ds} (four : ds.length = 4) (hex : ds.all isHexDigit = true)
      (value : hexValue ds = c.toNat) : CharSpelling c ('\\' :: 'u' :: ds)

/-- Tokens that are always written alike: all but numbers, strings and names. -/
def Token.isFixed : Token → Bool
  | number _ | string _ | field _ | identifier _ | finish => false
  | _ => true

/-- The ways to write a token. Messages show a token that is always written alike as it is
written. -/
inductive Spelling : Token → List Char → Prop
  | fixed {t} (fixed : t.isFixed = true) : Spelling t t.display.toList
  | field {name} (word : isWord name.toList = true) : Spelling (.field name) ('.' :: name.toList)
  | identifier {name} (word : isWord name.toList = true)
      (free : name ∉ ["null", "true", "false"]) : Spelling (.identifier name) name.toList
  | whole {ds : List Char} (ne : ds ≠ []) (digits : ds.all Char.isDigit = true) :
      Spelling (.number (.ofDecimal false ⟨digitsValue ds, 0⟩)) ds
  | fraction {ds places : List Char} (ne : ds ≠ []) (digits : ds.all Char.isDigit = true)
      (places_ne : places ≠ []) (decimals : places.all Char.isDigit = true) :
      Spelling (.number (.ofDecimal false ⟨digitsValue (ds ++ places), -places.length⟩))
        (ds ++ '.' :: places)
  | string {s parts} (chars : List.Forall₂ CharSpelling s.toList parts) :
      Spelling (.string s) ('"' :: (parts.flatten ++ ['"']))

section Spellings

variable {c : Char} {cs ds s rest : List Char} {t : Token} {parts : List (List Char)} {n : Nat}

/-! ### What is read off a spelling -/

theorem CharSpelling.readsString (h : CharSpelling c ds) (more : ReadsString cs s rest) :
    ReadsString (ds ++ cs) (c :: s) rest := by
  cases h with
  | plain quote backslash => exact .plain quote backslash more
  | escape known => exact .escape known more
  | unicode four hex value =>
      have hrule := ReadsString.unicode four hex (value ▸ c.valid) more
      rwa [value, Char.ofNat_toNat] at hrule

theorem readsString_of_charSpelling (h : List.Forall₂ CharSpelling s parts) (rest : List Char) :
    ReadsString (parts.flatten ++ '"' :: rest) s rest := by
  induction h with
  | nil => exact .close rest
  | cons hchar _ ih =>
      rw [List.flatten_cons, List.append_assoc]
      exact hchar.readsString ih

theorem Token.readsToken_display (h : t.isFixed = true) : ReadsToken t.display.toList t [] := by
  have hnull : isWord "null".toList = true := by decide
  have htrue : isWord "true".toList = true := by decide
  have hfalse : isWord "false".toList = true := by decide
  cases t with
  | null => exact readsToken_word hnull
  | bool b =>
      cases b with
      | true => exact readsToken_word htrue
      | false => exact readsToken_word hfalse
  | dot => exact .dot nofun
  | eq | ne | le | ge => exact .equation rfl []
  | lt | gt => exact .strict rfl nofun
  | pipe | comma | semicolon | question | minus | leftParen | rightParen | leftBracket
  | rightBracket => exact .symbol rfl []
  | number | string | field | identifier | finish => cases h

theorem wordToken_of_not_mem {name : String} (h : name ∉ ["null", "true", "false"]) :
    wordToken name.toList = .identifier name := by
  simp only [List.mem_cons, not_or] at h
  rw [wordToken, String.ofList_toList]
  split <;> simp_all

/-- The point ends the digits before it, and the digits behind it belong to the number. -/
theorem readNumber_fraction {places : List Char} (h : ds.all Char.isDigit = true)
    (hne : places ≠ []) (hplaces : places.all Char.isDigit = true) :
    readNumber (ds ++ '.' :: places) =
      (.number (.ofDecimal false ⟨digitsValue (ds ++ places), -places.length⟩), []) := by
  have hpoint : ∀ c ∈ ('.' :: places).head?, c.isDigit = false := by
    rintro _ ⟨⟩
    rfl
  have htake := takeWhile_append_of_head hpoint ds
  have hdrop := dropWhile_append_of_head hpoint ds
  rw [takeWhile_of_all h] at htake
  rw [dropWhile_of_all h, List.nil_append] at hdrop
  obtain ⟨d, places, rfl⟩ := List.exists_cons_of_ne_nil hne
  have hd : d.isDigit = true := List.all_eq_true.mp hplaces d List.mem_cons_self
  simp only [readNumber, htake, hdrop, hd, if_true, takeWhile_of_all hplaces,
    dropWhile_of_all hplaces]

/-- **A token is read off each of its spellings.** -/
theorem Spelling.readsToken (h : Spelling t cs) : ReadsToken cs t [] := by
  cases h with
  | fixed fixed => exact t.readsToken_display fixed
  | @field name word =>
      have hread : ReadsToken ('.' :: (name.toList ++ [])) _ [] := readsToken_field word nofun
      rwa [List.append_nil, String.ofList_toList] at hread
  | identifier word free => exact wordToken_of_not_mem free ▸ readsToken_word word
  | whole ne digits =>
      obtain ⟨c, cs, rfl⟩ := List.exists_cons_of_ne_nil ne
      exact .number (List.all_eq_true.mp digits c List.mem_cons_self) (readNumber_digits digits)
  | fraction ne digits places_ne decimals =>
      obtain ⟨c, ds, rfl⟩ := List.exists_cons_of_ne_nil ne
      exact .number (List.all_eq_true.mp digits c List.mem_cons_self)
        (readNumber_fraction digits places_ne decimals)
  | string chars =>
      have hread := ReadsToken.string (readsString_of_charSpelling chars [])
      rwa [String.ofList_toList] at hread

/-! ### What can be written -/

/-- Tokens that can be written: all but the end of the filter, with words as names, names that are
no literals, and numbers that are the doubles of decimals. -/
def Token.Spellable : Token → Prop
  | finish => False
  | field name => isWord name.toList = true
  | identifier name => isWord name.toList = true ∧ name ∉ ["null", "true", "false"]
  | number n => ∃ coeff places : Nat, n = .ofDecimal false ⟨coeff, -places⟩
  | _ => True

theorem exists_charSpelling_escaped (s : List Char) :
    ∃ parts, List.Forall₂ CharSpelling s parts ∧ parts.flatten = escaped s := by
  induction s with
  | nil => exact ⟨[], .nil, rfl⟩
  | cons c s ih =>
      obtain ⟨parts, hparts, hflatten⟩ := ih
      rw [escaped]
      split
      · next hc =>
        have hknown : escape? c = some c := by rcases hc with rfl | rfl <;> rfl
        exact ⟨['\\', c] :: parts, .cons (.escape hknown) hparts, by simp [hflatten]⟩
      · next hc =>
        rw [not_or] at hc
        exact ⟨[c] :: parts, .cons (.plain hc.1 hc.2) hparts, by simp [hflatten]⟩

/-- A string in quotes is one of its spellings. -/
theorem spelling_quoted (s : String) : Spelling (.string s) (quotedChars s) := by
  obtain ⟨parts, hparts, hflatten⟩ := exists_charSpelling_escaped s.toList
  rw [quotedChars, ← hflatten]
  exact .string hparts

theorem digitsValue_replicate_append (n : Nat) (ds : List Char) :
    digitsValue (List.replicate n '0' ++ ds) = digitsValue ds := by
  induction n with
  | zero => rfl
  | succ n ih =>
      rw [List.replicate_succ, List.cons_append, ← ih]
      rfl

/-- A point among digits. -/
theorem spelling_point (hdigits : ds.all Char.isDigit = true) (hpos : 0 < n) (hlong : n < ds.length) :
    Spelling (.number (.ofDecimal false ⟨digitsValue ds, -n⟩))
      (ds.take (ds.length - n) ++ '.' :: ds.drop (ds.length - n)) := by
  have hall := List.all_eq_true.mp hdigits
  have hleft : ds.take (ds.length - n) ≠ [] :=
    List.ne_nil_of_length_pos (by rw [List.length_take]; omega)
  have hlength : (ds.drop (ds.length - n)).length = n := by
    rw [List.length_drop]
    omega
  have hright : ds.drop (ds.length - n) ≠ [] := List.ne_nil_of_length_pos (by omega)
  have hrule := Spelling.fraction hleft
    (List.all_eq_true.mpr fun c hc => hall c (List.mem_of_mem_take hc)) hright
    (List.all_eq_true.mpr fun c hc => hall c (List.mem_of_mem_drop hc))
  rwa [List.take_append_drop, hlength] at hrule

/-- The digits of a coefficient behind zeros, so many that some are left in front of the point. -/
theorem exists_spelling_decimal (coeff places : Nat) :
    ∃ cs, Spelling (.number (.ofDecimal false ⟨coeff, -places⟩)) cs := by
  have hcoeff : (Nat.toDigits 10 coeff).all Char.isDigit = true :=
    List.all_eq_true.mpr fun c hc => Nat.isDigit_of_mem_toDigits (by decide) (by decide) hc
  rcases Nat.eq_zero_or_pos places with rfl | hpos
  · have hrule := Spelling.whole Nat.toDigits_ne_nil hcoeff
    rw [digitsValue_toDigits] at hrule
    exact ⟨_, hrule⟩
  · have hdigits :
        (List.replicate places '0' ++ Nat.toDigits 10 coeff).all Char.isDigit = true := by
      rw [List.all_append, hcoeff, Bool.and_true, List.all_replicate]
      simp
    have hlong : places < (List.replicate places '0' ++ Nat.toDigits 10 coeff).length := by
      rw [List.length_append, List.length_replicate]
      exact Nat.lt_add_of_pos_right (List.length_pos_iff.mpr Nat.toDigits_ne_nil)
    have hrule := spelling_point hdigits hpos hlong
    rw [digitsValue_replicate_append, digitsValue_toDigits] at hrule
    exact ⟨_, hrule⟩

/-- **The tokens that have a spelling.** -/
theorem exists_spelling_iff : (∃ cs, Spelling t cs) ↔ t.Spellable := by
  constructor
  · rintro ⟨cs, h⟩
    cases h with
    | fixed fixed => cases t <;> trivial
    | field word => exact word
    | identifier word free => exact ⟨word, free⟩
    | whole => exact ⟨digitsValue cs, 0, rfl⟩
    | @fraction ds places => exact ⟨digitsValue (ds ++ places), places.length, rfl⟩
    | string => trivial
  · intro h
    cases t with
    | finish => exact h.elim
    | field name => exact ⟨_, .field h⟩
    | identifier name => exact ⟨_, .identifier h.1 h.2⟩
    | number n =>
        obtain ⟨coeff, places, rfl⟩ := h
        exact exists_spelling_decimal coeff places
    | string s => exact ⟨_, spelling_quoted s⟩
    | _ => exact ⟨_, .fixed rfl⟩

end Spellings

end Distill.Filter

import Distill.Filter.Token
import Distill.Proofs.Results
import Mathlib.Data.List.TakeWhile

/-!
# Tokens of a text

Reading a token as a relation, with one rule for each kind of token, and the tokens of a whole
text without their places. What stands behind a token makes no difference to it unless it would
prolong it, so that the tokens of two texts side by side are those of the one and those of the
other.

## Main definitions

* `Filter.ReadsString` — the characters of a string after its opening quote.
* `Filter.ReadsToken` — the token at the start of a text.
* `Filter.Parted` — a text that prolongs no token before it.
* `Filter.Lexes` — the tokens of a text, the end of the filter last.

## Main statements

* `Filter.readString_eq_ok_iff`, `readToken_eq_ok_iff` — the relations are the functions.
* `Filter.exists_tokenize_iff` — the tokens are those that are read with their places.
* `Filter.Lexes.append` — the tokens of texts side by side.
-/

namespace Distill.Filter

/-! ## Characters -/

section Characters

variable {c : Char}

theorem isWordChar_of_isWordStart (h : isWordStart c = true) : isWordChar c = true := by
  simp only [isWordStart, isWordChar, Char.isAlphanum, Bool.or_eq_true] at h ⊢
  rcases h with h | h
  · exact Or.inl (Or.inl h)
  · exact Or.inr h

theorem isWordChar_of_isDigit (h : c.isDigit = true) : isWordChar c = true := by
  simp [isWordChar, Char.isAlphanum, h]

theorem isDigit_or_isWordStart (h : isWordChar c = true) :
    c.isDigit = true ∨ isWordStart c = true := by
  simp only [isWordStart, isWordChar, Char.isAlphanum, Bool.or_eq_true] at h ⊢
  rcases h with (h | h) | h
  · exact Or.inr (Or.inl h)
  · exact Or.inl h
  · exact Or.inr (Or.inr h)

theorem toNat_of_isUpper (h : c.isUpper = true) : 65 ≤ c.toNat ∧ c.toNat ≤ 90 := by
  obtain ⟨hlow, hhigh⟩ := of_decide_eq_true h
  exact ⟨UInt32.le_iff_toNat_le.mp hlow, UInt32.le_iff_toNat_le.mp hhigh⟩

theorem toNat_of_isLower (h : c.isLower = true) : 97 ≤ c.toNat ∧ c.toNat ≤ 122 := by
  change (decide (c.val ≥ 'a'.val) && decide (c.val ≤ 'z'.val)) = true at h
  simp only [Bool.and_eq_true, decide_eq_true_eq] at h
  obtain ⟨hlow, hhigh⟩ := h
  exact ⟨UInt32.le_iff_toNat_le.mp hlow, UInt32.le_iff_toNat_le.mp hhigh⟩

/-- The numbers of letters and of the underscore. -/
theorem toNat_of_isWordStart (h : isWordStart c = true) :
    (65 ≤ c.toNat ∧ c.toNat ≤ 90) ∨ (97 ≤ c.toNat ∧ c.toNat ≤ 122) ∨ c.toNat = 95 := by
  change (c.isUpper || c.isLower || c == '_') = true at h
  simp only [Bool.or_eq_true, beq_iff_eq] at h
  rcases h with (h | h) | rfl
  · exact Or.inl (toNat_of_isUpper h)
  · exact Or.inr (Or.inl (toNat_of_isLower h))
  · exact Or.inr (Or.inr rfl)

theorem toNat_of_isDigit (h : c.isDigit = true) : 48 ≤ c.toNat ∧ c.toNat ≤ 57 :=
  Char.isDigit_iff_toNat.mp h

theorem isDigit_of_isWordStart (h : isWordStart c = true) : c.isDigit = false := by
  by_contra hdigit
  have hword := toNat_of_isWordStart h
  have hdigit := toNat_of_isDigit (Bool.of_not_eq_false hdigit)
  omega

/-- White space is no character of a word. -/
theorem isWordChar_of_isBlank (h : isBlank c = true) : isWordChar c = false := by
  by_contra hword
  simp only [isBlank, Bool.or_eq_true, Bool.and_eq_true, decide_eq_true_eq, beq_iff_eq] at h
  rcases isDigit_or_isWordStart (Bool.of_not_eq_false hword) with hdigit | hstart
  · have := toNat_of_isDigit hdigit
    omega
  · have := toNat_of_isWordStart hstart
    omega

/-- Characters that a test tells apart. -/
theorem ne_of_test {p : Char → Bool} (hc : p c = true) {d : Char} (hd : p d = false) : c ≠ d := by
  rintro rfl
  rw [hc] at hd
  exact Bool.noConfusion hd

end Characters

/-! ## Strings -/

/-- What a character means behind a backslash. -/
def escape? : Char → Option Char
  | '"' => some '"'
  | '\\' => some '\\'
  | '/' => some '/'
  | 'n' => some '\n'
  | 't' => some '\t'
  | 'r' => some '\r'
  | _ => none

/-- The characters of a string after its opening quote, and what is left behind the closing
one. -/
inductive ReadsString : List Char → List Char → List Char → Prop
  | close (rest : List Char) : ReadsString ('"' :: rest) [] rest
  | escape {c d cs s rest} (known : escape? c = some d) (more : ReadsString cs s rest) :
      ReadsString ('\\' :: c :: cs) (d :: s) rest
  | unicode {ds cs s rest} (four : ds.length = 4) (hex : ds.all isHexDigit = true)
      (valid : (hexValue ds).isValidChar) (more : ReadsString cs s rest) :
      ReadsString ('\\' :: 'u' :: (ds ++ cs)) (Char.ofNat (hexValue ds) :: s) rest
  | plain {c cs s rest} (quote : c ≠ '"') (backslash : c ≠ '\\') (more : ReadsString cs s rest) :
      ReadsString (c :: cs) (c :: s) rest

section Strings

variable {cs s rest : List Char} {n : Nat}

/-- A string that is read follows the rules. -/
theorem readsString_of_readString (h : readString n cs = .ok (s, rest)) :
    ReadsString cs s rest := by
  fun_induction readString n cs generalizing s rest
  case case1 | case4 | case11 | case12 => simp at h
  case case2 rest' =>
    simp only [Except.ok.injEq, Prod.mk.injEq] at h
    obtain ⟨rfl, rfl⟩ := h
    exact .close rest'
  case case3 tail digits k hdigits ih =>
    obtain ⟨⟨s', rest'⟩, hread, heq⟩ := map_eq_ok_iff.mp h
    obtain ⟨rfl, rfl⟩ := Prod.mk.inj heq
    have htake : digits = tail.take 4 := by
      refine (List.takeWhile_prefix isHexDigit).eq_of_length_le ?_
      rw [hdigits.1]
      exact List.length_take_le 4 tail
    have hrule := ReadsString.unicode hdigits.1 List.all_takeWhile hdigits.2 (ih hread)
    rwa [htake, List.take_append_drop, ← htake] at hrule
  case case5 cs hu ih | case6 cs hu ih | case7 cs hu ih | case8 cs hu ih | case9 cs hu ih |
      case10 cs hu ih =>
    obtain ⟨⟨s', rest'⟩, hread, heq⟩ := map_eq_ok_iff.mp h
    obtain ⟨rfl, rfl⟩ := Prod.mk.inj heq
    exact .escape rfl (ih hread)
  case case13 c tail hquote _ _ hbackslash ih =>
    obtain ⟨⟨s', rest'⟩, hread, heq⟩ := map_eq_ok_iff.mp h
    obtain ⟨rfl, rfl⟩ := Prod.mk.inj heq
    exact .plain hquote hbackslash (ih hread)

/-- What follows the rules is read; where the string starts shows in faults only. -/
theorem ReadsString.readString_eq (h : ReadsString cs s rest) (n : Nat) :
    readString n cs = .ok (s, rest) := by
  induction h with
  | close => rw [readString]
  | @escape c d cs s rest known _ ih =>
      rw [escape?.eq_def] at known
      split at known
      case h_7 => simp at known
      all_goals
        obtain rfl := Option.some.inj known
        simp [readString, ih, Except.map]
  | @unicode ds cs s rest four hex valid _ ih =>
      have htake : ((ds ++ cs).take 4).takeWhile isHexDigit = ds := by
        rw [List.take_left' four]
        exact List.takeWhile_eq_self_iff.mpr (List.all_eq_true.mp hex)
      have hdrop : (ds ++ cs).drop 4 = cs := List.drop_left' four
      rw [readString]
      simp only [htake, hdrop, four, valid, ih, Except.map, and_self, if_true]
  | @plain c cs s rest quote backslash _ ih =>
      rw [readString, if_neg backslash, ih]
      · rfl
      · exact quote
      · exact fun _ h => absurd h backslash
      · exact fun _ _ h => absurd h backslash

/-- **The rules are what is read.** -/
theorem readString_eq_ok_iff : readString n cs = .ok (s, rest) ↔ ReadsString cs s rest :=
  ⟨readsString_of_readString, fun h => h.readString_eq n⟩

/-- A string is read in the same way whatever stands behind it. -/
theorem ReadsString.append (h : ReadsString cs s rest) (more : List Char) :
    ReadsString (cs ++ more) s (rest ++ more) := by
  induction h with
  | close rest => exact .close (rest ++ more)
  | escape known _ ih => exact .escape known ih
  | unicode four hex valid _ ih =>
      have hrule := ReadsString.unicode four hex valid ih
      rwa [← List.append_assoc] at hrule
  | plain quote backslash _ ih => exact .plain quote backslash ih

/-- The closing quote belongs to the string. -/
theorem ReadsString.length_lt (h : ReadsString cs s rest) : rest.length < cs.length := by
  induction h with
  | close rest => exact Nat.lt_succ_self _
  | escape _ _ ih | unicode _ _ _ _ ih | plain _ _ _ ih =>
      simp only [List.length_cons, List.length_append]
      omega

end Strings

/-! ## One token -/

/-- The tokens of one character. -/
def symbol? : Char → Option Token
  | '|' => some .pipe
  | ',' => some .comma
  | ';' => some .semicolon
  | '?' => some .question
  | '-' => some .minus
  | '(' => some .leftParen
  | ')' => some .rightParen
  | '[' => some .leftBracket
  | ']' => some .rightBracket
  | _ => none

/-- The comparisons that a character and an equals sign make. -/
def equation? : Char → Option Token
  | '=' => some .eq
  | '!' => some .ne
  | '<' => some .le
  | '>' => some .ge
  | _ => none

/-- The comparisons of one character. -/
def strict? : Char → Option Token
  | '<' => some .lt
  | '>' => some .gt
  | _ => none

/-- The token at the start of a text, and what is left of the text. -/
inductive ReadsToken : List Char → Token → List Char → Prop
  | symbol {c t} (known : symbol? c = some t) (rest : List Char) : ReadsToken (c :: rest) t rest
  | equation {c t} (known : equation? c = some t) (rest : List Char) :
      ReadsToken (c :: '=' :: rest) t rest
  | strict {c t rest} (known : strict? c = some t) (alone : rest.head? ≠ some '=') :
      ReadsToken (c :: rest) t rest
  | dot {rest} (alone : ∀ c ∈ rest.head?, isWordStart c = false) :
      ReadsToken ('.' :: rest) .dot rest
  | field {c} (start : isWordStart c = true) (cs : List Char) :
      ReadsToken ('.' :: c :: cs) (.field (String.ofList ((c :: cs).takeWhile isWordChar)))
        ((c :: cs).dropWhile isWordChar)
  | string {cs s rest} (read : ReadsString cs s rest) :
      ReadsToken ('"' :: cs) (.string (String.ofList s)) rest
  | number {c cs t rest} (digit : c.isDigit = true) (read : readNumber (c :: cs) = (t, rest)) :
      ReadsToken (c :: cs) t rest
  | word {c} (start : isWordStart c = true) (cs : List Char) :
      ReadsToken (c :: cs) (wordToken ((c :: cs).takeWhile isWordChar))
        ((c :: cs).dropWhile isWordChar)

section Tokens

variable {c : Char} {cs rest : List Char} {t : Token}

/-- Digits and words are read when no other token starts with the character. -/
theorem readToken_of_isWordChar (h : isWordChar c = true) (cs : List Char) :
    readToken (c :: cs) = .ok (if c.isDigit then readNumber (c :: cs)
      else (wordToken ((c :: cs).takeWhile isWordChar), (c :: cs).dropWhile isWordChar)) := by
  rw [readToken.eq_def]
  split
  case h_1 heq => simp at heq
  case h_19 heq =>
    obtain ⟨rfl, rfl⟩ := List.cons.inj heq
    have hequals : c ≠ '=' := ne_of_test h (by decide)
    have hbang : c ≠ '!' := ne_of_test h (by decide)
    simp only [hequals, hbang, if_false]
    split
    · rfl
    · next hdigit =>
      have hstart : isWordStart c = true := by
        simpa [isWordChar, isWordStart, Char.isAlphanum, hdigit] using h
      rw [if_pos hstart]
  all_goals
    next heq =>
    obtain ⟨rfl, -⟩ := List.cons.inj heq
    exact absurd h (by decide)

/-- A token that is read follows one of the rules. -/
theorem readsToken_of_readToken (hne : cs ≠ []) (h : readToken cs = .ok (t, rest)) :
    ReadsToken cs t rest := by
  revert h
  fun_cases readToken cs <;> intro h
  case case1 => exact absurd rfl hne
  case case21 | case22 | case25 => simp at h
  case case20 tail =>
    obtain ⟨⟨s, rest'⟩, hread, heq⟩ := map_eq_ok_iff.mp h
    obtain ⟨rfl, rfl⟩ := Prod.mk.inj heq
    exact .string (readString_eq_ok_iff.mp hread)
  case case23 hdigit => exact .number hdigit (Except.ok.inj h)
  all_goals
    simp only [Except.ok.injEq, Prod.mk.injEq] at h
    obtain ⟨rfl, rfl⟩ := h
  case case2 c tail hc => exact .field hc tail
  case case3 c tail hc => exact .dot (by simpa using hc)
  case case4 => exact .dot (by simp)
  case case14 | case15 | case16 | case18 => exact .equation rfl _
  case case17 tail halone | case19 tail halone =>
    refine .strict rfl ?_
    intro hhead
    obtain ⟨tail', rfl⟩ := List.head?_eq_some_iff.mp hhead
    exact halone tail' rfl
  case case24 hstart => exact .word hstart _
  all_goals exact .symbol rfl _

/-- What follows the rules is read. -/
theorem ReadsToken.readToken_eq (h : ReadsToken cs t rest) : readToken cs = .ok (t, rest) := by
  cases h with
  | symbol known =>
      rw [symbol?.eq_def] at known
      split at known
      case h_10 => simp at known
      all_goals
        obtain rfl := Option.some.inj known
        rfl
  | equation known =>
      rw [equation?.eq_def] at known
      split at known
      case h_5 => simp at known
      all_goals
        obtain rfl := Option.some.inj known
        rfl
  | strict known alone =>
      have hne : ∀ tail, rest ≠ '=' :: tail := by
        rintro tail rfl
        exact alone rfl
      rw [strict?.eq_def] at known
      split at known
      case h_3 => simp at known
      all_goals
        obtain rfl := Option.some.inj known
        rw [readToken]
        exact hne
  | dot alone =>
      cases rest with
      | nil => rfl
      | cons c tail => simp [readToken, alone c rfl]
  | field start cs => simp [readToken, start]
  | string read => simp [readToken, read.readString_eq, Except.map]
  | number digit read =>
      rw [readToken_of_isWordChar (isWordChar_of_isDigit digit), if_pos digit, read]
  | word start cs =>
      rw [readToken_of_isWordChar (isWordChar_of_isWordStart start), isDigit_of_isWordStart start]
      rfl

/-- **The rules are what is read.** -/
theorem readToken_eq_ok_iff (hne : cs ≠ []) : readToken cs = .ok (t, rest) ↔ ReadsToken cs t rest :=
  ⟨readsToken_of_readToken hne, ReadsToken.readToken_eq⟩

/-! ## Texts side by side -/

/-- A text that prolongs no token before it. -/
def Parted (rest : List Char) : Prop :=
  ∀ c ∈ rest.head?, isWordChar c = false ∧ c ≠ '=' ∧ c ≠ '.'

theorem takeWhile_append_of_head {p : Char → Bool} (h : ∀ c ∈ rest.head?, p c = false)
    (cs : List Char) : (cs ++ rest).takeWhile p = cs.takeWhile p := by
  induction cs with
  | nil =>
      cases rest with
      | nil => rfl
      | cons c tail => simp [h c rfl]
  | cons c cs ih => by_cases hc : p c = true <;> simp [hc, ih]

theorem dropWhile_append_of_head {p : Char → Bool} (h : ∀ c ∈ rest.head?, p c = false)
    (cs : List Char) : (cs ++ rest).dropWhile p = cs.dropWhile p ++ rest := by
  induction cs with
  | nil =>
      cases rest with
      | nil => rfl
      | cons c tail => simp [h c rfl]
  | cons c cs ih => by_cases hc : p c = true <;> simp [hc, ih]

theorem Parted.isWordChar (h : Parted rest) : ∀ c ∈ rest.head?, isWordChar c = false :=
  fun c hc => (h c hc).1

theorem Parted.isDigit (h : Parted rest) : ∀ c ∈ rest.head?, c.isDigit = false := by
  intro c hc
  by_contra hdigit
  exact Bool.noConfusion
    ((h c hc).1.symm.trans (isWordChar_of_isDigit (Bool.of_not_eq_false hdigit)))

theorem Parted.isWordStart (h : Parted rest) : ∀ c ∈ rest.head?, isWordStart c = false := by
  intro c hc
  by_contra hstart
  exact Bool.noConfusion
    ((h c hc).1.symm.trans (isWordChar_of_isWordStart (Bool.of_not_eq_false hstart)))

/-- A number is read in the same way whatever stands behind it. -/
theorem readNumber_append (h : Parted rest) (cs : List Char) :
    readNumber (cs ++ rest) = ((readNumber cs).1, (readNumber cs).2 ++ rest) := by
  simp only [readNumber, takeWhile_append_of_head h.isDigit, dropWhile_append_of_head h.isDigit]
  generalize cs.dropWhile Char.isDigit = left
  match left with
  | [] =>
      cases rest with
      | nil => rfl
      | cons c tail => simp [(h c rfl).2.2]
  | [c] =>
      cases rest with
      | nil => by_cases hc : c = '.' <;> simp [hc]
      | cons d tail =>
          by_cases hc : c = '.'
          · simp [hc, h.isDigit d rfl]
          · simp [hc]
  | c :: d :: left =>
      by_cases hc : c = '.'
      · by_cases hd : d.isDigit = true
        · have htake := takeWhile_append_of_head h.isDigit (d :: left)
          have hdrop := dropWhile_append_of_head h.isDigit (d :: left)
          rw [List.cons_append] at htake hdrop
          simp only [hc, List.cons_append, hd, htake, hdrop, if_true]
        · simp [hc, hd]
      · simp [hc]

/-- A token is read in the same way whatever stands behind it. -/
theorem ReadsToken.append {left : List Char} (h : ReadsToken cs t left) (hrest : Parted rest) :
    ReadsToken (cs ++ rest) t (left ++ rest) := by
  cases h with
  | symbol known => exact .symbol known _
  | equation known => exact .equation known _
  | strict known alone =>
      refine .strict known ?_
      cases left with
      | nil => exact fun hhead => (hrest _ hhead).2.1 rfl
      | cons c left => exact alone
  | dot alone =>
      refine .dot ?_
      cases left with
      | nil => exact hrest.isWordStart
      | cons c left => exact alone
  | @field c start cs =>
      rw [← takeWhile_append_of_head hrest.isWordChar, ← dropWhile_append_of_head hrest.isWordChar]
      exact .field start (cs ++ rest)
  | string read => exact .string (read.append rest)
  | @number c cs _ _ digit read =>
      have happend := readNumber_append hrest (c :: cs)
      rw [read] at happend
      exact .number digit happend
  | @word c start cs =>
      rw [← takeWhile_append_of_head hrest.isWordChar, ← dropWhile_append_of_head hrest.isWordChar]
      exact .word start (cs ++ rest)

theorem length_dropWhile_le {p : Char → Bool} (h : p c = true) (cs : List Char) :
    ((c :: cs).dropWhile p).length ≤ cs.length := by
  rw [List.dropWhile_cons_of_pos h]
  exact (List.dropWhile_suffix p).length_le

theorem length_readNumber_le (h : c.isDigit = true) (cs : List Char) :
    (readNumber (c :: cs)).2.length ≤ cs.length := by
  have hdrop := length_dropWhile_le h cs
  rw [readNumber]
  generalize (c :: cs).dropWhile Char.isDigit = left at hdrop
  split
  · next d rest' =>
    split
    · have := (List.dropWhile_suffix Char.isDigit (l := d :: rest')).length_le
      simp only [List.length_cons] at hdrop this ⊢
      omega
    · exact hdrop
  · exact hdrop

/-- A token has a character. -/
theorem ReadsToken.length_lt (h : ReadsToken cs t rest) : rest.length < cs.length := by
  cases h with
  | symbol | strict | dot => exact Nat.lt_succ_self _
  | equation known =>
      simp only [List.length_cons]
      omega
  | @field c start cs =>
      have := length_dropWhile_le (isWordChar_of_isWordStart start) cs
      simp only [List.length_cons] at this ⊢
      omega
  | string read =>
      have := read.length_lt
      simp only [List.length_cons] at this ⊢
      omega
  | @number c cs _ _ digit read =>
      have := length_readNumber_le digit cs
      rw [read] at this
      simp only [List.length_cons] at this ⊢
      omega
  | @word c start cs =>
      have := length_dropWhile_le (isWordChar_of_isWordStart start) cs
      simp only [List.length_cons] at this ⊢
      omega

/-- No token starts with white space. -/
theorem ReadsToken.isBlank_eq_false (h : ReadsToken (c :: cs) t rest) : isBlank c = false := by
  by_contra hblank
  have hblank := Bool.of_not_eq_false hblank
  have hword := isWordChar_of_isBlank hblank
  cases h with
  | symbol known =>
      rw [symbol?.eq_def] at known
      split at known <;> first | exact absurd hblank (by decide) | simp at known
  | equation known =>
      rw [equation?.eq_def] at known
      split at known <;> first | exact absurd hblank (by decide) | simp at known
  | strict known =>
      rw [strict?.eq_def] at known
      split at known <;> first | exact absurd hblank (by decide) | simp at known
  | dot | field | string => exact absurd hblank (by decide)
  | number digit => simp [isWordChar_of_isDigit digit] at hword
  | word start => simp [isWordChar_of_isWordStart start] at hword

end Tokens

/-! ## All tokens -/

/-- The tokens of a text, the end of the filter last. White space may stand before each. -/
inductive Lexes : List Char → List Token → Prop
  | finish : Lexes [] [.finish]
  | blank {c cs ts} (white : isBlank c = true) (more : Lexes cs ts) : Lexes (c :: cs) ts
  | token {cs t rest ts} (read : ReadsToken cs t rest) (more : Lexes rest ts) : Lexes cs (t :: ts)

section Lexing

variable {c : Char} {cs rest : List Char} {t : Token} {ts us vs : List Token}

/-- White space in front of a text adds no token. -/
theorem lexes_cons_iff (h : isBlank c = true) : Lexes (c :: cs) ts ↔ Lexes cs ts := by
  refine ⟨fun hlexes => ?_, .blank h⟩
  cases hlexes with
  | blank _ more => exact more
  | token read => exact absurd (read.isBlank_eq_false.symm.trans h) Bool.false_ne_true

theorem lexes_dropWhile_iff : Lexes (cs.dropWhile isBlank) ts ↔ Lexes cs ts := by
  induction cs with
  | nil => exact Iff.rfl
  | cons c cs ih =>
      by_cases hc : isBlank c = true
      · rw [List.dropWhile_cons_of_pos hc, ih, lexes_cons_iff hc]
      · rw [List.dropWhile_cons_of_neg hc]

/-- The tokens that are read with their places follow the rules. -/
theorem lexes_of_tokenizeFrom {total fuel last : Nat} {ls : List Lexeme}
    (h : tokenizeFrom total fuel last cs = .ok ls) (hfuel : cs.length ≤ fuel) :
    Lexes cs (ls.map Lexeme.token) := by
  induction fuel generalizing cs last ls with
  | zero =>
      obtain rfl := List.eq_nil_of_length_eq_zero (Nat.le_zero.mp hfuel)
      obtain rfl := Except.ok.inj h
      exact .finish
  | succ fuel ih =>
      have hle := (List.dropWhile_suffix isBlank (l := cs)).length_le
      rw [tokenizeFrom] at h
      rw [← lexes_dropWhile_iff]
      split at h
      · next hnil =>
        obtain rfl := Except.ok.inj h
        rw [hnil]
        exact .finish
      · next hne =>
        split at h
        · simp at h
        · next t rest hread =>
          obtain ⟨ls', hmore, rfl⟩ := map_eq_ok_iff.mp h
          have hread := readsToken_of_readToken hne hread
          have := hread.length_lt
          exact .token hread (ih hmore (by omega))

/-- White space in front of a text makes no difference. -/
private theorem tokenizeFrom_cons (h : isBlank c = true) (total fuel last : Nat) :
    tokenizeFrom total (fuel + 1) last (c :: cs) = tokenizeFrom total (fuel + 1) last cs := by
  rw [tokenizeFrom, tokenizeFrom, List.dropWhile_cons_of_pos h]

/-- What follows the rules is read. -/
theorem Lexes.exists_tokenizeFrom (h : Lexes cs ts) (total last : Nat) {fuel : Nat}
    (hfuel : cs.length ≤ fuel) :
    ∃ ls, tokenizeFrom total fuel last cs = .ok ls ∧ ls.map Lexeme.token = ts := by
  induction h generalizing fuel last with
  | finish => cases fuel <;> exact ⟨[⟨.finish, last⟩], rfl, rfl⟩
  | blank white _ ih =>
      obtain ⟨fuel, rfl⟩ := Nat.exists_eq_add_one.mpr (Nat.lt_of_lt_of_le (Nat.succ_pos _) hfuel)
      rw [tokenizeFrom_cons white]
      exact ih last (Nat.le_of_succ_le hfuel)
  | @token cs t rest ts read _ ih =>
      have hlt := read.length_lt
      have hpos : 0 < fuel := Nat.lt_of_lt_of_le (Nat.zero_lt_of_lt hlt) hfuel
      obtain ⟨fuel, rfl⟩ := Nat.exists_eq_add_one.mpr hpos
      obtain ⟨ls, hls, rfl⟩ := ih (total - octets cs) (show rest.length ≤ fuel by omega)
      refine ⟨⟨t, total - octets cs⟩ :: ls, ?_, rfl⟩
      cases cs with
      | nil => exact absurd hlt (Nat.not_lt_zero _)
      | cons c cs =>
          have hdrop : (c :: cs).dropWhile isBlank = c :: cs :=
            List.dropWhile_cons_of_neg (Bool.not_eq_true _ ▸ read.isBlank_eq_false)
          rw [tokenizeFrom, hdrop]
          simp only [read.readToken_eq, hls, Except.map]

/-- **The tokens of a text are those that are read with their places.** -/
theorem exists_tokenize_iff {s : String} :
    (∃ ls, tokenize s = .ok ls ∧ ls.map Lexeme.token = ts) ↔ Lexes s.toList ts := by
  have hlength : s.toList.length ≤ s.length := Nat.le_of_eq String.length_toList
  constructor
  · rintro ⟨ls, hls, rfl⟩
    exact lexes_of_tokenizeFrom hls hlength
  · intro h
    exact h.exists_tokenizeFrom _ _ hlength

theorem ReadsToken.ne_finish (h : ReadsToken cs t rest) : t ≠ .finish := by
  cases h with
  | symbol known =>
      rw [symbol?.eq_def] at known
      rintro rfl
      split at known <;> simp at known
  | equation known =>
      rw [equation?.eq_def] at known
      rintro rfl
      split at known <;> simp at known
  | strict known =>
      rw [strict?.eq_def] at known
      rintro rfl
      split at known <;> simp at known
  | dot | field | string => exact Token.noConfusion
  | number _ read =>
      rintro rfl
      have hfst := congrArg Prod.fst read
      rw [readNumber] at hfst
      repeat' split at hfst
      all_goals simp at hfst
  | word start cs =>
      rw [wordToken]
      split <;> exact Token.noConfusion

/-- The end of the filter comes once, behind all other tokens. -/
theorem Lexes.exists_eq_concat (h : Lexes cs ts) :
    ∃ us, ts = us ++ [.finish] ∧ .finish ∉ us := by
  induction h with
  | finish => exact ⟨[], rfl, List.not_mem_nil⟩
  | blank _ _ ih => exact ih
  | @token cs t rest ts read _ ih =>
      obtain ⟨us, rfl, hus⟩ := ih
      exact ⟨t :: us, rfl, List.not_mem_cons_of_ne_of_not_mem read.ne_finish.symm hus⟩

/-- **The tokens of texts side by side.** -/
theorem Lexes.append (h : Lexes cs (us ++ [.finish])) (hparted : Parted rest)
    (hrest : Lexes rest vs) : Lexes (cs ++ rest) (us ++ vs) := by
  generalize hts : us ++ [Token.finish] = ts at h
  induction h generalizing us with
  | finish =>
      obtain ⟨rfl, -⟩ := List.append_eq_singleton_iff.mp hts |>.resolve_right (by simp)
      exact hrest
  | blank white _ ih => exact .blank white (ih hts)
  | @token cs t left ts read more ih =>
      cases us with
      | nil => exact absurd (List.cons.inj hts).1.symm read.ne_finish
      | cons u us =>
          obtain ⟨rfl, htail⟩ := List.cons.inj hts
          exact .token (read.append hparted) (ih htail)

theorem parted_nil : Parted [] := by
  rintro _ ⟨⟩

theorem parted_cons (h : isWordChar c = false ∧ c ≠ '=' ∧ c ≠ '.') (cs : List Char) :
    Parted (c :: cs) := by
  rintro _ ⟨⟩
  exact h

/-- A token with spaces around it. -/
theorem Lexes.spaced (hread : ReadsToken cs t []) (hrest : Lexes rest ts) :
    Lexes (' ' :: (cs ++ ' ' :: rest)) (t :: ts) := by
  have hspace : isBlank ' ' = true := by decide
  exact .blank hspace (.token (hread.append (parted_cons (by decide) rest)) (.blank hspace hrest))

end Lexing

end Distill.Filter

import Distill.Proofs.Filter.Spelling

/-!
# Tokens with white space between them

Tokens that are written in any of their spellings, with white space between them, are read back,
each with the offset of the first octet of its spelling. White space is enough to keep them apart
because no token starts with it and none is prolonged by it.

The reader knows the offset of a token from the octets that are left of the text, so that the
induction goes over the pieces that are left, behind a number of octets that are read.

## Main definitions

* `Filter.Piece` — a token as it is written, behind white space.
* `Filter.Piece.text`, `Filter.Piece.lexemes` — the characters of pieces, and their tokens with
  their offsets.

## Main statements

* `Filter.tokenizeFrom_append` — one token behind white space.
* `Filter.Piece.tokenize_text` — the tokens of pieces.
* `Filter.tokenize_undoes_writing` — what is read of tokens that are written.
-/

namespace Distill.Filter

/-! ## Octets -/

theorem octets_append (cs ds : List Char) : octets (cs ++ ds) = octets cs + octets ds := by
  induction cs with
  | nil => simp [octets]
  | cons c cs ih => rw [List.cons_append, octets, octets, ih, Nat.add_assoc]

theorem octets_eq_utf8ByteSize (cs : List Char) :
    octets cs = (String.ofList cs).utf8ByteSize := by
  induction cs with
  | nil => rfl
  | cons c cs ih => simp [octets, ih, String.ofList_cons]

/-! ## One token -/

section Reading

variable {c : Char} {cs gap rest : List Char} {t : Token}

/-- White space prolongs no token. -/
theorem parted_of_isBlank (h : isBlank c = true) (cs : List Char) : Parted (c :: cs) :=
  parted_cons ⟨isWordChar_of_isBlank h, ne_of_test h (by decide), ne_of_test h (by decide)⟩ cs

theorem parted_of_all_isBlank (h : cs.all isBlank = true) : Parted cs := by
  cases cs with
  | nil => exact parted_nil
  | cons c cs => exact parted_of_isBlank (List.all_eq_true.mp h c List.mem_cons_self) cs

/-- **A token behind white space is placed where it starts.** -/
theorem tokenizeFrom_append (hgap : gap.all isBlank = true) (h : ReadsToken cs t rest)
    (total fuel last : Nat) :
    tokenizeFrom total (fuel + 1) last (gap ++ cs) =
      (tokenizeFrom total fuel (total - octets cs) rest).map (⟨t, total - octets cs⟩ :: ·) := by
  obtain ⟨c, cs, rfl⟩ := List.exists_cons_of_length_pos (Nat.zero_lt_of_lt h.length_lt)
  have hhead : ∀ d ∈ (c :: cs).head?, isBlank d = false := by
    rintro _ ⟨⟩
    exact h.isBlank_eq_false
  have hdrop : (gap ++ c :: cs).dropWhile isBlank = c :: cs := by
    rw [dropWhile_append_of_head hhead, dropWhile_of_all hgap, List.nil_append]
  rw [tokenizeFrom, hdrop]
  simp only [h.readToken_eq]

/-- Behind the last token there is nothing but the end. -/
theorem tokenizeFrom_of_all (h : cs.all isBlank = true) (total fuel last : Nat) :
    tokenizeFrom total fuel last cs = .ok [⟨.finish, last⟩] := by
  cases fuel with
  | zero => rfl
  | succ fuel => rw [tokenizeFrom, dropWhile_of_all h]

end Reading

/-! ## Pieces -/

/-- A token as it is written, behind white space. -/
structure Piece where
  gap : List Char
  token : Token
  spelling : List Char
  white : gap.all isBlank = true
  spelled : Spelling token spelling

namespace Piece

variable {p : Piece} {ps : List Piece} {trail : List Char}

/-- The characters of a piece. -/
def chars (p : Piece) : List Char := p.gap ++ p.spelling

/-- The characters of pieces one after another. -/
def text (ps : List Piece) : List Char := ps.flatMap chars

/-- There is white space between the tokens. -/
def Apart (ps : List Piece) : Prop := ∀ p ∈ ps.tail, p.gap ≠ []

/-- The tokens of pieces behind `n` octets, each with the offset at which its spelling starts. -/
def lexemes (n : Nat) : List Piece → List Lexeme
  | [] => []
  | p :: ps => ⟨p.token, n + octets p.gap⟩ :: lexemes (n + octets p.chars) ps

/-- The end of a filter stands where the last token does. -/
def finish (last : Nat) (ls : List Lexeme) : Lexeme :=
  ⟨.finish, (ls.getLast?.map Lexeme.position).getD last⟩

theorem finish_cons (last : Nat) (l : Lexeme) (ls : List Lexeme) :
    finish last (l :: ls) = finish l.position ls := by
  cases ls <;> simp [finish, List.getLast?_cons]

theorem map_token_lexemes (n : Nat) (ps : List Piece) :
    (lexemes n ps).map Lexeme.token = ps.map Piece.token := by
  induction ps generalizing n with
  | nil => rfl
  | cons p ps ih => rw [lexemes, List.map_cons, List.map_cons, ih]

/-- A spelling starts behind all pieces in front of it and its own white space. -/
theorem getElem?_lexemes (n : Nat) (before : List Piece) (p : Piece) (after : List Piece) :
    (lexemes n (before ++ p :: after))[before.length]? =
      some ⟨p.token, n + octets (text before ++ p.gap)⟩ := by
  induction before generalizing n with
  | nil => rfl
  | cons q before ih =>
      rw [List.cons_append, lexemes, List.length_cons, List.getElem?_cons_succ, ih, text, text,
        List.flatMap_cons, List.append_assoc, octets_append q.chars, Nat.add_assoc]

/-- Pieces with white space in front of them prolong no token. -/
theorem parted_text (hgap : ∀ p ∈ ps, p.gap ≠ []) (htrail : trail.all isBlank = true) :
    Parted (text ps ++ trail) := by
  cases ps with
  | nil => exact parted_of_all_isBlank htrail
  | cons p ps =>
      have hwhite := p.white
      obtain ⟨c, cs, hp⟩ := List.exists_cons_of_ne_nil (hgap p List.mem_cons_self)
      rw [hp] at hwhite
      rw [text, List.flatMap_cons, chars, hp]
      exact parted_of_isBlank (List.all_eq_true.mp hwhite c List.mem_cons_self) _

/-- The pieces that are left of a text behind `n` octets. -/
theorem tokenizeFrom_text (hapart : Apart ps) (htrail : trail.all isBlank = true)
    {total n fuel : Nat} (last : Nat) (htotal : total = n + octets (text ps ++ trail))
    (hfuel : (text ps ++ trail).length ≤ fuel) :
    tokenizeFrom total fuel last (text ps ++ trail) =
      .ok (lexemes n ps ++ [finish last (lexemes n ps)]) := by
  induction ps generalizing n fuel last with
  | nil => exact tokenizeFrom_of_all htrail total fuel last
  | cons p ps ih =>
      have hgap : ∀ q ∈ ps, q.gap ≠ [] := hapart
      have hread := p.spelled.readsToken.append (parted_text hgap htrail)
      rw [List.nil_append] at hread
      have hlt := hread.length_lt
      have htext : text (p :: ps) ++ trail = p.gap ++ (p.spelling ++ (text ps ++ trail)) := by
        simp [text, chars]
      rw [htext] at htotal hfuel ⊢
      rw [octets_append] at htotal
      rw [List.length_append] at hfuel
      have hstart : total - octets (p.spelling ++ (text ps ++ trail)) = n + octets p.gap := by
        omega
      have hleft : total = n + octets p.chars + octets (text ps ++ trail) := by
        rw [htotal, chars, octets_append p.spelling, octets_append p.gap]
        omega
      obtain ⟨fuel, rfl⟩ := Nat.exists_eq_add_one.mpr (show 0 < fuel by omega)
      rw [tokenizeFrom_append p.white hread, hstart,
        ih (fun q hq => hgap q (List.mem_of_mem_tail hq)) _ hleft (by omega), lexemes, finish_cons]
      rfl

/-- **The tokens of pieces.** -/
theorem tokenize_text (hapart : Apart ps) (htrail : trail.all isBlank = true) :
    tokenize (String.ofList (text ps ++ trail)) =
      .ok (lexemes 0 ps ++ [finish 0 (lexemes 0 ps)]) := by
  rw [tokenize, String.toList_ofList]
  exact tokenizeFrom_text hapart htrail 0 (Nat.zero_add _).symm (by simp)

/-- Tokens that have a spelling can be written with spaces between them. -/
theorem exists_pieces_iff {ts : List Token} :
    (∃ ps, Apart ps ∧ ps.map token = ts) ↔ ∀ t ∈ ts, t.Spellable := by
  constructor
  · rintro ⟨ps, -, rfl⟩ t ht
    obtain ⟨p, -, rfl⟩ := List.mem_map.mp ht
    exact exists_spelling_iff.mp ⟨p.spelling, p.spelled⟩
  · intro h
    -- A space in front of the first token as well keeps the induction simple.
    suffices hspaced : ∃ ps : List Piece, (∀ p ∈ ps, p.gap ≠ []) ∧ ps.map token = ts by
      obtain ⟨ps, hgap, hps⟩ := hspaced
      exact ⟨ps, fun p hp => hgap p (List.mem_of_mem_tail hp), hps⟩
    induction ts with
    | nil => exact ⟨[], nofun, rfl⟩
    | cons t ts ih =>
        rw [List.forall_mem_cons] at h
        obtain ⟨cs, hcs⟩ := exists_spelling_iff.mpr h.1
        obtain ⟨ps, hgap, rfl⟩ := ih h.2
        refine ⟨⟨[' '], t, cs, by decide, hcs⟩ :: ps, ?_, rfl⟩
        exact List.forall_mem_cons.mpr ⟨List.cons_ne_nil _ _, hgap⟩

end Piece

/-- **Reading undoes writing.** Tokens that can be written, each in any of its spellings and with
white space between them, are the tokens of the text. Each has the offset of the octet at which its
spelling starts, and the end of the filter that of the last token, or zero. -/
theorem tokenize_undoes_writing (ts : List Token) :
    ((∃ ps, Piece.Apart ps ∧ ps.map Piece.token = ts) ↔ ∀ t ∈ ts, t.Spellable) ∧
      ∀ (ps : List Piece) (trail : List Char), Piece.Apart ps → trail.all isBlank = true →
        ps.map Piece.token = ts →
        ∃ ls : List Lexeme,
          tokenize (String.ofList (Piece.text ps ++ trail)) =
            .ok (ls ++ [⟨.finish, (ls.getLast?.map Lexeme.position).getD 0⟩]) ∧
          ls.map Lexeme.token = ts ∧
          ∀ before p after, ps = before ++ p :: after →
            ls[before.length]? =
              some ⟨p.token, (String.ofList (Piece.text before ++ p.gap)).utf8ByteSize⟩ := by
  refine ⟨Piece.exists_pieces_iff, fun ps trail hapart htrail hts => ?_⟩
  refine ⟨Piece.lexemes 0 ps, Piece.tokenize_text hapart htrail, ?_, ?_⟩
  · rw [Piece.map_token_lexemes, hts]
  · rintro before p after rfl
    rw [Piece.getElem?_lexemes, Nat.zero_add, octets_eq_utf8ByteSize]

/-- White space of several octets, a string with escapes that could be left out, and the number 3.5
with zeros that could be. -/
theorem selection_tokenize_undoes_writing :
    ∃ ls : List Lexeme,
      tokenize ".size\u3000\u0085<= \"\\u00e9\\/\\n\"\n03.50 " =
        .ok (ls ++ [⟨.finish, (ls.getLast?.map Lexeme.position).getD 0⟩]) ∧
      ls.map Lexeme.token = [.field "size", .le, .string "é/\n",
        .number (.finite ⟨false, 7881299347898368, 1023⟩)] ∧
      ls[3]? = some ⟨.number (.finite ⟨false, 7881299347898368, 1023⟩), 26⟩ := by
  have haccent : CharSpelling 'é' ['\\', 'u', '0', '0', 'e', '9'] :=
    .unicode rfl (by decide) (by decide)
  have hslash : CharSpelling '/' ['\\', '/'] := .escape rfl
  have hline : CharSpelling '\n' ['\\', 'n'] := .escape rfl
  have hchars : List.Forall₂ CharSpelling "é/\n".toList
      [['\\', 'u', '0', '0', 'e', '9'], ['\\', '/'], ['\\', 'n']] := by
    have hlist : "é/\n".toList = ['é', '/', '\n'] := by decide
    rw [hlist]
    exact .cons haccent (.cons hslash (.cons hline .nil))
  have hvalue : Binary64.ofDecimal false
      ⟨digitsValue (['0', '3'] ++ ['5', '0']), -['5', '0'].length⟩ =
        .finite ⟨false, 7881299347898368, 1023⟩ := by decide +kernel
  have hnumber := @Spelling.fraction ['0', '3'] ['5', '0'] nofun (by decide) nofun (by decide)
  rw [hvalue] at hnumber
  let before : List Piece :=
    [⟨[], _, _, rfl, .field (by decide : isWord "size".toList = true)⟩,
      ⟨['\u3000', '\u0085'], .le, _, by decide, .fixed rfl⟩, ⟨[' '], _, _, by decide, .string hchars⟩]
  let p : Piece := ⟨['\n'], _, _, by decide, hnumber⟩
  have hapart : Piece.Apart (before ++ [p]) := by simp [Piece.Apart, before, p]
  have htext : Piece.text (before ++ [p]) ++ [' '] =
      ".size\u3000\u0085<= \"\\u00e9\\/\\n\"\n03.50 ".toList := rfl
  have hfront : Piece.text before ++ p.gap =
      ".size\u3000\u0085<= \"\\u00e9\\/\\n\"\n".toList := rfl
  have hsize : ".size\u3000\u0085<= \"\\u00e9\\/\\n\"\n".utf8ByteSize = 26 := by decide
  obtain ⟨-, hread⟩ := tokenize_undoes_writing ((before ++ [p]).map Piece.token)
  obtain ⟨ls, htokens, hmap, hplaces⟩ := hread (before ++ [p]) [' '] hapart rfl rfl
  rw [htext, String.ofList_toList] at htokens
  have hplace := hplaces before p [] rfl
  rw [hfront, String.ofList_toList, hsize] at hplace
  exact ⟨ls, htokens, hmap, hplace⟩

end Distill.Filter

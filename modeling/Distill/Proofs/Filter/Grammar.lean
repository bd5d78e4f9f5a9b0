import Distill.Filter.Parser
import Distill.Proofs.Results

/-!
# The grammar of filters

The rules by which tokens are read as a filter, one for each thing that a function of the reader
does. The rules speak of tokens without their places, and of no bound on the depth of calls.

## Main definitions

* `Filter.ReadsBracket`, `Filter.ReadsSelector` — the selectors.
* `Filter.Part` — the parts of a filter, each read by a function of its own.
* `Filter.Reads` — the expression of a part, and the tokens that are left.

## Main statements

* `Filter.readsBracket_of_readBracket`, `ReadsBracket.exists_readBracket` — what is read in
  brackets is what follows the rules.
* `Filter.Reads.length_add_least_le` — tokens that are read are taken.
-/

namespace Distill.Filter

/-! ## Tokens without their places -/

/-- The next token; behind the last one the end goes on. -/
def nextToken (ts : List Token) : Token := ts.headD .finish

@[simp] theorem nextToken_cons (t : Token) (ts : List Token) : nextToken (t :: ts) = t := rfl

namespace Input

/-- The tokens without their places. -/
def tokens (ts : Input) : List Token := ts.map Lexeme.token

variable {ts rest : Input} {t : Token}

@[simp] theorem nextToken_tokens (ts : Input) : nextToken ts.tokens = ts.peek := by
  cases ts <;> rfl

@[simp] theorem tokens_tail (ts : Input) : tokens ts.tail = ts.tokens.tail := by
  cases ts <;> rfl

/-- A token that comes next and is not the end. -/
theorem tokens_of_peek (h : ts.peek = t) (hne : t ≠ .finish) :
    ts.tokens = t :: tokens ts.tail := by
  cases ts with
  | nil => exact absurd h.symm hne
  | cons l ts => exact congrArg (· :: tokens ts) h

theorem peek_of_tokens {us : List Token} (h : ts.tokens = t :: us) : ts.peek = t := by
  rw [← nextToken_tokens, h, nextToken_cons]

theorem tail_of_tokens {us : List Token} (h : ts.tokens = t :: us) : tokens ts.tail = us := by
  rw [tokens_tail, h, List.tail_cons]

theorem expect_eq_ok_iff : ts.expect t = .ok rest ↔ ts.peek = t ∧ ts.tail = rest := by
  rw [expect]
  split
  · next h => simp [h]
  · next h => simp [h, fail]

/-- A token that must come next and is not the end. -/
theorem tokens_of_expect (h : ts.expect t = .ok rest) (hne : t ≠ .finish) :
    ts.tokens = t :: rest.tokens := by
  obtain ⟨hpeek, rfl⟩ := expect_eq_ok_iff.mp h
  exact tokens_of_peek hpeek hne

theorem exists_expect {us : List Token} (h : ts.tokens = t :: us) :
    ∃ rest, ts.expect t = .ok rest ∧ rest.tokens = us :=
  ⟨ts.tail, expect_eq_ok_iff.mpr ⟨peek_of_tokens h, rfl⟩, tail_of_tokens h⟩

end Input

/-! ## Selectors -/

/-- The place that a number stands for. -/
def place? : Binary64 → Option Int
  | .finite x =>
    if x.isIntegral ∧ x.magnitude < Nat.pow 2 63 * Double.unitsPerOne then some x.truncate
    else none
  | _ => none

theorem readPlace_eq_ok_iff {n : Binary64} {ts : Input} {i : Int} :
    readPlace n ts = .ok i ↔ place? n = some i := by
  cases n with
  | finite x =>
      simp only [readPlace, place?]
      split <;> simp [Input.fail]
  | infinite | nan => simp [readPlace, place?, Input.fail]

/-- What stands behind an opening bracket, up to the closing one. -/
inductive ReadsBracket : List Token → Expr → List Token → Prop
  | iterate (ts : List Token) : ReadsBracket (.rightBracket :: ts) .iterate ts
  | key (name : String) (ts : List Token) :
      ReadsBracket (.string name :: .rightBracket :: ts) (.field name) ts
  | place {n i} (integral : place? n = some i) (ts : List Token) :
      ReadsBracket (.number n :: .rightBracket :: ts) (.index i) ts
  | negative {n i} (integral : place? n = some i) (ts : List Token) :
      ReadsBracket (.minus :: .number n :: .rightBracket :: ts) (.index (-i)) ts

/-- A selector that starts with a dot. -/
inductive ReadsSelector : List Token → Expr → List Token → Prop
  | word (name : String) (ts : List Token) : ReadsSelector (.field name :: ts) (.field name) ts
  | quoted (name : String) (ts : List Token) :
      ReadsSelector (.dot :: .string name :: ts) (.field name) ts
  | bracket {ts e rest} (inside : ReadsBracket ts e rest) :
      ReadsSelector (.dot :: .leftBracket :: ts) e rest

section Selectors

variable {ts rest : Input} {us vs : List Token} {e : Expr}

theorem readsBracket_of_readBracket (h : readBracket ts = .ok (e, rest)) :
    ReadsBracket ts.tokens e rest.tokens := by
  rw [readBracket] at h
  split at h
  · next hpeek =>
    obtain ⟨rfl, rfl⟩ := Prod.mk.inj (Except.ok.inj h)
    rw [Input.tokens_of_peek hpeek nofun]
    exact .iterate _
  · next key hpeek =>
    obtain ⟨rest', hexpect, heq⟩ := bind_eq_ok_iff.mp h
    obtain ⟨rfl, rfl⟩ := Prod.mk.inj (Except.ok.inj heq)
    rw [Input.tokens_of_peek hpeek nofun, Input.tokens_of_expect hexpect nofun]
    exact .key key _
  · next n hpeek =>
    obtain ⟨i, hplace, h⟩ := bind_eq_ok_iff.mp h
    obtain ⟨rest', hexpect, heq⟩ := bind_eq_ok_iff.mp h
    obtain ⟨rfl, rfl⟩ := Prod.mk.inj (Except.ok.inj heq)
    rw [Input.tokens_of_peek hpeek nofun, Input.tokens_of_expect hexpect nofun]
    exact .place (readPlace_eq_ok_iff.mp hplace) _
  · next hpeek =>
    split at h
    · next n hnumber =>
      obtain ⟨i, hplace, h⟩ := bind_eq_ok_iff.mp h
      obtain ⟨rest', hexpect, heq⟩ := bind_eq_ok_iff.mp h
      obtain ⟨rfl, rfl⟩ := Prod.mk.inj (Except.ok.inj heq)
      rw [Input.tokens_of_peek hpeek nofun, Input.tokens_of_peek hnumber nofun,
        Input.tokens_of_expect hexpect nofun]
      exact .negative (readPlace_eq_ok_iff.mp hplace) _
    · simp [Input.fail] at h
  · simp [Input.fail] at h

theorem ReadsBracket.exists_readBracket (h : ReadsBracket us e vs) (hts : ts.tokens = us) :
    ∃ rest, readBracket ts = .ok (e, rest) ∧ rest.tokens = vs := by
  cases h with
  | iterate =>
      refine ⟨ts.tail, ?_, Input.tail_of_tokens hts⟩
      rw [readBracket, Input.peek_of_tokens hts]
  | key name =>
      obtain ⟨rest, hexpect, hrest⟩ := Input.exists_expect (Input.tail_of_tokens hts)
      refine ⟨rest, ?_, hrest⟩
      simp only [readBracket, Input.peek_of_tokens hts, hexpect]
      rfl
  | place integral =>
      obtain ⟨rest, hexpect, hrest⟩ := Input.exists_expect (Input.tail_of_tokens hts)
      refine ⟨rest, ?_, hrest⟩
      simp only [readBracket, Input.peek_of_tokens hts, readPlace_eq_ok_iff.mpr integral, hexpect]
      rfl
  | negative integral =>
      have htail := Input.tail_of_tokens hts
      obtain ⟨rest, hexpect, hrest⟩ := Input.exists_expect (Input.tail_of_tokens htail)
      refine ⟨rest, ?_, hrest⟩
      simp only [readBracket, Input.peek_of_tokens hts, Input.peek_of_tokens htail,
        readPlace_eq_ok_iff.mpr integral, hexpect]
      rfl

theorem ReadsBracket.length_lt (h : ReadsBracket us e vs) : vs.length < us.length := by
  cases h <;> simp only [List.length_cons] <;> omega

theorem ReadsSelector.length_lt (h : ReadsSelector us e vs) : vs.length < us.length := by
  cases h with
  | word | quoted =>
      simp only [List.length_cons]
      omega
  | bracket inside =>
      have := inside.length_lt
      simp only [List.length_cons]
      omega

theorem readsSelector_of_readDotSuffix (hdot : ts.peek = .dot)
    (h : readDotSuffix ts.tail = .ok (e, rest)) : ReadsSelector ts.tokens e rest.tokens := by
  rw [Input.tokens_of_peek hdot nofun]
  rw [readDotSuffix] at h
  split at h
  · next name hpeek =>
    obtain ⟨rfl, rfl⟩ := Prod.mk.inj (Except.ok.inj h)
    rw [Input.tokens_of_peek hpeek nofun]
    exact .quoted name _
  · next hpeek =>
    rw [Input.tokens_of_peek hpeek nofun]
    exact .bracket (readsBracket_of_readBracket h)
  · simp [Input.fail] at h

/-- A selector is a word, or it starts with a dot of its own. -/
theorem ReadsSelector.word_or_dot (h : ReadsSelector us e vs) :
    (∃ name, us = .field name :: vs ∧ e = .field name) ∨ ∃ ws, us = .dot :: ws := by
  cases h with
  | word name => exact .inl ⟨name, rfl, rfl⟩
  | quoted | bracket => exact .inr ⟨_, rfl⟩

theorem ReadsSelector.exists_readDotSuffix (h : ReadsSelector (.dot :: us) e vs)
    (hts : ts.tokens = us) :
    opensDotSuffix ts.peek = true ∧
      ∃ rest, readDotSuffix ts = .ok (e, rest) ∧ rest.tokens = vs := by
  cases h with
  | quoted name =>
      have hpeek := Input.peek_of_tokens hts
      refine ⟨by rw [hpeek]; rfl, ts.tail, ?_, Input.tail_of_tokens hts⟩
      rw [readDotSuffix, hpeek]
  | bracket inside =>
      have hpeek := Input.peek_of_tokens hts
      refine ⟨by rw [hpeek]; rfl, ?_⟩
      rw [readDotSuffix, hpeek]
      exact inside.exists_readBracket (Input.tail_of_tokens hts)

end Selectors

/-! ## The rules -/

/-- The height of a level, the lowest being one. -/
def Rank.level : Rank → Nat
  | pipe => 1
  | comma => 2
  | or => 3
  | and => 4
  | comparison => 5
  | suffix => 6

/-- The levels whose operators group to the left. -/
def Rank.groupsLeft : Rank → Bool
  | comma | or | and => true
  | pipe | comparison | suffix => false

/-- Whether a selector or a question mark comes next. -/
def goesOn (ts : List Token) : Bool :=
  match nextToken ts with
  | .field _ | .leftBracket | .question => true
  | .dot => opensDotSuffix (nextToken ts.tail)
  | _ => false

/-- The value that a token stands for. -/
def Token.literal? : Token → Option Json
  | .null => some .null
  | .bool b => some (.bool b)
  | .number n => some (literalNumber n)
  | .string s => some (.string s)
  | _ => none

/-- The number with the other sign; the sign of an infinity is dropped with its value. -/
def negated : Binary64 → Binary64
  | .finite x => .finite x.negate
  | n => n

/-- The parts of a filter. -/
inductive Part where
  /-- An expression of a level of precedence. -/
  | whole (r : Rank)
  /-- What follows the first operand of a level. -/
  | joined (r : Rank) (left : Expr)
  /-- What follows an expression that no operator joins. -/
  | suffixed (e : Expr)
  /-- An expression that no operator joins, without what follows. -/
  | primary

/-- The expression of a part with what was read before, and the tokens that are left. -/
inductive Reads : Part → List Token → Expr → List Token → Prop
  | suffix {ts e us e' rest} (first : Reads .primary ts e us)
      (more : Reads (.suffixed e) us e' rest) : Reads (.whole .suffix) ts e' rest
  | operand {ts e rest} (alone : Reads (.whole .suffix) ts e rest)
      (stop : Comparison.ofToken? (nextToken rest) = none) : Reads (.whole .comparison) ts e rest
  | compare {ts l t op us r rest} (left : Reads (.whole .suffix) ts l (t :: us))
      (known : Comparison.ofToken? t = some op) (right : Reads (.whole .suffix) us r rest) :
      Reads (.whole .comparison) ts (.compare op l r) rest
  | last {ts e rest} (alone : Reads (.whole .comma) ts e rest) (stop : nextToken rest ≠ .pipe) :
      Reads (.whole .pipe) ts e rest
  | pipe {ts l us r rest} (left : Reads (.whole .comma) ts l (.pipe :: us))
      (right : Reads (.whole .pipe) us r rest) : Reads (.whole .pipe) ts (.pipe l r) rest
  | first {r ts e us e' rest} (groups : r.groupsLeft = true) (left : Reads (.whole r.next) ts e us)
      (more : Reads (.joined r e) us e' rest) : Reads (.whole r) ts e' rest
  | done {r e ts} (stop : r.joins? (nextToken ts) = none) : Reads (.joined r e) ts e ts
  | join {r t join e ts e' us e'' rest} (known : r.joins? t = some join)
      (right : Reads (.whole r.next) ts e' us) (more : Reads (.joined r (join e e')) us e'' rest) :
      Reads (.joined r e) (t :: ts) e'' rest
  | unsuffixed {e ts} (stop : goesOn ts = false) : Reads (.suffixed e) ts e ts
  | select {e ts s us e' rest} (selector : ReadsSelector ts s us)
      (more : Reads (.suffixed (e.pipeInto s)) us e' rest) : Reads (.suffixed e) ts e' rest
  | bracket {e ts s us e' rest} (inside : ReadsBracket ts s us)
      (more : Reads (.suffixed (e.pipeInto s)) us e' rest) :
      Reads (.suffixed e) (.leftBracket :: ts) e' rest
  | question {e ts e' rest} (more : Reads (.suffixed (.attempt e)) ts e' rest) :
      Reads (.suffixed e) (.question :: ts) e' rest
  | identity {ts} (stop : opensDotSuffix (nextToken ts) = false) :
      Reads .primary (.dot :: ts) .identity ts
  | selector {ts s rest} (selector : ReadsSelector ts s rest) : Reads .primary ts s rest
  | literal {t v} (known : t.literal? = some v) (ts : List Token) :
      Reads .primary (t :: ts) (.literal v) ts
  | negative (n : Binary64) (ts : List Token) :
      Reads .primary (.minus :: .number n :: ts) (.literal (literalNumber (negated n))) ts
  | parens {ts e rest} (inside : Reads (.whole .pipe) ts e (.rightParen :: rest)) :
      Reads .primary (.leftParen :: ts) e rest
  | empty (ts : List Token) :
      Reads .primary (.leftBracket :: .rightBracket :: ts) (.literal (.array [])) ts
  | collect {ts e rest} (filled : nextToken ts ≠ .rightBracket)
      (inside : Reads (.whole .pipe) ts e (.rightBracket :: rest)) :
      Reads .primary (.leftBracket :: ts) (.collect e) rest
  | call {name e ts} (known : Expr.call? name [] = some e) (stop : nextToken ts ≠ .leftParen) :
      Reads .primary (.identifier name :: ts) e ts
  | apply {name arg e ts rest} (inside : Reads (.whole .pipe) ts arg (.rightParen :: rest))
      (known : Expr.call? name [arg] = some e) :
      Reads .primary (.identifier name :: .leftParen :: ts) e rest

/-- How many tokens a part has at least. -/
def Part.least : Part → Nat
  | whole _ | primary => 1
  | joined _ _ | suffixed _ => 0

/-- Tokens that are read are taken. -/
theorem Reads.length_add_least_le {p : Part} {us vs : List Token} {e : Expr}
    (h : Reads p us e vs) : vs.length + p.least ≤ us.length := by
  induction h with
  | done | unsuffixed => exact Nat.le_refl _
  | select selector _ ih =>
      have := selector.length_lt
      simp only [Part.least] at ih ⊢
      omega
  | bracket inside _ ih =>
      have := inside.length_lt
      simp only [Part.least, List.length_cons] at ih ⊢
      omega
  | selector selector => exact selector.length_lt
  | suffix | operand | compare | last | pipe | first | join | question | identity | literal |
      negative | parens | empty | collect | call | apply =>
      simp only [Part.least, List.length_cons] at *
      omega

/-- No filter starts with a closing bracket. -/
theorem Reads.ne_rightBracket {p : Part} {us vs : List Token} {e : Expr} (h : Reads p us e vs)
    (hp : p.least = 1) : nextToken us ≠ .rightBracket := by
  induction h with
  | suffix _ _ ih | operand _ _ ih | compare _ _ _ ih | last _ _ ih
  | pipe _ _ ih | first _ _ _ ih => exact ih rfl
  | done | join | unsuffixed | select | bracket | question => exact absurd hp Nat.zero_ne_one
  | selector selector => cases selector <;> exact nofun
  | literal known =>
      rintro rfl
      cases known
  | identity | negative | parens | empty | collect | call | apply => exact nofun

end Distill.Filter

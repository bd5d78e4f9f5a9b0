import Distill.Proofs.Filter.Grammar
import Distill.Proofs.Filter.Lexing

/-!
# Reading filters

The functions that read a filter find exactly the expressions that follow the rules of the
grammar. Every call takes a token or goes to a deeper level of precedence, so that the bound on
the depth of calls is never met.

## Main definitions

* `Filter.Part.parse` — what the reader finds for a part.
* `Filter.Part.cost` — how deep calls go until a token is taken.

## Main statements

* `Filter.reads_of_parse` — what is read follows the rules.
* `Filter.Reads.exists_parse` — what follows the rules is read.
* `Filter.Expr.parse_eq_ok_iff` — the expression of a text.
-/

namespace Distill.Filter

/-- What the reader finds for a part, within a bound on the depth of calls. -/
def Part.parse (fuel : Nat) : Part → Input → Except SyntaxError (Expr × Input)
  | whole r => parseAt fuel r
  | joined r left => parseJoined fuel r left
  | suffixed e => parseSuffixes fuel e
  | primary => parsePrimary fuel

/-! ## What is read follows the rules -/

section Soundness

variable {fuel : Nat} {r : Rank} {ts rest : Input} {e e' : Expr}

/-- What is read within the bound follows the rules. -/
private def Sound (fuel : Nat) : Prop :=
  ∀ ⦃p : Part⦄ ⦃ts : Input⦄ ⦃e : Expr⦄ ⦃rest : Input⦄,
    p.parse fuel ts = .ok (e, rest) → Reads p ts.tokens e rest.tokens

private theorem Sound.first (ih : Sound fuel) (groups : r.groupsLeft = true)
    (h : (do
      let (left, rest) ← parseAt fuel r.next ts
      parseJoined fuel r left rest) = .ok (e, rest)) :
    Reads (.whole r) ts.tokens e rest.tokens := by
  obtain ⟨⟨left, us⟩, hleft, hmore⟩ := bind_eq_ok_iff.mp h
  exact .first groups (ih (p := .whole r.next) hleft) (ih (p := .joined r left) hmore)

private theorem Sound.parseAt (ih : Sound fuel) (h : parseAt (fuel + 1) r ts = .ok (e, rest)) :
    Reads (.whole r) ts.tokens e rest.tokens := by
  cases r with
  | pipe =>
      obtain ⟨⟨left, us⟩, hleft, h⟩ := bind_eq_ok_iff.mp h
      have hleft := ih (p := .whole .comma) hleft
      dsimp only at h
      split at h
      · next hpipe =>
        obtain ⟨⟨right, vs⟩, hright, heq⟩ := bind_eq_ok_iff.mp h
        obtain ⟨rfl, rfl⟩ := Prod.mk.inj (Except.ok.inj heq)
        rw [Input.tokens_of_peek hpipe nofun] at hleft
        exact .pipe hleft (ih (p := .whole .pipe) hright)
      · next hpipe =>
        obtain ⟨rfl, rfl⟩ := Prod.mk.inj (Except.ok.inj h)
        exact .last hleft (by rwa [Input.nextToken_tokens])
  | comma | or | and => exact ih.first rfl h
  | comparison =>
      obtain ⟨⟨left, us⟩, hleft, h⟩ := bind_eq_ok_iff.mp h
      have hleft := ih (p := .whole .suffix) hleft
      dsimp only at h
      split at h
      · next hstop =>
        obtain ⟨rfl, rfl⟩ := Prod.mk.inj (Except.ok.inj h)
        exact .operand hleft (by rwa [Input.nextToken_tokens])
      · next op hop =>
        obtain ⟨⟨right, vs⟩, hright, heq⟩ := bind_eq_ok_iff.mp h
        obtain ⟨rfl, rfl⟩ := Prod.mk.inj (Except.ok.inj heq)
        have hne : us.peek ≠ .finish := by
          intro hpeek
          simp [hpeek, Comparison.ofToken?] at hop
        rw [Input.tokens_of_peek rfl hne] at hleft
        exact .compare hleft hop (ih (p := .whole .suffix) hright)
  | suffix =>
      obtain ⟨⟨first, us⟩, hfirst, hmore⟩ := bind_eq_ok_iff.mp h
      exact .suffix (ih (p := .primary) hfirst) (ih (p := .suffixed first) hmore)

private theorem Sound.parseJoined (ih : Sound fuel)
    (h : parseJoined (fuel + 1) r e ts = .ok (e', rest)) :
    Reads (.joined r e) ts.tokens e' rest.tokens := by
  rw [Filter.parseJoined] at h
  split at h
  · next hstop =>
    obtain ⟨rfl, rfl⟩ := Prod.mk.inj (Except.ok.inj h)
    exact .done (by rwa [Input.nextToken_tokens])
  · next join hjoin =>
    obtain ⟨⟨right, us⟩, hright, hmore⟩ := bind_eq_ok_iff.mp h
    have hne : ts.peek ≠ .finish := by
      intro hpeek
      cases r <;> simp [hpeek, Rank.joins?] at hjoin
    rw [Input.tokens_of_peek rfl hne]
    exact .join hjoin (ih (p := .whole r.next) hright) (ih (p := .joined r (join e right)) hmore)

private theorem Sound.parseSuffixes (ih : Sound fuel)
    (h : parseSuffixes (fuel + 1) e ts = .ok (e', rest)) :
    Reads (.suffixed e) ts.tokens e' rest.tokens := by
  rw [Filter.parseSuffixes] at h
  split at h
  · next name hpeek =>
    rw [Input.tokens_of_peek hpeek nofun]
    exact .select (.word name _) (ih (p := .suffixed (e.pipeInto (.field name))) h)
  · next hpeek =>
    split at h
    · obtain ⟨⟨s, us⟩, hselector, hmore⟩ := bind_eq_ok_iff.mp h
      exact .select (readsSelector_of_readDotSuffix hpeek hselector)
        (ih (p := .suffixed (e.pipeInto s)) hmore)
    · next hstop =>
      obtain ⟨rfl, rfl⟩ := Prod.mk.inj (Except.ok.inj h)
      refine .unsuffixed ?_
      rw [Input.tokens_of_peek hpeek nofun]
      exact Bool.of_not_eq_true (by rwa [← Input.nextToken_tokens] at hstop)
  · next hpeek =>
    obtain ⟨⟨s, us⟩, hinside, hmore⟩ := bind_eq_ok_iff.mp h
    rw [Input.tokens_of_peek hpeek nofun]
    exact .bracket (readsBracket_of_readBracket hinside) (ih (p := .suffixed (e.pipeInto s)) hmore)
  · next hpeek =>
    rw [Input.tokens_of_peek hpeek nofun]
    exact .question (ih (p := .suffixed (.attempt e)) h)
  · next hfield hdot hbracket hquestion =>
    obtain ⟨rfl, rfl⟩ := Prod.mk.inj (Except.ok.inj h)
    refine .unsuffixed ?_
    rw [goesOn, Input.nextToken_tokens]
    split
    · next name hpeek => exact absurd hpeek (hfield name)
    · next hpeek => exact absurd hpeek hbracket
    · next hpeek => exact absurd hpeek hquestion
    · next hpeek => exact absurd hpeek hdot
    · rfl

/-- Of several arguments only the first is known to be one; no function takes more. -/
private theorem exists_of_parseArgs {args : List Expr}
    (h : parseArgs fuel ts = .ok (args, rest)) :
    ∃ arg more, args = arg :: more ∧
      (more = [] → ∃ n, fuel = n + 1 ∧ parseAt n .pipe ts = .ok (arg, rest)) := by
  induction fuel generalizing ts args rest with
  | zero => simp [parseArgs, Input.fail] at h
  | succ n ih =>
      obtain ⟨⟨arg, us⟩, harg, h⟩ := bind_eq_ok_iff.mp h
      dsimp only at h
      split at h
      · obtain ⟨⟨args', vs⟩, hargs, heq⟩ := bind_eq_ok_iff.mp h
        obtain ⟨rfl, rfl⟩ := Prod.mk.inj (Except.ok.inj heq)
        refine ⟨arg, args', rfl, ?_⟩
        rintro rfl
        obtain ⟨_, _, hcons, _⟩ := ih hargs
        cases hcons
      · obtain ⟨rfl, rfl⟩ := Prod.mk.inj (Except.ok.inj h)
        exact ⟨arg, [], rfl, fun _ => ⟨n, rfl, harg⟩⟩

private theorem resolve_eq_ok_iff {name : String} {args : List Expr} :
    resolve name args ts = .ok (e, rest) ↔ Expr.call? name args = some e ∧ ts = rest := by
  rw [resolve]
  split
  · next e' h => simp [h]
  · next h => simp [h, Input.fail]

private theorem parsePrimary_call (ih : ∀ n ≤ fuel, Sound n) {name : String}
    (hname : ts.peek = .identifier name) (hparen : Input.peek ts.tail = .leftParen)
    (h : (do
      let (args, us) ← parseArgs fuel ts.tail.tail
      let us ← us.expect .rightParen
      resolve name args us) = .ok (e, rest)) : Reads .primary ts.tokens e rest.tokens := by
  obtain ⟨⟨args, us⟩, hargs, h⟩ := bind_eq_ok_iff.mp h
  obtain ⟨vs, hexpect, h⟩ := bind_eq_ok_iff.mp h
  obtain ⟨hcall, rfl⟩ := resolve_eq_ok_iff.mp h
  obtain ⟨arg, more, rfl, hone⟩ := exists_of_parseArgs hargs
  cases more with
  | cons => simp [Expr.call?] at hcall
  | nil =>
      obtain ⟨n, rfl, harg⟩ := hone rfl
      have hinside := ih n (Nat.le_succ n) (p := .whole .pipe) harg
      rw [Input.tokens_of_expect hexpect nofun] at hinside
      rw [Input.tokens_of_peek hname nofun, Input.tokens_of_peek hparen nofun]
      exact .apply hinside hcall

/-- A number behind a minus sign. -/
private theorem parsePrimary_minus (hminus : ts.peek = .minus)
    (h : parsePrimary (fuel + 1) ts = .ok (e, rest)) : Reads .primary ts.tokens e rest.tokens := by
  rw [Input.tokens_of_peek hminus nofun]
  cases hnumber : Input.peek ts.tail with
  | number n =>
      rw [Input.tokens_of_peek hnumber nofun]
      cases n with
      | finite x =>
          simp only [parsePrimary, hminus, hnumber] at h
          obtain ⟨rfl, rfl⟩ := Prod.mk.inj (Except.ok.inj h)
          exact .negative (.finite x) _
      | infinite neg =>
          simp only [parsePrimary, hminus, hnumber] at h
          obtain ⟨rfl, rfl⟩ := Prod.mk.inj (Except.ok.inj h)
          exact .negative (.infinite neg) _
      | nan =>
          simp only [parsePrimary, hminus, hnumber] at h
          obtain ⟨rfl, rfl⟩ := Prod.mk.inj (Except.ok.inj h)
          exact .negative .nan _
  | _ => simp [parsePrimary, hminus, hnumber, Input.fail] at h

private theorem Sound.parsePrimary (ih : ∀ n ≤ fuel, Sound n)
    (h : parsePrimary (fuel + 1) ts = .ok (e, rest)) : Reads .primary ts.tokens e rest.tokens := by
  cases hpeek : ts.peek with
  | dot =>
      simp only [Filter.parsePrimary, hpeek] at h
      split at h
      · exact .selector (readsSelector_of_readDotSuffix hpeek h)
      · next hstop =>
        obtain ⟨rfl, rfl⟩ := Prod.mk.inj (Except.ok.inj h)
        rw [Input.tokens_of_peek hpeek nofun]
        exact .identity (Bool.of_not_eq_true (by rwa [← Input.nextToken_tokens] at hstop))
  | field name =>
      simp only [Filter.parsePrimary, hpeek] at h
      obtain ⟨rfl, rfl⟩ := Prod.mk.inj (Except.ok.inj h)
      rw [Input.tokens_of_peek hpeek nofun]
      exact .selector (.word name _)
  | null | bool | number | string =>
      simp only [Filter.parsePrimary, hpeek] at h
      obtain ⟨rfl, rfl⟩ := Prod.mk.inj (Except.ok.inj h)
      rw [Input.tokens_of_peek hpeek nofun]
      exact .literal rfl _
  | minus => exact parsePrimary_minus hpeek h
  | leftParen =>
      simp only [Filter.parsePrimary, hpeek] at h
      obtain ⟨⟨e', us⟩, hinside, h⟩ := bind_eq_ok_iff.mp h
      obtain ⟨vs, hexpect, heq⟩ := bind_eq_ok_iff.mp h
      obtain ⟨rfl, rfl⟩ := Prod.mk.inj (Except.ok.inj heq)
      have hinside := ih fuel le_rfl (p := .whole .pipe) hinside
      rw [Input.tokens_of_expect hexpect nofun] at hinside
      rw [Input.tokens_of_peek hpeek nofun]
      exact .parens hinside
  | leftBracket =>
      simp only [Filter.parsePrimary, hpeek] at h
      rw [Input.tokens_of_peek hpeek nofun]
      split at h
      · next hclose =>
        obtain ⟨rfl, rfl⟩ := Prod.mk.inj (Except.ok.inj h)
        rw [Input.tokens_of_peek hclose nofun]
        exact .empty _
      · next hfilled =>
        obtain ⟨⟨e', us⟩, hinside, h⟩ := bind_eq_ok_iff.mp h
        obtain ⟨vs, hexpect, heq⟩ := bind_eq_ok_iff.mp h
        obtain ⟨rfl, rfl⟩ := Prod.mk.inj (Except.ok.inj heq)
        have hinside := ih fuel le_rfl (p := .whole .pipe) hinside
        rw [Input.tokens_of_expect hexpect nofun] at hinside
        exact .collect (by rwa [Input.nextToken_tokens]) hinside
  | identifier name =>
      simp only [Filter.parsePrimary, hpeek] at h
      split at h
      · next hparen => exact parsePrimary_call ih hpeek hparen h
      · next hstop =>
        obtain ⟨hcall, rfl⟩ := resolve_eq_ok_iff.mp h
        rw [Input.tokens_of_peek hpeek nofun]
        exact .call hcall (by rwa [Input.nextToken_tokens])
  | _ => simp [Filter.parsePrimary, hpeek, Input.fail] at h

private theorem sound (fuel : Nat) : Sound fuel := by
  induction fuel using Nat.strongRecOn with
  | ind fuel ih =>
      intro p ts e rest h
      cases fuel with
      | zero =>
          cases p <;> simp [Part.parse, Filter.parseAt, Filter.parseJoined, Filter.parseSuffixes,
            Filter.parsePrimary, Input.fail] at h
      | succ fuel =>
          have hfuel := ih fuel (Nat.lt_succ_self fuel)
          cases p with
          | whole r => exact hfuel.parseAt h
          | joined r left => exact hfuel.parseJoined h
          | suffixed e => exact hfuel.parseSuffixes h
          | primary => exact Sound.parsePrimary (fun n hn => ih n (Nat.lt_succ_of_le hn)) h

/-- **What is read follows the rules.** -/
theorem reads_of_parse {p : Part} (h : p.parse fuel ts = .ok (e, rest)) :
    Reads p ts.tokens e rest.tokens := sound fuel h

end Soundness

/-! ## What follows the rules is read -/

/-- How deep calls go until a token is taken. -/
def Part.cost : Part → Nat
  | whole .pipe => 7
  | whole .comma => 6
  | whole .or => 5
  | whole .and => 4
  | whole .comparison => 3
  | whole .suffix => 2
  | joined _ _ | suffixed _ | primary => 1

theorem Part.cost_pos (p : Part) : 0 < p.cost := by
  cases p with
  | whole r => cases r <;> decide
  | joined | suffixed | primary => exact Nat.one_pos

theorem Part.cost_next {r : Rank} (h : r.groupsLeft = true) :
    (whole r).cost = (whole r.next).cost + 1 := by
  cases r <;> first | rfl | exact absurd h Bool.false_ne_true

theorem Part.cost_whole_next_le (r : Rank) : (whole r.next).cost ≤ 6 := by
  cases r <;> decide

section Completeness

variable {p : Part} {us vs : List Token} {e : Expr}

/-- The reader finds the expression of a part when the bound on the depth of calls leaves room
for every token. -/
private def Found (p : Part) (us : List Token) (e : Expr) (vs : List Token) : Prop :=
  ∀ ⦃n : Nat⦄ ⦃ts : Input⦄, ts.tokens = us → p.cost + 7 * us.length ≤ n + 1 →
    ∃ rest, p.parse (n + 1) ts = .ok (e, rest) ∧ rest.tokens = vs

/-- A part that is read by one that has a deeper bound. -/
private theorem Found.parse (h : Found p us e vs) {n : Nat} {ts : Input} (hts : ts.tokens = us)
    (hfuel : p.cost + 7 * us.length ≤ n) :
    ∃ rest, p.parse n ts = .ok (e, rest) ∧ rest.tokens = vs := by
  have hpos := p.cost_pos
  obtain ⟨n, rfl⟩ := Nat.exists_eq_add_one.mpr (show 0 < n by omega)
  exact h hts hfuel

section Levels

variable {r : Rank} {ts rest : List Token} {l right e' : Expr} {t : Token}

private theorem Found.suffix (first : Reads .primary ts e us) (hfirst : Found .primary ts e us)
    (hmore : Found (.suffixed e) us e' rest) : Found (.whole .suffix) ts e' rest := by
  intro n input hinput hfuel
  have hlength := first.length_add_least_le
  simp only [Part.cost, Part.least] at hfuel hlength
  obtain ⟨left, hfirst, hleft⟩ := hfirst.parse hinput (n := n) (by simp only [Part.cost]; omega)
  obtain ⟨left', hmore, hleft'⟩ := hmore.parse hleft (n := n) (by simp only [Part.cost]; omega)
  refine ⟨left', ?_, hleft'⟩
  simp only [Part.parse, parseAt] at hfirst ⊢
  rw [hfirst]
  exact hmore

private theorem Found.operand (found : Found (.whole .suffix) ts e rest)
    (stop : Comparison.ofToken? (nextToken rest) = none) :
    Found (.whole .comparison) ts e rest := by
  intro n input hinput hfuel
  simp only [Part.cost] at hfuel
  obtain ⟨left, halone, rfl⟩ := found.parse hinput (n := n) (by simp only [Part.cost]; omega)
  rw [Input.nextToken_tokens] at stop
  refine ⟨left, ?_, rfl⟩
  simp only [Part.parse, parseAt] at halone ⊢
  simp only [halone, bind, Except.bind, stop]
  rfl

private theorem Found.compare {op : Comparison} (first : Reads (.whole .suffix) ts l (t :: us))
    (hfirst : Found (.whole .suffix) ts l (t :: us)) (known : Comparison.ofToken? t = some op)
    (hright : Found (.whole .suffix) us right rest) :
    Found (.whole .comparison) ts (.compare op l right) rest := by
  intro n input hinput hfuel
  have hlength := first.length_add_least_le
  simp only [Part.cost, Part.least, List.length_cons] at hfuel hlength
  obtain ⟨left, hfirst, hleft⟩ := hfirst.parse hinput (n := n) (by simp only [Part.cost]; omega)
  obtain ⟨left', hright, hleft'⟩ :=
    hright.parse (Input.tail_of_tokens hleft) (n := n) (by simp only [Part.cost]; omega)
  refine ⟨left', ?_, hleft'⟩
  simp only [Part.parse, parseAt] at hfirst hright ⊢
  simp only [hfirst, hright, bind, Except.bind, Input.peek_of_tokens hleft, known]
  rfl

private theorem Found.last (found : Found (.whole .comma) ts e rest)
    (stop : nextToken rest ≠ .pipe) : Found (.whole .pipe) ts e rest := by
  intro n input hinput hfuel
  simp only [Part.cost] at hfuel
  obtain ⟨left, halone, rfl⟩ := found.parse hinput (n := n) (by simp only [Part.cost]; omega)
  rw [Input.nextToken_tokens] at stop
  refine ⟨left, ?_, rfl⟩
  simp only [Part.parse, parseAt] at halone ⊢
  simp only [halone, bind, Except.bind, stop, if_false]
  rfl

private theorem Found.pipe (first : Reads (.whole .comma) ts l (.pipe :: us))
    (hfirst : Found (.whole .comma) ts l (.pipe :: us))
    (hright : Found (.whole .pipe) us right rest) :
    Found (.whole .pipe) ts (.pipe l right) rest := by
  intro n input hinput hfuel
  have hlength := first.length_add_least_le
  simp only [Part.cost, Part.least, List.length_cons] at hfuel hlength
  obtain ⟨left, hfirst, hleft⟩ := hfirst.parse hinput (n := n) (by simp only [Part.cost]; omega)
  obtain ⟨left', hright, hleft'⟩ :=
    hright.parse (Input.tail_of_tokens hleft) (n := n) (by simp only [Part.cost]; omega)
  refine ⟨left', ?_, hleft'⟩
  simp only [Part.parse, parseAt] at hfirst hright ⊢
  simp only [hfirst, hright, bind, Except.bind, Input.peek_of_tokens hleft, if_true]
  rfl

private theorem parseAt_of_groupsLeft (h : r.groupsLeft = true) (n : Nat) (ts : Input) :
    parseAt (n + 1) r ts = (do
      let (left, rest) ← parseAt n r.next ts
      parseJoined n r left rest) := by
  cases r <;> first | rfl | exact absurd h Bool.false_ne_true

private theorem Found.first (groups : r.groupsLeft = true)
    (first : Reads (.whole r.next) ts e us) (hfirst : Found (.whole r.next) ts e us)
    (hmore : Found (.joined r e) us e' rest) : Found (.whole r) ts e' rest := by
  intro n input hinput hfuel
  have hlength := first.length_add_least_le
  rw [Part.cost_next groups] at hfuel
  simp only [Part.least] at hlength
  obtain ⟨left, hfirst, hleft⟩ := hfirst.parse hinput (n := n) (by omega)
  obtain ⟨left', hmore, hleft'⟩ := hmore.parse hleft (n := n) (by simp only [Part.cost]; omega)
  refine ⟨left', ?_, hleft'⟩
  simp only [Part.parse, parseAt_of_groupsLeft groups] at hfirst ⊢
  rw [hfirst]
  exact hmore

private theorem Found.done (stop : r.joins? (nextToken ts) = none) :
    Found (.joined r e) ts e ts := by
  rintro n input rfl hfuel
  rw [Input.nextToken_tokens] at stop
  refine ⟨input, ?_, rfl⟩
  simp only [Part.parse, parseJoined, stop]

private theorem Found.join {join : Expr → Expr → Expr} (known : r.joins? t = some join)
    (first : Reads (.whole r.next) ts right us) (hfirst : Found (.whole r.next) ts right us)
    (hmore : Found (.joined r (join e right)) us e' rest) :
    Found (.joined r e) (t :: ts) e' rest := by
  intro n input hinput hfuel
  have hlength := first.length_add_least_le
  have hcost := Part.cost_whole_next_le r
  simp only [Part.cost, Part.least, List.length_cons] at hfuel hlength
  obtain ⟨left, hfirst, hleft⟩ := hfirst.parse (Input.tail_of_tokens hinput) (n := n) (by omega)
  obtain ⟨left', hmore, hleft'⟩ := hmore.parse hleft (n := n) (by simp only [Part.cost]; omega)
  refine ⟨left', ?_, hleft'⟩
  simp only [Part.parse, parseJoined] at hfirst ⊢
  simp only [Input.peek_of_tokens hinput, known, hfirst]
  exact hmore

end Levels

section Suffixes

variable {ts rest : List Token} {s e' : Expr}

private theorem Found.unsuffixed (stop : goesOn ts = false) : Found (.suffixed e) ts e ts := by
  rintro n input rfl hfuel
  refine ⟨input, ?_, rfl⟩
  rw [goesOn, Input.nextToken_tokens, ← Input.tokens_tail, Input.nextToken_tokens] at stop
  simp only [Part.parse, parseSuffixes]
  split <;> simp_all

private theorem Found.select (selector : ReadsSelector ts s us)
    (hmore : Found (.suffixed (e.pipeInto s)) us e' rest) : Found (.suffixed e) ts e' rest := by
  intro n input hinput hfuel
  have hlength := selector.length_lt
  simp only [Part.cost] at hfuel
  have hroom : (Part.suffixed (e.pipeInto s)).cost + 7 * us.length ≤ n := by
    simp only [Part.cost]
    omega
  rcases selector.word_or_dot with ⟨name, rfl, rfl⟩ | ⟨ws, rfl⟩
  · obtain ⟨left, hmore, hleft⟩ := hmore.parse (Input.tail_of_tokens hinput) hroom
    refine ⟨left, ?_, hleft⟩
    simp only [Part.parse, parseSuffixes, Input.peek_of_tokens hinput]
    exact hmore
  · obtain ⟨hopens, left, hselector, hleft⟩ :=
      selector.exists_readDotSuffix (Input.tail_of_tokens hinput)
    obtain ⟨left', hmore, hleft'⟩ := hmore.parse hleft hroom
    refine ⟨left', ?_, hleft'⟩
    simp only [Part.parse, parseSuffixes, Input.peek_of_tokens hinput, hopens, if_true, hselector]
    exact hmore

private theorem Found.bracket (inside : ReadsBracket ts s us)
    (hmore : Found (.suffixed (e.pipeInto s)) us e' rest) :
    Found (.suffixed e) (.leftBracket :: ts) e' rest := by
  intro n input hinput hfuel
  have hlength := inside.length_lt
  simp only [Part.cost, List.length_cons] at hfuel
  obtain ⟨left, hinside, hleft⟩ := inside.exists_readBracket (Input.tail_of_tokens hinput)
  obtain ⟨left', hmore, hleft'⟩ := hmore.parse hleft (n := n) (by simp only [Part.cost]; omega)
  refine ⟨left', ?_, hleft'⟩
  simp only [Part.parse, parseSuffixes, Input.peek_of_tokens hinput, hinside]
  exact hmore

private theorem Found.question (hmore : Found (.suffixed (.attempt e)) ts e' rest) :
    Found (.suffixed e) (.question :: ts) e' rest := by
  intro n input hinput hfuel
  simp only [Part.cost, List.length_cons] at hfuel
  obtain ⟨left, hmore, hleft⟩ :=
    hmore.parse (Input.tail_of_tokens hinput) (n := n) (by simp only [Part.cost]; omega)
  refine ⟨left, ?_, hleft⟩
  simp only [Part.parse, parseSuffixes, Input.peek_of_tokens hinput]
  exact hmore

end Suffixes

section Primary

variable {ts rest : List Token} {name : String} {arg : Expr}

private theorem Found.identity (stop : opensDotSuffix (nextToken ts) = false) :
    Found .primary (.dot :: ts) .identity ts := by
  intro n input hinput hfuel
  have htail := Input.tail_of_tokens hinput
  rw [← htail, Input.nextToken_tokens] at stop
  refine ⟨input.tail, ?_, htail⟩
  simp only [Part.parse, parsePrimary, Input.peek_of_tokens hinput, stop, Bool.false_eq_true,
    if_false]

private theorem Found.selector (selector : ReadsSelector ts e rest) :
    Found .primary ts e rest := by
  intro n input hinput hfuel
  rcases selector.word_or_dot with ⟨name, rfl, rfl⟩ | ⟨ws, rfl⟩
  · refine ⟨input.tail, ?_, Input.tail_of_tokens hinput⟩
    simp only [Part.parse, parsePrimary, Input.peek_of_tokens hinput]
  · obtain ⟨hopens, left, hselector, hleft⟩ :=
      selector.exists_readDotSuffix (Input.tail_of_tokens hinput)
    refine ⟨left, ?_, hleft⟩
    simp only [Part.parse, parsePrimary, Input.peek_of_tokens hinput, hopens, if_true, hselector]

private theorem Found.literal {t : Token} {v : Json} (known : t.literal? = some v) :
    Found .primary (t :: ts) (.literal v) ts := by
  intro n input hinput hfuel
  refine ⟨input.tail, ?_, Input.tail_of_tokens hinput⟩
  have hpeek := Input.peek_of_tokens hinput
  rw [Token.literal?.eq_def] at known
  split at known
  case h_5 => simp at known
  all_goals
    obtain rfl := Option.some.inj known
    simp only [Part.parse, parsePrimary, hpeek]

private theorem Found.negative (x : Binary64) :
    Found .primary (.minus :: .number x :: ts) (.literal (literalNumber (negated x))) ts := by
  intro n input hinput hfuel
  have htail := Input.tail_of_tokens hinput
  refine ⟨input.tail.tail, ?_, Input.tail_of_tokens htail⟩
  cases x <;> simp only [Part.parse, parsePrimary, Input.peek_of_tokens hinput,
    Input.peek_of_tokens htail] <;> rfl

private theorem Found.parens (found : Found (.whole .pipe) ts e (.rightParen :: rest)) :
    Found .primary (.leftParen :: ts) e rest := by
  intro n input hinput hfuel
  simp only [Part.cost, List.length_cons] at hfuel
  obtain ⟨left, hinside, hleft⟩ :=
    found.parse (Input.tail_of_tokens hinput) (n := n) (by simp only [Part.cost]; omega)
  obtain ⟨left', hexpect, hleft'⟩ := Input.exists_expect hleft
  refine ⟨left', ?_, hleft'⟩
  simp only [Part.parse, parsePrimary, Input.peek_of_tokens hinput] at hinside ⊢
  simp only [hinside, bind, Except.bind, hexpect]
  rfl

private theorem Found.empty :
    Found .primary (.leftBracket :: .rightBracket :: ts) (.literal (.array [])) ts := by
  intro n input hinput hfuel
  have htail := Input.tail_of_tokens hinput
  refine ⟨input.tail.tail, ?_, Input.tail_of_tokens htail⟩
  simp only [Part.parse, parsePrimary, Input.peek_of_tokens hinput, Input.peek_of_tokens htail,
    if_true]

private theorem Found.collect (filled : nextToken ts ≠ .rightBracket)
    (found : Found (.whole .pipe) ts e (.rightBracket :: rest)) :
    Found .primary (.leftBracket :: ts) (.collect e) rest := by
  intro n input hinput hfuel
  have htail := Input.tail_of_tokens hinput
  simp only [Part.cost, List.length_cons] at hfuel
  obtain ⟨left, hinside, hleft⟩ := found.parse htail (n := n) (by simp only [Part.cost]; omega)
  obtain ⟨left', hexpect, hleft'⟩ := Input.exists_expect hleft
  refine ⟨left', ?_, hleft'⟩
  rw [← htail, Input.nextToken_tokens] at filled
  simp only [Part.parse, parsePrimary, Input.peek_of_tokens hinput, filled, if_false] at hinside ⊢
  simp only [hinside, bind, Except.bind, hexpect]
  rfl

private theorem Found.call (known : Expr.call? name [] = some e)
    (stop : nextToken ts ≠ .leftParen) : Found .primary (.identifier name :: ts) e ts := by
  intro n input hinput hfuel
  have htail := Input.tail_of_tokens hinput
  refine ⟨input.tail, ?_, htail⟩
  rw [← htail, Input.nextToken_tokens] at stop
  simp only [Part.parse, parsePrimary, Input.peek_of_tokens hinput, stop, if_false, resolve, known]

private theorem parseArgs_eq {n : Nat} {input left : Input}
    (h : parseAt n .pipe input = .ok (arg, left)) (stop : left.peek ≠ .semicolon) :
    parseArgs (n + 1) input = .ok ([arg], left) := by
  simp only [parseArgs, h, bind, Except.bind, stop, if_false]
  rfl

private theorem Found.apply (found : Found (.whole .pipe) ts arg (.rightParen :: rest))
    (known : Expr.call? name [arg] = some e) :
    Found .primary (.identifier name :: .leftParen :: ts) e rest := by
  intro n input hinput hfuel
  have htail := Input.tail_of_tokens hinput
  simp only [Part.cost, List.length_cons] at hfuel
  obtain ⟨n, rfl⟩ := Nat.exists_eq_add_one.mpr (show 0 < n by omega)
  obtain ⟨left, hinside, hleft⟩ :=
    found.parse (Input.tail_of_tokens htail) (n := n) (by simp only [Part.cost]; omega)
  have hargs := parseArgs_eq hinside (by simp [Input.peek_of_tokens hleft])
  obtain ⟨left', hexpect, hleft'⟩ := Input.exists_expect hleft
  refine ⟨left', ?_, hleft'⟩
  simp only [Part.parse, parsePrimary, Input.peek_of_tokens hinput, Input.peek_of_tokens htail,
    if_true]
  simp only [hargs, bind, Except.bind, hexpect, resolve, known]

end Primary

private theorem Reads.found (h : Reads p us e vs) : Found p us e vs := by
  induction h with
  | suffix first _ hfirst hmore => exact .suffix first hfirst hmore
  | operand _ stop halone => exact .operand halone stop
  | compare left known _ hleft hright => exact .compare left hleft known hright
  | last _ stop halone => exact .last halone stop
  | pipe left _ hleft hright => exact .pipe left hleft hright
  | first groups left _ hleft hmore => exact .first groups left hleft hmore
  | done stop => exact .done stop
  | join known right _ hright hmore => exact .join known right hright hmore
  | unsuffixed stop => exact .unsuffixed stop
  | select selector _ hmore => exact .select selector hmore
  | bracket inside _ hmore => exact .bracket inside hmore
  | question _ hmore => exact .question hmore
  | identity stop => exact .identity stop
  | selector selector => exact .selector selector
  | literal known => exact .literal known
  | negative x => exact .negative x
  | parens _ hinside => exact .parens hinside
  | empty => exact .empty
  | collect filled _ hinside => exact .collect filled hinside
  | call known stop => exact .call known stop
  | apply _ known hinside => exact .apply hinside known

/-- **What follows the rules is read**, when the bound on the depth of calls leaves room for
every token. -/
theorem Reads.exists_parse (h : Reads p us e vs) {fuel : Nat} {ts : Input} (hts : ts.tokens = us)
    (hfuel : p.cost + 7 * us.length ≤ fuel) :
    ∃ rest, p.parse fuel ts = .ok (e, rest) ∧ rest.tokens = vs := h.found.parse hts hfuel

end Completeness

/-! ## Whole texts -/

/-- **The expression of a text**: its tokens are read as a whole, up to the end. -/
theorem Expr.parse_eq_ok_iff {s : String} {e : Expr} :
    Expr.parse s = .ok e ↔ ∃ ts rest, Lexes s.toList ts ∧ Reads (.whole .pipe) ts e rest ∧
      nextToken rest = .finish := by
  constructor
  · intro h
    obtain ⟨ls, hls, h⟩ := bind_eq_ok_iff.mp h
    obtain ⟨⟨e', left⟩, hread, h⟩ := bind_eq_ok_iff.mp h
    dsimp only at h
    split at h
    · next hfinish =>
      obtain rfl := Except.ok.inj h
      have hread : (Part.whole .pipe).parse (parseFuel ls) ls = .ok (e', left) := hread
      exact ⟨ls.map Lexeme.token, left.tokens, exists_tokenize_iff.mp ⟨ls, hls, rfl⟩,
        reads_of_parse hread, by rwa [Input.nextToken_tokens]⟩
    · simp [Input.fail] at h
  · rintro ⟨ts, rest, hlexes, hreads, hfinish⟩
    obtain ⟨ls, hls, hts⟩ := exists_tokenize_iff.mpr hlexes
    have hlength : ts.length = ls.length := by rw [← hts, List.length_map]
    have hroom : (Part.whole .pipe).cost + 7 * ts.length ≤ parseFuel ls := by
      simp only [Part.cost, parseFuel]
      omega
    obtain ⟨left, hread, hleft⟩ := hreads.exists_parse hts hroom
    rw [← hleft, Input.nextToken_tokens] at hfinish
    simp only [Part.parse] at hread
    simp only [Expr.parse, hls, bind, Except.bind, Expr.ofLexemes, hread, hfinish, if_true]
    rfl

end Distill.Filter

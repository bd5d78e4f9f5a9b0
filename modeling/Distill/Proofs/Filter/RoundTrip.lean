import Distill.Proofs.Filter.Precedence
import Distill.Proofs.Filter.Printing
import Distill.Proofs.Filter.Reading

/-!
# Reading what was written

The text of an expression reads back as the expression. Parentheses that the levels of
precedence do not require are left out, so that every operator has to take back exactly the
operands it was written with.

## Main definitions

* `Filter.Written` — characters that are read as an expression of a level.

## Main statements

* `Filter.Written.infix`, `Written.compare`, `Written.pipe` — operators between operands.
* `Filter.Written.parse` — what is written is accepted.
* `Filter.Expr.written` — the text of an expression at any level.
* `Filter.Expr.parse_text` — the text of an expression reads back as the expression.
-/

namespace Distill.Filter

/-- Whatever follows the characters, if it does not prolong their tokens, they are read as the
start of a filter with the expression. -/
def Written (r : Rank) (cs : List Char) (e : Expr) : Prop :=
  ∀ ⦃rest : List Char⦄ ⦃ts : List Token⦄, Parted rest → Lexes rest ts →
    ∃ us, Lexes (cs ++ rest) us ∧ Starts r us e ts

section Written

variable {r own : Rank} {cs ds op : List Char} {e left right : Expr} {t : Token}

theorem Written.lower {r' : Rank} (h : Written r cs e) (hle : r'.level ≤ r.level) :
    Written r' cs e := by
  intro rest ts hrest hlexes
  obtain ⟨us, hus, hstarts⟩ := h hrest hlexes
  exact ⟨us, hus, hstarts.lower hle⟩

/-- Characters whose tokens do not depend on what follows. -/
theorem Written.of_spells {us : List Token} (h : Spells cs us)
    (hreads : ∀ {ts}, Ends 7 ts → Reads .primary (us ++ ts) e ts) : Written .suffix cs e :=
  fun _ ts hrest hlexes => ⟨us ++ ts, h hrest hlexes, .of_primary hreads⟩

/-- An expression of the lowest level between brackets of some kind. -/
theorem Written.exists_closed {c : Char} {u : Token} (h : Written r cs e)
    (hclose : symbol? c = some u) (hparted : isWordChar c = false ∧ c ≠ '=' ∧ c ≠ '.')
    (hreach : u.reach? = some 0) {rest : List Char} {ts : List Token} (hlexes : Lexes rest ts) :
    ∃ us, Lexes (cs ++ c :: rest) us ∧ Reads (.whole .pipe) us e (u :: ts) := by
  obtain ⟨us, hus, hstarts⟩ := h (parted_cons hparted rest) (.token (.symbol hclose rest) hlexes)
  have hlow : Starts .pipe us e (u :: ts) := hstarts.lower (by cases r <;> decide)
  exact ⟨us, hus, hlow.reads (.of_reach hreach Nat.one_pos ts)⟩

/-- A text is read when its tokens start with an expression and nothing follows. -/
theorem Starts.parse {s : String} {us : List Token} (hlexes : Lexes s.toList us)
    (h : Starts .pipe us e [.finish]) : Expr.parse s = .ok e :=
  Expr.parse_eq_ok_iff.mpr
    ⟨us, [.finish], hlexes, h.reads (.of_reach rfl Nat.one_pos []), rfl⟩

/-- Characters with nothing behind them. -/
theorem Written.parse (h : Written r cs e) : Expr.parse (String.ofList cs) = .ok e := by
  obtain ⟨us, hus, hstarts⟩ := h parted_nil .finish
  rw [List.append_nil] at hus
  have hlow : Starts .pipe us e [.finish] := hstarts.lower (by cases r <;> decide)
  exact hlow.parse (by rwa [String.toList_ofList])

/-- Parentheses bring an expression to the highest level. -/
theorem Written.parens (h : Written r cs e) : Written .suffix ('(' :: (cs ++ [')'])) e := by
  intro rest ts hrest hlexes
  obtain ⟨us, hus, hreads⟩ := h.exists_closed (c := ')') rfl (by decide) rfl hlexes
  refine ⟨.leftParen :: us, ?_, .of_primary fun _ => .parens hreads⟩
  simpa using Lexes.token (.symbol (c := '(') rfl _) hus

/-- **Parentheses stand where the levels of precedence require them.** -/
theorem Written.enclosed (h : Written own cs e) (r : Rank) : Written r (enclosed r own cs) e := by
  rw [Filter.enclosed]
  split
  · exact h.parens.lower (by cases r <;> decide)
  · next hle => exact h.lower (Nat.le_of_not_lt hle)

/-! ## Operators -/

/-- An operator behind its first operand. -/
private theorem exists_infix (hop : ReadsToken op t []) (hleft : Written r cs left)
    {rest : List Char} {vs : List Token} (hlexes : Lexes (ds ++ rest) vs) :
    ∃ us, Lexes (infixChars cs op ds ++ rest) us ∧ Starts r us left (t :: vs) := by
  obtain ⟨us, hus, hstarts⟩ := hleft (parted_cons (by decide) _) (Lexes.spaced hop hlexes)
  exact ⟨us, by simpa [infixChars] using hus, hstarts⟩

theorem Written.pipe (hleft : Written .comma cs left) (hright : Written .pipe ds right) :
    Written .pipe (infixChars cs ['|'] ds) (.pipe left right) := by
  intro rest ts hrest hlexes
  obtain ⟨vs, hvs, hright⟩ := hright hrest hlexes
  obtain ⟨us, hus, hleft⟩ := exists_infix (.symbol (c := '|') rfl []) hleft hvs
  exact ⟨us, hus, hleft.pipe hright⟩

theorem Written.join {f : Expr → Expr → Expr} (groups : r.groupsLeft = true)
    (known : r.joins? t = some f) (hop : ReadsToken op t []) (hleft : Written r cs left)
    (hright : Written r.next ds right) : Written r (infixChars cs op ds) (f left right) := by
  intro rest ts hrest hlexes
  obtain ⟨vs, hvs, hright⟩ := hright hrest hlexes
  obtain ⟨us, hus, hleft⟩ := exists_infix hop hleft hvs
  exact ⟨us, hus, hleft.join groups known hright⟩

theorem Comparison.exists_readsToken (op : Comparison) :
    ∃ t, Comparison.ofToken? t = some op ∧ ReadsToken op.chars t [] := by
  cases op with
  | eq => exact ⟨.eq, rfl, .equation rfl []⟩
  | ne => exact ⟨.ne, rfl, .equation rfl []⟩
  | lt => exact ⟨.lt, rfl, .strict rfl nofun⟩
  | le => exact ⟨.le, rfl, .equation rfl []⟩
  | gt => exact ⟨.gt, rfl, .strict rfl nofun⟩
  | ge => exact ⟨.ge, rfl, .equation rfl []⟩

theorem Written.compare (op : Comparison) (hleft : Written .suffix cs left)
    (hright : Written .suffix ds right) :
    Written .comparison (infixChars cs op.chars ds) (.compare op left right) := by
  intro rest ts hrest hlexes
  obtain ⟨t, known, hop⟩ := op.exists_readsToken
  obtain ⟨vs, hvs, hright⟩ := hright hrest hlexes
  obtain ⟨us, hus, hleft⟩ := exists_infix hop hleft hvs
  exact ⟨us, hus, hleft.compare known hright⟩

theorem Written.attempt (h : Written .suffix cs e) :
    Written .suffix (cs ++ ['?']) (.attempt e) := by
  intro rest ts hrest hlexes
  obtain ⟨us, hus, hstarts⟩ :=
    h (parted_cons (by decide) rest) (.token (.symbol (c := '?') rfl rest) hlexes)
  exact ⟨us, by simpa using hus, hstarts.attempt⟩

theorem Written.collect (h : Written .pipe cs e) :
    Written .suffix ('[' :: (cs ++ [']'])) (.collect e) := by
  intro rest ts hrest hlexes
  obtain ⟨us, hus, hreads⟩ := h.exists_closed (c := ']') rfl (by decide) rfl hlexes
  have hfilled : nextToken us ≠ .rightBracket := hreads.ne_rightBracket rfl
  refine ⟨.leftBracket :: us, ?_, .of_primary fun _ => .collect hfilled hreads⟩
  simpa using Lexes.token (.symbol (c := '[') rfl _) hus

/-! ## Functions -/

theorem Nullary.readsToken_name (f : Nullary) :
    ReadsToken f.name.toList (.identifier f.name) [] := by
  have hword : isWord f.name.toList = true := by cases f <;> decide
  have htoken : wordToken f.name.toList = .identifier f.name := by cases f <;> rfl
  exact htoken ▸ readsToken_word hword

theorem Unary.readsToken_name (f : Unary) : ReadsToken f.name.toList (.identifier f.name) [] := by
  have hword : isWord f.name.toList = true := by
    cases f with
    | pairing f => cases f <;> decide
    | select | map | flatten => decide
  have htoken : wordToken f.name.toList = .identifier f.name := by
    cases f with
    | pairing f => cases f <;> rfl
    | select | map | flatten => rfl
  exact htoken ▸ readsToken_word hword

/-- Functions without an argument are known by their names. -/
theorem Nullary.call_name (f : Nullary) : Expr.call? f.name [] = some (.call f) := by
  cases f <;> rfl

/-- Functions of one argument are known by their names. -/
theorem Unary.call_name (f : Unary) (arg : Expr) :
    Expr.call? f.name [arg] = some (.apply f arg) := by
  cases f with
  | pairing f => cases f <;> rfl
  | select | map | flatten => rfl

/-- A name before an opening parenthesis. -/
theorem Written.apply (f : Unary) (h : Written .pipe cs e) :
    Written .suffix (f.name.toList ++ '(' :: (cs ++ [')'])) (.apply f e) := by
  intro rest ts hrest hlexes
  obtain ⟨us, hus, hreads⟩ := h.exists_closed (c := ')') rfl (by decide) rfl hlexes
  refine ⟨.identifier f.name :: .leftParen :: us, ?_,
    .of_primary fun _ => .apply hreads (f.call_name e)⟩
  have hopen : Lexes ('(' :: (cs ++ ')' :: rest)) (.leftParen :: us) := .token (.symbol rfl _) hus
  simpa using spells_token f.readsToken_name (parted_cons (by decide) _) hopen

end Written

/-! ## Leaves -/

namespace Expr

theorem IsSelector.written {e : Expr} (h : e.IsSelector) (r : Rank) :
    Written .suffix (e.chars r) e := by
  obtain ⟨us, hreads, hspells⟩ := h.exists_tokens r
  exact .of_spells (fun _ _ hrest hlexes => hspells hrest.isWordChar hlexes)
    fun _ => .selector (hreads _)

theorem written_identity : Written .suffix ['.'] .identity := by
  have hdot : ReadsToken ['.'] .dot [] := .dot nofun
  exact .of_spells (spells_token hdot) fun hends => .identity hends.opensDotSuffix_eq_false

theorem written_call (f : Nullary) : Written .suffix f.name.toList (.call f) :=
  .of_spells (spells_token f.readsToken_name) fun hends => .call f.call_name hends.ne_leftParen

theorem IsWritableLiteral.written {v : Json} (h : IsWritableLiteral v) :
    Written .suffix (literalChars v) (.literal v) := by
  match v, h with
  | .null, _ =>
      exact .of_spells (spells_token (t := .null) (readsToken_word (by decide)))
        fun _ => .literal rfl _
  | .bool true, _ =>
      exact .of_spells (spells_token (t := .bool true) (readsToken_word (by decide)))
        fun _ => .literal rfl _
  | .bool false, _ =>
      exact .of_spells (spells_token (t := .bool false) (readsToken_word (by decide)))
        fun _ => .literal rfl _
  | .string s, _ =>
      have hread := readsToken_quoted s []
      rw [List.append_nil] at hread
      exact .of_spells (spells_token hread) fun _ => .literal rfl _
  | .number (.int i), h =>
      obtain ⟨us, hspells, hreads⟩ := exists_spells_number h
      exact .of_spells hspells fun _ => hreads _
  | .array [], _ =>
      have hclose : ReadsToken [']'] .rightBracket [] := .symbol rfl []
      exact .of_spells (spells_symbol_cons (c := '[') rfl (spells_token hclose)) fun _ => .empty _

/-! ## Expressions -/

/-- **The text of an expression at any level is read as the expression.** -/
theorem written {e : Expr} (h : e.Writable) (r : Rank) : Written r (e.chars r) e := by
  induction e generalizing r with
  | identity => exact written_identity.lower (by cases r <;> decide)
  | field name =>
      exact (IsSelector.written (e := .field name) trivial r).lower (by cases r <;> decide)
  | index i => exact (IsSelector.written (e := .index i) h r).lower (by cases r <;> decide)
  | iterate => exact (IsSelector.written (e := .iterate) trivial r).lower (by cases r <;> decide)
  | literal v => exact (IsWritableLiteral.written h).lower (by cases r <;> decide)
  | call f => exact (written_call f).lower (by cases r <;> decide)
  | pipe left right ihLeft ihRight =>
      exact (Written.pipe (ihLeft h.1 .comma) (ihRight h.2 .pipe)).enclosed r
  | comma left right ihLeft ihRight =>
      exact (Written.join (f := .comma) rfl rfl (.symbol (c := ',') rfl [])
        (ihLeft h.1 .comma) (ihRight h.2 .or)).enclosed r
  | or left right ihLeft ihRight =>
      have hop : ReadsToken "or".toList (.identifier "or") [] := readsToken_word (by decide)
      exact (Written.join (f := .or) rfl rfl hop (ihLeft h.1 .or) (ihRight h.2 .and)).enclosed r
  | and left right ihLeft ihRight =>
      have hop : ReadsToken "and".toList (.identifier "and") [] := readsToken_word (by decide)
      exact (Written.join (f := .and) rfl rfl hop
        (ihLeft h.1 .and) (ihRight h.2 .comparison)).enclosed r
  | compare op left right ihLeft ihRight =>
      exact (Written.compare op (ihLeft h.1 .suffix) (ihRight h.2 .suffix)).enclosed r
  | collect inner ih => exact (ih h .pipe).collect.lower (by cases r <;> decide)
  | attempt inner ih => exact (ih h .suffix).attempt.lower (by cases r <;> decide)
  | apply f arg ih => exact (Written.apply f (ih h .pipe)).lower (by cases r <;> decide)

/-- **The text of an expression reads back as the expression.** -/
theorem parse_text {e : Expr} (h : e.Writable) : Expr.parse e.text = .ok e :=
  (written h .pipe).parse

/-- Parentheses stand around operands of a lower level, here a comma, a pipe and `or`. -/
theorem parse_text_selection :
    ∃ e : Expr, e.Writable ∧
      e.text = "[map((.a or .\"b c\") and .[-1] < 3)] | ((. | .[]) , length)?" ∧
      Expr.parse e.text = .ok e := by
  let e : Expr :=
    .pipe (.collect (.apply .map (.and (.or (.field "a") (.field "b c"))
        (.compare .lt (.index (-1)) (.literal (.ofInt 3))))))
      (.attempt (.comma (.pipe .identity .iterate) (.call .length)))
  have hwritable : e.Writable := by simp [e, Writable, IsWritableLiteral, Json.ofInt]
  exact ⟨e, hwritable, rfl, parse_text hwritable⟩

end Expr

end Distill.Filter

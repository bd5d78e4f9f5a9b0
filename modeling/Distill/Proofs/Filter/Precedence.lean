import Distill.Proofs.Filter.Grammar

/-!
# Precedence

An expression of a level is read at every lower level too, when what stands behind it belongs to
no higher one. An operator that groups to the left takes the expression as its first operand,
whatever comes behind: the expression that is read in the end is decided by what follows, so
that the start of an expression is described by all the ways in which it may go on.

## Main definitions

* `Filter.Ends` — tokens that end an expression of a level.
* `Filter.Continues` — how an expression goes on at a level.
* `Filter.Starts` — tokens that start with an expression.

## Main statements

* `Filter.Starts.lower` — an expression is one of every lower level.
* `Filter.Starts.pipe`, `Starts.join`, `Starts.compare`, `Starts.attempt` — operators between and
  behind operands.
-/

namespace Distill.Filter

/-! ## The ends of expressions -/

/-- The height of the level to which a token behind an expression belongs; closing brackets and
the end of the filter belong to none. -/
def Token.reach? : Token → Option Nat
  | .rightParen | .rightBracket | .finish => some 0
  | .pipe => some 1
  | .comma => some 2
  | .identifier "or" => some 3
  | .identifier "and" => some 4
  | .eq | .ne | .lt | .le | .gt | .ge => some 5
  | .question => some 6
  | _ => none

/-- A token that may stand behind an expression comes next, and belongs to a level below a
height. -/
def Ends (n : Nat) (ts : List Token) : Prop := ∃ k, (nextToken ts).reach? = some k ∧ k < n

section Ends

variable {r : Rank} {n m : Nat} {ts : List Token} {t : Token}

theorem Ends.of_reach {k : Nat} (h : t.reach? = some k) (hk : k < n) (ts : List Token) :
    Ends n (t :: ts) := ⟨k, h, hk⟩

theorem Ends.mono (h : Ends n ts) (hnm : n ≤ m) : Ends m ts := by
  obtain ⟨k, hk, hlt⟩ := h
  exact ⟨k, hk, Nat.lt_of_lt_of_le hlt hnm⟩

theorem reach_of_joins {join : Expr → Expr → Expr} (h : r.joins? t = some join) :
    t.reach? = some r.level := by
  rw [Rank.joins?.eq_def] at h
  split at h
  case h_4 => simp at h
  all_goals rfl

theorem reach_of_ofToken {op : Comparison} (h : Comparison.ofToken? t = some op) :
    t.reach? = some 5 := by
  rw [Comparison.ofToken?.eq_def] at h
  split at h
  case h_7 => simp at h
  all_goals rfl

theorem Ends.joins_eq_none (h : Ends r.level ts) : r.joins? (nextToken ts) = none := by
  obtain ⟨k, hk, hlt⟩ := h
  refine Option.eq_none_iff_forall_ne_some.mpr fun join hjoin => ?_
  obtain rfl := Option.some.inj (hk.symm.trans (reach_of_joins hjoin))
  exact Nat.lt_irrefl _ hlt

theorem Ends.ofToken_eq_none (h : Ends 5 ts) : Comparison.ofToken? (nextToken ts) = none := by
  obtain ⟨k, hk, hlt⟩ := h
  refine Option.eq_none_iff_forall_ne_some.mpr fun op hop => ?_
  obtain rfl := Option.some.inj (hk.symm.trans (reach_of_ofToken hop))
  exact Nat.lt_irrefl _ hlt

theorem Ends.ne_pipe (h : Ends 1 ts) : nextToken ts ≠ .pipe := by
  obtain ⟨k, hk, hlt⟩ := h
  intro hpipe
  rw [hpipe] at hk
  obtain rfl := Option.some.inj hk
  exact Nat.lt_irrefl _ hlt

theorem Ends.goesOn_eq_false (h : Ends 6 ts) : goesOn ts = false := by
  obtain ⟨k, hk, hlt⟩ := h
  rw [goesOn]
  split
  case h_3 heq =>
    rw [heq] at hk
    obtain rfl := Option.some.inj hk
    exact absurd hlt (Nat.lt_irrefl _)
  case h_5 => rfl
  all_goals
    next heq =>
    simp [heq, Token.reach?] at hk

/-- A dot on its own and a name without arguments may stand in front. -/
theorem Ends.opensDotSuffix_eq_false (h : Ends n ts) : opensDotSuffix (nextToken ts) = false := by
  obtain ⟨k, hk, -⟩ := h
  rw [opensDotSuffix.eq_def]
  split
  case h_3 => rfl
  all_goals
    next heq =>
    simp [heq, Token.reach?] at hk

theorem Ends.ne_leftParen (h : Ends n ts) : nextToken ts ≠ .leftParen := by
  obtain ⟨k, hk, -⟩ := h
  intro heq
  simp [heq, Token.reach?] at hk

end Ends

/-! ## Expressions that go on -/

/-- How an expression of a level goes on at this level: it ends there, it is the first operand of
operators that group to the left, or suffixes follow. -/
inductive Continues : Rank → Expr → List Token → Expr → List Token → Prop
  | stop {r e ts} (ends : Ends r.level ts) : Continues r e ts e ts
  | joined {r e ts e' rest} (groups : r.groupsLeft = true) (ends : Ends (r.level + 1) ts)
      (more : Reads (.joined r e) ts e' rest) : Continues r e ts e' rest
  | suffixed {e ts e' rest} (ends : Ends 7 ts) (more : Reads (.suffixed e) ts e' rest) :
      Continues .suffix e ts e' rest

/-- The tokens start with an expression of a level, and others follow: however it goes on, the
result is read. -/
def Starts (r : Rank) (us : List Token) (e : Expr) (ts : List Token) : Prop :=
  ∀ ⦃e' : Expr⦄ ⦃rest : List Token⦄, Continues r e ts e' rest → Reads (.whole r) us e' rest

section Starts

variable {r : Rank} {us vs ts rest : List Token} {e e' left right : Expr} {t : Token}

theorem Continues.ends (h : Continues r e ts e' rest) : Ends (r.level + 1) ts := by
  cases h with
  | stop ends => exact ends.mono (Nat.le_succ _)
  | joined _ ends => exact ends
  | suffixed ends => exact ends

theorem Continues.joined_of_groupsLeft (h : Continues r e ts e' rest)
    (groups : r.groupsLeft = true) : Reads (.joined r e) ts e' rest := by
  cases h with
  | stop ends => exact .done ends.joins_eq_none
  | joined _ _ more => exact more
  | suffixed => exact absurd groups Bool.false_ne_true

theorem Continues.suffixed_of_suffix (h : Continues .suffix e ts e' rest) :
    Reads (.suffixed e) ts e' rest := by
  cases h with
  | stop ends => exact .unsuffixed ends.goesOn_eq_false
  | joined groups => exact absurd groups Bool.false_ne_true
  | suffixed _ more => exact more

/-- At the other levels an expression does not go on. -/
theorem Continues.eq_of_not_groupsLeft (h : Continues r e ts e' rest)
    (groups : r.groupsLeft = false) (hsuffix : r ≠ .suffix) :
    Ends r.level ts ∧ e' = e ∧ rest = ts := by
  cases h with
  | stop ends => exact ⟨ends, rfl, rfl⟩
  | joined hgroups => exact absurd (groups.symm.trans hgroups) Bool.false_ne_true
  | suffixed => exact absurd rfl hsuffix

/-- An expression that ends is read as it is. -/
theorem Starts.reads (h : Starts r us e ts) (ends : Ends r.level ts) : Reads (.whole r) us e ts :=
  h (.stop ends)

/-- A dot and a name need what follows to end them. -/
theorem Starts.of_primary (h : Ends 7 ts → Reads .primary us e ts) : Starts .suffix us e ts :=
  fun _ _ hgoes => .suffix (h hgoes.ends) hgoes.suffixed_of_suffix

theorem Rank.level_next (h : r ≠ .suffix) : r.next.level = r.level + 1 := by
  cases r <;> first | rfl | exact absurd rfl h

theorem Rank.eq_of_level_eq {r' : Rank} (h : r.level = r'.level) : r = r' := by
  cases r <;> cases r' <;> first | rfl | exact absurd h (by decide)

/-- An expression of a level is one of the level below. -/
theorem Starts.of_next (h : Starts r.next us e ts) (hr : r ≠ .suffix) : Starts r us e ts := by
  intro e' rest hgoes
  have hread := h.reads (by rw [Rank.level_next hr]; exact hgoes.ends)
  cases hgroups : r.groupsLeft with
  | true => exact .first hgroups hread (hgoes.joined_of_groupsLeft hgroups)
  | false =>
      obtain ⟨ends, rfl, rfl⟩ := hgoes.eq_of_not_groupsLeft hgroups hr
      cases r with
      | pipe => exact .last hread ends.ne_pipe
      | comparison => exact .operand hread ends.ofToken_eq_none
      | comma | or | and => exact absurd hgroups.symm Bool.false_ne_true
      | suffix => exact absurd rfl hr

/-- **An expression of a level is one of every lower level.** -/
theorem Starts.lower {r' : Rank} (h : Starts r us e ts) (hle : r'.level ≤ r.level) :
    Starts r' us e ts := by
  obtain ⟨d, hd⟩ := Nat.exists_eq_add_of_le hle
  induction d generalizing r' with
  | zero =>
      obtain rfl := Rank.eq_of_level_eq hd
      exact h
  | succ d ih =>
      have hr' : r' ≠ .suffix := by
        rintro rfl
        cases r <;> simp [Rank.level] at hd <;> omega
      refine (ih ?_ ?_).of_next hr' <;> rw [Rank.level_next hr'] <;> omega

/-! ## Operators -/

/-- A pipe groups to the right. -/
theorem Starts.pipe (hleft : Starts .comma us left (.pipe :: vs))
    (hright : Starts .pipe vs right ts) : Starts .pipe us (.pipe left right) ts := by
  intro e' rest hgoes
  obtain ⟨ends, rfl, rfl⟩ := hgoes.eq_of_not_groupsLeft rfl nofun
  exact .pipe (hleft.reads (.of_reach rfl (by decide) vs)) (hright.reads ends)

/-- Operators that group to the left. -/
theorem Starts.join {join : Expr → Expr → Expr} (groups : r.groupsLeft = true)
    (known : r.joins? t = some join) (hleft : Starts r us left (t :: vs))
    (hright : Starts r.next vs right ts) : Starts r us (join left right) ts := by
  intro e' rest hgoes
  have hr : r ≠ .suffix := by
    rintro rfl
    exact Bool.false_ne_true groups
  have hread := hright.reads (by rw [Rank.level_next hr]; exact hgoes.ends)
  exact hleft (.joined groups (.of_reach (reach_of_joins known) (Nat.lt_succ_self _) vs)
    (.join known hread (hgoes.joined_of_groupsLeft groups)))

/-- Comparisons do not group. -/
theorem Starts.compare {op : Comparison} (known : Comparison.ofToken? t = some op)
    (hleft : Starts .suffix us left (t :: vs)) (hright : Starts .suffix vs right ts) :
    Starts .comparison us (.compare op left right) ts := by
  intro e' rest hgoes
  obtain ⟨ends, rfl, rfl⟩ := hgoes.eq_of_not_groupsLeft rfl nofun
  exact .compare (hleft.reads (.of_reach (reach_of_ofToken known) (by decide) vs)) known
    (hright.reads (ends.mono (by decide)))

/-- A question mark belongs to what stands before it. -/
theorem Starts.attempt (h : Starts .suffix us e (.question :: ts)) :
    Starts .suffix us (.attempt e) ts := fun _ _ hgoes =>
  h (.suffixed (.of_reach rfl (by decide) ts) (.question hgoes.suffixed_of_suffix))

/-- A whole pipe in parentheses. -/
theorem Starts.parens (h : Starts .pipe us e (.rightParen :: ts)) :
    Reads .primary (.leftParen :: us) e ts := .parens (h.reads (.of_reach rfl (by decide) ts))

end Starts

end Distill.Filter

import Distill.Filter.Eval

/-!
# Filters that cannot be told apart

Two filters are equivalent when they have the same outputs for every input, or both have none
because of an error; which of several errors comes first makes no difference. A filter may be
replaced by an equivalent one wherever it stands.

## Main definitions

* `Filter.Agree` — two results with the same outputs, or two errors.
* `Filter.Expr.Equivalent` — filters whose results agree for every input.
* `Filter.Frame`, `Filter.Context` — the places in which a filter can stand.

## Main statements

* `Filter.Expr.Equivalent.pipe_assoc`, `comma_assoc`, `comma_pipe` — the laws of pipes and commas.
* `Filter.Expr.Equivalent.fill` — equivalence is a congruence.
-/

namespace Distill.Filter

/-! ## Results -/

/-- The same value on both sides, or an error on both sides. -/
def Agree {α : Type} : Except EvalError α → Except EvalError α → Prop
  | .ok a, .ok b => a = b
  | .error _, .error _ => True
  | _, _ => False

namespace Agree

variable {α β : Type} {x y z : Except EvalError α}

theorem refl (x : Except EvalError α) : Agree x x := by
  cases x with
  | ok a => exact rfl
  | error e => trivial

theorem of_eq (h : x = y) : Agree x y := h ▸ refl x

theorem symm (h : Agree x y) : Agree y x := by
  cases x <;> cases y
  · trivial
  · exact h
  · exact h
  · exact Eq.symm h

theorem trans (h : Agree x y) (h' : Agree y z) : Agree x z := by
  cases x <;> cases y <;> cases z
  · trivial
  · exact h'
  · trivial
  · exact h
  · exact h
  · exact h.elim
  · exact h'
  · exact Eq.trans h h'

/-- What is done with a value agrees when it agrees for each value. -/
theorem bind {f g : α → Except EvalError β} (h : Agree x y) (hfg : ∀ a, Agree (f a) (g a)) :
    Agree (x >>= f) (y >>= g) := by
  cases x <;> cases y
  · trivial
  · exact h.elim
  · exact h.elim
  · obtain rfl : _ = _ := h
    exact hfg _

theorem map {f : α → β} (h : Agree x y) : Agree (x.map f) (y.map f) := by
  cases x <;> cases y
  · trivial
  · exact h.elim
  · exact h.elim
  · exact congrArg f h

/-- It makes no difference which of two things is done first. -/
theorem comm {w : Except EvalError β} {γ : Type} (f : α → β → Except EvalError γ) :
    Agree (x >>= fun a => w >>= fun b => f a b) (w >>= fun b => x >>= fun a => f a b) := by
  cases x <;> cases w
  · trivial
  · trivial
  · trivial
  · exact refl _

theorem mapM {f g : α → Except EvalError β} (h : ∀ a, Agree (f a) (g a)) (as : List α) :
    Agree (as.mapM f) (as.mapM g) := by
  induction as with
  | nil => exact refl _
  | cons a as ih =>
      rw [List.mapM_cons, List.mapM_cons]
      exact (h a).bind fun b => ih.bind fun bs => refl _

end Agree

/-! ## Outputs for several values -/

section EachOutput

variable {f g : Json → Outputs}

theorem eachOutput_nil : eachOutput f [] = .ok [] := rfl

theorem eachOutput_cons (v : Json) (vs : List Json) :
    eachOutput f (v :: vs) = (do
      let ws ← f v
      let rest ← eachOutput f vs
      return ws ++ rest) := by
  rw [eachOutput, eachOutput, List.mapM_cons]
  cases f v with
  | error e => rfl
  | ok ws =>
      cases List.mapM f vs with
      | error e => rfl
      | ok lists => rfl

theorem eachOutput_singleton (v : Json) : eachOutput f [v] = f v := by
  rw [eachOutput_cons, eachOutput_nil]
  cases f v with
  | error e => rfl
  | ok ws => exact congrArg Except.ok (List.append_nil ws)

theorem eachOutput_append (vs ws : List Json) :
    eachOutput f (vs ++ ws) = (do
      let xs ← eachOutput f vs
      let ys ← eachOutput f ws
      return xs ++ ys) := by
  induction vs with
  | nil =>
      rw [List.nil_append, eachOutput_nil]
      cases eachOutput f ws <;> rfl
  | cons v vs ih =>
      rw [List.cons_append, eachOutput_cons, eachOutput_cons, ih]
      cases f v with
      | error e => rfl
      | ok us =>
          cases eachOutput f vs with
          | error e => rfl
          | ok xs =>
              cases eachOutput f ws with
              | error e => rfl
              | ok ys => exact congrArg Except.ok (List.append_assoc us xs ys).symm

/-- Values that are passed on are themselves the outputs. -/
theorem eachOutput_ok (vs : List Json) : eachOutput (fun v => .ok [v]) vs = .ok vs := by
  induction vs with
  | nil => rfl
  | cons v vs ih =>
      rw [eachOutput_cons, ih]
      rfl

theorem Agree.eachOutput (h : ∀ v, Agree (f v) (g v)) (vs : List Json) :
    Agree (eachOutput f vs) (eachOutput g vs) := (Agree.mapM h vs).map

/-- The outputs for all outputs are those for the outputs of each value in turn. Errors come in
another order: on the left the second function starts only when the first has ended. -/
theorem eachOutput_bind (vs : List Json) :
    Agree (eachOutput f vs >>= eachOutput g) (eachOutput (fun v => f v >>= eachOutput g) vs) := by
  induction vs with
  | nil => exact .refl _
  | cons v vs ih =>
      rw [eachOutput_cons, eachOutput_cons, bind_assoc, bind_assoc]
      refine (Agree.refl (f v)).bind fun ws => ?_
      simp only [bind_assoc, pure_bind, eachOutput_append]
      refine (Agree.comm _).trans ((Agree.refl (Filter.eachOutput g ws)).bind fun xs => ?_)
      rw [← bind_assoc]
      exact ih.bind fun ys => .refl _

end EachOutput

/-! ## Equivalent filters -/

namespace Expr

/-- The results agree for every input. -/
def Equivalent (a b : Expr) : Prop := ∀ v, Agree (a.eval v) (b.eval v)

namespace Equivalent

variable {a a' b b' c : Expr}

theorem refl (a : Expr) : a.Equivalent a := fun v => .refl (a.eval v)

theorem symm (h : a.Equivalent b) : b.Equivalent a := fun v => (h v).symm

theorem trans (h : a.Equivalent b) (h' : b.Equivalent c) : a.Equivalent c :=
  fun v => (h v).trans (h' v)

/-! ## Laws -/

/-- **Pipes may be grouped either way.** -/
theorem pipe_assoc (a b c : Expr) : Equivalent (.pipe (.pipe a b) c) (.pipe a (.pipe b c)) := by
  intro v
  simp only [eval, bind_assoc]
  exact (Agree.refl (a.eval v)).bind fun vs => eachOutput_bind vs

/-- A pipe out of the input itself. -/
theorem identity_pipe (a : Expr) : Equivalent (.pipe .identity a) a :=
  fun v => .of_eq (eachOutput_singleton v)

/-- A pipe into the input itself. -/
theorem pipe_identity (a : Expr) : Equivalent (.pipe a .identity) a := by
  intro v
  simp only [eval]
  cases a.eval v with
  | error e => exact .refl _
  | ok vs => exact .of_eq (eachOutput_ok vs)

/-- **Commas may be grouped either way.** -/
theorem comma_assoc (a b c : Expr) :
    Equivalent (.comma (.comma a b) c) (.comma a (.comma b c)) := by
  intro v
  simp only [eval, bind_assoc, pure_bind, List.append_assoc]
  exact .refl _

/-- **A pipe out of a comma is a comma of pipes.** -/
theorem comma_pipe (a b c : Expr) :
    Equivalent (.pipe (.comma a b) c) (.comma (.pipe a c) (.pipe b c)) := by
  intro v
  simp only [eval, bind_assoc, pure_bind, eachOutput_append]
  exact (Agree.refl (a.eval v)).bind fun vs => Agree.comm _

/-! ## Congruence -/

theorem pipe (ha : a.Equivalent a') (hb : b.Equivalent b') :
    Equivalent (.pipe a b) (.pipe a' b') :=
  fun v => (ha v).bind fun vs => .eachOutput hb vs

theorem comma (ha : a.Equivalent a') (hb : b.Equivalent b') :
    Equivalent (.comma a b) (.comma a' b') :=
  fun v => (ha v).bind fun _ => (hb v).bind fun _ => .refl _

theorem collect (ha : a.Equivalent a') : Equivalent (.collect a) (.collect a') :=
  fun v => (ha v).bind fun _ => .refl _

theorem compare (op : Comparison) (ha : a.Equivalent a') (hb : b.Equivalent b') :
    Equivalent (.compare op a b) (.compare op a' b') :=
  fun v => (hb v).bind fun _ => (ha v).bind fun _ => .refl _

theorem and (ha : a.Equivalent a') (hb : b.Equivalent b') :
    Equivalent (.and a b) (.and a' b') := by
  refine fun v => (ha v).bind fun vs => .eachOutput (fun l => ?_) vs
  split
  · exact (hb v).map
  · exact .refl _

theorem or (ha : a.Equivalent a') (hb : b.Equivalent b') : Equivalent (.or a b) (.or a' b') := by
  refine fun v => (ha v).bind fun vs => .eachOutput (fun l => ?_) vs
  split
  · exact .refl _
  · exact (hb v).map

theorem attempt (ha : a.Equivalent a') : Equivalent (.attempt a) (.attempt a') := by
  intro v
  have h := ha v
  simp only [eval]
  cases ha : a.eval v with
  | error e =>
      cases ha' : a'.eval v with
      | error e' => exact .refl _
      | ok vs' => simp [ha, ha', Agree] at h
  | ok vs =>
      cases ha' : a'.eval v with
      | error e' => simp [ha, ha', Agree] at h
      | ok vs' => simpa [ha, ha', Agree] using h

/-- A function is given equivalent arguments. -/
theorem apply (f : Unary) (ha : a.Equivalent a') : Equivalent (.apply f a) (.apply f a') := by
  intro v
  cases f with
  | select => exact (ha v).bind fun _ => .refl _
  | map => exact (Agree.refl _).bind fun items => (Agree.eachOutput ha items).bind fun _ => .refl _
  | flatten => exact (ha v).bind fun _ => .refl _
  | pairing f => exact (Agree.refl _).bind fun _ => (ha v).bind fun _ => .refl _

end Equivalent

end Expr

/-! ## Contexts -/

/-- A place right below an operator, with what else the operator joins. -/
inductive Frame where
  | pipeLeft (right : Expr)
  | pipeRight (left : Expr)
  | commaLeft (right : Expr)
  | commaRight (left : Expr)
  | collect
  | compareLeft (op : Comparison) (right : Expr)
  | compareRight (op : Comparison) (left : Expr)
  | andLeft (right : Expr)
  | andRight (left : Expr)
  | orLeft (right : Expr)
  | orRight (left : Expr)
  | attempt
  | apply (f : Unary)

/-- The filter with another one in the place. -/
def Frame.plug : Frame → Expr → Expr
  | pipeLeft right, e => .pipe e right
  | pipeRight left, e => .pipe left e
  | commaLeft right, e => .comma e right
  | commaRight left, e => .comma left e
  | collect, e => .collect e
  | compareLeft op right, e => .compare op e right
  | compareRight op left, e => .compare op left e
  | andLeft right, e => .and e right
  | andRight left, e => .and left e
  | orLeft right, e => .or e right
  | orRight left, e => .or left e
  | attempt, e => .attempt e
  | apply f, e => .apply f e

/-- A place anywhere in a filter: the frames around it, the innermost first. -/
abbrev Context := List Frame

/-- The filter with another one in the place. -/
def Context.fill (C : Context) (e : Expr) : Expr := C.foldl (fun e frame => frame.plug e) e

theorem Expr.Equivalent.plug {a b : Expr} (h : a.Equivalent b) (frame : Frame) :
    (frame.plug a).Equivalent (frame.plug b) := by
  cases frame with
  | pipeLeft right => exact h.pipe (.refl right)
  | pipeRight left => exact (refl left).pipe h
  | commaLeft right => exact h.comma (.refl right)
  | commaRight left => exact (refl left).comma h
  | collect => exact h.collect
  | compareLeft op right => exact h.compare op (.refl right)
  | compareRight op left => exact (refl left).compare op h
  | andLeft right => exact h.and (.refl right)
  | andRight left => exact (refl left).and h
  | orLeft right => exact h.or (.refl right)
  | orRight left => exact (refl left).or h
  | attempt => exact h.attempt
  | apply f => exact h.apply f

/-- **A filter may be replaced by an equivalent one wherever it stands.** -/
theorem Expr.Equivalent.fill {a b : Expr} (h : a.Equivalent b) (C : Context) :
    (C.fill a).Equivalent (C.fill b) := by
  induction C generalizing a b with
  | nil => exact h
  | cons frame C ih => exact ih (h.plug frame)

end Distill.Filter

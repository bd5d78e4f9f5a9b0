import Distill.Step.Run

/-!
# Steps as they run

What a step leaves of the state that commands act on, and what it gives, written out for each
kind of step.

## Main statements

* `Step.Doing.bind_apply` — one action after another.
* `Step.run_filter`, `Step.run_splitLines`, `Step.runChain_cons` — filters, lines and chains.
* `Step.exists_of_runChain_cons`, `Step.eq_of_runChain_nil` — chains that give something.
-/

namespace Distill.Step

variable {σ : Type}

/-- One action after another: a failure ends both. -/
theorem Doing.bind_apply {α β : Type} (x : Doing σ α) (f : α → Doing σ β) (w : σ) :
    (x >>= f) w = match x w with
      | (.ok a, w') => f a w'
      | (.error e, w') => (.error e, w') := by
  simp only [bind, ExceptT.bind, ExceptT.mk, StateT.bind]
  cases x w with
  | mk result w' => cases result <;> rfl

/-- A clock that does not go. -/
def stopped : StateM σ Elapsed := pure .zero

variable (command : ExecStep → Doing σ ArtifactValue) (clock : StateM σ Elapsed) (node : String)

theorem run_filter (f : Filter) (input : ArtifactValue) (w : σ) :
    run command clock node (.filter f) (some input) w = (applyFilter f input, w) := by
  rw [run]
  rfl

theorem run_splitLines (input : ArtifactValue) (w : σ) :
    run command clock node .splitLines (some input) w = (.ok (lines input), w) := by
  rw [run]
  rfl

theorem runChain_nil (input : ArtifactValue) (w : σ) :
    runChain command clock node [] (some input) w = (.ok input, w) := by
  rw [runChain.eq_def]
  rfl

theorem runChain_cons (s : Step) (rest : List Step) (input : Option ArtifactValue) (w : σ) :
    runChain command clock node (s :: rest) input w = match run command clock node s input w with
      | (.ok output, w') => runChain command clock node rest (some output) w'
      | (.error e, w') => (.error e, w') := by
  rw [runChain, Doing.bind_apply]
  rcases run command clock node s input w with ⟨_ | _, _⟩ <;> rfl

variable {command} {clock} {node}

/-- A chain that gives something is the first step and then the other ones. -/
theorem exists_of_runChain_cons {s : Step} {rest : List Step} {input : Option ArtifactValue}
    {w w' : σ} {v : ArtifactValue}
    (h : runChain command clock node (s :: rest) input w = (.ok v, w')) :
    ∃ output w₁, run command clock node s input w = (.ok output, w₁) ∧
      runChain command clock node rest (some output) w₁ = (.ok v, w') := by
  rw [runChain_cons] at h
  rcases hrun : run command clock node s input w with ⟨f | output, w₁⟩
  · rw [hrun] at h
    cases h
  · rw [hrun] at h
    exact ⟨output, w₁, rfl, h⟩

/-- What an empty chain gives is its input. -/
theorem eq_of_runChain_nil {input : Option ArtifactValue} {w w' : σ} {v : ArtifactValue}
    (h : runChain command clock node [] input w = (.ok v, w')) : input = some v := by
  cases input with
  | none =>
      rw [runChain.eq_def] at h
      cases h
  | some u =>
      rw [runChain_nil, Prod.mk.injEq, Except.ok.injEq] at h
      rw [h.1]

end Distill.Step

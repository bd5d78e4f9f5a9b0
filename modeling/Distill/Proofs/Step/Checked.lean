import Distill.Step.Invocation

/-!
# Checked steps

What a step is promised to be before a node has it: no chain in it is empty or holds an
analysis, and every text of a command is a template of which all placeholders are known. The
texts of such a command can be rendered, and no placeholder is left as it is written.

## Main definitions

* `Step.parts` — a step with the steps of its chains, at any depth.
* `Command.Fillable` — texts of which commands can replace all placeholders.
* `Step.Checked` — the promise.

## Main statements

* `CommandSite.render_eq_ok_iff` — a text is rendered exactly if it is a template.
* `CommandSite.exists_render` — all placeholders of a fillable text are replaced.
-/

namespace Distill

/-! ## Parts -/

namespace Step

mutual

/-- A step with the steps of its chains, at any depth. -/
def parts : Step → List Step
  | chain steps => chain steps :: partsOf steps
  | s => [s]

/-- Some steps with the steps of their chains, at any depth. -/
def partsOf : List Step → List Step
  | [] => []
  | s :: rest => parts s ++ partsOf rest

end

variable {s t : Step} {steps : List Step}

@[simp] theorem parts_exec (e : ExecStep) : parts (exec e) = [exec e] := by simp only [parts]

@[simp] theorem parts_chain (steps : List Step) :
    parts (chain steps) = chain steps :: partsOf steps := by
  simp only [parts]

@[simp] theorem mem_partsOf : t ∈ partsOf steps ↔ ∃ s ∈ steps, t ∈ s.parts := by
  induction steps with
  | nil => simp [partsOf]
  | cons s rest ih => simp [partsOf, ih]

theorem mem_parts_self (s : Step) : s ∈ s.parts := by
  cases s <;> simp [parts]

/-- The parts of the steps of a chain are parts of the chain. -/
theorem mem_parts_chain (hs : s ∈ steps) (ht : t ∈ s.parts) : t ∈ (chain steps).parts := by
  rw [parts_chain, List.mem_cons, mem_partsOf]
  exact Or.inr ⟨s, hs, ht⟩

/-- A step that is no chain is all there is of it. -/
theorem parts_of_forall_ne_chain (h : ∀ steps, s ≠ chain steps) : s.parts = [s] := by
  cases s with
  | chain steps => exact absurd rfl (h steps)
  | _ => simp only [parts]

end Step

/-! ## Templates -/

namespace Template

/-- Leaving out repetitions leaves out no token. -/
theorem mem_placeholders {t : Template} {token : String} :
    token ∈ t.placeholders ↔ token ∈ t.tokens := by
  have hfold : ∀ (tokens seen : List String), token ∈ tokens.foldl
      (fun seen token => if seen.contains token then seen else seen ++ [token]) seen ↔
        token ∈ seen ∨ token ∈ tokens := by
    intro tokens
    induction tokens with
    | nil => simp
    | cons a rest ih =>
        intro seen
        rw [List.foldl_cons, ih]
        split <;> grind
  exact (hfold t.tokens []).trans (by simp)

theorem mem_tokens {t : Template} {token : String} :
    token ∈ t.tokens ↔ .placeholder token ∈ t.segments := by
  simp only [tokens, List.mem_filterMap]
  constructor
  · rintro ⟨segment, hmem, h⟩
    cases segment with
    | text s => simp at h
    | placeholder token' => simpa [← Option.some.inj h] using hmem
  · exact fun h => ⟨_, h, rfl⟩

end Template

namespace Command

/-- A text is a template, and commands know what each of its placeholders stands for. -/
def Fillable (text : String) : Prop :=
  ∃ t, Template.parse text = .ok t ∧
    ∀ token, .placeholder token ∈ t.segments → token ∈ Command.placeholders

end Command

namespace CommandSite

variable {site : CommandSite} {node text rendered : String}

/-- Every token that commands may use stands for something, wherever the command runs. -/
theorem isSome_placeholder? {token : String} (h : token ∈ Command.placeholders) :
    (site.placeholder? node token).isSome := by
  simp only [Command.placeholders, List.mem_cons, List.not_mem_nil, or_false] at h
  rcases h with rfl | rfl | rfl | rfl <;> rfl

/-- A text is rendered exactly if it is a template. -/
theorem render_eq_ok_iff : site.render node text = .ok rendered ↔
    ∃ t, Template.parse text = .ok t ∧ t.render (site.placeholder? node) = rendered := by
  rw [render]
  cases Template.parse text <;> simp

/-- **All placeholders of a fillable text are replaced.** -/
theorem exists_render (h : Command.Fillable text) (site : CommandSite) (node : String) :
    ∃ t, Template.parse text = .ok t ∧
      (∀ token, .placeholder token ∈ t.segments → (site.placeholder? node token).isSome) ∧
      site.render node text = .ok (t.render (site.placeholder? node)) := by
  obtain ⟨t, ht, hknown⟩ := h
  exact ⟨t, ht, fun token hmem => isSome_placeholder? (hknown token hmem),
    render_eq_ok_iff.mpr ⟨t, ht, rfl⟩⟩

end CommandSite

/-! ## Steps -/

namespace Step

/-- What is promised of a step before a node has it. -/
structure Checked (s : Step) : Prop where
  /-- No chain is empty. -/
  nonempty : ∀ steps, chain steps ∈ s.parts → steps ≠ []
  /-- No chain holds an analysis, at any depth. -/
  noAnalysis : ∀ steps, chain steps ∈ s.parts → ∀ a, analysis a ∉ partsOf steps
  /-- Every text of a command is a template, and all its placeholders are known. -/
  fillable : ∀ e, exec e ∈ s.parts → ∀ text ∈ e.command :: e.params, Command.Fillable text

variable {s t : Step} {steps : List Step}

/-- Nothing is promised of a step that is neither a chain nor a command. -/
theorem Checked.of_leaf (hchain : ∀ steps, s ≠ chain steps) (hexec : ∀ e, s ≠ exec e) :
    s.Checked := by
  have hparts := parts_of_forall_ne_chain hchain
  constructor <;> intro x hx <;> rw [hparts, List.mem_singleton] at hx
  · exact absurd hx.symm (hchain x)
  · exact absurd hx.symm (hchain x)
  · exact absurd hx.symm (hexec x)

theorem Checked.exec {e : ExecStep} (h : ∀ text ∈ e.command :: e.params, Command.Fillable text) :
    (Step.exec e).Checked := by
  constructor
  · simp
  · simp
  · intro e' he'
    rw [parts_exec, List.mem_singleton, Step.exec.injEq] at he'
    exact he' ▸ h

/-- A chain keeps the promise when its steps do and none of them has an analysis. -/
theorem Checked.chain (hne : steps ≠ []) (hsteps : ∀ s ∈ steps, s.Checked)
    (hanalysis : ∀ s ∈ steps, ∀ a, analysis a ∉ s.parts) : (Step.chain steps).Checked := by
  have hall : ∀ a, analysis a ∉ partsOf steps := by
    intro a ha
    obtain ⟨s, hs, ha⟩ := mem_partsOf.mp ha
    exact hanalysis s hs a ha
  constructor
  · intro inner hinner
    rw [parts_chain, List.mem_cons, Step.chain.injEq, mem_partsOf] at hinner
    rcases hinner with rfl | ⟨s, hs, hinner⟩
    · exact hne
    · exact (hsteps s hs).nonempty inner hinner
  · intro inner hinner
    rw [parts_chain, List.mem_cons, Step.chain.injEq, mem_partsOf] at hinner
    rcases hinner with rfl | ⟨s, hs, hinner⟩
    · exact hall
    · exact (hsteps s hs).noAnalysis inner hinner
  · intro e he
    rw [parts_chain, List.mem_cons, mem_partsOf] at he
    rcases he with he | ⟨s, hs, he⟩
    · simp at he
    · exact (hsteps s hs).fillable e he

/-- The steps of a chain that is checked are checked. -/
theorem Checked.of_mem_chain (h : (Step.chain steps).Checked) (hs : s ∈ steps) : s.Checked :=
  ⟨fun inner hinner => h.nonempty inner (mem_parts_chain hs hinner),
    fun inner hinner => h.noAnalysis inner (mem_parts_chain hs hinner),
    fun e he => h.fillable e (mem_parts_chain hs he)⟩

theorem Checked.ne_nil (h : (Step.chain steps).Checked) : steps ≠ [] :=
  h.nonempty steps (mem_parts_self _)

end Step

end Distill

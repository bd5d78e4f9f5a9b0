import Distill.Execution.Host
import Distill.Execution.Script
import Distill.Proofs.Artifact.Conclusions
import Distill.Proofs.Step.Running

/-!
# Steps that conclude

The conclusions that steps give come from analyses. So what holds of everything that analyses
conclude, as that conclusions are as their type promises or that they are read back, holds of the
conclusions of all steps that are done as they say, if the commands give no conclusions of their
own: on a host, and with prepared answers.

## Main definitions

* `Environment.Upholds` — something holds of all conclusions that steps give.
* `Environment.Analyses` — analyses are done as they say.

## Main statements

* `Step.ifConclusion_of_run` — the conclusions of steps as they run.
* `Environment.upholds_ofCommands`, `Environment.upholds_scripted` — environments of steps.
* `Host.ifConclusion_of_command` — commands on a host give no conclusions.
* `Host.upholds_lasting` — what steps conclude on a host can be stored and read.
-/

namespace Distill

namespace Step

variable {σ : Type} {command : ExecStep → Doing σ ArtifactValue} {clock : StateM σ Elapsed}
  {node : String} {Q : Conclusion → Prop}

/-- The result of something that is no action. -/
theorem Doing.lift_apply {α : Type} (r : Except Failure α) (w : σ) :
    (Doing.lift r : Doing σ α) w = (r, w) := rfl

/-- Decoding gives no conclusion. -/
theorem ifConclusion_of_decode {input v : ArtifactValue} (h : decode input = .ok v) :
    v.IfConclusion Q := by
  rintro c rfl
  have htext : ∀ s, decodeText s ≠ .ok (.conclusion c) := by
    intro s hs
    rw [decodeText] at hs
    split at hs
    · simp at hs
    · split at hs <;> simp at hs
  rw [decode.eq_def] at h
  split at h
  · exact absurd h (htext _)
  · exact absurd h (htext _)
  · exact absurd h (htext _)
  · simp at h
  · simp at h

/-- Filtering gives no conclusion. -/
theorem ifConclusion_of_applyFilter {f : Filter} {input v : ArtifactValue}
    (h : applyFilter f input = .ok v) : v.IfConclusion Q := by
  rintro c rfl
  rw [applyFilter] at h
  split at h <;> simp at h

/-- A step that needs an input has one when it gives something. -/
theorem exists_of_requireInput {α : Type} {s : Step} {input : Option ArtifactValue} {v : α}
    {f : ArtifactValue → Except Failure α} (h : requireInput s input >>= f = .ok v) :
    ∃ u, input = some u ∧ f u = .ok v := by
  cases input with
  | none => simp [requireInput, bind, Except.bind] at h
  | some u => exact ⟨u, rfl, h⟩

/-- **An analysis concludes from its input.** -/
theorem eq_conclude_of_run {a : AnalysisStep} {input : Option ArtifactValue} {w w' : σ}
    {v : ArtifactValue} (h : run command clock node (.analysis a) input w = (.ok v, w')) :
    ∃ u spent, input = some u ∧ v = .conclusion (conclude node a u spent) := by
  rw [run, Doing.bind_apply, Doing.lift_apply] at h
  cases input with
  | none => cases h
  | some u =>
      refine ⟨u, (clock w).1, rfl, ?_⟩
      exact (Except.ok.inj (congrArg Prod.fst h)).symm

mutual

/-- **What analyses uphold holds of the conclusion that a step gives,** if it holds of the one that
the step reads. -/
theorem ifConclusion_of_run
    (hconclude : ∀ a u spent, u.IfConclusion Q → Q (conclude node a u spent))
    (hcommand : ∀ e w v w', command e w = (.ok v, w') → v.IfConclusion Q) {s : Step}
    {input : Option ArtifactValue} {w w' : σ} {v : ArtifactValue}
    (hinput : ∀ u, input = some u → u.IfConclusion Q)
    (h : run command clock node s input w = (.ok v, w')) : v.IfConclusion Q := by
  cases s with
  | exec e =>
      rw [run] at h
      exact hcommand e w v w' h
  | chain steps =>
      rw [run] at h
      exact ifConclusion_of_runChain hconclude hcommand hinput h
  | decodeYaml =>
      rw [run, Doing.lift_apply, Prod.mk.injEq] at h
      obtain ⟨u, -, hu⟩ := exists_of_requireInput h.1
      exact ifConclusion_of_decode hu
  | filter f =>
      rw [run, Doing.lift_apply, Prod.mk.injEq] at h
      obtain ⟨u, -, hu⟩ := exists_of_requireInput h.1
      exact ifConclusion_of_applyFilter hu
  | splitLines =>
      rw [run, Doing.lift_apply, Prod.mk.injEq] at h
      obtain ⟨u, -, hu⟩ := exists_of_requireInput h.1
      obtain rfl := Except.ok.inj hu
      exact ArtifactValue.ifConclusion_of_none rfl
  | analysis a =>
      obtain ⟨u, spent, hu, rfl⟩ := eq_conclude_of_run h
      intro c hc
      rw [← ArtifactValue.conclusion.inj hc]
      exact hconclude a u spent (hinput u hu)

/-- The last of the steps of a chain reads what the one before it gives. -/
theorem ifConclusion_of_runChain
    (hconclude : ∀ a u spent, u.IfConclusion Q → Q (conclude node a u spent))
    (hcommand : ∀ e w v w', command e w = (.ok v, w') → v.IfConclusion Q) {steps : List Step}
    {input : Option ArtifactValue} {w w' : σ} {v : ArtifactValue}
    (hinput : ∀ u, input = some u → u.IfConclusion Q)
    (h : runChain command clock node steps input w = (.ok v, w')) : v.IfConclusion Q := by
  cases steps with
  | nil => exact hinput v (eq_of_runChain_nil h)
  | cons s rest =>
      obtain ⟨output, w₁, hrun, hrest⟩ := exists_of_runChain_cons h
      have houtput := ifConclusion_of_run hconclude hcommand hinput hrun
      refine ifConclusion_of_runChain hconclude hcommand (fun u hu => ?_) hrest
      rwa [← Option.some.inj hu]

end

end Step

/-! ## Environments -/

/-- What gives a value has been done. -/
theorem StepResult.exists_of_ofDoing {σ : Type} {act : Step.Doing σ ArtifactValue} {w : σ}
    {v : ArtifactValue} (h : (ofDoing act w).1 = .value v) : ∃ w', act w = (.ok v, w') := by
  rw [ofDoing] at h
  split at h
  · next u w' hu =>
    obtain rfl := StepResult.value.inj h
    exact ⟨w', hu⟩
  · simp at h

namespace Environment

variable {σ : Type} {command : (archive node : String) → ExecStep → Step.Doing σ ArtifactValue}
  {clock : StateM σ Elapsed} {Q : Conclusion → Prop}

/-- Something holds of the conclusion that a step gives, if it holds of the one that the step
reads. -/
def Upholds (Q : Conclusion → Prop) (env : Environment σ) : Prop :=
  ∀ archive node step input w v, (∀ u, input = some u → u.IfConclusion Q) →
    (env.perform archive node step input w).1 = .value v → v.IfConclusion Q

/-- An analysis concludes from its input. -/
def Analyses (env : Environment σ) : Prop :=
  ∀ archive node a input w v, (env.perform archive node (.analysis a) input w).1 = .value v →
    ∃ u spent, input = some u ∧ v = .conclusion (Step.conclude node a u spent)

/-- Steps that are done as they say. -/
theorem upholds_ofCommands
    (hconclude : ∀ node a u spent, u.IfConclusion Q → Q (Step.conclude node a u spent))
    (hcommand : ∀ archive node e w v w', command archive node e w = (.ok v, w') →
      v.IfConclusion Q) : (ofCommands command clock).Upholds Q := by
  intro archive node step input w v hinput h
  obtain ⟨w', hrun⟩ := StepResult.exists_of_ofDoing h
  exact Step.ifConclusion_of_run (hconclude node) (hcommand archive node) hinput hrun

/-- **Steps that are done as they say give conclusions that can be stored and read,** whatever time
they take, if those of the commands can. -/
theorem upholds_lasting (hcommand : ∀ archive node e w v w',
      command archive node e w = (.ok v, w') → v.IfConclusion Conclusion.Lasting) :
    (ofCommands command clock).Upholds Conclusion.Lasting := by
  refine upholds_ofCommands (fun node a u spent hu => ?_) hcommand
  exact Step.lasting_of_proper_conclude
    (Step.proper_conclude node a spent fun d hd => (hu d hd).proper)

theorem analyses_ofCommands : (ofCommands command clock).Analyses := by
  intro archive node a input w v h
  obtain ⟨w', hrun⟩ := StepResult.exists_of_ofDoing h
  exact Step.eq_conclude_of_run hrun

/-- Prepared answers stand in for commands only. -/
theorem upholds_scripted (answers : List PreparedAnswer) (site : (archive : String) → CommandSite)
    (hconclude : ∀ node a u spent, u.IfConclusion Q → Q (Step.conclude node a u spent))
    (hcommand : ∀ archive node e w v w', command archive node e w = (.ok v, w') →
      v.IfConclusion Q) : (scripted answers site command clock).Upholds Q := by
  intro archive node step input w v hinput h
  have hchain : ∀ {rest b w w'},
      Step.runChain (command archive node) clock node rest (some (.bytes b)) w = (.ok v, w') →
        v.IfConclusion Q := by
    intro rest b w w' hrun
    refine Step.ifConclusion_of_runChain (hconclude node) (hcommand archive node) (fun u hu => ?_)
      hrun
    rw [← Option.some.inj hu]
    exact ArtifactValue.ifConclusion_of_none rfl
  simp only [scripted] at h
  cases hhead : step.commandHead? with
  | none =>
      rw [hhead] at h
      obtain ⟨w', hrun⟩ := StepResult.exists_of_ofDoing h
      exact Step.ifConclusion_of_run (hconclude node) (hcommand archive node) hinput hrun
  | some head =>
      obtain ⟨e, rest⟩ := head
      rw [hhead] at h
      cases hanswer : PreparedAnswer.find? answers archive node step with
      | some answer =>
          obtain ⟨_, _, _, result⟩ := answer
          rw [hanswer] at h
          cases result with
          | panic | failure => cases h
          | output data =>
              obtain ⟨w', hrun⟩ := StepResult.exists_of_ofDoing h
              exact hchain hrun
      | none =>
          rw [hanswer] at h
          obtain ⟨w', hrun⟩ := StepResult.exists_of_ofDoing h
          rw [Step.Doing.bind_apply, Step.Doing.lift_apply, ExecStep.echo] at hrun
          cases hrendered : e.rendered (site archive) node with
          | error f =>
              rw [hrendered] at hrun
              cases hrun
          | ok texts =>
              rw [hrendered] at hrun
              exact hchain hrun

theorem analyses_scripted (answers : List PreparedAnswer)
    (site : (archive : String) → CommandSite) : (scripted answers site command clock).Analyses := by
  intro archive node a input w v h
  have hhead : (Step.analysis a).commandHead? = none := by rw [Step.commandHead?] <;> simp
  simp only [scripted, hhead] at h
  obtain ⟨w', hrun⟩ := StepResult.exists_of_ofDoing h
  exact Step.eq_conclude_of_run hrun

end Environment

/-- **A command on a host gives no conclusion.** -/
theorem Host.ifConclusion_of_command {Q : Conclusion → Prop} (h : Host) {cancelled : Bool}
    {archive node : String} {e : ExecStep} {files files' : FileTree} {v : ArtifactValue}
    (hrun : h.command cancelled archive node e files = (.ok v, files')) : v.IfConclusion Q := by
  have hvalue : ∀ limit result v, valueOf limit result = .ok v → v.IfConclusion Q := by
    intro limit result v hv
    rw [valueOf.eq_def] at hv
    split at hv
    · rw [← Except.ok.inj hv]
      exact ArtifactValue.ifConclusion_of_none rfl
    all_goals cases hv
  rw [command] at hrun
  simp only [Step.Doing.bind_apply, Step.Doing.lift_apply] at hrun
  split at hrun
  · rw [launch] at hrun
    simp only at hrun
    -- Every way out before the shell is a failure.
    split at hrun
    · cases hrun
    · split at hrun
      · cases hrun
      · split at hrun
        · cases hrun
        · split at hrun
          · cases hrun
          · rw [Prod.mk.injEq] at hrun
            exact hvalue _ _ _ hrun.1
  · cases hrun

/-- The conclusions that steps give on a host can be stored and read. -/
theorem Host.upholds_lasting (h : Host) (clock : StateM FileTree Elapsed) :
    (h.environment clock).Upholds Conclusion.Lasting := by
  refine Environment.upholds_lasting fun archive node e w v w' hv => ?_
  exact h.ifConclusion_of_command hv

end Distill

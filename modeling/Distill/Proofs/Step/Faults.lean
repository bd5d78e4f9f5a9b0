import Distill.Execution.Host
import Distill.Proofs.Results
import Distill.Proofs.Step.Checked
import Distill.Proofs.Step.Running

/-!
# Faults of definitions

A step meets three faults that its definition is to blame for: it reads an input and has none,
it is an empty chain, or a text of a command is no template. Here steps run with what is
reported of a fault as a parameter. A step that is checked, and has an input if it reads one,
runs in the same way whatever would be reported: it meets none of the faults.

## Main definitions

* `Step.Fault` — the faults.
* `Step.runWith`, `ExecStep.startWith` — steps and commands with any report of faults.

## Main statements

* `Step.runWith_failure`, `ExecStep.startWith_failure` — with the usual reports they are steps
  and commands as they run.
* `Step.exists_runWith_none` — a step without the input that it reads meets a fault.
* `Step.Checked.runWith_eq` — a step that is checked meets no fault.
* `Host.exists_command_eq_start` — the commands of a host are started in this way.
-/

namespace Distill

open Step (Doing)

/-- What only a definition that was not checked leads to. -/
inductive Step.Fault where
  /-- A step that reads an input has none. -/
  | noInput (s : Step)
  /-- A chain without steps has no input that it could give. -/
  | emptyChain
  /-- A command or a parameter is no template. -/
  | noTemplate (e : TemplateError)
  deriving Repr

open Step (Fault)

/-- The usual report of a fault. -/
def Step.Fault.failure : Fault → Failure
  | noInput s => ⟨.decode, s.typeName ++ " step has no input artifact"⟩
  | emptyChain => ⟨.decode, "empty chain"⟩
  | noTemplate e => ⟨.exec, "invalid command template: " ++ e.display⟩

variable {σ : Type} (report : Fault → Failure)

/-! ## Commands -/

section Commands

variable (site : CommandSite) (node : String)

/-- A command or parameter with its placeholders replaced. -/
def CommandSite.renderWith (template : String) : Except Failure String :=
  match Template.parse template with
  | .ok t => .ok (t.render (site.placeholder? node))
  | .error e => .error (report (.noTemplate e))

namespace ExecStep

/-- The command and the parameters of a node with their placeholders replaced. -/
def renderedWith (e : ExecStep) : Except Failure (String × List String) := do
  return (← site.renderWith report node e.command, ← e.params.mapM (site.renderWith report node))

variable (launch : ExecStep → String × List String → Doing σ ArtifactValue)

/-- A command whose texts are rendered before it is launched. -/
def start (e : ExecStep) : Doing σ ArtifactValue := do
  launch e (← Doing.lift (e.rendered site node))

/-- A command that is started, with any report of faults. -/
def startWith (e : ExecStep) : Doing σ ArtifactValue := do
  launch e (← Doing.lift (e.renderedWith report site node))

end ExecStep

theorem CommandSite.renderWith_failure :
    site.renderWith Fault.failure node = site.render node := by
  funext template
  rw [renderWith, render]
  cases Template.parse template <;> rfl

theorem ExecStep.startWith_failure
    (launch : ExecStep → String × List String → Doing σ ArtifactValue) :
    startWith Fault.failure site node launch = start site node launch := by
  funext e
  rw [startWith, renderedWith, CommandSite.renderWith_failure]
  rfl

variable {report site node} {e : ExecStep}

theorem CommandSite.renderWith_eq {text : String} (h : Command.Fillable text) :
    site.renderWith report node text = site.render node text := by
  obtain ⟨t, ht, -⟩ := h
  simp only [renderWith, render, ht]

/-- **A command whose texts are fillable is rendered without a fault.** -/
theorem ExecStep.startWith_eq (h : ∀ text ∈ e.command :: e.params, Command.Fillable text)
    (launch : ExecStep → String × List String → Doing σ ArtifactValue) :
    startWith report site node launch e = start site node launch e := by
  have hcommand : site.renderWith report node e.command = site.render node e.command :=
    CommandSite.renderWith_eq (h e.command List.mem_cons_self)
  have hparams : e.params.mapM (site.renderWith report node) = e.params.mapM (site.render node) :=
    mapM_congr fun text htext =>
      CommandSite.renderWith_eq (h text (List.mem_cons_of_mem _ htext))
  rw [startWith, renderedWith, hcommand, hparams]
  rfl

end Commands

/-! ## Steps -/

namespace Step

/-- The input of a step that needs one. -/
def requireWith (s : Step) (input : Option ArtifactValue) : Except Failure ArtifactValue :=
  match input with
  | some v => .ok v
  | none => .error (report (.noInput s))

mutual

/-- The output of a step of a node for an input, with any report of faults. -/
def runWith (command : ExecStep → Doing σ ArtifactValue) (clock : StateM σ Elapsed)
    (node : String) (s : Step) (input : Option ArtifactValue) : Doing σ ArtifactValue :=
  match s with
  | exec e => command e
  | decodeYaml => .lift do decode (← requireWith report .decodeYaml input)
  | filter f => .lift do applyFilter f (← requireWith report (.filter f) input)
  | splitLines => .lift do return lines (← requireWith report .splitLines input)
  | chain steps => runChainWith command clock node steps input
  | analysis a => do
    let v ← Doing.lift (requireWith report (.analysis a) input)
    return .conclusion (conclude node a v (← ExceptT.lift clock))

/-- The output of the last of some steps that are piped together, with any report of
faults. -/
def runChainWith (command : ExecStep → Doing σ ArtifactValue) (clock : StateM σ Elapsed)
    (node : String) (steps : List Step) (input : Option ArtifactValue) : Doing σ ArtifactValue :=
  match steps with
  | [] => match input with
    | some v => pure v
    | none => throw (report .emptyChain)
  | s :: rest => do
    let output ← runWith command clock node s input
    runChainWith command clock node rest (some output)

end

variable {report} {command command' : ExecStep → Doing σ ArtifactValue}
  {clock : StateM σ Elapsed} {node : String}

@[simp] theorem requireWith_failure (s : Step) (input : Option ArtifactValue) :
    requireWith Fault.failure s input = requireInput s input := by
  cases input <;> rfl

mutual

/-- With the usual reports a step runs as it does. -/
theorem runWith_failure (s : Step) (input : Option ArtifactValue) :
    runWith Fault.failure command clock node s input = run command clock node s input := by
  cases s with
  | chain steps =>
      simp only [runWith, run]
      exact runChainWith_failure steps input
  | _ => simp only [runWith, run, requireWith_failure]

theorem runChainWith_failure (steps : List Step) (input : Option ArtifactValue) :
    runChainWith Fault.failure command clock node steps input =
      runChain command clock node steps input := by
  cases steps with
  | nil =>
      simp only [runChainWith, runChain]
      cases input <;> rfl
  | cons s rest =>
      simp only [runChainWith, runChain, runWith_failure s input]
      congr 1
      funext output
      exact runChainWith_failure rest (some output)

end

mutual

/-- A step without the input that it reads has nothing but a fault to report. -/
theorem exists_runWith_none {s : Step} (h : s.takesInput = true) (w : σ) :
    ∃ t, runWith report command clock node s none w = (.error (report (.noInput t)), w) := by
  cases s with
  | exec e => simp [takesInput] at h
  | chain steps =>
      simp only [runWith]
      exact exists_runChainWith_none (by simpa only [takesInput] using h) w
  | _ => exact ⟨_, by simp only [runWith]; rfl⟩

theorem exists_runChainWith_none {steps : List Step} (h : headTakesInput steps = true) (w : σ) :
    ∃ t, runChainWith report command clock node steps none w =
      (.error (report (.noInput t)), w) := by
  cases steps with
  | nil => simp [headTakesInput] at h
  | cons s rest =>
      obtain ⟨t, ht⟩ := exists_runWith_none (s := s) (by simpa only [headTakesInput] using h) w
      exact ⟨t, by simp only [runChainWith, Doing.bind_apply, ht]⟩

end

mutual

/-- **A step that is checked meets no fault,** provided that it has an input if it reads one.
Of commands only those that the step holds matter. -/
theorem Checked.runWith_eq {s : Step} (hs : s.Checked) {input : Option ArtifactValue}
    (hinput : s.takesInput = true → input.isSome = true)
    (hcommand : ∀ e, exec e ∈ s.parts → command' e = command e) :
    runWith report command' clock node s input = run command clock node s input := by
  have given : s.takesInput = true → ∃ v, input = some v :=
    fun h => Option.isSome_iff_exists.mp (hinput h)
  cases s with
  | exec e =>
      simp only [runWith, run]
      exact hcommand e (mem_parts_self _)
  | chain steps =>
      simp only [runWith, run]
      refine runChainWith_eq (fun _ hmem => hs.of_mem_chain hmem) ?_ ?_
      · rintro (hnil | hhead)
        · exact absurd hnil hs.ne_nil
        · exact hinput (by simpa only [takesInput] using hhead)
      · exact fun e he => hcommand e (by rw [parts_chain]; exact List.mem_cons_of_mem _ he)
  | decodeYaml | filter | splitLines | analysis =>
      obtain ⟨v, rfl⟩ := given (by simp only [takesInput])
      simp only [runWith, run, requireWith, requireInput]

/-- The first step reads the input of a chain, and every other one has the output of the step
before it. -/
theorem runChainWith_eq {steps : List Step} (hsteps : ∀ s ∈ steps, s.Checked)
    {input : Option ArtifactValue}
    (hinput : steps = [] ∨ headTakesInput steps = true → input.isSome = true)
    (hcommand : ∀ e, exec e ∈ partsOf steps → command' e = command e) :
    runChainWith report command' clock node steps input =
      runChain command clock node steps input := by
  cases steps with
  | nil =>
      obtain ⟨v, rfl⟩ := Option.isSome_iff_exists.mp (hinput (Or.inl rfl))
      simp only [runChainWith, runChain]
  | cons s rest =>
      have hparts : ∀ t ∈ s :: rest, ∀ e, exec e ∈ t.parts → command' e = command e :=
        fun t ht e he => hcommand e (mem_partsOf.mpr ⟨t, ht, he⟩)
      have hs := Checked.runWith_eq (hsteps s List.mem_cons_self)
        (fun h => hinput (Or.inr (by simpa only [headTakesInput] using h)))
        (hparts s List.mem_cons_self)
      simp only [runChainWith, runChain, hs]
      congr 1
      funext output
      refine runChainWith_eq (fun t ht => hsteps t (List.mem_cons_of_mem _ ht)) (fun _ => rfl) ?_
      intro e he
      obtain ⟨t, ht, he⟩ := mem_partsOf.mp he
      exact hparts t (List.mem_cons_of_mem _ ht) e he

end

end Step

/-! ## Hosts -/

theorem Step.Doing.lift_bind {α β : Type} (x : Except Failure α) (f : α → Except Failure β) :
    (Doing.lift (x >>= f) : Doing σ β) = Doing.lift x >>= fun a => Doing.lift (f a) := by
  cases x <;> rfl

/-- The texts of a command are rendered before anything else is done. -/
theorem ExecStep.exists_invocation_eq (site : CommandSite) (node : String) :
    ∃ rest, ∀ e : ExecStep, e.invocation site node = e.rendered site node >>= rest :=
  ⟨_, fun _ => rfl⟩

/-- The commands of a host are rendered first and then launched. -/
theorem Host.exists_command_eq_start (h : Host) (cancelled : Bool) (archive node : String) :
    ∃ launch, h.command cancelled archive node =
      ExecStep.start (h.site archive) node launch := by
  obtain ⟨rest, hrest⟩ := ExecStep.exists_invocation_eq (h.site archive) node
  refine ⟨fun e texts => Doing.lift (rest texts) >>=
    h.launch cancelled (h.site archive) (e.timeout.orElse fun _ => h.timeout), ?_⟩
  funext e
  rw [command, hrest, Doing.lift_bind, bind_assoc]
  rfl

end Distill

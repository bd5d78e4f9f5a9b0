import Distill.Proofs.Definition.Checked
import Distill.Proofs.Execution.Moves
import Distill.Proofs.Graph.Validation
import Distill.Proofs.Step.Faults

/-!
# Evaluations without faults

What a definition can be blamed for never happens once it has been accepted. A task is given an
input exactly if its node has a source, whatever is evaluated and in whatever order; a node has
a source exactly if its step reads an input; and a step that is checked, with the input that it
reads, meets no fault.

## Main definitions

* `Job.Supplied` — tasks have inputs exactly if their nodes have sources.
* `Definition.NodeSet.Faultless` — a set of which no evaluation meets a fault.

## Main statements

* `Job.Leads.supplied` — in every state of a schedule the tasks are supplied.
* `Definition.NodeSet.faultless_of_ofText` — what is read from a text is faultless.
-/

namespace Distill

open Definition (NodeSet)

/-! ## Sources -/

/-- The graph has a source for a node exactly if the node names one. -/
theorem Graph.isSome_source {s : NodeSet} {g : Graph} (h : ofSet s = .ok g) {i : Nat}
    {n : Definition.Node} (hn : s.nodes[i]? = some n) :
    (g.source i).isSome = n.source.isSome := by
  have hknown := (ends_of_ofSet h).1
  have hsources := (ofSet_eq_ok h).1
  rw [sourcesOf_of_known hknown, Except.ok.injEq] at hsources
  rw [source, sourceAt, ← hsources, List.getElem?_map, hn]
  cases hsource : n.source with
  | none => simp [hsource]
  | some name =>
      obtain ⟨k, hk⟩ := NodeSet.exists_indexOf? (hknown n (List.mem_of_getElem? hn) name hsource)
      simp [hsource, hk]

/-! ## Inputs -/

namespace Job

variable {j : Job} {p p' : Progress} {c c' : Cache} {m : Move}

/-- Each task has an input exactly if its node has a source. -/
def Supplied (j : Job) (p : Progress) : Prop :=
  ∀ t ∈ p.tasks, t.input.isSome = (j.graph.source t.node).isSome

theorem isSome_of_resolveInput {i : Nat} {input : Option ArtifactValue}
    (h : j.resolveInput p i = .ok input) : input.isSome = (j.graph.source i).isSome := by
  rw [resolveInput] at h
  split at h
  · next hsource =>
    rw [← Except.ok.inj h, hsource]
    rfl
  · next hsource =>
    rw [hsource]
    split at h
    · rw [← Except.ok.inj h]
      rfl
    · rw [← Except.ok.inj h]
      rfl
    all_goals cases h

theorem Supplied.setStage (h : j.Supplied p) (i : Nat) (stage : Stage) :
    j.Supplied (p.setStage i stage) := by
  intro t ht
  rcases Progress.mem_tasks_setStage.mp ht with ⟨ht, -⟩ | ⟨u, hu, -, rfl⟩
  · exact h t ht
  · exact h u hu

/-- Every move leaves the tasks supplied: a task gets its input when it is launched. -/
theorem Supplied.makes (h : j.Supplied p) (hm : j.Makes p c m p' c') : j.Supplied p' := by
  cases hm with
  | launch ready slot source =>
      intro t ht
      rcases List.mem_append.mp ht with ht | ht
      · exact h t ht
      · rw [List.mem_singleton.mp ht]
        exact isSome_of_resolveInput source
  | block | cancel => exact h
  | reuse | refuse | start | finish => exact h.setStage _ _
  | settle => exact fun t ht => h t (List.mem_filter.mp ht).1

/-- **In every state of a schedule the tasks are supplied.** -/
theorem Leads.supplied {allows : Progress → Cache → Move → Prop} {ms : List Move}
    {cancelled : Bool} (h : j.Leads allows ms (j.start cancelled) c p c') : j.Supplied p :=
  h.induction (I := fun p _ => j.Supplied p) (fun hp _ hm => hp.makes hm)
    fun t ht => by simp [start] at ht

end Job

/-! ## Accepted definitions -/

namespace Definition.NodeSet

open Step (Doing)

/-- A set with its graph of which nothing fails that could have been checked. -/
structure Faultless (set : NodeSet) (g : Graph) : Prop where
  /-- A node has a source exactly if its step reads an input. -/
  source : ∀ n ∈ set.nodes, n.source.isSome = n.step.takesInput
  /-- No chain is empty or holds an analysis, at any depth. -/
  chains : ∀ n ∈ set.nodes, ∀ steps, .chain steps ∈ n.step.parts →
    steps ≠ [] ∧ ∀ a, .analysis a ∉ Step.partsOf steps
  /-- Every command and every parameter is rendered, at any depth and wherever it runs, and each
  of its placeholders stands for something. -/
  texts : ∀ n ∈ set.nodes, ∀ e, .exec e ∈ n.step.parts → ∀ text ∈ e.command :: e.params,
    ∀ site : CommandSite, ∃ t, Template.parse text = .ok t ∧
      (∀ token, .placeholder token ∈ t.segments → (site.placeholder? n.name token).isSome) ∧
      site.render n.name text = .ok (t.render (site.placeholder? n.name))
  /-- Whatever is evaluated, in whatever order and with whatever cache: every step in flight has
  an input exactly if it reads one, and it meets no fault, since it runs in the same way whatever
  would be reported of one. Commands may give and change anything once they are launched. -/
  runs : ∀ j : Job, j.set = set → j.graph = g → ∀ {allows ms cancelled c p c'},
    j.Leads allows ms (j.start cancelled) c p c' →
      ∀ t ∈ p.tasks, ∀ n, set.nodes[t.node]? = some n →
        t.input.isSome = n.step.takesInput ∧
        ∀ {σ : Type} (report : Step.Fault → Failure) (site : CommandSite)
          (launch : ExecStep → String × List String → Doing σ ArtifactValue)
          (clock : StateM σ Elapsed),
          n.step.runWith report (ExecStep.startWith report site n.name launch) clock n.name
              t.input =
            n.step.run (ExecStep.start site n.name launch) clock n.name t.input

/-- **What is read from a text is faultless.** A definition that is accepted and has a graph
never fails for a reason that could have been seen before. -/
theorem faultless_of_ofText {source : String} {set : NodeSet} {g : Graph}
    (hset : ofText source = .ok set) (hgraph : Graph.ofSet set = .ok g) : set.Faultless g := by
  have hchecked := checked_of_ofText hset
  refine ⟨fun n hn => (hchecked n hn).source, ?_, ?_, ?_⟩
  · intro n hn steps hsteps
    exact ⟨(hchecked n hn).step.nonempty steps hsteps, (hchecked n hn).step.noAnalysis steps hsteps⟩
  · intro n hn e he text htext site
    exact CommandSite.exists_render ((hchecked n hn).step.fillable e he text htext) site n.name
  · rintro j rfl rfl allows ms cancelled c p c' h t ht n hn
    have hnode := hchecked n (List.mem_of_getElem? hn)
    have hinput : t.input.isSome = n.step.takesInput := by
      rw [h.supplied t ht, Graph.isSome_source hgraph hn, hnode.source]
    refine ⟨hinput, fun report site launch clock => ?_⟩
    refine hnode.step.runWith_eq (fun htakes => hinput.trans htakes) fun e he => ?_
    exact ExecStep.startWith_eq (hnode.step.fillable e he) launch

/-- A log that a command sorts, and its lines by way of a chain in a chain. -/
def sortedLog : String := "name: log
type: exec
exec: sort \x7bfiles\x7d/log
---
name: lines
source: log
type: chain
chain: [\x7btype: chain, chain: [\x7btype: splitlines\x7d]\x7d]
"

theorem sortedLog_faultless : ∃ set g, ofText sortedLog = .ok set ∧ Graph.ofSet set = .ok g ∧
    set.names = ["log", "lines"] ∧ g.sources = [none, some 0] ∧ set.Faultless g := by
  have hread : ((ofText sortedLog).toOption.bind fun set =>
      (Graph.ofSet set).toOption.map fun g => (set.names, g.sources)) =
        some (["log", "lines"], [none, some 0]) := by decide +kernel
  obtain ⟨set, hset, hread⟩ := Option.bind_eq_some_iff.mp hread
  obtain ⟨g, hgraph, hread⟩ := Option.map_eq_some_iff.mp hread
  rw [Prod.mk.injEq] at hread
  have hset := toOption_eq_some_iff.mp hset
  have hgraph := toOption_eq_some_iff.mp hgraph
  exact ⟨set, g, hset, hgraph, hread.1, hread.2, faultless_of_ofText hset hgraph⟩

end Definition.NodeSet

end Distill

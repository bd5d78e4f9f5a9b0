import Distill.Proofs.Execution.Serial

/-!
# Every selected node once

What every evaluation does, whatever its steps give, in whatever order its tasks go on, and
whenever it is cancelled: it ends, and by then it has settled every selected node once and
no other node at all.

## Main definitions

* `Definition.NodeSet.logLines` — a command whose lines another node splits.

## Main statements

* `Job.map_name_report` — the report lists the settled nodes in the order of the graph.
* `Job.settles_each_selected_node_once` — what holds in every state and at the end.
-/

namespace Distill

namespace Job

variable {j : Job} {p : Progress}

/-- **The report lists the settled nodes in the order of the graph.** -/
theorem map_name_report (hj : j.Sound) (hp : j.Orderly p) (hover : p.isOver = true) :
    (j.report p).nodes.map (·.name) = (j.graph.order.filter j.isSelected).map j.graph.name := by
  simp only [report, List.map_filterMap]
  induction j.graph.order with
  | nil => rfl
  | cons i rest ih =>
      have hsettled := hp.settled_iff hj hover (i := i)
      cases hout : p.outcome? i with
      | none =>
          have hi : ¬ j.isSelected i = true := by
            rw [← hsettled, Progress.Settled, hout]
            simp
          rw [List.filterMap_cons, List.filter_cons_of_neg hi, hout]
          exact ih
      | some o =>
          have hi : j.isSelected i = true := by
            rw [← hsettled, Progress.Settled, hout]
            rfl
          rw [List.filterMap_cons, List.filter_cons_of_pos hi, hout, List.map_cons]
          simp only [Option.map_some, ih]

/-- The end of every selected node has been told once. -/
theorem told_perm (hj : j.Sound) (hp : j.Orderly p) (hover : p.isOver = true) :
    p.told.Perm ((j.graph.order.filter j.isSelected).map j.graph.name) := by
  obtain ⟨settled, hnodup, hmem, htold⟩ := hp.told
  rw [htold]
  refine List.Perm.map _ ?_
  rw [List.perm_ext_iff_of_nodup hnodup (hj.graph.nodup_order.filter _)]
  intro i
  rw [hmem, hp.settled_iff hj hover, List.mem_filter, hj.graph.mem_order]
  exact ⟨fun hi => ⟨hj.lt_of_isSelected hi, hi⟩, fun hi => hi.2⟩

theorem nodup_told (hj : j.Sound) (hp : j.Orderly p) : p.told.Nodup := by
  obtain ⟨settled, hnodup, hmem, htold⟩ := hp.told
  rw [htold]
  refine List.Nodup.map_on ?_ hnodup
  intro i hi k hk hname
  have hlt : ∀ n ∈ settled, n < j.graph.size := fun n hn =>
    hj.lt_of_isSelected (hp.isSelected_of_settled ((hmem n).mp hn))
  exact Graph.name_injective hj.graph_eq (hlt i hi) (hlt k hk) hname

theorem mem_told (hp : j.Orderly p) {name : String} :
    name ∈ p.told ↔ ∃ i, p.Settled i ∧ j.graph.name i = name := by
  obtain ⟨settled, -, hmem, htold⟩ := hp.told
  simp only [htold, List.mem_map, hmem]

/-- **Every evaluation ends, and settles every selected node once and no other node.** The
first part is about every state that some schedule leads to. There are at most four moves
for each node, and as long as something is left to do one can be made, whatever the steps
give. A node is ready or in flight only once, only before it is settled and only after its
source is; there are never more tasks than slots; and the end of a node is told when it is
settled, once, and only if it is selected. When nothing is left to do, all selected nodes
are settled and told, and the report lists them in the order of the graph, where each of
them stands once. The last part is about evaluations by an environment. -/
theorem settles_each_selected_node_once (hj : j.Sound) (cancelled : Bool) (c : Cache) :
    (∀ ms p c', j.Leads (fun _ _ _ => True) ms (j.start cancelled) c p c' →
      (ms.filter (!·.isCancel)).length ≤ 4 * j.graph.size ∧
      (p.isOver = false → ∀ r, ∃ m p₁ c₁, j.move? p c' m = some (p₁, c₁) ∧ GoesOn p r m) ∧
      (p.ready ++ p.running).Nodup ∧
      (∀ i ∈ p.ready ++ p.running, ¬ p.Settled i) ∧
      (∀ i, i ∈ p.ready ++ p.running ∨ p.Settled i →
        j.isSelected i = true ∧ ∀ k, j.graph.source i = some k → p.Settled k) ∧
      p.tasks.length ≤ max j.limit 1 ∧
      p.told.Nodup ∧
      (∀ name, name ∈ p.told ↔ ∃ i, p.Settled i ∧ j.graph.name i = name) ∧
      (p.isOver = true →
        (∀ i, p.Settled i ↔ j.isSelected i = true) ∧
        p.told.Perm ((j.graph.order.filter j.isSelected).map j.graph.name) ∧
        (j.report p).nodes.map (·.name) =
          (j.graph.order.filter j.isSelected).map j.graph.name)) ∧
    j.graph.order.Perm (List.range j.graph.size) ∧
    ∀ (σ : Type) (env : Environment σ) (w : σ),
      (env.execute j cancelled c w).1.1.isOver = true := by
  refine ⟨?_, hj.graph.order_perm, ?_⟩
  · intro ms p c' h
    have hp := h.orderly hj
    have hlen := h.length_le hj (orderly_start hj cancelled)
    have hle := j.remaining_le (j.start cancelled)
    refine ⟨by omega, ?_, hp.nodup, hp.unsettled, fun i hi => (hp.placed_iff i).mp hi, hp.slots,
      nodup_told hj hp, fun name => mem_told hp, ?_⟩
    · intro hover r
      obtain ⟨m, p₁, c₁, hmakes, hgoes⟩ := exists_goesOn hp hover c' r
      exact ⟨m, p₁, c₁, hmakes.move?_eq, hgoes⟩
    · intro hover
      exact ⟨fun i => hp.settled_iff hj hover, told_perm hj hp hover, map_name_report hj hp hover⟩
  · intro σ env w
    obtain ⟨ms, p', c', heq, -, hover⟩ := env.leads_execute hj cancelled c w
    rw [heq]
    exact hover

end Job

/-- A command, and a node that splits its output into lines. -/
def Definition.NodeSet.logLines : NodeSet :=
  .ofDistinct [⟨"log", none, .exec ⟨"cat log", [], none⟩⟩, ⟨"lines", some "log", .splitLines⟩]
    (by decide)

/-- The graph of `Definition.NodeSet.logLines`. -/
def Graph.logLines : Graph := ⟨["log", "lines"], [none, some 0], [0, 1]⟩

/-- The evaluation of both nodes in two slots. -/
def Job.logLines : Job :=
  { set := .logLines, graph := .logLines, archive := "sos", force := false, limit := 2,
    selected := Graph.logLines.everything }

theorem Job.sound_logLines : Job.logLines.Sound where
  graph_eq := rfl
  selected_length := rfl
  closed := Graph.closed_everything (Graph.sound_ofSet (s := .logLines) rfl)

/-- Both nodes are told once, and reported in the order of the graph. -/
theorem Job.logLines_settles_each_selected_node_once :
    logLines.Sound ∧ ∃ ms p c', logLines.Leads (fun _ _ _ => True) ms (logLines.start false)
      ⟨"cache", some []⟩ p c' ∧ p.isOver = true ∧ p.told.Perm ["log", "lines"] ∧
      (logLines.report p).nodes.map (·.name) = ["log", "lines"] := by
  have hall : Productive fun _ _ _ => True :=
    ⟨fun _ _ => trivial, fun _ _ _ => trivial, fun _ _ _ => trivial,
      fun _ _ => ⟨fun _ => .panic "", fun _ _ _ => trivial⟩⟩
  obtain ⟨ms, p, c', hleads, hover⟩ :=
    exists_end hall sound_logLines (orderly_start sound_logLines false) ⟨"cache", some []⟩
  have h := (settles_each_selected_node_once sound_logLines false ⟨"cache", some []⟩).1 ms p c'
    hleads
  obtain ⟨-, -, -, -, -, -, -, -, hend⟩ := h
  exact ⟨sound_logLines, ms, p, c', hleads, hover, (hend hover).2.1, (hend hover).2.2⟩

end Distill

import Distill.Proofs.Execution.Completeness
import Distill.Proofs.Execution.Ended
import Distill.Proofs.Graph.LeastOrder

/-!
# Turns

With one slot at most one node is in flight, and no other node gets its turn before that one is
settled. The node that is launched is the first of those that are ready, and these are the ones
that can come next; so the nodes are settled in greedy order. The order of the graph is greedy
too, and there is one greedy order of the selected nodes.

## Main definitions

* `Job.InTurn` — the invariant of an evaluation with one slot.

## Main statements

* `Job.InTurn.makes`, `Job.Leads.inTurn` — every move keeps it.
* `Job.settles_in_graph_order` — the order in which nodes are settled.
-/

namespace Distill

namespace Job

variable {j : Job} {p p' q : Progress} {c c' : Cache} {m : Move} {settled : List Nat} {i k : Nat}

/-- What holds in every state of an evaluation with one slot. -/
structure InTurn (j : Job) (p : Progress) (settled : List Nat) : Prop where
  told : p.told = settled.map j.graph.name
  mem_iff : ∀ i, i ∈ settled ↔ p.Settled i
  greedy : Greedy j.graph.sources j.isSelected settled
  /-- The node in flight comes before all that are ready. -/
  first : ∀ i ∈ p.running, ∀ k ∈ p.ready, i < k

theorem inTurn_start (cancelled : Bool) : j.InTurn (j.start cancelled) [] := by
  refine ⟨rfl, ?_, greedy_nil _ _, ?_⟩
  · intro i
    simp only [List.not_mem_nil, false_iff, Progress.settled_iff, not_exists]
    intro o ho
    exact not_ended_start cancelled (Or.inl ho)
  · intro i hi
    simp [start, Progress.running] at hi

/-- **The nodes that are ready or in flight are the selected nodes that can come next.** -/
theorem InTurn.mem_iff_canFollow (hj : j.Sound) (hp : j.Orderly p) (h : j.InTurn p settled) :
    i ∈ p.ready ++ p.running ↔
      j.isSelected i = true ∧ CanFollow j.graph.sources settled i := by
  have hplaced := hp.placed_iff i
  simp only [CanFollow, h.mem_iff, hj.graph.sources_length]
  constructor
  · intro hi
    obtain ⟨hselected, hsource⟩ := hplaced.mp (Or.inl hi)
    exact ⟨hselected, hj.lt_of_isSelected hselected, hp.unsettled i hi, hsource⟩
  · rintro ⟨hselected, -, hfresh, hsource⟩
    exact (hplaced.mpr ⟨hselected, hsource⟩).resolve_right hfresh

/-- A move that settles nothing and makes nothing ready. -/
theorem InTurn.of_eq (h : j.InTurn p settled) (htold : q.told = p.told)
    (houtcomes : q.outcomes = p.outcomes) (hready : q.ready = p.ready)
    (hrunning : q.running = p.running) : j.InTurn q settled where
  told := htold.trans h.told
  mem_iff i := by rw [h.mem_iff, Progress.Settled, Progress.Settled, Progress.outcome?,
    Progress.outcome?, houtcomes]
  greedy := h.greedy
  first := by
    rw [hready, hrunning]
    exact h.first

/-- The least of the nodes that are ready or in flight is settled, and then none is in flight. -/
theorem InTurn.record (hj : j.Sound) (hp : j.Orderly p) (h : j.InTurn p settled)
    (hi : i ∈ p.ready ++ p.running) (hleast : ∀ k ∈ p.ready ++ p.running, i ≤ k)
    (htold : q.told = p.told) (houtcomes : q.outcomes = p.outcomes) (htasks : q.tasks = [])
    (o : NodeOutcome) : j.InTurn (j.record q i o) (settled ++ [i]) where
  told := by rw [told_record, htold, h.told, List.map_append, List.map_singleton]
  mem_iff k := by
    rw [List.mem_append, List.mem_singleton, h.mem_iff,
      settled_record (houtcomes ▸ hp.lt_outcomes_length hj hi), or_comm, Progress.Settled,
      Progress.Settled, Progress.outcome?, Progress.outcome?, houtcomes]
  greedy := by
    obtain ⟨hselected, hfollow⟩ := (h.mem_iff_canFollow hj hp).mp hi
    refine h.greedy.concat hselected hfollow ?_
    intro k hk hcan
    exact hleast k ((h.mem_iff_canFollow hj hp).mpr ⟨hk, hcan⟩)
  first k hk := by
    have hnone : (j.record q i o).running = [] := by
      rw [Progress.running, List.map_eq_nil_iff]
      exact htasks
    simp [hnone] at hk

/-- The first of the nodes that are ready is the least of them. -/
theorem Orderly.le_of_ready (hp : j.Orderly p) {rest : List Nat} (hready : p.ready = i :: rest)
    (hk : k ∈ p.ready) : i ≤ k := by
  have hasc := hp.ascending
  rw [hready] at hasc hk
  rcases List.mem_cons.mp hk with rfl | hk
  · exact Nat.le_refl k
  · exact Nat.le_of_lt ((List.pairwise_cons.mp hasc).1 k hk)

/-- **Every move keeps the invariant** when there is one slot. -/
theorem InTurn.makes (hj : j.Sound) (hlimit : j.limit ≤ 1) (hp : j.Orderly p)
    (h : j.InTurn p settled) (hm : j.Makes p c m p' c') : ∃ settled', j.InTurn p' settled' := by
  have hslots : j.slots = 1 := by
    rw [slots]
    omega
  cases hm with
  | @launch i rest input hready hslot hinput =>
      have htasks : p.tasks = [] := List.length_eq_zero_iff.mp (by omega)
      refine ⟨settled, h.told, h.mem_iff, h.greedy, ?_⟩
      intro n hn k hk
      obtain rfl : n = i := by simpa [Progress.running, htasks] using hn
      have hasc := hp.ascending
      rw [hready] at hasc
      exact (List.pairwise_cons.mp hasc).1 k hk
  | @block i rest blocker hready hslot hinput =>
      have htasks : p.tasks = [] := List.length_eq_zero_iff.mp (by omega)
      refine ⟨settled ++ [i], h.record (q := { p with ready := rest }) hj hp (by simp [hready]) ?_
        rfl rfl htasks _⟩
      intro k hk
      have hk' : k ∈ p.ready := by simpa [Progress.running, htasks] using hk
      exact hp.le_of_ready hready hk'
  | reuse htask hstored =>
      exact ⟨settled, h.of_eq rfl rfl rfl (Progress.running_setStage _)⟩
  | refuse htask hstored hcancelled =>
      refine ⟨settled, h.of_eq ?_ rfl rfl (Progress.running_setStage _)⟩
      simp [Progress.told, Progress.setStage, Progress.tell, List.filterMap_append, Event.endOf?]
  | start htask hstored hcancelled =>
      refine ⟨settled, h.of_eq ?_ rfl rfl (Progress.running_setStage _)⟩
      simp [Progress.told, Progress.setStage, Progress.tell, List.filterMap_append, Event.endOf?]
  | finish htask => exact ⟨settled, h.of_eq rfl rfl rfl (Progress.running_setStage _)⟩
  | @settle i input o hfull htask =>
      obtain ⟨hmem, hnode⟩ := Progress.mem_of_task? htask
      -- There is one slot, so the task that has finished is the only one.
      obtain ⟨t, htasks⟩ : ∃ t, p.tasks = [t] := by
        have hpos := List.length_pos_of_mem hmem
        have hle := hp.slots
        exact List.length_eq_one_iff.mp (by omega)
      obtain rfl : _ = t := by simpa [htasks] using hmem
      have hrunning : p.running = [i] := by simp [Progress.running, htasks]
      refine ⟨settled ++ [i], h.record (q := { p with tasks := p.tasks.filter (·.node != i) }) hj
        hp (by simp [hrunning]) ?_ rfl rfl (by simp [htasks]) _⟩
      intro k hk
      rw [hrunning, List.mem_append, List.mem_singleton] at hk
      rcases hk with hk | rfl
      · exact Nat.le_of_lt (h.first i (by simp [hrunning]) k hk)
      · exact Nat.le_refl k
  | cancel => exact ⟨settled, h.of_eq rfl rfl rfl rfl⟩

/-- **The invariant holds in every state of a schedule** with one slot. -/
theorem Leads.inTurn {allows : Progress → Cache → Move → Prop} {ms : List Move} (hj : j.Sound)
    (hlimit : j.limit ≤ 1) {cancelled : Bool} (h : j.Leads allows ms (j.start cancelled) c p c') :
    ∃ settled, j.InTurn p settled := by
  refine (h.induction (I := fun q _ => j.Orderly q ∧ ∃ settled, j.InTurn q settled) ?_
    ⟨orderly_start hj cancelled, [], inTurn_start cancelled⟩).2
  rintro q d m q' d' ⟨hq, settled, hturn⟩ - hm
  exact ⟨hq.makes hj hm, hturn.makes hj hlimit hq hm⟩

/-- The selected nodes in the order of the graph are in greedy order. -/
theorem Sound.greedy_order (hj : j.Sound) :
    Greedy j.graph.sources j.isSelected (j.graph.order.filter j.isSelected) :=
  (Graph.greedy_order hj.graph_eq).filter fun _ _ => hj.isSelected_source

theorem Sound.mem_order_filter (hj : j.Sound) :
    i ∈ j.graph.order.filter j.isSelected ↔ j.isSelected i = true := by
  rw [List.mem_filter, hj.graph.mem_order]
  exact ⟨And.right, fun hi => ⟨hj.lt_of_isSelected hi, hi⟩⟩

/-- What is settled is the beginning of the order of the graph, and at the end it is all of it. -/
theorem InTurn.prefix_order (hj : j.Sound) (hp : j.Orderly p) (h : j.InTurn p settled) :
    settled <+: j.graph.order.filter j.isSelected ∧
      (p.isOver = true → settled = j.graph.order.filter j.isSelected) := by
  have hbefore := h.greedy.prefix_of_forall_mem hj.greedy_order fun _ => hj.mem_order_filter.mpr
  refine ⟨hbefore, fun hover => ?_⟩
  have hall : ∀ i, j.isSelected i = true → i ∈ settled := by
    intro i hi
    exact (h.mem_iff i).mpr (hp.settled_of_isOver hj hover hi)
  exact hbefore.eq_of_length_le (hj.greedy_order.prefix_of_forall_mem h.greedy hall).length_le

/-- **With one slot the nodes are settled in the order of the graph.** In every state that some
schedule leads to, the nodes whose end has been told are the first ones of the selected nodes in
the order of the graph, and when nothing is left to do they are all of them; each end is told when
the node is settled, whether its step was done, its value was in the cache, it has failed or it is
blocked. The steps may give any results, the cache may hold anything, and the run may be cancelled
at any time. The last part is about evaluations by an environment. -/
theorem settles_in_graph_order (hj : j.Sound) (hlimit : j.limit ≤ 1) (cancelled : Bool)
    (c : Cache) :
    (∀ ms p c', j.Leads (fun _ _ _ => True) ms (j.start cancelled) c p c' →
      p.told <+: (j.graph.order.filter j.isSelected).map j.graph.name ∧
      (p.isOver = true →
        p.told = (j.graph.order.filter j.isSelected).map j.graph.name)) ∧
    ∀ (σ : Type) (env : Environment σ) (w : σ),
      (env.execute j cancelled c w).1.1.isOver = true ∧
      (env.execute j cancelled c w).1.1.told =
        (j.graph.order.filter j.isSelected).map j.graph.name := by
  have hall : ∀ ms p c', j.Leads (fun _ _ _ => True) ms (j.start cancelled) c p c' →
      p.told <+: (j.graph.order.filter j.isSelected).map j.graph.name ∧
      (p.isOver = true →
        p.told = (j.graph.order.filter j.isSelected).map j.graph.name) := by
    intro ms p c' h
    obtain ⟨settled, hturn⟩ := h.inTurn hj hlimit
    obtain ⟨hbefore, hend⟩ := hturn.prefix_order hj (h.orderly hj)
    rw [hturn.told]
    exact ⟨hbefore.map _, fun hover => by rw [hend hover]⟩
  refine ⟨hall, ?_⟩
  intro σ env w
  obtain ⟨ms, p, c', heq, h, hover⟩ := env.leads_execute hj cancelled c w
  rw [heq]
  exact ⟨hover, (hall ms p c' (h.mono fun _ _ _ _ => trivial)).2 hover⟩

/-- The evaluation of nodes that are declared before their sources, without the one between
them. -/
def backwards : Job where
  set := .backwards
  graph := .backwards
  archive := "sos"
  force := false
  limit := 0
  selected := [true, true, false, true]

theorem sound_backwards : backwards.Sound where
  graph_eq := rfl
  selected_length := rfl
  closed := by
    have hroots : ∀ i ∈ [0], i < Graph.backwards.size := by decide
    exact (Graph.closed_closure (Graph.sound_ofSet (s := .backwards) rfl) hroots).1

/-- The lines come before the words, whatever the cache holds and the command gives. -/
theorem backwards_settles_in_graph_order :
    backwards.Sound ∧ backwards.limit ≤ 1 ∧
    ∀ (σ : Type) (env : Environment σ) (w : σ) (c : Cache),
      (env.execute backwards true c w).1.1.told = ["log", "lines", "words"] := by
  refine ⟨sound_backwards, by decide, fun σ env w c => ?_⟩
  exact ((settles_in_graph_order sound_backwards (by decide) true c).2 σ env w).2

end Job

end Distill

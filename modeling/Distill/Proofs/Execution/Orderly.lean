import Distill.Proofs.Execution.Moves

/-!
# The order of an evaluation

A node gets its turn when its source is settled: then it is ready, later in flight, and at
last settled, one after the other and each of them once. This holds in every state that any
schedule can reach, whatever the steps give and whenever the run is cancelled.

## Main definitions

* `Progress.told` — the nodes whose end has been told.
* `Job.Orderly` — the invariant.

## Main statements

* `Job.orderly_start`, `Job.Orderly.makes` — the invariant holds at the start, and every
  move keeps it.
* `Job.Leads.orderly` — it holds in every state of a schedule.
-/

namespace Distill

/-! ## What has been told -/

/-- The node whose end an event tells. -/
def Event.endOf? : Event → Option String
  | nodeCompleted _ node _ | nodeCached _ node | nodeSkipped _ node _ => some node
  | runStarted _ _ | nodeStarted _ _ _ | runCompleted _ _ _ => none

@[simp] theorem Event.endOf?_ofOutcome (archive node : String) (o : NodeOutcome) :
    (ofOutcome archive node o).endOf? = some node := by
  cases o <;> rfl

namespace Progress

variable {p : Progress} {i k : Nat}

/-- The nodes whose end has been told, in order. -/
def told (p : Progress) : List String := p.events.filterMap Event.endOf?

/-- The node has its final state. -/
def Settled (p : Progress) (i : Nat) : Prop := (p.outcome? i).isSome = true

theorem settled_iff : p.Settled i ↔ ∃ o, p.outcome? i = some o := Option.isSome_iff_exists

end Progress

namespace Job

variable {j : Job} {p q p' : Progress} {c c' : Cache} {m : Move} {i k : Nat}

/-! ## Recording -/

/-- A node gets its final state; every other one keeps what it has. -/
theorem outcome?_record (hi : i < p.outcomes.length) (o : NodeOutcome) :
    (j.record p i o).outcome? k = if k = i then some o else p.outcome? k := by
  simp only [record, Progress.outcome?]
  by_cases hk : k = i
  · subst hk
    simp [List.getElem?_set_self hi]
  · simp [hk, List.getElem?_set_ne (Ne.symm hk)]

theorem settled_record (hi : i < p.outcomes.length) (o : NodeOutcome) :
    (j.record p i o).Settled k ↔ k = i ∨ p.Settled k := by
  rw [Progress.Settled, outcome?_record hi]
  by_cases hk : k = i <;> simp [hk, Progress.Settled]

theorem told_record (o : NodeOutcome) : (j.record p i o).told = p.told ++ [j.graph.name i] := by
  simp [Progress.told, record, Progress.tell, List.filterMap_append]

theorem ready_record_perm (o : NodeOutcome) : (j.record p i o).ready.Perm
    ((j.graph.dependents i).filter j.isSelected ++ p.ready) :=
  foldl_insertAscending_perm _ _

/-! ## The invariant -/

/-- What holds in every state of an evaluation. -/
structure Orderly (j : Job) (p : Progress) : Prop where
  outcomes_length : p.outcomes.length = j.graph.size
  ascending : p.ready.Pairwise (· < ·)
  /-- No node is ready twice, in flight twice, or ready and in flight. -/
  nodup : (p.ready ++ p.running).Nodup
  /-- No node that is ready or in flight is settled. -/
  unsettled : ∀ i ∈ p.ready ++ p.running, ¬ p.Settled i
  /-- A node has got its turn exactly when it is selected and its source is settled. -/
  placed_iff : ∀ i, (i ∈ p.ready ++ p.running ∨ p.Settled i) ↔
    j.isSelected i = true ∧ ∀ k, j.graph.source i = some k → p.Settled k
  slots : p.tasks.length ≤ j.slots
  /-- A task reads what its source has left. -/
  input : ∀ t ∈ p.tasks, j.resolveInput p t.node = .ok t.input
  /-- The end of every settled node has been told once. -/
  told : ∃ settled : List Nat, settled.Nodup ∧ (∀ i, i ∈ settled ↔ p.Settled i) ∧
    p.told = settled.map j.graph.name

/-- **The invariant holds at the start.** -/
theorem orderly_start (hj : j.Sound) (cancelled : Bool) : j.Orderly (j.start cancelled) := by
  have hnone : ∀ i, ¬ (j.start cancelled).Settled i := by
    intro i
    rw [Progress.Settled, Progress.outcome?, start, List.getElem?_replicate]
    split <;> simp
  have hready : ∀ i, i ∈ (j.start cancelled).ready ++ (j.start cancelled).running ↔
      j.isSelected i = true ∧ j.graph.source i = none := by
    intro i
    simp only [start, Progress.running, List.map_nil, List.append_nil, List.mem_filter,
      List.mem_range, Bool.and_eq_true, Option.isNone_iff_eq_none, and_iff_right_iff_imp]
    exact fun h => hj.lt_of_isSelected h.1
  refine ⟨List.length_replicate, List.pairwise_lt_range.filter _, ?_, fun i _ => hnone i, ?_,
    Nat.zero_le _, ?_, [], List.nodup_nil, ?_, rfl⟩
  · simp only [start, Progress.running, List.map_nil, List.append_nil]
    exact List.nodup_range.filter _
  · intro i
    rw [hready, or_iff_left (hnone i)]
    refine and_congr_right fun _ => ?_
    cases hsource : j.graph.source i with
    | none => simp
    | some k => simpa using hnone k
  · simp [start]
  · simp [hnone]

namespace Orderly

theorem lt_outcomes_length (h : j.Orderly p) (hj : j.Sound) (hi : i ∈ p.ready ++ p.running) :
    i < p.outcomes.length := by
  rw [h.outcomes_length]
  exact hj.lt_of_isSelected ((h.placed_iff i).mp (Or.inl hi)).1

theorem isSelected_of_settled (h : j.Orderly p) (hi : p.Settled i) : j.isSelected i = true :=
  ((h.placed_iff i).mp (Or.inr hi)).1

/-- The source of a node that has got its turn is settled. -/
theorem settled_source (h : j.Orderly p) (hi : i ∈ p.ready ++ p.running ∨ p.Settled i)
    (hk : j.graph.source i = some k) : p.Settled k :=
  ((h.placed_iff i).mp hi).2 k hk

theorem nodup_running (h : j.Orderly p) : p.running.Nodup := (List.nodup_append.mp h.nodup).2.1

/-- A state that differs in the stages of tasks, in what is cancelled or in the calls. -/
theorem of_eq (h : j.Orderly p) (hready : q.ready = p.ready) (houtcomes : q.outcomes = p.outcomes)
    (htasks : q.tasks.map (fun t => (t.node, t.input)) = p.tasks.map (fun t => (t.node, t.input)))
    (htold : q.told = p.told) : j.Orderly q := by
  have houtcome : ∀ k, q.outcome? k = p.outcome? k := fun k => by
    rw [Progress.outcome?, Progress.outcome?, houtcomes]
  have hsettled : ∀ k, q.Settled k ↔ p.Settled k := fun k => by
    rw [Progress.Settled, Progress.Settled, houtcome]
  have hrunning : q.running = p.running := by
    have := congrArg (List.map Prod.fst) htasks
    simpa [Progress.running, List.map_map, Function.comp_def] using this
  refine ⟨houtcomes ▸ h.outcomes_length, hready ▸ h.ascending, ?_, ?_, ?_, ?_, ?_, ?_⟩
  · rw [hready, hrunning]
    exact h.nodup
  · intro i hi
    rw [hready, hrunning] at hi
    rw [hsettled]
    exact h.unsettled i hi
  · intro i
    simp only [hready, hrunning, hsettled]
    exact h.placed_iff i
  · have := congrArg List.length htasks
    simp only [List.length_map] at this
    exact this ▸ h.slots
  · intro t ht
    have hmem : (t.node, t.input) ∈ p.tasks.map (fun t => (t.node, t.input)) :=
      htasks ▸ List.mem_map_of_mem ht
    obtain ⟨u, hu, hut⟩ := List.mem_map.mp hmem
    rw [Prod.mk.injEq] at hut
    rw [resolveInput_congr fun k _ => houtcome k, ← hut.1, ← hut.2]
    exact h.input u hu
  · obtain ⟨settled, hnodup, hmem, heq⟩ := h.told
    exact ⟨settled, hnodup, fun i => by rw [hmem, hsettled], by rw [htold, heq]⟩

theorem setStage (h : j.Orderly p) (i : Nat) (stage : Stage) : j.Orderly (p.setStage i stage) := by
  refine h.of_eq rfl rfl ?_ rfl
  simp only [Progress.setStage, List.map_map]
  refine List.map_congr_left ?_
  intro t _
  simp only [Function.comp_apply]
  split <;> rfl

/-- The first node that is ready gets in flight. -/
theorem launch (h : j.Orderly p) {rest : List Nat} {input : Option ArtifactValue}
    (hready : p.ready = i :: rest) (hslot : p.tasks.length < j.slots)
    (hinput : j.resolveInput p i = .ok input) :
    j.Orderly { p with ready := rest, tasks := p.tasks ++ [⟨i, input, .launched⟩] } := by
  have hperm : (p.ready ++ p.running).Perm (rest ++ (p.running ++ [i])) := by
    rw [hready, List.cons_append, ← List.append_assoc]
    exact (List.perm_append_singleton _ _).symm
  have hmem : ∀ k, k ∈ rest ++ (p.running ++ [i]) ↔ k ∈ p.ready ++ p.running :=
    fun k => hperm.mem_iff.symm
  have hrunning : ({ p with ready := rest, tasks := p.tasks ++ [⟨i, input, .launched⟩] } :
      Progress).running = p.running ++ [i] := by
    simp [Progress.running]
  have hasc := h.ascending
  rw [hready] at hasc
  refine ⟨h.outcomes_length, (List.pairwise_cons.mp hasc).2, ?_, ?_, ?_, ?_, ?_, h.told⟩
  · rw [hrunning]
    exact hperm.nodup_iff.mp h.nodup
  · intro k hk
    rw [hrunning] at hk
    exact h.unsettled k ((hmem k).mp hk)
  · intro k
    rw [hrunning, hmem]
    exact h.placed_iff k
  · rw [List.length_append, List.length_singleton]
    exact hslot
  · intro t ht
    rcases List.mem_append.mp ht with ht | ht
    · exact h.input t ht
    · rw [List.mem_singleton.mp ht]
      exact hinput

/-- What a node that has got its turn reads does not change when another node is settled. -/
theorem resolveInput_record (hp : j.Orderly p)
    (houtcomes : q.outcomes = p.outcomes) (hfresh : ¬ p.Settled i) (hi : i < p.outcomes.length)
    (hk : k ∈ p.ready ++ p.running ∨ p.Settled k) (o : NodeOutcome) :
    j.resolveInput (j.record q i o) k = j.resolveInput p k := by
  refine resolveInput_congr fun n hn => ?_
  have hne : n ≠ i := by
    rintro rfl
    exact hfresh (hp.settled_source hk hn)
  rw [outcome?_record (houtcomes ▸ hi), if_neg hne, Progress.outcome?, Progress.outcome?, houtcomes]

/-- A node that was ready or in flight is settled, and the selected nodes that read its
output get their turn. -/
theorem record (hj : j.Sound) (h : j.Orderly p)
    (hperm : (p.ready ++ p.running).Perm (i :: (q.ready ++ q.running)))
    (hasc : q.ready.Pairwise (· < ·)) (houtcomes : q.outcomes = p.outcomes)
    (htasks : ∀ t ∈ q.tasks, t ∈ p.tasks) (hslots : q.tasks.length ≤ j.slots)
    (htold : q.told = p.told) (o : NodeOutcome) : j.Orderly (j.record q i o) := by
  have hplaced : i ∈ p.ready ++ p.running := hperm.mem_iff.mpr (by simp)
  have hfresh : ¬ p.Settled i := h.unsettled i hplaced
  have hi : i < q.outcomes.length := houtcomes ▸ h.lt_outcomes_length hj hplaced
  have houtcome : ∀ k, q.outcome? k = p.outcome? k := fun k => by
    rw [Progress.outcome?, Progress.outcome?, houtcomes]
  have hsettled : ∀ k, (j.record q i o).Settled k ↔ k = i ∨ p.Settled k := fun k => by
    rw [settled_record hi, Progress.Settled, Progress.Settled, houtcome]
  have hrunning : (j.record q i o).running = q.running := rfl
  -- The nodes that read the output of `i` have not had their turn, for `i` is not settled.
  have hlate : ∀ d ∈ (j.graph.dependents i).filter j.isSelected, d ∉ p.ready ++ p.running ∧
      ¬ p.Settled d := by
    intro d hd
    have hsource := Graph.Sound.mem_dependents.mp (List.mem_filter.mp hd).1
    refine ⟨fun hmem => hfresh (h.settled_source (Or.inl hmem) hsource), fun hmem => ?_⟩
    exact hfresh (h.settled_source (Or.inr hmem) hsource)
  have hperm' : ((j.record q i o).ready ++ q.running).Perm
      ((j.graph.dependents i).filter j.isSelected ++ (q.ready ++ q.running)) := by
    rw [← List.append_assoc]
    exact (ready_record_perm o).append_right _
  have hnodup : ((j.graph.dependents i).filter j.isSelected ++ (q.ready ++ q.running)).Nodup := by
    rw [List.nodup_append]
    refine ⟨(Graph.nodup_dependents i).filter _,
      (List.nodup_cons.mp (hperm.nodup_iff.mp h.nodup)).2, ?_⟩
    intro d hd k hk hdk
    subst hdk
    exact (hlate d hd).1 (hperm.mem_iff.mpr (by simp [hk]))
  refine ⟨?_, ?_, ?_, ?_, ?_, hslots, ?_, ?_⟩
  · simp only [Job.record, List.length_set]
    exact houtcomes ▸ h.outcomes_length
  · refine pairwise_foldl_insertAscending hasc (hnodup.sublist ?_)
    exact (List.sublist_append_left _ _).append_left _
  · rw [hrunning]
    exact hperm'.nodup_iff.mpr hnodup
  · intro k hk
    rw [hrunning, hperm'.mem_iff, List.mem_append] at hk
    rw [hsettled, not_or]
    rcases hk with hk | hk
    · refine ⟨?_, (hlate k hk).2⟩
      rintro rfl
      exact (hlate k hk).1 hplaced
    · refine ⟨?_, h.unsettled k (hperm.mem_iff.mpr (by simp [hk]))⟩
      rintro rfl
      exact (List.nodup_cons.mp (hperm.nodup_iff.mp h.nodup)).1 hk
  · intro k
    have hbefore := h.placed_iff k
    rw [hperm.mem_iff, List.mem_cons] at hbefore
    rw [hrunning, hperm'.mem_iff, List.mem_append, List.mem_filter, Graph.Sound.mem_dependents,
      hsettled]
    have hafter : (∀ n, j.graph.source k = some n → (j.record q i o).Settled n) ↔
        j.graph.source k = some i ∨ ∀ n, j.graph.source k = some n → p.Settled n := by
      cases hsource : j.graph.source k with
      | none => simp
      | some n => simp [hsettled]
    rw [hafter, and_or_left, ← hbefore, and_comm, or_assoc, or_assoc]
    exact or_congr_right or_left_comm
  · intro t ht
    rw [← h.input t (htasks t ht)]
    refine h.resolveInput_record houtcomes hfresh (houtcomes ▸ hi) (Or.inl ?_) o
    exact List.mem_append_right _ (List.mem_map_of_mem (htasks t ht))
  · obtain ⟨settled, hnd, hmem, heq⟩ := h.told
    refine ⟨settled ++ [i], ?_, ?_, ?_⟩
    · rw [List.nodup_append]
      refine ⟨hnd, by simp, ?_⟩
      intro a ha b hb hab
      rw [List.mem_singleton.mp hb] at hab
      exact hfresh ((hmem i).mp (hab ▸ ha))
    · intro k
      rw [List.mem_append, List.mem_singleton, hmem, hsettled, or_comm]
    · rw [told_record, htold, heq, List.map_append, List.map_singleton]

/-- **Every move keeps the invariant.** -/
theorem makes (hj : j.Sound) (h : j.Orderly p) (hm : j.Makes p c m p' c') : j.Orderly p' := by
  cases hm with
  | launch hready hslot hinput => exact h.launch hready hslot hinput
  | @block i rest blocker hready hslot hinput =>
      have hasc := h.ascending
      rw [hready] at hasc
      refine h.record (q := { p with ready := rest }) hj ?_ (List.pairwise_cons.mp hasc).2 rfl
        (fun t ht => ht) h.slots rfl _
      rw [hready]
      rfl
  | reuse htask hstored => exact h.setStage _ _
  | @refuse i input htask hstored hcancelled =>
      refine (h.of_eq (q := p.tell _) rfl rfl rfl ?_).setStage _ _
      simp [Progress.told, Progress.tell, List.filterMap_append, Event.endOf?]
  | @start i input htask hstored hcancelled =>
      refine (h.setStage i .working).of_eq rfl rfl rfl ?_
      simp [Progress.told, Progress.setStage, Progress.tell, List.filterMap_append, Event.endOf?]
  | finish htask => exact h.setStage _ _
  | @settle i input o hfull htask =>
      obtain ⟨hmem, hnode⟩ := Progress.mem_of_task? htask
      have hsplit : p.running.Perm (i :: (p.tasks.filter (·.node != i)).map (·.node)) := by
        rw [List.perm_ext_iff_of_nodup h.nodup_running]
        · intro k
          by_cases hk : k = i
          · subst hk
            simpa using Progress.mem_running_of_task? htask
          · simp only [Progress.running, List.mem_map, List.mem_cons, hk, false_or, List.mem_filter,
              bne_iff_ne]
            constructor
            · rintro ⟨t, ht, rfl⟩
              exact ⟨t, ⟨ht, hk⟩, rfl⟩
            · rintro ⟨t, ⟨ht, -⟩, rfl⟩
              exact ⟨t, ht, rfl⟩
        · rw [List.nodup_cons]
          refine ⟨by simp, ?_⟩
          exact h.nodup_running.sublist (List.filter_sublist.map _)
      refine h.record (q := { p with tasks := p.tasks.filter (·.node != i) }) hj ?_ h.ascending rfl
        (fun t ht => (List.mem_filter.mp ht).1)
        (Nat.le_trans (List.length_filter_le _ _) h.slots) rfl _
      exact (hsplit.append_left _).trans List.perm_middle
  | cancel => exact h.of_eq rfl rfl rfl rfl

end Orderly

/-- **The invariant holds in every state of a schedule.** -/
theorem Leads.orderly {allows : Progress → Cache → Move → Prop} {ms : List Move} (hj : j.Sound)
    {cancelled : Bool} (h : j.Leads allows ms (j.start cancelled) c p c') : j.Orderly p :=
  h.induction (I := fun p _ => j.Orderly p) (fun hp _ hm => hp.makes hj hm)
    (orderly_start hj cancelled)

end Job

end Distill

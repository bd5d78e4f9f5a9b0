import Distill.Proofs.Execution.Orderly

/-!
# Nodes that have ended

Which nodes have ended after a move, and whose steps have been called. As long as the run is
not cancelled, a step is called once if its node has been tried, and not at all if the node
was served from the cache or blocked.

## Main definitions

* `Progress.Tried` — the step of a node is being done, or has been done.
* `Progress.Called` — exactly the steps of nodes that were tried have been called, once each.

## Main statements

* `Job.Orderly.ended_finished`, `Job.Orderly.ended_working`, `Job.Orderly.ended_record` — the
  ends of nodes after a move.
* `Job.Leads.called` — the calls of every schedule that is not cancelled.
-/

namespace Distill

namespace Job

variable {j : Job} {p p' q : Progress} {c c' : Cache} {m : Move} {i k : Nat}
  {o o' : NodeOutcome} {allows : Progress → Cache → Move → Prop}

/-! ## Ends -/

theorem not_ended_start (cancelled : Bool) : ¬ (j.start cancelled).Ended i o := by
  rintro (hsettled | ⟨t, ht, -⟩)
  · rw [Progress.outcome?, start, List.getElem?_replicate] at hsettled
    split at hsettled <;> simp at hsettled
  · simp [start] at ht

/-- The task of a node in flight is the only one. -/
theorem Orderly.exists_task_iff (hp : j.Orderly p) {t : Task} (htask : p.task? i = some t)
    {s : Stage} : (∃ u ∈ p.tasks, u.node = i ∧ u.stage = s) ↔ t.stage = s := by
  obtain ⟨hmem, hnode⟩ := Progress.mem_of_task? htask
  constructor
  · rintro ⟨u, hu, hui, hstage⟩
    obtain rfl := Progress.eq_of_mem_tasks hp.nodup_running hmem hu (hnode.trans hui.symm)
    exact hstage
  · exact fun hstage => ⟨t, hmem, hnode, hstage⟩

/-- A node in flight has ended when its task has finished. -/
theorem Orderly.ended_iff (hp : j.Orderly p) {t : Task} (htask : p.task? i = some t) :
    p.Ended i o ↔ t.stage = .finished o := by
  rw [Progress.Ended, hp.exists_task_iff htask, or_iff_right]
  intro hsettled
  refine hp.unsettled i (List.mem_append_right _ (Progress.mem_running_of_task? htask)) ?_
  exact Progress.settled_iff.mpr ⟨o, hsettled⟩

theorem Orderly.not_ended_of_task? (hp : j.Orderly p) {t : Task} (h : p.task? i = some t)
    (hstage : ∀ o, t.stage ≠ .finished o) : ¬ p.Ended i o := fun ho =>
  hstage o ((hp.ended_iff h).mp ho)

theorem Orderly.not_ended_of_ready (hp : j.Orderly p) (h : i ∈ p.ready) : ¬ p.Ended i o := by
  rintro (hsettled | ⟨u, hu, hui, -⟩)
  · exact hp.unsettled i (List.mem_append_left _ h) (Progress.settled_iff.mpr ⟨o, hsettled⟩)
  · exact (List.nodup_append.mp hp.nodup).2.2 i h i (List.mem_map.mpr ⟨u, hu, hui⟩) rfl

/-- The node of a task is selected. -/
theorem Orderly.isSelected_of_task? (hp : j.Orderly p) {t : Task} (h : p.task? i = some t) :
    j.isSelected i = true :=
  ((hp.placed_iff i).mp (Or.inl (List.mem_append_right _ (Progress.mem_running_of_task? h)))).1

/-- A node that has ended has had its turn. -/
theorem Orderly.placed_of_ended (h : p.Ended i o) : i ∈ p.ready ++ p.running ∨ p.Settled i := by
  rcases h with hsettled | ⟨t, ht, rfl, -⟩
  · exact Or.inr (Progress.settled_iff.mpr ⟨o, hsettled⟩)
  · exact Or.inl (List.mem_append_right _ (List.mem_map_of_mem ht))

theorem Orderly.lt_of_ended (hj : j.Sound) (hp : j.Orderly p) (h : p.Ended i o) :
    i < j.graph.size :=
  hj.lt_of_isSelected ((hp.placed_iff i).mp (placed_of_ended h)).1

/-- A task more that is launched: every other stage is that of an old task. -/
theorem exists_task_launch {tasks : List Task} {input : Option ArtifactValue} {s : Stage}
    (hs : s ≠ .launched) :
    (∃ t ∈ tasks ++ [⟨i, input, .launched⟩], t.node = k ∧ t.stage = s) ↔
      ∃ t ∈ tasks, t.node = k ∧ t.stage = s := by
  constructor
  · rintro ⟨t, ht, htk, hstage⟩
    rcases List.mem_append.mp ht with ht | ht
    · exact ⟨t, ht, htk, hstage⟩
    · rw [List.mem_singleton.mp ht] at hstage
      exact absurd hstage.symm hs
  · rintro ⟨t, ht, htk, hstage⟩
    exact ⟨t, List.mem_append_left _ ht, htk, hstage⟩

/-- A node that is launched has not ended. -/
theorem ended_launch {rest : List Nat} {input : Option ArtifactValue} :
    Progress.Ended { p with ready := rest, tasks := p.tasks ++ [⟨i, input, .launched⟩] } k o ↔
      p.Ended k o :=
  or_congr_right (exists_task_launch (by simp))

/-- **A task that finishes:** its node has ended, and every other end stays. -/
theorem Orderly.ended_finished (hp : j.Orderly p) {t : Task} (htask : p.task? i = some t)
    (hstage : ∀ o, t.stage ≠ .finished o) (htasks : q.tasks = p.tasks)
    (houtcomes : q.outcomes = p.outcomes) :
    (q.setStage i (.finished o)).Ended k o' ↔ p.Ended k o' ∨ k = i ∧ o' = o := by
  have hnot : ∀ o, ¬ p.Ended i o := fun _ => hp.not_ended_of_task? htask hstage
  have hrunning : i ∈ p.running := Progress.mem_running_of_task? htask
  have houtcome : q.outcome? k = p.outcome? k := by
    rw [Progress.outcome?, Progress.outcome?, houtcomes]
  rw [Progress.ended_setStage, Progress.Ended, houtcome, htasks, Progress.running, htasks]
  constructor
  · rintro (hout | ⟨-, ht⟩ | ⟨hk, -, hstage⟩)
    · exact Or.inl (Or.inl hout)
    · exact Or.inl (Or.inr ht)
    · exact Or.inr ⟨hk, (Stage.finished.inj hstage).symm⟩
  · rintro ((hout | ht) | ⟨rfl, rfl⟩)
    · exact Or.inl hout
    · refine Or.inr (Or.inl ⟨?_, ht⟩)
      rintro rfl
      exact hnot o' (Or.inr ht)
    · exact Or.inr (Or.inr ⟨rfl, hrunning, rfl⟩)

/-- A task whose step is started has not ended. -/
theorem Orderly.ended_working (hp : j.Orderly p) {t : Task} (htask : p.task? i = some t)
    (hstage : ∀ o, t.stage ≠ .finished o) (htasks : q.tasks = p.tasks)
    (houtcomes : q.outcomes = p.outcomes) :
    (q.setStage i .working).Ended k o ↔ p.Ended k o := by
  have houtcome : q.outcome? k = p.outcome? k := by
    rw [Progress.outcome?, Progress.outcome?, houtcomes]
  rw [Progress.ended_setStage, Progress.Ended, houtcome, htasks]
  constructor
  · rintro (hout | ⟨-, ht⟩ | ⟨-, -, hstage⟩)
    · exact Or.inl hout
    · exact Or.inr ht
    · simp at hstage
  · rintro (hout | ht)
    · exact Or.inl hout
    · refine Or.inr (Or.inl ⟨?_, ht⟩)
      rintro rfl
      exact hp.not_ended_of_task? htask hstage (Or.inr ht)

/-- **A node that is settled:** its task is gone, and every other end stays. -/
theorem Orderly.ended_record (hj : j.Sound) (hp : j.Orderly p)
    (hplaced : i ∈ p.ready ++ p.running) (houtcomes : q.outcomes = p.outcomes)
    (htasks : ∀ t, t ∈ q.tasks ↔ t ∈ p.tasks ∧ t.node ≠ i) :
    (j.record q i o).Ended k o' ↔ (k = i ∧ o' = o) ∨ (k ≠ i ∧ p.Ended k o') := by
  have hi := hp.lt_outcomes_length hj hplaced
  have hold : q.outcome? k = p.outcome? k := by
    rw [Progress.outcome?, Progress.outcome?, houtcomes]
  have hrecord : (j.record q i o).tasks = q.tasks := rfl
  rw [Progress.Ended, outcome?_record (houtcomes ▸ hi), hold, hrecord]
  by_cases hk : k = i
  · subst hk
    have hgone : ¬ ∃ t ∈ q.tasks, t.node = k ∧ t.stage = .finished o' := by
      rintro ⟨t, ht, rfl, -⟩
      exact ((htasks t).mp ht).2 rfl
    rw [or_iff_left hgone, if_pos rfl]
    simp [eq_comm]
  · simp only [hk, false_and, false_or, true_and, ne_eq, not_false_eq_true]
    refine or_congr_right ⟨?_, ?_⟩
    · rintro ⟨t, ht, htk, hstage⟩
      exact ⟨t, ((htasks t).mp ht).1, htk, hstage⟩
    · rintro ⟨t, ht, rfl, hstage⟩
      exact ⟨t, (htasks t).mpr ⟨ht, hk⟩, rfl, hstage⟩

/-- The tasks that are left when a node that was ready is settled. -/
theorem Orderly.mem_tasks_of_ready (hp : j.Orderly p) (h : i ∈ p.ready) (t : Task) :
    t ∈ p.tasks ↔ t ∈ p.tasks ∧ t.node ≠ i := by
  refine ⟨fun ht => ⟨ht, ?_⟩, And.left⟩
  rintro rfl
  exact (List.nodup_append.mp hp.nodup).2.2 _ h _ (List.mem_map_of_mem ht) rfl

/-- The tasks that are left when a node that was in flight is settled. -/
theorem mem_tasks_filter (t : Task) :
    t ∈ p.tasks.filter (·.node != i) ↔ t ∈ p.tasks ∧ t.node ≠ i := by
  rw [List.mem_filter, bne_iff_ne]

/-- **A node that has ended has ended for good.** -/
theorem Orderly.ended_of_makes (hj : j.Sound) (hp : j.Orderly p) (hm : j.Makes p c m p' c')
    (h : p.Ended i o) : p'.Ended i o := by
  cases hm with
  | launch => exact ended_launch.mpr h
  | cancel => exact h
  | start task => exact (hp.ended_working task (by simp) rfl rfl).mpr h
  | reuse task | refuse task | finish task =>
      exact (hp.ended_finished task (by simp) rfl rfl).mpr (Or.inl h)
  | @block k rest blocker ready slot source =>
      have hmem : k ∈ p.ready := by simp [ready]
      refine (hp.ended_record (q := { p with ready := rest }) hj (List.mem_append_left _ hmem) rfl
        (hp.mem_tasks_of_ready hmem)).mpr (Or.inr ⟨?_, h⟩)
      rintro rfl
      exact hp.not_ended_of_ready hmem h
  | @settle k input o' full task =>
      refine (hp.ended_record (q := { p with tasks := p.tasks.filter (·.node != k) }) hj
        (List.mem_append_right _ (Progress.mem_running_of_task? task)) rfl mem_tasks_filter).mpr ?_
      by_cases hi : i = k
      · subst hi
        exact Or.inl ⟨rfl, (Stage.finished.inj ((hp.ended_iff task).mp h)).symm⟩
      · exact Or.inr ⟨hi, h⟩

/-- At the end a node has ended when it is settled. -/
theorem ended_iff_of_isOver (hover : p.isOver = true) : p.Ended i o ↔ p.outcome? i = some o := by
  obtain ⟨-, htasks⟩ := Progress.isOver_iff.mp hover
  simp [Progress.Ended, htasks]

end Job

/-! ## Calls -/

/-- The step of the node was tried. -/
def NodeOutcome.IsTried : NodeOutcome → Prop
  | success _ | failed _ => True
  | cached _ | blocked _ => False

/-- The step of the node of a task at this stage was tried. -/
def Stage.IsTried : Stage → Prop
  | launched => False
  | working => True
  | finished o => o.IsTried

theorem StepResult.isTried_outcome (r : StepResult) : r.outcome.IsTried := by
  cases r <;> trivial

namespace Progress

/-- The step of a node is being done, or has been done. -/
def Tried (p : Progress) (i : Nat) : Prop :=
  (∃ t ∈ p.tasks, t.node = i ∧ t.stage = .working) ∨ ∃ o, p.Ended i o ∧ o.IsTried

/-- The run is not cancelled, and exactly the steps of nodes that were tried have been called,
once each. -/
structure Called (p : Progress) : Prop where
  not_cancelled : p.cancelled = false
  nodup : p.calls.Nodup
  mem_iff : ∀ i, i ∈ p.calls ↔ p.Tried i

end Progress

namespace Job

variable {j : Job} {p p' q : Progress} {c c' : Cache} {m : Move} {i k : Nat} {o : NodeOutcome}
  {allows : Progress → Cache → Move → Prop}

/-- A move that calls nothing. -/
theorem called_of_tried (h : p.Called) (hcancelled : p'.cancelled = p.cancelled)
    (hcalls : p'.calls = p.calls) (htried : ∀ k, p'.Tried k ↔ p.Tried k) : p'.Called where
  not_cancelled := hcancelled.trans h.not_cancelled
  nodup := hcalls ▸ h.nodup
  mem_iff k := by rw [hcalls, h.mem_iff, htried]

/-- A move that calls nothing and brings a node to where it is tried only if it was before. -/
theorem called_of_ite {P : Prop} (h : p.Called) (hcancelled : p'.cancelled = p.cancelled)
    (hcalls : p'.calls = p.calls) (hi : p.Tried i ↔ P)
    (htried : ∀ k, p'.Tried k ↔ if k = i then P else p.Tried k) : p'.Called := by
  refine called_of_tried h hcancelled hcalls fun k => ?_
  rw [htried]
  split
  · next hk => rw [hk, hi]
  · rfl

/-- A node in flight is tried when its task has come so far. -/
theorem Orderly.tried_iff (hp : j.Orderly p) {t : Task} (htask : p.task? i = some t) :
    p.Tried i ↔ t.stage.IsTried := by
  simp only [Progress.Tried, hp.exists_task_iff htask, hp.ended_iff htask]
  cases t.stage <;> simp [Stage.IsTried]

theorem Orderly.tried_finished (hp : j.Orderly p) {t : Task} (htask : p.task? i = some t)
    (hstage : ∀ o, t.stage ≠ .finished o) :
    (p.setStage i (.finished o)).Tried k ↔ if k = i then o.IsTried else p.Tried k := by
  rw [Progress.Tried, Progress.exists_task_setStage]
  simp only [hp.ended_finished htask hstage rfl rfl]
  by_cases hk : k = i
  · subst hk
    have hnot : ∀ o, ¬ p.Ended k o := fun _ => hp.not_ended_of_task? htask hstage
    simp [hnot]
  · simp [hk, Progress.Tried]

theorem Orderly.tried_working (hp : j.Orderly p) {t : Task} (htask : p.task? i = some t)
    (hstage : ∀ o, t.stage ≠ .finished o) :
    (p.setStage i .working).Tried k ↔ k = i ∨ p.Tried k := by
  rw [Progress.Tried, Progress.exists_task_setStage]
  simp only [hp.ended_working htask hstage rfl rfl]
  by_cases hk : k = i
  · simp [hk, Progress.mem_running_of_task? htask]
  · simp [hk, Progress.Tried]

theorem Orderly.tried_record (hj : j.Sound) (hp : j.Orderly p)
    (hplaced : i ∈ p.ready ++ p.running) (houtcomes : q.outcomes = p.outcomes)
    (htasks : ∀ t, t ∈ q.tasks ↔ t ∈ p.tasks ∧ t.node ≠ i) :
    (j.record q i o).Tried k ↔ if k = i then o.IsTried else p.Tried k := by
  have hrecord : (j.record q i o).tasks = q.tasks := rfl
  rw [Progress.Tried, hrecord]
  simp only [hp.ended_record hj hplaced houtcomes htasks, htasks]
  by_cases hk : k = i
  · subst hk
    have hgone : ¬ ∃ t, (t ∈ p.tasks ∧ t.node ≠ k) ∧ t.node = k ∧ t.stage = .working :=
      fun ⟨_, ht, htk, _⟩ => ht.2 htk
    rw [or_iff_right hgone]
    simp
  · have hsame : ∀ t, ((t ∈ p.tasks ∧ t.node ≠ i) ∧ t.node = k ∧ t.stage = .working) ↔
        t ∈ p.tasks ∧ t.node = k ∧ t.stage = .working := fun t =>
      ⟨fun ⟨ht, hrest⟩ => ⟨ht.1, hrest⟩, fun ⟨ht, hrest⟩ => ⟨⟨ht, hrest.1 ▸ hk⟩, hrest⟩⟩
    simp only [hsame]
    simp [hk, Progress.Tried]

/-- **Every move keeps the calls in order,** unless it cancels the run. -/
theorem Orderly.called_makes (hj : j.Sound) (hp : j.Orderly p) (h : p.Called)
    (hm : j.Makes p c m p' c') (hno : m ≠ .cancel) : p'.Called := by
  cases hm with
  | @launch i rest input hready hslot hinput =>
      refine called_of_tried h rfl rfl fun k => or_congr (exists_task_launch (by simp)) ?_
      simp only [ended_launch]
  | @block i rest blocker hready hslot hinput =>
      have hmem : i ∈ p.ready := by simp [hready]
      have hplaced : i ∈ p.ready ++ p.running := List.mem_append_left _ hmem
      have hnot : ¬ p.Tried i := by
        rintro (⟨t, ht, hti, -⟩ | ⟨o, ho, -⟩)
        · exact ((hp.mem_tasks_of_ready hmem t).mp ht).2 hti
        · exact hp.not_ended_of_ready hmem ho
      exact called_of_ite h rfl rfl (iff_false_intro hnot) fun k =>
        hp.tried_record (q := { p with ready := rest }) hj hplaced rfl (hp.mem_tasks_of_ready hmem)
  | @reuse i input v htask hstored =>
      exact called_of_ite h rfl rfl (hp.tried_iff htask) fun k =>
        hp.tried_finished htask (by simp)
  | @refuse i input htask hstored hcancelled =>
      rw [h.not_cancelled] at hcancelled
      simp at hcancelled
  | @finish i input r htask =>
      have hboth : p.Tried i ↔ r.outcome.IsTried :=
        (hp.tried_iff htask).trans (iff_true_intro r.isTried_outcome).symm
      exact called_of_ite h rfl rfl hboth fun k => hp.tried_finished htask (by simp)
  | @start i input htask hstored hcancelled =>
      have hnot : i ∉ p.calls := by simp [h.mem_iff, hp.tried_iff htask, Stage.IsTried]
      refine ⟨hcancelled, ?_, fun k => ?_⟩
      · rw [List.nodup_append]
        refine ⟨h.nodup, by simp, ?_⟩
        rintro a ha b hb rfl
        exact hnot (List.mem_singleton.mp hb ▸ ha)
      · rw [List.mem_append, List.mem_singleton, h.mem_iff, or_comm]
        exact (hp.tried_working htask (by simp)).symm
  | @settle i input o hfull htask =>
      have hplaced : i ∈ p.ready ++ p.running :=
        List.mem_append_right _ (Progress.mem_running_of_task? htask)
      exact called_of_ite h rfl rfl (hp.tried_iff htask) fun k =>
        hp.tried_record (q := { p with tasks := p.tasks.filter (·.node != i) }) hj hplaced rfl
          mem_tasks_filter
  | cancel => exact absurd rfl hno

/-- **In a run that is not cancelled exactly the steps of nodes that were tried are called,
once each.** -/
theorem Leads.called {ms : List Move} (hj : j.Sound) (hno : ∀ q d, ¬ allows q d .cancel)
    (h : j.Leads allows ms (j.start false) c p c') : p.Called := by
  refine (h.induction (I := fun q _ => j.Orderly q ∧ q.Called) ?_
    ⟨orderly_start hj false, rfl, List.nodup_nil, ?_⟩).2
  · rintro q d m q' d' ⟨hq, hcalled⟩ hmay hm
    refine ⟨hq.makes hj hm, hq.called_makes hj hcalled hm ?_⟩
    rintro rfl
    exact hno q d hmay
  · intro i
    have hnot : ¬ (j.start false).Tried i := by
      rintro (⟨t, ht, -⟩ | ⟨o, ho, -⟩)
      · simp [start] at ht
      · exact not_ended_start false ho
    exact ⟨fun hi => by simp [start] at hi, fun hi => absurd hi hnot⟩

end Job

end Distill

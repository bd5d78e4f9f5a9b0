import Distill.Proofs.Cache.Entries
import Distill.Proofs.Execution.Ended

/-!
# Why nodes end as they do

Every end of a node can be explained by what its source has left, by what the cache held at
the start, and by what the step of the node gave; and the file of a node is changed by its
own end only. This holds in every state that any schedule can reach, so that what is to be
known about a whole run can be read off its last state.

## Main definitions

* `Move.Concerns` — the moves that look up or store the artifact of a node.
* `Job.Explains` — the explanations.
* `Job.Explained` — the invariant.

## Main statements

* `Job.Leads.explained` — the invariant holds in every state of a schedule.
-/

namespace Distill

/-- The move looks up the artifact of the node, or stores it. -/
def Move.Concerns (i : Nat) : Move → Prop
  | .begin k | .finish k _ => k = i
  | .launch | .settle _ | .cancel => False

namespace Job

variable {j : Job} {p p' : Progress} {c₀ c c' d : Cache} {m : Move} {i k : Nat}
  {o : NodeOutcome} {allows : Progress → Cache → Move → Prop}

/-- The file that a cache holds for a node. -/
def fileIn (j : Job) (c : Cache) (i : Nat) : Option Bytes := c.fileOf j.archive (j.graph.name i)

theorem stored?_eq (j : Job) (c : Cache) (i : Nat) :
    j.stored? c i = if j.force then none else c.success? j.archive (j.graph.name i) := rfl

/-- A value that is taken can be read. -/
theorem success?_of_stored? {v : ArtifactValue} (h : j.stored? c i = some v) :
    c.success? j.archive (j.graph.name i) = some v := by
  rw [stored?_eq] at h
  split at h
  · simp at h
  · exact h

theorem stored?_congr (hc : c.Direct j.archive) (hc' : c'.Direct j.archive)
    (h : j.fileIn c' i = j.fileIn c i) : j.stored? c' i = j.stored? c i := by
  rw [stored?_eq, stored?_eq, Cache.success?_congr hc hc' h]

/-! ## Explanations -/

/-- The result of a node has been stored, as far as the cache could, when the file of the
node was the one at the start. -/
structure Kept (j : Job) (c₀ d c : Cache) (i : Nat) (r : StepResult) : Prop where
  direct : d.Direct j.archive
  before : j.fileIn d i = j.fileIn c₀ i
  after : j.fileIn c i = j.fileIn (d.keep j.archive (j.graph.name i) r) i

/-- Why a node has ended as it has. -/
inductive Explains (j : Job) (allows : Progress → Cache → Move → Prop) (c₀ : Cache) (p : Progress)
    (c : Cache) (i : Nat) : NodeOutcome → Prop
  /-- The source has no value. -/
  | blocked {blocker} (source : j.resolveInput p i = .error blocker)
      (same : j.fileIn c i = j.fileIn c₀ i) : Explains j allows c₀ p c i (.blocked blocker)
  /-- The value was there at the start. -/
  | cached {input v} (source : j.resolveInput p i = .ok input) (stored : j.stored? c₀ i = some v)
      (same : j.fileIn c i = j.fileIn c₀ i) : Explains j allows c₀ p c i (.cached v)
  /-- The step has given a result. -/
  | done {input r q d t} (source : j.resolveInput p i = .ok input)
      (stored : j.stored? c₀ i = none) (task : q.task? i = some t) (reads : t.input = input)
      (may : allows q d (.finish i r)) (kept : j.Kept c₀ d c i r) :
      Explains j allows c₀ p c i r.outcome
  /-- The run was cancelled before the step. -/
  | refused {input q d} (source : j.resolveInput p i = .ok input) (stored : j.stored? c₀ i = none)
      (cancelled : p.cancelled = true) (kept : j.Kept c₀ d c i (.failure .runCancelled))
      (before : q.cancelled = true) (may : allows q d (.begin i)) :
      Explains j allows c₀ p c i (.failed .runCancelled)

/-- An explanation holds on while the source, the file and the cancellation stay. -/
theorem Explains.mono (h : j.Explains allows c₀ p c i o)
    (hsource : j.resolveInput p' i = j.resolveInput p i) (hfile : j.fileIn c' i = j.fileIn c i)
    (hcancelled : p.cancelled = true → p'.cancelled = true) : j.Explains allows c₀ p' c' i o := by
  cases h with
  | blocked source same => exact .blocked (hsource ▸ source) (hfile ▸ same)
  | cached source stored same => exact .cached (hsource ▸ source) stored (hfile ▸ same)
  | done source stored task reads may kept =>
      exact .done (hsource ▸ source) stored task reads may
        ⟨kept.direct, kept.before, hfile ▸ kept.after⟩
  | refused source stored cancelled kept before may =>
      exact .refused (hsource ▸ source) stored (hcancelled cancelled)
        ⟨kept.direct, kept.before, hfile ▸ kept.after⟩ before may

/-- What explains the ends of nodes in a state, since the start with the cache `c₀`. -/
structure Explained (j : Job) (allows : Progress → Cache → Move → Prop) (c₀ : Cache)
    (p : Progress) (c : Cache) : Prop where
  direct_start : c₀.Direct j.archive
  direct : c.Direct j.archive
  /-- The file of a node that has not ended is the one at the start. -/
  untouched : ∀ i < j.graph.size, (∀ o, ¬ p.Ended i o) → j.fileIn c i = j.fileIn c₀ i
  /-- A step is started only if there is no value. -/
  working : ∀ t ∈ p.tasks, t.stage = .working → j.stored? c₀ t.node = none
  ended : ∀ i o, p.Ended i o → j.Explains allows c₀ p c i o

/-- **The invariant holds at the start.** -/
theorem explained_start (hc : c₀.Direct j.archive) (cancelled : Bool) :
    j.Explained allows c₀ (j.start cancelled) c₀ := by
  refine ⟨hc, hc, fun _ _ _ => rfl, by simp [start], ?_⟩
  exact fun i o ho => absurd ho (not_ended_start cancelled)

/-! ## What a move changes -/

/-- Other nodes have other files. -/
theorem fileIn_keep_of_ne (hj : j.Sound) (hi : i < j.graph.size) (hk : k < j.graph.size)
    (hne : k ≠ i) (c : Cache) (r : StepResult) :
    j.fileIn (c.keep j.archive (j.graph.name i) r) k = j.fileIn c k := by
  have hname : j.graph.name k ≠ j.graph.name i :=
    fun h => hne (Graph.name_injective hj.graph_eq hk hi h)
  cases r with
  | value v => exact (Cache.fileOf_put _ _ _ _ _).trans (if_neg fun h => hname h.2.2)
  | failure f => exact (Cache.fileOf_put _ _ _ _ _).trans (if_neg fun h => hname h.2.2)
  | panic text => rfl

theorem direct_keep {archive : String} (hc : c.Direct archive) (name : String) (r : StepResult) :
    (c.keep archive name r).Direct archive := by
  cases r with
  | value v | failure f => exact Cache.direct_put hc _ _
  | panic text => exact hc

/-- Nothing is looked up but the artifact of the node that the move concerns. -/
theorem Makes.of_stored? (h : j.Makes p c m p' c')
    (hd : ∀ i, m.Concerns i → j.stored? d i = j.stored? c i) : ∃ d', j.Makes p d m p' d' := by
  cases h with
  | launch ready slot source => exact ⟨d, .launch ready slot source⟩
  | block ready slot source => exact ⟨d, .block ready slot source⟩
  | reuse task stored => exact ⟨d, .reuse task ((hd _ rfl).trans stored)⟩
  | refuse task stored cancelled => exact ⟨_, .refuse task ((hd _ rfl).trans stored) cancelled⟩
  | start task stored cancelled => exact ⟨d, .start task ((hd _ rfl).trans stored) cancelled⟩
  | finish task => exact ⟨_, .finish task⟩
  | settle full task => exact ⟨d, .settle full task⟩
  | cancel => exact ⟨d, .cancel⟩

/-- A state that has come further: each new end is explained, and what explained the old ones
is still there. -/
theorem Explained.extend (hj : j.Sound) (hp : j.Orderly p) (h : j.Explained allows c₀ p c)
    (hdirect : c'.Direct j.archive)
    (hends : ∀ k o, p'.Ended k o → p.Ended k o ∨ j.Explains allows c₀ p' c' k o)
    (hkeeps : ∀ k o, p.Ended k o → p'.Ended k o)
    (hfile : ∀ k < j.graph.size, (∃ o, p.Ended k o) ∨ (∀ o, ¬ p'.Ended k o) →
      j.fileIn c' k = j.fileIn c k)
    (hinput : ∀ k o, p.Ended k o → j.resolveInput p' k = j.resolveInput p k)
    (hworking : ∀ t ∈ p'.tasks, t.stage = .working → t ∈ p.tasks ∨ j.stored? c₀ t.node = none)
    (hcancelled : p.cancelled = true → p'.cancelled = true) : j.Explained allows c₀ p' c' := by
  refine ⟨h.direct_start, hdirect, ?_, ?_, ?_⟩
  · intro k hk hnot
    rw [hfile k hk (Or.inr hnot)]
    exact h.untouched k hk fun o ho => hnot o (hkeeps k o ho)
  · intro t ht hstage
    rcases hworking t ht hstage with hold | hnew
    · exact h.working t hold hstage
    · exact hnew
  · intro k o hk
    rcases hends k o hk with hold | hnew
    · exact (h.ended k o hold).mono (hinput k o hold)
        (hfile k (hp.lt_of_ended hj hold) (Or.inl ⟨o, hold⟩)) hcancelled
    · exact hnew

/-- A task that finishes: the end of its node is explained. -/
theorem Explained.finish (hj : j.Sound) (hp : j.Orderly p) (h : j.Explained allows c₀ p c)
    {q : Progress} {t : Task} (htask : p.task? i = some t)
    (hstage : ∀ o, t.stage ≠ .finished o) (htasks : q.tasks = p.tasks)
    (houtcomes : q.outcomes = p.outcomes) (hcancelled : q.cancelled = p.cancelled)
    (hdirect : c'.Direct j.archive)
    (hfile : ∀ k < j.graph.size, k ≠ i → j.fileIn c' k = j.fileIn c k)
    (hends : j.Explains allows c₀ p c' i o) :
    j.Explained allows c₀ (q.setStage i (.finished o)) c' := by
  have houtcome : ∀ k, q.outcome? k = p.outcome? k := fun k => by
    rw [Progress.outcome?, Progress.outcome?, houtcomes]
  have hinput : ∀ k, j.resolveInput (q.setStage i (.finished o)) k = j.resolveInput p k :=
    fun k => resolveInput_congr fun n _ => houtcome n
  have hended : ∀ k o', (q.setStage i (.finished o)).Ended k o' ↔
      p.Ended k o' ∨ k = i ∧ o' = o := fun k o' =>
    hp.ended_finished htask hstage htasks houtcomes
  refine h.extend hj hp hdirect ?_ ?_ ?_ (fun k _ _ => hinput k) ?_ ?_
  · intro k o' hk
    rcases (hended k o').mp hk with hold | ⟨rfl, rfl⟩
    · exact Or.inl hold
    · exact Or.inr (hends.mono (hinput k) rfl (hcancelled ▸ id))
  · exact fun k o' hk => (hended k o').mpr (Or.inl hk)
  · intro k hk hor
    refine hfile k hk ?_
    rintro rfl
    rcases hor with ⟨o', hold⟩ | hnone
    · exact hp.not_ended_of_task? htask hstage hold
    · exact hnone o ((hended k o).mpr (Or.inr ⟨rfl, rfl⟩))
  · intro u hu hstage
    rcases Progress.mem_tasks_setStage.mp hu with ⟨hmem, -⟩ | ⟨_, _, _, rfl⟩
    · exact Or.inl (htasks ▸ hmem)
    · simp at hstage
  · exact fun hc => hcancelled ▸ hc

/-- A node that gets its final state: its end was known, or it is explained now. -/
theorem Explained.record (hj : j.Sound) (hp : j.Orderly p) (h : j.Explained allows c₀ p c)
    {q : Progress} (hplaced : i ∈ p.ready ++ p.running) (houtcomes : q.outcomes = p.outcomes)
    (hcancelled : q.cancelled = p.cancelled)
    (htasks : ∀ t, t ∈ q.tasks ↔ t ∈ p.tasks ∧ t.node ≠ i) (hsame : ∀ o', p.Ended i o' → o' = o)
    (hends : p.Ended i o ∨ j.Explains allows c₀ p c i o) :
    j.Explained allows c₀ (j.record q i o) c := by
  have hfresh := hp.unsettled i hplaced
  have hi := hp.lt_outcomes_length hj hplaced
  have hended : ∀ k o', (j.record q i o).Ended k o' ↔
      (k = i ∧ o' = o) ∨ (k ≠ i ∧ p.Ended k o') := fun k o' =>
    hp.ended_record hj hplaced houtcomes htasks
  have hinput : ∀ k, k ∈ p.ready ++ p.running ∨ p.Settled k →
      j.resolveInput (j.record q i o) k = j.resolveInput p k :=
    fun k hk => hp.resolveInput_record houtcomes hfresh hi hk o
  have hcancelled' : p.cancelled = true → (j.record q i o).cancelled = true :=
    fun hc => hcancelled.trans hc
  refine h.extend hj hp h.direct ?_ ?_ (fun _ _ _ => rfl)
    (fun k o' hk => hinput k (Orderly.placed_of_ended hk)) ?_ hcancelled'
  · intro k o' hk
    rcases (hended k o').mp hk with ⟨rfl, rfl⟩ | ⟨-, hold⟩
    · exact hends.imp_right fun he => he.mono (hinput k (Or.inl hplaced)) rfl hcancelled'
    · exact Or.inl hold
  · intro k o' hk
    rw [hended]
    by_cases hki : k = i
    · subst hki
      exact Or.inl ⟨rfl, hsame o' hk⟩
    · exact Or.inr ⟨hki, hk⟩
  · exact fun t ht _ => Or.inl ((htasks t).mp ht).1

/-- **Every move keeps the invariant.** -/
theorem Explained.makes (hj : j.Sound) (hp : j.Orderly p) (h : j.Explained allows c₀ p c)
    (hmay : allows p c m) (hm : j.Makes p c m p' c') : j.Explained allows c₀ p' c' := by
  have hlt : ∀ {i t}, p.task? i = some t → i < j.graph.size := fun htask =>
    hj.lt_of_isSelected (hp.isSelected_of_task? htask)
  have hread : ∀ {i input stage}, p.task? i = some ⟨i, input, stage⟩ →
      j.resolveInput p i = .ok input := fun htask =>
    hp.input _ (Progress.mem_of_task? htask).1
  -- Before its end the file of a node in flight is the one at the start.
  have hbefore : ∀ {i t}, p.task? i = some t → (∀ o, t.stage ≠ .finished o) →
      j.fileIn c i = j.fileIn c₀ i := fun htask hstage =>
    h.untouched _ (hlt htask) fun _ => hp.not_ended_of_task? htask hstage
  have hstored₀ : ∀ {i t}, p.task? i = some t → (∀ o, t.stage ≠ .finished o) →
      j.stored? c₀ i = j.stored? c i := fun htask hstage =>
    (stored?_congr h.direct_start h.direct (hbefore htask hstage)).symm
  cases hm with
  | @launch i rest input hready hslot hinput =>
      refine h.extend hj hp h.direct (fun k o hk => Or.inl (ended_launch.mp hk))
        (fun k o hk => ended_launch.mpr hk) (fun _ _ _ => rfl) (fun _ _ _ => rfl) ?_ id
      intro t ht hstage
      rcases List.mem_append.mp ht with ht | ht
      · exact Or.inl ht
      · rw [List.mem_singleton.mp ht] at hstage
        simp at hstage
  | @block i rest blocker hready hslot hinput =>
      have hmem : i ∈ p.ready := by simp [hready]
      have hplaced : i ∈ p.ready ++ p.running := List.mem_append_left _ hmem
      have hnot : ∀ o, ¬ p.Ended i o := fun _ => hp.not_ended_of_ready hmem
      have hi := hj.lt_of_isSelected ((hp.placed_iff i).mp (Or.inl hplaced)).1
      exact h.record (q := { p with ready := rest }) hj hp hplaced rfl rfl
        (hp.mem_tasks_of_ready hmem) (fun o' ho' => absurd ho' (hnot o'))
        (Or.inr (.blocked hinput (h.untouched i hi hnot)))
  | @reuse i input v htask hstored =>
      refine h.finish hj hp htask (by simp) rfl rfl rfl h.direct (fun _ _ _ => rfl) ?_
      exact .cached (hread htask) ((hstored₀ htask (by simp)).trans hstored)
        (hbefore htask (by simp))
  | @refuse i input htask hstored hcancelled =>
      refine h.finish hj hp htask (by simp) rfl rfl rfl (direct_keep h.direct _ _)
        (fun k hk hne => fileIn_keep_of_ne hj (hlt htask) hk hne c _) ?_
      exact .refused (hread htask) ((hstored₀ htask (by simp)).trans hstored) hcancelled
        ⟨h.direct, hbefore htask (by simp), rfl⟩ hcancelled hmay
  | @finish i input r htask =>
      refine h.finish hj hp htask (by simp) rfl rfl rfl (direct_keep h.direct _ _)
        (fun k hk hne => fileIn_keep_of_ne hj (hlt htask) hk hne c _) ?_
      have hstored : j.stored? c₀ i = none :=
        h.working ⟨i, input, .working⟩ (Progress.mem_of_task? htask).1 rfl
      exact .done (hread htask) hstored htask rfl hmay ⟨h.direct, hbefore htask (by simp), rfl⟩
  | @start i input htask hstored hcancelled =>
      have hended : ∀ k o, Progress.Ended { (p.tell (.nodeStarted j.archive (j.graph.name i)
          (j.typeName i))).setStage i .working with calls := p.calls ++ [i] } k o ↔
          p.Ended k o :=
        fun _ _ => hp.ended_working htask (by simp) rfl rfl
      refine h.extend hj hp h.direct (fun k o hk => Or.inl ((hended k o).mp hk))
        (fun k o hk => (hended k o).mpr hk) (fun _ _ _ => rfl) (fun _ _ _ => rfl) ?_ id
      intro t ht hstage
      rcases Progress.mem_tasks_setStage.mp ht with ⟨hmem, -⟩ | ⟨u, hu, hui, rfl⟩
      · exact Or.inl hmem
      · exact Or.inr (hui ▸ (hstored₀ htask (by simp)).trans hstored)
  | @settle i input o hfull htask =>
      have hplaced : i ∈ p.ready ++ p.running :=
        List.mem_append_right _ (Progress.mem_running_of_task? htask)
      refine h.record (q := { p with tasks := p.tasks.filter (·.node != i) }) hj hp hplaced rfl rfl
        mem_tasks_filter ?_ (Or.inl ((hp.ended_iff htask).mpr rfl))
      exact fun o' ho' => (Stage.finished.inj ((hp.ended_iff htask).mp ho')).symm
  | cancel =>
      exact h.extend hj hp h.direct (fun _ _ hk => Or.inl hk) (fun _ _ hk => hk)
        (fun _ _ _ => rfl) (fun _ _ _ => rfl) (fun _ ht _ => Or.inl ht) (fun _ => rfl)

/-- **The invariant holds in every state of a schedule.** -/
theorem Leads.explained {ms : List Move} {cancelled : Bool} (hj : j.Sound)
    (hc : c₀.Direct j.archive) (h : j.Leads allows ms (j.start cancelled) c₀ p c) :
    j.Explained allows c₀ p c := by
  refine (h.induction (I := fun q d => j.Orderly q ∧ j.Explained allows c₀ q d) ?_
    ⟨orderly_start hj cancelled, explained_start hc cancelled⟩).2
  rintro q m d q' d' ⟨hq, he⟩ hmay hm
  exact ⟨hq.makes hj hm, he.makes hj hq hmay hm⟩

end Job

end Distill

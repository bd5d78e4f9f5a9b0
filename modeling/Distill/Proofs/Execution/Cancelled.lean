import Distill.Proofs.Execution.Completeness
import Distill.Proofs.Execution.Effects
import Distill.Proofs.Execution.Propagation

/-!
# After a cancellation

Once a run is cancelled no step is started any more. A step that is being done still ends as it
does. Every other node that has not ended takes the value of an earlier run, or fails since the
run was cancelled, or is blocked. All selected nodes are reported all the same.

## Main definitions

* `Progress.AtWork` — the step of a node is being done.
* `Job.unstarted` — how a node ends whose step is not started.
* `Job.Past` — what holds since a cancellation.

## Main statements

* `Job.Orderly.ended_cancelled` — the ends that a move brings about.
* `Job.Past.makes` — every move keeps what holds since a cancellation.
* `Environment.advance_of_idle` — an environment does no step after a cancellation.
* `Job.starts_nothing_after_cancellation` — what every run does after a cancellation.
-/

namespace Distill

/-- The step of the node is being done. -/
def Progress.AtWork (p : Progress) (i : Nat) : Prop :=
  ∃ t ∈ p.tasks, t.node = i ∧ t.stage = .working

namespace Job

/-- The end of a node whose step is not started: it is blocked if its source has no value, and
else it takes the value that is stored, or fails since the run was cancelled. -/
def unstarted (j : Job) (p : Progress) (c : Cache) (i : Nat) : NodeOutcome :=
  match j.resolveInput p i with
  | .error blocker => .blocked blocker
  | .ok _ =>
    match j.stored? c i with
    | some v => .cached v
    | none => .failed .runCancelled

variable {j : Job} {p p₀ p' : Progress} {c c₀ c' d : Cache} {m : Move} {ms ms' : List Move}
  {i : Nat} {o : NodeOutcome} {input : Option ArtifactValue}
  {allows : Progress → Cache → Move → Prop} {cancelled : Bool}

theorem unstarted_of_error {blocker : String} (h : j.resolveInput p i = .error blocker) :
    j.unstarted p c i = .blocked blocker := by
  rw [unstarted, h]

theorem unstarted_of_ok (h : j.resolveInput p i = .ok input) :
    j.unstarted p c i = (j.stored? c i).elim (.failed .runCancelled) .cached := by
  rw [unstarted, h]
  cases j.stored? c i <;> rfl

theorem unstarted_congr (h : j.resolveInput p' i = j.resolveInput p i) :
    j.unstarted p' c i = j.unstarted p c i := by
  rw [unstarted, unstarted, h]

/-! ## Moves after a cancellation -/

/-- **What a move brings about after a cancellation:** a node ends whose step was being done, or
whose step is not started. -/
theorem Orderly.ended_cancelled (hj : j.Sound) (hp : j.Orderly p) (hcancelled : p.cancelled = true)
    (hm : j.Makes p c m p' c') (ho : p'.Ended i o) :
    p.Ended i o ∨ p.AtWork i ∨ o = j.unstarted p c i := by
  have hread : ∀ {k input stage}, p.task? k = some ⟨k, input, stage⟩ →
      j.resolveInput p k = .ok input := fun htask =>
    hp.input _ (Progress.mem_of_task? htask).1
  cases hm with
  | launch => exact Or.inl (ended_launch.mp ho)
  | cancel => exact Or.inl ho
  | start task stored hnot => simp [hcancelled] at hnot
  | reuse task stored =>
      rcases (hp.ended_finished task (by simp) rfl rfl).mp ho with hold | ⟨rfl, rfl⟩
      · exact Or.inl hold
      · exact Or.inr (Or.inr (by rw [unstarted_of_ok (hread task), stored]; rfl))
  | refuse task stored =>
      rcases (hp.ended_finished task (by simp) rfl rfl).mp ho with hold | ⟨rfl, rfl⟩
      · exact Or.inl hold
      · exact Or.inr (Or.inr (by rw [unstarted_of_ok (hread task), stored]; rfl))
  | finish task =>
      rcases (hp.ended_finished task (by simp) rfl rfl).mp ho with hold | ⟨rfl, rfl⟩
      · exact Or.inl hold
      · exact Or.inr (Or.inl ⟨_, (Progress.mem_of_task? task).1, rfl, rfl⟩)
  | @block k rest blocker ready slot source =>
      have hmem : k ∈ p.ready := by simp [ready]
      rcases (hp.ended_record (q := { p with ready := rest }) hj (List.mem_append_left _ hmem) rfl
        (hp.mem_tasks_of_ready hmem)).mp ho with ⟨rfl, rfl⟩ | ⟨-, hold⟩
      · exact Or.inr (Or.inr (unstarted_of_error source).symm)
      · exact Or.inl hold
  | @settle k input o' full task =>
      rcases (hp.ended_record (q := { p with tasks := p.tasks.filter (·.node != k) }) hj
        (List.mem_append_right _ (Progress.mem_running_of_task? task)) rfl mem_tasks_filter).mp ho
        with ⟨rfl, rfl⟩ | ⟨-, hold⟩
      · exact Or.inl ((hp.ended_iff task).mpr rfl)
      · exact Or.inl hold

/-- After a cancellation no task gets to work. -/
theorem Makes.atWork_cancelled (hm : j.Makes p c m p' c') (hcancelled : p.cancelled = true)
    (hi : p'.AtWork i) : p.AtWork i := by
  have hfinished : ∀ {q : Progress} {k o}, q.tasks = p.tasks →
      (q.setStage k (.finished o)).AtWork i → p.AtWork i := by
    intro q k o htasks hi
    rcases Progress.exists_task_setStage.mp hi with ⟨-, hold⟩ | ⟨-, -, hstage⟩
    · rwa [htasks] at hold
    · simp at hstage
  cases hm with
  | launch => exact (exists_task_launch (by simp)).mp hi
  | block | cancel => exact hi
  | start task stored hnot => simp [hcancelled] at hnot
  | reuse | refuse | finish => exact hfinished rfl hi
  | settle =>
      obtain ⟨t, ht, hnode, hstage⟩ := hi
      exact ⟨t, (mem_tasks_filter t).mp ht |>.1, hnode, hstage⟩

/-- After a cancellation no step is called. -/
theorem Makes.calls_cancelled (hm : j.Makes p c m p' c') (hcancelled : p.cancelled = true) :
    p'.cancelled = true ∧ p'.calls = p.calls := by
  cases hm with
  | start task stored hnot => simp [hcancelled] at hnot
  | cancel => exact ⟨rfl, rfl⟩
  | launch | block | reuse | refuse | finish | settle => exact ⟨hcancelled, rfl⟩

/-- A node that is settled keeps its final state. -/
theorem Orderly.outcome?_makes (hj : j.Sound) (hp : j.Orderly p) (hm : j.Makes p c m p' c')
    (hi : p.outcome? i = some o) : p'.outcome? i = some o := by
  have hrecord : ∀ {k : Nat} {q : Progress} {o' : NodeOutcome}, k ∈ p.ready ++ p.running →
      q.outcomes = p.outcomes → (j.record q k o').outcome? i = some o := by
    intro k q o' hk houtcomes
    have hne : i ≠ k := by
      rintro rfl
      exact hp.unsettled i hk (Progress.settled_iff.mpr ⟨o, hi⟩)
    rw [outcome?_record (houtcomes ▸ hp.lt_outcomes_length hj hk), if_neg hne, Progress.outcome?,
      houtcomes]
    exact hi
  cases hm with
  | launch | reuse | refuse | start | finish | cancel => exact hi
  | block ready => exact hrecord (by simp [ready]) rfl
  | settle full task =>
      exact hrecord (List.mem_append_right _ (Progress.mem_running_of_task? task)) rfl

/-! ## States after a cancellation -/

/-- What holds in every state that follows the state `p₀` of a run that is cancelled. -/
structure Past (j : Job) (p₀ p : Progress) : Prop where
  cancelled : p.cancelled = true
  calls : p.calls = p₀.calls
  outcome : ∀ i o, p₀.outcome? i = some o → p.outcome? i = some o
  atWork : ∀ i, p.AtWork i → p₀.AtWork i
  ended : ∀ i o, p.Ended i o → p₀.Ended i o ∨ p₀.AtWork i ∨ ∃ c, o = j.unstarted p c i

theorem past_refl (h : p.cancelled = true) : j.Past p p :=
  ⟨h, rfl, fun _ _ => id, fun _ => id, fun _ _ => Or.inl⟩

/-- **Every move keeps what holds since a cancellation.** -/
theorem Past.makes (hj : j.Sound) (hp : j.Orderly p) (h : j.Past p₀ p)
    (hm : j.Makes p c m p' c') : j.Past p₀ p' := by
  obtain ⟨hcancelled, hcalls⟩ := hm.calls_cancelled h.cancelled
  refine ⟨hcancelled, hcalls.trans h.calls,
    fun i o hi => hp.outcome?_makes hj hm (h.outcome i o hi),
    fun i hi => h.atWork i (hm.atWork_cancelled h.cancelled hi), fun i o ho => ?_⟩
  have hsame : j.resolveInput p' i = j.resolveInput p i :=
    (hp.resolveInput_makes hj hm
      ((hp.ended_makes hj hm ho).elim Orderly.placed_of_ended fun hnew => Or.inl hnew.1)).2
  rcases hp.ended_cancelled hj h.cancelled hm ho with hold | hwork | hnew
  · refine (h.ended i o hold).imp_right fun hlate => hlate.imp_right fun ⟨d, hd⟩ => ⟨d, ?_⟩
    rw [hd, unstarted_congr hsame]
  · exact Or.inr (Or.inl (h.atWork i hwork))
  · exact Or.inr (Or.inr ⟨c, by rw [hnew, unstarted_congr hsame]⟩)

theorem Leads.past (hj : j.Sound) (hp : j.Orderly p) (hcancelled : p.cancelled = true)
    (h : j.Leads allows ms p c p' c') : j.Past p p' :=
  (h.induction (I := fun q _ => j.Orderly q ∧ j.Past p q)
    (fun hq _ hm => ⟨hq.1.makes hj hm, hq.2.makes hj hq.1 hm⟩) ⟨hp, past_refl hcancelled⟩).2

/-- A node whose step is not started takes the value that was there at the start of the run, if
there was one. -/
theorem Explained.unstarted_eq (h : j.Explained allows c₀ p c) (hi : p.Ended i o)
    (ho : o = j.unstarted p d i) : o = j.unstarted p c₀ i := by
  cases h.ended i o hi with
  | blocked source => rw [unstarted_of_error source]
  | cached source stored => rw [unstarted_of_ok source, stored, Option.elim_some]
  | refused source stored => rw [unstarted_of_ok source, stored, Option.elim_none]
  | @done input r q d' t source stored =>
      -- A result of a step is no value of an earlier run.
      rw [unstarted_of_ok source] at ho
      rw [unstarted_of_ok source, stored, Option.elim_none]
      cases hd : j.stored? d i with
      | none => rw [ho, hd, Option.elim_none]
      | some v =>
          rw [hd, Option.elim_some] at ho
          cases r <;> simp [StepResult.outcome] at ho

end Job

/-! ## Environments -/

namespace Environment

variable {σ : Type} {j : Job} {p : Progress} {c : Cache}

/-- An environment does no step when no task is at work. -/
theorem nextMoves_of_idle (env : Environment σ) (hidle : ∀ i, ¬ p.AtWork i) (w : σ) :
    (env.nextMoves j p w).2 = w := by
  cases hlaunch : j.launch? p with
  | some q => rw [nextMoves_of_launch? hlaunch]
  | none =>
      cases htasks : p.tasks with
      | nil =>
          simp only [nextMoves, hlaunch, htasks, Option.isSome_none, Bool.false_eq_true, if_false]
          rfl
      | cons t rest =>
          rw [nextMoves_of_cons hlaunch htasks]
          obtain ⟨i, input, stage⟩ := t
          cases stage with
          | launched | finished => rfl
          | working => exact absurd ⟨⟨i, input, .working⟩, by simp [htasks], rfl, rfl⟩ (hidle i)

/-- **An environment does no step after a cancellation,** if none is being done. -/
theorem advance_of_idle (env : Environment σ) (hj : j.Sound) (hp : j.Orderly p)
    (hcancelled : p.cancelled = true) (hidle : ∀ i, ¬ p.AtWork i) (n : Nat) (c : Cache) (w : σ) :
    (env.advance j n (p, c) w).2 = w := by
  induction n generalizing p c with
  | zero => rfl
  | succ n ih =>
      have hstep : env.advance j (n + 1) (p, c) w =
          env.advance j n (makeMoves j p c (env.nextMoves j p w).1) (env.nextMoves j p w).2 := rfl
      rw [hstep, nextMoves_of_idle env hidle]
      cases hover : p.isOver with
      | true =>
          rw [nextMoves_of_isOver hover]
          exact ih hp hcancelled hidle c
      | false =>
          obtain ⟨p', c', hleads, hp', -⟩ := leads_nextMoves env hj hp hover c w
          have hpast := hleads.past hj hp hcancelled
          rw [makeMoves_eq hleads]
          exact ih hp' hpast.cancelled (fun i hi => hidle i (hpast.atWork i hi)) c'

/-- An environment that counts the steps it does. -/
def counting : Environment Nat where
  perform _ _ _ _ := fun n => (.panic "", n + 1)

end Environment

namespace Job

variable {j : Job}

/-- **Once a run is cancelled no step is started any more,** in whatever state it is. The first
part is about every state `p` of any schedule in which the run is cancelled, and about every way
on: no step is called, every node that is settled keeps its final state, and a node that is
settled later had ended, or its step was being done, or it ends without its step: it is blocked,
takes the value of an earlier run, or fails since the run was cancelled. If no link stands on the
way to an artifact, the value is the one that was there when the run began. At the end the report
lists all selected nodes, and the end can always be reached. The last part is about a run that is
cancelled from the beginning: an environment does no step in it. -/
theorem starts_nothing_after_cancellation (hj : j.Sound) (cancelled : Bool) (c₀ : Cache) :
    (∀ ms p c, j.Leads (fun _ _ _ => True) ms (j.start cancelled) c₀ p c → p.cancelled = true →
      (∀ ms' p' c', j.Leads (fun _ _ _ => True) ms' p c p' c' →
        p'.cancelled = true ∧ p'.calls = p.calls ∧
        (∀ i o, p.outcome? i = some o → p'.outcome? i = some o) ∧
        (∀ i o, p'.outcome? i = some o → p.Ended i o ∨ p.AtWork i ∨
          (∃ d, o = j.unstarted p' d i) ∧
            (c₀.Direct j.archive → o = j.unstarted p' c₀ i)) ∧
        (p'.isOver = true → (j.report p').nodes.map (·.name) =
          (j.graph.order.filter j.isSelected).map j.graph.name)) ∧
      ∃ ms' p' c', j.Leads (fun _ _ _ => True) ms' p c p' c' ∧ p'.isOver = true) ∧
    ∀ (σ : Type) (env : Environment σ) (w : σ),
      (env.execute j true c₀ w).2 = w ∧ (env.execute j true c₀ w).1.1.calls = [] ∧
      (∀ i o, (env.execute j true c₀ w).1.1.outcome? i = some o →
        ∃ d, o = j.unstarted (env.execute j true c₀ w).1.1 d i) ∧
      (j.report (env.execute j true c₀ w).1.1).nodes.map (·.name) =
        (j.graph.order.filter j.isSelected).map j.graph.name := by
  refine ⟨fun ms p c h hcancelled => ⟨fun ms' p' c' h' => ?_, ?_⟩, fun σ env w => ?_⟩
  · have hboth := h.append h'
    have hpast := h'.past hj (h.orderly hj) hcancelled
    refine ⟨hpast.cancelled, hpast.calls, hpast.outcome, fun i o ho => ?_,
      map_name_report hj (hboth.orderly hj)⟩
    refine (hpast.ended i o (Or.inl ho)).imp_right fun hlate => hlate.imp_right fun ⟨d, hd⟩ => ?_
    exact ⟨⟨d, hd⟩, fun hc => (hboth.explained hj hc).unstarted_eq (Or.inl ho) hd⟩
  · have hall : Productive fun _ _ _ => True :=
      ⟨fun _ _ => trivial, fun _ _ _ => trivial, fun _ _ _ => trivial,
        fun _ _ => ⟨fun _ => .panic "", fun _ _ _ => trivial⟩⟩
    exact exists_end hall hj (h.orderly hj) c
  · have hidle : ∀ i, ¬ (j.start true).AtWork i := fun i ⟨t, ht, _⟩ => by simp [start] at ht
    obtain ⟨ms, p, c, heq, hleads, hover⟩ := env.leads_execute hj true c₀ w
    have hpast := hleads.past hj (orderly_start hj true) rfl
    rw [heq]
    refine ⟨env.advance_of_idle hj (orderly_start hj true) rfl hidle _ _ _, hpast.calls,
      fun i o ho => ?_, map_name_report hj (hleads.orderly hj) hover⟩
    rcases hpast.ended i o (Or.inl ho) with hold | hwork | hlate
    · exact absurd hold (not_ended_start true)
    · exact absurd hwork (hidle i)
    · exact hlate

/-- The state of a run that is cancelled while the command is running. -/
def haltedLogLines : Progress where
  ready := []
  tasks := [⟨0, none, .working⟩]
  outcomes := [none, none]
  cancelled := true
  events := [.runStarted "sos" 2, .nodeStarted "sos" "log" "exec"]
  calls := [0]

theorem leads_haltedLogLines : ∃ ms, logLines.Leads (fun _ _ _ => True) ms (logLines.start false)
    (Cache.fresh "cache") haltedLogLines (Cache.fresh "cache") :=
  ⟨_, .cons (m := .launch) trivial (Makes.launch (i := 0) rfl (by decide) rfl).move?_eq <|
    .cons (m := .begin 0) trivial (Makes.start rfl (stored?_fresh _ 0) rfl).move?_eq <|
    .cons (m := .cancel) trivial Makes.cancel.move?_eq <|
    .nil _ _⟩

/-- The command still gives a value. -/
theorem haltedLogLines_leads : ∃ ms p c,
    logLines.Leads (fun _ _ _ => True) ms haltedLogLines (Cache.fresh "cache") p c ∧
    p.isOver = true ∧ p.outcome? 0 = some (.success (.bytes [255])) ∧
    logLines.resolveInput p 1 = .ok (some (.bytes [255])) := by
  have hkept : logLines.stored?
      ((Cache.fresh "cache").keep "sos" "log" (.value (.bytes [255]))) 1 = none := by
    have hd := Cache.direct_fresh "cache" "sos"
    rw [← stored?_fresh "cache" 1]
    refine stored?_congr hd (direct_keep hd _ _) ?_
    exact fileIn_keep_of_ne (i := 0) sound_logLines (by decide) (by decide) (by decide) _ _
  have hleads : logLines.Leads (fun _ _ _ => True) _ haltedLogLines (Cache.fresh "cache") _ _ :=
    .cons (m := .finish 0 (.value (.bytes [255]))) trivial (Makes.finish rfl).move?_eq <|
    .cons (m := .settle 0) trivial (Makes.settle rfl rfl).move?_eq <|
    .cons (m := .launch) trivial (Makes.launch (i := 1) rfl (by decide) rfl).move?_eq <|
    .cons (m := .begin 1) trivial (Makes.refuse rfl hkept rfl).move?_eq <|
    .cons (m := .settle 1) trivial (Makes.settle rfl rfl).move?_eq <|
    .nil _ _
  exact ⟨_, _, _, hleads, rfl, rfl, rfl⟩

/-- The command that was running ends with its value, and the node that reads it fails since
the run was cancelled. In a run that is cancelled from the beginning no step is done. -/
theorem logLines_starts_nothing_after_cancellation :
    logLines.Sound ∧
    (∃ ms, logLines.Leads (fun _ _ _ => True) ms (logLines.start false) (Cache.fresh "cache")
      haltedLogLines (Cache.fresh "cache")) ∧ haltedLogLines.cancelled = true ∧
    (∃ ms p c, logLines.Leads (fun _ _ _ => True) ms haltedLogLines (Cache.fresh "cache") p c ∧
      p.isOver = true ∧ p.calls = [0] ∧
      p.outcome? 0 = some (.success (.bytes [255])) ∧
      p.outcome? 1 = some (.failed .runCancelled)) ∧
    (Environment.counting.execute logLines true (Cache.fresh "cache") 0).2 = 0 := by
  have hmain := starts_nothing_after_cancellation sound_logLines false (Cache.fresh "cache")
  obtain ⟨ms, hbefore⟩ := leads_haltedLogLines
  obtain ⟨ms', p, c, hafter, hover, hlog, hread⟩ := haltedLogLines_leads
  refine ⟨sound_logLines, ⟨ms, hbefore⟩, rfl, ⟨ms', p, c, hafter, hover, ?_, hlog, ?_⟩, ?_⟩
  · exact ((hmain.1 _ _ _ hbefore rfl).1 _ _ _ hafter).2.1
  · obtain ⟨-, -, -, hends, -⟩ := (hmain.1 _ _ _ hbefore rfl).1 _ _ _ hafter
    obtain ⟨o, ho⟩ := Progress.settled_iff.mp
      (((hbefore.append hafter).orderly sound_logLines).settled_of_isOver sound_logLines hover
        (i := 1) rfl)
    rcases hends 1 o ho with hold | hwork | ⟨-, hlate⟩
    · simp [Progress.Ended, Progress.outcome?, haltedLogLines] at hold
    · simp [Progress.AtWork, haltedLogLines] at hwork
    · rw [ho, hlate (Cache.direct_fresh _ _), unstarted_of_ok hread, stored?_fresh]
      rfl
  · exact (hmain.2 Nat Environment.counting 0).1

end Job

end Distill

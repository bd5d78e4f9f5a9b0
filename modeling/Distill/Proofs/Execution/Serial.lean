import Distill.Execution.Environment
import Distill.Proofs.Execution.Termination

/-!
# Evaluation by an environment

An environment makes the first move that goes on, again and again. What it does is one of
the schedules of the job, and four moves for each node bring it to the end.

## Main definitions

* `Environment.Performs` — the moves of an evaluation by an environment.

## Main statements

* `Environment.leads_execute` — an environment brings an evaluation to its end.
-/

namespace Distill.Environment

variable {σ : Type} {env : Environment σ} {j : Job} {p p' : Progress} {c c' : Cache}

/-- A step gives what the environment does, and only a step that the environment lets
cancel the run cancels it. -/
def Performs (env : Environment σ) (j : Job) (p : Progress) (_ : Cache) : Move → Prop
  | .finish i r => ∃ t n w, p.task? i = some t ∧ j.set.nodes[i]? = some n ∧
      r = (env.perform j.archive n.name n.step t.input w).1
  | .cancel => ∃ t n, t ∈ p.tasks ∧ j.set.nodes[t.node]? = some n ∧
      env.cancels j.archive n.name n.step = true
  | .launch | .begin _ | .settle _ => True

/-- Moves of a schedule are made one after another. -/
theorem makeMoves_eq {allows : Progress → Cache → Move → Prop} {ms : List Move}
    (h : j.Leads allows ms p c p' c') : makeMoves j p c ms = (p', c') := by
  induction h with
  | nil => rfl
  | cons may makes _ ih =>
      rw [← ih]
      simp only [makeMoves, List.foldl_cons, makes, Option.getD_some]

theorem nextMoves_of_launch? {q : Progress} (h : j.launch? p = some q) (w : σ) :
    env.nextMoves j p w = ([.launch], w) := by
  simp only [nextMoves, h, Option.isSome_some, if_true]
  rfl

theorem nextMoves_of_cons {t : Task} {rest : List Task} (h : j.launch? p = none)
    (htasks : p.tasks = t :: rest) (w : σ) : env.nextMoves j p w = env.taskMoves j t w := by
  simp only [nextMoves, h, htasks, Option.isSome_none, Bool.false_eq_true, if_false]

/-- At the end no move is made. -/
theorem nextMoves_of_isOver (h : p.isOver = true) (w : σ) : env.nextMoves j p w = ([], w) := by
  obtain ⟨hready, htasks⟩ := Progress.isOver_iff.mp h
  have hlaunch : j.launch? p = none := by rw [Job.launch?, hready]
  simp only [nextMoves, hlaunch, htasks, Option.isSome_none, Bool.false_eq_true, if_false]
  rfl

/-- A step that ends, after it has cancelled the run if the environment lets it. -/
theorem leads_taskMoves_working (hj : j.Sound) (hp : j.Orderly p) {i : Nat}
    {input : Option ArtifactValue} (hmem : ⟨i, input, .working⟩ ∈ p.tasks) (w : σ) :
    ∃ p' c', j.Leads (env.Performs j) (env.taskMoves j ⟨i, input, .working⟩ w).1 p c p' c' ∧
      j.Orderly p' ∧ j.remaining p' < j.remaining p := by
  have htask : p.task? i = some ⟨i, input, .working⟩ :=
    Progress.task?_of_mem hp.nodup_running hmem
  have hplaced : i ∈ p.ready ++ p.running :=
    List.mem_append_right _ (Progress.mem_running_of_task? htask)
  have hi := hj.lt_of_isSelected ((hp.placed_iff i).mp (Or.inl hplaced)).1
  obtain ⟨n, hn, -⟩ := hj.exists_node hi
  set r := (env.perform j.archive n.name n.step input w).1 with hr
  have hmoves : (env.taskMoves j ⟨i, input, .working⟩ w).1 =
      (if env.cancels j.archive n.name n.step then [.cancel] else []) ++ [.finish i r] := by
    simp only [taskMoves, hn]
    rfl
  have hfinish : ∀ q : Progress, j.Orderly q → q.task? i = some ⟨i, input, .working⟩ →
      ∃ p' c', j.Leads (env.Performs j) [.finish i r] q c p' c' ∧ j.Orderly p' ∧
        j.remaining p' < j.remaining q := by
    intro q hq hqtask
    have hmakes : j.Makes q c (.finish i r) _ _ := .finish hqtask
    exact ⟨_, _, .cons ⟨_, n, w, hqtask, hn, hr⟩ hmakes.move?_eq (.nil _ _), hq.makes hj hmakes,
      hmakes.remaining_lt hj hq rfl⟩
  rw [hmoves]
  split
  · next hcancels =>
    have hmakes : j.Makes p c .cancel { p with cancelled := true } c := .cancel
    obtain ⟨p', c', hleads, hp', hlt⟩ := hfinish _ (hp.makes hj hmakes) htask
    refine ⟨p', c', .cons ⟨_, n, hmem, hn, hcancels⟩ hmakes.move?_eq hleads, hp', ?_⟩
    exact lt_of_lt_of_le hlt (hmakes.remaining_le hj hp)
  · exact hfinish p hp htask

/-- As long as something is left to do, the next moves are a schedule that does some of
it. -/
theorem leads_nextMoves (env : Environment σ) (hj : j.Sound) (hp : j.Orderly p)
    (hover : p.isOver = false) (c : Cache)
    (w : σ) : ∃ p' c', j.Leads (env.Performs j) (env.nextMoves j p w).1 p c p' c' ∧
      j.Orderly p' ∧ j.remaining p' < j.remaining p := by
  have hsingle : ∀ m p' c', env.Performs j p c m → m.isCancel = false → j.Makes p c m p' c' →
      ∃ p' c', j.Leads (env.Performs j) [m] p c p' c' ∧ j.Orderly p' ∧
        j.remaining p' < j.remaining p := fun m p' c' hallows hm hmakes =>
    ⟨p', c', .cons hallows hmakes.move?_eq (.nil _ _), hp.makes hj hmakes,
      hmakes.remaining_lt hj hp hm⟩
  cases hlaunch : j.launch? p with
  | some q =>
      rw [nextMoves_of_launch? hlaunch]
      exact hsingle _ _ _ trivial rfl (Job.exists_of_launch? hlaunch c)
  | none =>
      cases htasks : p.tasks with
      | nil =>
          obtain ⟨m, p', c', hmakes, hgoes⟩ := Job.exists_goesOn hp hover c fun _ => .panic ""
          cases hmakes with
          | launch hready hslot hinput =>
              have := (Job.Makes.launch (c := c) hready hslot hinput).move?_eq
              simp [Job.move?, hlaunch] at this
          | block hready hslot hinput =>
              have := (Job.Makes.block (c := c) hready hslot hinput).move?_eq
              simp [Job.move?, hlaunch] at this
          | cancel => exact hgoes.elim
          | reuse htask _ | refuse htask _ _ | start htask _ _ | finish htask | settle _ htask =>
              have := (Progress.mem_of_task? htask).1
              simp [htasks] at this
      | cons t rest =>
          rw [nextMoves_of_cons hlaunch htasks]
          have hmem : t ∈ p.tasks := by simp [htasks]
          have htask := Progress.task?_of_mem hp.nodup_running hmem
          obtain ⟨i, input, stage⟩ := t
          cases stage with
          | working => exact leads_taskMoves_working hj hp hmem w
          | finished o => exact hsingle _ _ _ trivial rfl (.settle hlaunch htask)
          | launched =>
              cases hstored : j.stored? c i with
              | some v => exact hsingle _ _ _ trivial rfl (.reuse htask hstored)
              | none =>
                  cases hcancelled : p.cancelled with
                  | true => exact hsingle _ _ _ trivial rfl (.refuse htask hstored hcancelled)
                  | false => exact hsingle _ _ _ trivial rfl (.start htask hstored hcancelled)

/-- So many rounds come to the end, unless more remains. -/
theorem leads_advance (env : Environment σ) (hj : j.Sound) (hp : j.Orderly p) (n : Nat)
    (c : Cache) (w : σ) :
    ∃ ms p' c', (env.advance j n (p, c) w).1 = (p', c') ∧
      j.Leads (env.Performs j) ms p c p' c' ∧
      (p'.isOver = true ∨ j.remaining p' + n ≤ j.remaining p) := by
  induction n generalizing p c w with
  | zero => exact ⟨[], p, c, rfl, .nil p c, Or.inr (le_refl _)⟩
  | succ n ih =>
      have hstep : env.advance j (n + 1) (p, c) w =
          env.advance j n (makeMoves j p c (env.nextMoves j p w).1) (env.nextMoves j p w).2 := rfl
      rw [hstep]
      cases hover : p.isOver with
      | true =>
          rw [nextMoves_of_isOver hover]
          have hnone : makeMoves j p c [] = (p, c) := rfl
          rw [hnone]
          obtain ⟨ms, p', c', heq, hleads, -⟩ := ih hp c w
          refine ⟨ms, p', c', heq, hleads, Or.inl ?_⟩
          -- Nothing but cancellations can happen any more.
          refine hleads.induction (I := fun q _ => q.isOver = true) ?_ hover
          intro q d m q' d' hq _ hmakes
          obtain ⟨hready, htasks⟩ := Progress.isOver_iff.mp hq
          cases hmakes with
          | launch h _ _ | block h _ _ => simp [hready] at h
          | reuse h _ | refuse h _ _ | start h _ _ | finish h | settle _ h =>
              have := (Progress.mem_of_task? h).1
              simp [htasks] at this
          | cancel => exact hq
      | false =>
          obtain ⟨p₁, c₁, hleads₁, hp₁, hlt⟩ := leads_nextMoves env hj hp hover c w
          rw [makeMoves_eq hleads₁]
          obtain ⟨ms, p', c', heq, hleads, hend⟩ := ih hp₁ c₁ (env.nextMoves j p w).2
          refine ⟨_, p', c', heq, hleads₁.append hleads, hend.imp_right fun h => ?_⟩
          omega

/-- **An environment brings an evaluation to its end.** -/
theorem leads_execute (env : Environment σ) (hj : j.Sound) (cancelled : Bool) (c : Cache) (w : σ) :
    ∃ ms p' c', (env.execute j cancelled c w).1 = (p', c') ∧
      j.Leads (env.Performs j) ms (j.start cancelled) c p' c' ∧ p'.isOver = true := by
  have hp := Job.orderly_start hj cancelled
  obtain ⟨ms, p', c', heq, hleads, hend⟩ :=
    leads_advance env hj hp (4 * j.graph.size) c w
  refine ⟨ms, p', c', heq, hleads, ?_⟩
  rcases hend with hend | hend
  · exact hend
  · have hzero : j.remaining p' = 0 := by
      have := j.remaining_le (j.start cancelled)
      omega
    cases hover : p'.isOver with
    | true => rfl
    | false =>
        obtain ⟨_, _, -, -, hlt⟩ := leads_nextMoves env hj (hleads.orderly hj) hover c' w
        omega

end Distill.Environment

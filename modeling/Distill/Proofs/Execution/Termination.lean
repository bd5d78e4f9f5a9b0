import Distill.Proofs.Execution.Orderly
import Mathlib.Algebra.Group.Action.Defs
import Mathlib.Algebra.Order.BigOperators.Group.List
import Mathlib.Algebra.Order.Ring.Nat

/-!
# The end of an evaluation

Every node is launched, begun, finished and settled at most once, so that no schedule makes
more than four moves for each node, cancellations aside. And as long as something is left to
do there is a move that can be made, whatever the steps in flight give. So every evaluation
ends, and at its end every selected node is settled.

## Main definitions

* `Job.remaining` — how many moves there can still be.
* `Job.Productive` — schedules that hold nothing up.
* `Job.GoesOn` — the moves that go on with an evaluation.

## Main statements

* `Job.Leads.length_le` — a schedule is no longer than what remains.
* `Job.exists_end` — an evaluation can always be brought to its end.
* `Job.Orderly.settled_iff` — at the end the selected nodes are settled.
-/

namespace Distill

/-- Whether the move is a cancellation. -/
def Move.isCancel : Move → Bool
  | .cancel => true
  | .launch | .begin _ | .finish _ _ | .settle _ => false

/-- How many moves are left for a task at a stage. -/
def Stage.left : Stage → Nat
  | launched => 3
  | working => 2
  | finished _ => 1

namespace Progress

variable {p : Progress} {i k : Nat}

/-! ## Tasks after a move -/

theorem task?_append (t : Task) (rest : List Nat) :
    ({ p with ready := rest, tasks := p.tasks ++ [t] } : Progress).task? k =
      (p.task? k).or (if t.node = k then some t else none) := by
  simp only [task?, List.find?_append, List.find?_singleton, beq_iff_eq]

theorem task?_filter :
    ({ p with tasks := p.tasks.filter (·.node != i) } : Progress).task? k =
      if k = i then none else p.task? k := by
  simp only [task?, List.find?_filter]
  by_cases hk : k = i
  · subst hk
    rw [if_pos rfl, List.find?_eq_none]
    intro t _
    simp
  · rw [if_neg hk]
    congr 1
    funext t
    by_cases ht : t.node = k <;> simp [ht, hk]

theorem task?_setStage (stage : Stage) :
    (p.setStage i stage).task? k =
      if k = i then (p.task? i).map fun t => { t with stage } else p.task? k := by
  simp only [task?, setStage, List.find?_map]
  by_cases hk : k = i
  · subst hk
    rw [if_pos rfl]
    have hpred : ((fun t : Task => t.node == k) ∘
        fun t => if t.node = k then { t with stage } else t) = fun t => t.node == k := by
      funext t
      by_cases ht : t.node = k <;> simp [ht]
    rw [hpred]
    cases hfind : p.tasks.find? (·.node == k) with
    | none => rfl
    | some t =>
        have ht : t.node = k := by simpa using List.find?_some hfind
        simp [ht]
  · rw [if_neg hk]
    have hpred : ((fun t : Task => t.node == k) ∘
        fun t => if t.node = i then { t with stage } else t) = fun t => t.node == k := by
      funext t
      by_cases ht : t.node = i <;> simp [ht]
    rw [hpred]
    cases hfind : p.tasks.find? (·.node == k) with
    | none => rfl
    | some t =>
        have ht : t.node = k := by simpa using List.find?_some hfind
        simp [ht, hk]

theorem task?_eq_none (h : k ∉ p.running) : p.task? k = none := by
  cases htask : p.task? k with
  | none => rfl
  | some t => exact absurd (mem_running_of_task? htask) h

end Progress

namespace Job

variable {j : Job} {p p' : Progress} {c c' : Cache} {m : Move} {i k : Nat}

/-! ## What remains -/

/-- How many moves are left for a node. -/
def left (j : Job) (p : Progress) (i : Nat) : Nat :=
  if (p.outcome? i).isSome then 0
  else match p.task? i with
    | some t => t.stage.left
    | none => if j.isSelected i then 4 else 0

/-- How many moves there can still be, cancellations aside. -/
def remaining (j : Job) (p : Progress) : Nat := ((List.range j.graph.size).map (j.left p)).sum

theorem left_of_task? {t : Task} (hfree : ¬ p.Settled i) (htask : p.task? i = some t) :
    j.left p i = t.stage.left := by
  rw [Progress.Settled] at hfree
  rw [left, if_neg hfree, htask]

theorem left_of_waiting (hfree : ¬ p.Settled i) (htask : p.task? i = none)
    (hi : j.isSelected i = true) : j.left p i = 4 := by
  rw [Progress.Settled] at hfree
  rw [left, if_neg hfree, htask, if_pos hi]

theorem left_le (j : Job) (p : Progress) (i : Nat) : j.left p i ≤ 4 := by
  rw [left]
  split
  · omega
  · split
    · next t _ => cases t.stage <;> simp [Stage.left]
    · split <;> omega

theorem remaining_le (j : Job) (p : Progress) : j.remaining p ≤ 4 * j.graph.size := by
  have h : ∀ x ∈ (List.range j.graph.size).map (j.left p), x ≤ 4 := by
    intro x hx
    obtain ⟨i, -, rfl⟩ := List.mem_map.mp hx
    exact j.left_le p i
  have := List.sum_le_card_nsmul _ 4 h
  simp only [List.length_map, List.length_range, smul_eq_mul] at this
  rw [remaining]
  omega

/-- Less remains when it is less for one node and the same for all others. -/
private theorem remaining_lt (hi : i < j.graph.size) (hlt : j.left p' i < j.left p i)
    (heq : ∀ k, k ≠ i → j.left p' k = j.left p k) : j.remaining p' < j.remaining p := by
  refine List.sum_lt_sum _ _ ?_ ⟨i, List.mem_range.mpr hi, hlt⟩
  intro k _
  by_cases hk : k = i
  · rw [hk]
    exact hlt.le
  · rw [heq k hk]

/-- A task that gets to a later stage. -/
private theorem remaining_setStage_lt (hp : j.Orderly p) (hj : j.Sound) {t : Task}
    (htask : p.task? i = some t) {stage : Stage} (hstage : stage.left < t.stage.left) :
    j.remaining (p.setStage i stage) < j.remaining p := by
  have hmem : i ∈ p.ready ++ p.running :=
    List.mem_append_right _ (Progress.mem_running_of_task? htask)
  have hfree := hp.unsettled i hmem
  have hi : i < j.graph.size := hj.lt_of_isSelected ((hp.placed_iff i).mp (Or.inl hmem)).1
  refine remaining_lt hi ?_ ?_
  · have htask' : (p.setStage i stage).task? i = some { t with stage } := by
      rw [Progress.task?_setStage, if_pos rfl, htask]
      rfl
    rw [left_of_task? hfree htask, left_of_task? (p := p.setStage i stage) hfree htask']
    exact hstage
  · intro k hk
    rw [left, left, Progress.task?_setStage, if_neg hk, Progress.outcome?_setStage]

/-- A node that was ready or in flight is settled. -/
private theorem remaining_record_lt {q : Progress} (hp : j.Orderly p) (hj : j.Sound)
    (hmem : i ∈ p.ready ++ p.running) (hpos : 0 < j.left p i) (houtcomes : q.outcomes = p.outcomes)
    (htasks : ∀ k, k ≠ i → q.task? k = p.task? k) (o : NodeOutcome) :
    j.remaining (j.record q i o) < j.remaining p := by
  have hi : i < q.outcomes.length := houtcomes ▸ hp.lt_outcomes_length hj hmem
  have hlt : i < j.graph.size := hj.lt_of_isSelected ((hp.placed_iff i).mp (Or.inl hmem)).1
  refine remaining_lt hlt ?_ ?_
  · rw [left, outcome?_record hi, if_pos rfl]
    exact hpos
  · intro k hk
    have htask : (j.record q i o).task? k = p.task? k := htasks k hk
    have houtcome : q.outcome? k = p.outcome? k := by
      rw [Progress.outcome?, Progress.outcome?, houtcomes]
    rw [left, left, htask, outcome?_record hi, if_neg hk, houtcome]

/-- **Less remains after every move other than a cancellation.** -/
theorem Makes.remaining_lt (hj : j.Sound) (hp : j.Orderly p) (h : j.Makes p c m p' c')
    (hm : m.isCancel = false) : j.remaining p' < j.remaining p := by
  have hnew : ∀ i rest, p.ready = i :: rest → i ∈ p.ready ++ p.running ∧ p.task? i = none ∧
      j.left p i = 4 := by
    intro i rest hready
    have hmem : i ∈ p.ready ++ p.running := by simp [hready]
    have hnodup := hp.nodup
    rw [hready] at hnodup
    have htask : p.task? i = none := by
      refine Progress.task?_eq_none fun hrun => ?_
      exact (List.nodup_cons.mp hnodup).1 (List.mem_append_right _ hrun)
    exact ⟨hmem, htask, left_of_waiting (hp.unsettled i hmem) htask
      ((hp.placed_iff i).mp (Or.inl hmem)).1⟩
  cases h with
  | @launch i rest input hready hslot hinput =>
      obtain ⟨hmem, htask, hleft⟩ := hnew i rest hready
      have hi : i < j.graph.size := hj.lt_of_isSelected ((hp.placed_iff i).mp (Or.inl hmem)).1
      refine Job.remaining_lt hi ?_ ?_
      · have htask' : ({ p with ready := rest, tasks := p.tasks ++ [⟨i, input, .launched⟩] } :
            Progress).task? i = some ⟨i, input, .launched⟩ := by
          rw [Progress.task?_append, htask]
          simp
        have hfree : ¬ ({ p with ready := rest, tasks := p.tasks ++ [⟨i, input, .launched⟩] } :
            Progress).Settled i := hp.unsettled i hmem
        rw [hleft, left_of_task? hfree htask']
        simp [Stage.left]
      · intro k hk
        rw [left, left, Progress.task?_append, if_neg (Ne.symm hk), Option.or_none]
        rfl
  | @block i rest blocker hready hslot hinput =>
      obtain ⟨hmem, htask, hleft⟩ := hnew i rest hready
      exact remaining_record_lt hp hj hmem (by omega) rfl (fun _ _ => rfl) _
  | reuse htask hstored => exact remaining_setStage_lt hp hj htask (by simp [Stage.left])
  | @refuse i input htask hstored hcancelled =>
      have hsame : j.remaining (p.setStage i (.finished (.failed .runCancelled))) <
          j.remaining p := remaining_setStage_lt hp hj htask (by simp [Stage.left])
      exact hsame
  | @start i input htask hstored hcancelled =>
      have hsame : j.remaining (p.setStage i .working) < j.remaining p :=
        remaining_setStage_lt hp hj htask (by simp [Stage.left])
      exact hsame
  | finish htask => exact remaining_setStage_lt hp hj htask (by simp [Stage.left])
  | @settle i input o hfull htask =>
      have hmem : i ∈ p.ready ++ p.running :=
        List.mem_append_right _ (Progress.mem_running_of_task? htask)
      have hpos : 0 < j.left p i := by
        rw [left_of_task? (hp.unsettled i hmem) htask]
        simp [Stage.left]
      refine remaining_record_lt (q := { p with tasks := p.tasks.filter (·.node != i) }) hp hj hmem
        hpos rfl ?_ _
      intro k hk
      rw [Progress.task?_filter, if_neg hk]
  | cancel => simp [Move.isCancel] at hm

/-- A cancellation changes nothing about what remains. -/
theorem Makes.remaining_le (hj : j.Sound) (hp : j.Orderly p) (h : j.Makes p c m p' c') :
    j.remaining p' ≤ j.remaining p := by
  cases hm : m.isCancel with
  | false => exact (h.remaining_lt hj hp hm).le
  | true =>
      cases h with
      | cancel => exact le_refl _
      | _ => simp [Move.isCancel] at hm

/-- **A schedule is no longer than what remains**, cancellations aside. -/
theorem Leads.length_le {allows : Progress → Cache → Move → Prop} {ms : List Move} (hj : j.Sound)
    (hp : j.Orderly p) (h : j.Leads allows ms p c p' c') :
    (ms.filter (!·.isCancel)).length + j.remaining p' ≤ j.remaining p := by
  induction h with
  | nil => simp
  | @cons m ms p p₁ p₂ c c₁ c₂ may makes rest ih =>
      have hmakes := makes_of_move? makes
      have htail := ih (hp.makes hj hmakes)
      cases hm : m.isCancel with
      | false =>
          have := hmakes.remaining_lt hj hp hm
          simp only [hm, Bool.not_false, List.filter_cons_of_pos, List.length_cons]
          omega
      | true =>
          have := hmakes.remaining_le hj hp
          simp only [hm, Bool.not_true, Bool.false_eq_true, not_false_eq_true,
            List.filter_cons_of_neg]
          omega

/-! ## Going on -/

/-- The moves that go on with an evaluation when the steps give `r`. -/
def GoesOn (p : Progress) (r : Task → StepResult) : Move → Prop
  | .launch => True
  | .begin i | .settle i => i ∈ p.running
  | .finish i s => ∃ t, p.task? i = some t ∧ s = r t
  | .cancel => False

/-- The oldest task can go on when no node can be launched. -/
theorem exists_goesOn_of_cons (hp : j.Orderly p) {t : Task} {rest : List Task}
    (htasks : p.tasks = t :: rest) (hfull : j.launch? p = none) (c : Cache)
    (r : Task → StepResult) : ∃ m p' c', j.Makes p c m p' c' ∧ GoesOn p r m := by
  have hmem : t ∈ p.tasks := by simp [htasks]
  have htask : p.task? t.node = some t := Progress.task?_of_mem hp.nodup_running hmem
  have hrun := Progress.mem_running_of_task? htask
  obtain ⟨i, input, stage⟩ := t
  cases stage with
  | launched =>
      cases hstored : j.stored? c i with
      | some v => exact ⟨_, _, _, .reuse htask hstored, hrun⟩
      | none =>
          cases hcancelled : p.cancelled with
          | true => exact ⟨_, _, _, .refuse htask hstored hcancelled, hrun⟩
          | false => exact ⟨_, _, _, .start htask hstored hcancelled, hrun⟩
  | working => exact ⟨.finish i (r _), _, _, .finish htask, _, htask, rfl⟩
  | finished o => exact ⟨_, _, _, .settle hfull htask, hrun⟩

theorem exists_of_launch? {q : Progress} (h : j.launch? p = some q) (c : Cache) :
    j.Makes p c .launch q c :=
  makes_of_move? (by rw [move?, h]; rfl)

/-- **As long as something is left to do there is a move that goes on**, whatever the steps
give. -/
theorem exists_goesOn (hp : j.Orderly p) (hover : p.isOver = false) (c : Cache)
    (r : Task → StepResult) : ∃ m p' c', j.Makes p c m p' c' ∧ GoesOn p r m := by
  cases hlaunch : j.launch? p with
  | some q => exact ⟨_, _, _, exists_of_launch? hlaunch c, trivial⟩
  | none =>
      cases htasks : p.tasks with
      | cons t rest => exact exists_goesOn_of_cons hp htasks hlaunch c r
      | nil =>
          -- Without tasks there is a slot, so a node that is ready could be launched.
          exfalso
          cases hready : p.ready with
          | nil =>
              rw [Progress.isOver_iff.mpr ⟨hready, htasks⟩] at hover
              simp at hover
          | cons i rest =>
              have hslot : ¬ j.slots ≤ p.tasks.length := by
                rw [htasks, slots, List.length_nil]
                omega
              rw [launch?, hready] at hlaunch
              simp only [hslot, if_false] at hlaunch
              split at hlaunch <;> simp at hlaunch

/-- Schedules that hold nothing up: nodes may be launched, begun and settled, and every step
may give something. -/
structure Productive (allows : Progress → Cache → Move → Prop) : Prop where
  launch : ∀ p c, allows p c .launch
  begin : ∀ p c i, allows p c (.begin i)
  settle : ∀ p c i, allows p c (.settle i)
  finish : ∀ p c, ∃ r : Task → StepResult, ∀ i t, p.task? i = some t → allows p c (.finish i (r t))

/-- **An evaluation can always be brought to its end.** -/
theorem exists_end {allows : Progress → Cache → Move → Prop} (hallows : Productive allows)
    (hj : j.Sound) (hp : j.Orderly p) (c : Cache) :
    ∃ ms p' c', j.Leads allows ms p c p' c' ∧ p'.isOver = true := by
  generalize hn : j.remaining p = n
  induction n using Nat.strong_induction_on generalizing p c with
  | _ n ih =>
    cases hover : p.isOver with
    | true => exact ⟨[], p, c, .nil p c, hover⟩
    | false =>
        obtain ⟨r, hr⟩ := hallows.finish p c
        obtain ⟨m, p₁, c₁, hmakes, hgoes⟩ := exists_goesOn hp hover c r
        have hm : m.isCancel = false ∧ allows p c m := by
          cases m with
          | launch => exact ⟨rfl, hallows.launch p c⟩
          | begin i => exact ⟨rfl, hallows.begin p c i⟩
          | settle i => exact ⟨rfl, hallows.settle p c i⟩
          | finish i s =>
              obtain ⟨t, htask, rfl⟩ := hgoes
              exact ⟨rfl, hr i t htask⟩
          | cancel => exact hgoes.elim
        have hlt := hmakes.remaining_lt hj hp hm.1
        obtain ⟨ms, p', c', hleads, hend⟩ := ih _ (hn ▸ hlt) (hp.makes hj hmakes) c₁ rfl
        exact ⟨m :: ms, p', c', .cons hm.2 hmakes.move?_eq hleads, hend⟩

/-! ## At the end -/

/-- At the end every selected node is settled. -/
theorem Orderly.settled_of_isOver (hj : j.Sound) (hp : j.Orderly p) (hover : p.isOver = true)
    (hi : j.isSelected i = true) : p.Settled i := by
  obtain ⟨hready, htasks⟩ := Progress.isOver_iff.mp hover
  induction i using hj.graph.wellFounded.induction with
  | h i ih =>
      have hplaced := (hp.placed_iff i).mpr
        ⟨hi, fun k hk => ih k hk (hj.isSelected_source hi hk)⟩
      simpa [hready, Progress.running, htasks] using hplaced

theorem Orderly.settled_iff (hj : j.Sound) (hp : j.Orderly p) (hover : p.isOver = true) :
    p.Settled i ↔ j.isSelected i = true :=
  ⟨hp.isSelected_of_settled, hp.settled_of_isOver hj hover⟩

end Job

end Distill

import Distill.Execution.Machine
import Distill.Proofs.Graph.Soundness

/-!
# Moves and schedules

A move of an evaluation as a relation, with one rule for each thing that can happen, and
the schedules that are made of moves. A schedule is told which moves it may make, so that
one notion serves for steps that give anything, for steps that compute a function, and for
runs that are not cancelled.

## Main definitions

* `Job.Makes` — what a move does.
* `Job.Leads` — a schedule from one state to another.
* `Job.Sound` — a job over the graph of its set with a selection that is closed.
* `Progress.Ended` — the final state of a node is known, though it may not be settled yet.

## Main statements

* `Job.makes_of_move?`, `Job.Makes.move?_eq` — the relation is the function.
* `Job.Leads.induction` — what every move keeps, every schedule keeps.
-/

namespace Distill

/-! ## Results of steps -/

namespace StepResult

/-- The final state of a node whose step gave the result. -/
def outcome : StepResult → NodeOutcome
  | value v => .success v
  | failure f => .failed f
  | panic text => .failed (.aborted text)

/-- What is stored of a result: nothing when there is none. -/
def artifact? (node : String) : StepResult → Option Artifact
  | value v => some (.succeeded node v)
  | failure f => some (.failed node f)
  | panic _ => none

end StepResult

/-- Among some moves is the end of the step of a node without any result. -/
def Panics (ms : List Move) (i : Nat) : Prop := ∃ text, .finish i (.panic text) ∈ ms

/-- The cache after a result of a node has been stored, as far as the cache can. -/
def Cache.keep (c : Cache) (archive node : String) (r : StepResult) : Cache :=
  match r.artifact? node with
  | some a => (c.put archive a).2
  | none => c

theorem Cache.keep_value (c : Cache) (archive node : String) (v : ArtifactValue) :
    c.keep archive node (.value v) = (c.put archive (.succeeded node v)).2 := rfl

theorem Cache.keep_failure (c : Cache) (archive node : String) (f : Failure) :
    c.keep archive node (.failure f) = (c.put archive (.failed node f)).2 := rfl

/-- A number that is given once finds what it is given to. -/
theorem find?_of_nodup {α : Type} {number : α → Nat} {l : List α} (h : (l.map number).Nodup) {a : α}
    (ha : a ∈ l) : l.find? (number · == number a) = some a := by
  induction l with
  | nil => simp at ha
  | cons b rest ih =>
      rw [List.map_cons, List.nodup_cons] at h
      rw [List.find?_cons]
      rcases List.mem_cons.mp ha with rfl | ha
      · simp
      · have hne : (number b == number a) = false := by
          rw [beq_eq_false_iff_ne]
          exact fun heq => h.1 (heq ▸ List.mem_map_of_mem ha)
        rw [hne]
        exact ih h.2 ha

/-! ## Views of the progress -/

namespace Progress

variable {p : Progress} {i k : Nat}

/-- The nodes in flight. -/
def running (p : Progress) : List Nat := p.tasks.map (·.node)

/-- The final state of a node is known: the node is settled, or its task has finished. -/
def Ended (p : Progress) (i : Nat) (o : NodeOutcome) : Prop :=
  p.outcome? i = some o ∨ ∃ t ∈ p.tasks, t.node = i ∧ t.stage = .finished o

theorem mem_of_task? {t : Task} (h : p.task? i = some t) : t ∈ p.tasks ∧ t.node = i := by
  refine ⟨List.mem_of_find?_eq_some h, ?_⟩
  simpa using List.find?_some h

theorem mem_running_of_task? {t : Task} (h : p.task? i = some t) : i ∈ p.running := by
  obtain ⟨hmem, hnode⟩ := mem_of_task? h
  exact List.mem_map.mpr ⟨t, hmem, hnode⟩

/-- A node in flight has one task. -/
theorem task?_of_mem (hp : p.running.Nodup) {t : Task} (ht : t ∈ p.tasks) :
    p.task? t.node = some t :=
  find?_of_nodup hp ht

theorem eq_of_mem_tasks (hp : p.running.Nodup) {t u : Task} (ht : t ∈ p.tasks)
    (hu : u ∈ p.tasks) (h : t.node = u.node) : t = u := by
  have hu' := task?_of_mem hp hu
  rw [← h, task?_of_mem hp ht] at hu'
  exact Option.some.inj hu'

@[simp] theorem running_setStage (stage : Stage) : (p.setStage i stage).running = p.running := by
  rw [running, setStage, List.map_map]
  refine List.map_congr_left ?_
  intro t _
  simp only [Function.comp_apply]
  split <;> rfl

theorem mem_tasks_setStage {stage : Stage} {t : Task} :
    t ∈ (p.setStage i stage).tasks ↔
      (t ∈ p.tasks ∧ t.node ≠ i) ∨ ∃ u ∈ p.tasks, u.node = i ∧ t = { u with stage } := by
  simp only [setStage, List.mem_map]
  constructor
  · rintro ⟨u, hu, rfl⟩
    by_cases h : u.node = i
    · exact Or.inr ⟨u, hu, h, by simp [h]⟩
    · exact Or.inl (by simp [h, hu])
  · rintro (⟨ht, h⟩ | ⟨u, hu, h, rfl⟩)
    · exact ⟨t, ht, by simp [h]⟩
    · exact ⟨u, hu, by simp [h]⟩

@[simp] theorem outcome?_setStage (stage : Stage) :
    (p.setStage i stage).outcome? k = p.outcome? k := rfl

@[simp] theorem outcome?_tell (e : Event) : (p.tell e).outcome? k = p.outcome? k := rfl

/-- A task that gets to another stage: the other tasks stay at theirs. -/
theorem exists_task_setStage {stage s : Stage} :
    (∃ t ∈ (p.setStage i stage).tasks, t.node = k ∧ t.stage = s) ↔
      (k ≠ i ∧ ∃ t ∈ p.tasks, t.node = k ∧ t.stage = s) ∨
        (k = i ∧ i ∈ p.running ∧ stage = s) := by
  constructor
  · rintro ⟨t, ht, rfl, hstage⟩
    rcases mem_tasks_setStage.mp ht with ⟨ht, hne⟩ | ⟨u, hu, hui, rfl⟩
    · exact Or.inl ⟨hne, t, ht, rfl, hstage⟩
    · exact Or.inr ⟨hui, List.mem_map.mpr ⟨u, hu, hui⟩, hstage⟩
  · rintro (⟨hne, t, ht, htk, hstage⟩ | ⟨rfl, hrun, rfl⟩)
    · exact ⟨t, mem_tasks_setStage.mpr (Or.inl ⟨ht, htk ▸ hne⟩), htk, hstage⟩
    · obtain ⟨u, hu, huk⟩ := List.mem_map.mp hrun
      exact ⟨{ u with stage }, mem_tasks_setStage.mpr (Or.inr ⟨u, hu, huk, rfl⟩), huk, rfl⟩

/-- A task that gets to another stage: every other end stays as it is. -/
theorem ended_setStage {stage : Stage} {o : NodeOutcome} :
    (p.setStage i stage).Ended k o ↔
      p.outcome? k = some o ∨ (k ≠ i ∧ ∃ t ∈ p.tasks, t.node = k ∧ t.stage = .finished o) ∨
        (k = i ∧ i ∈ p.running ∧ stage = .finished o) :=
  or_congr_right exists_task_setStage

/-- Whether nothing is left to do. -/
theorem isOver_iff : p.isOver = true ↔ p.ready = [] ∧ p.tasks = [] := by
  simp [isOver]

end Progress

namespace Job

/-! ## Sound jobs -/

section Sound

variable {j : Job} {i k : Nat}

/-- A job over the graph of its set. The selection tells of every node whether it is
evaluated, and with a node its source is. -/
structure Sound (j : Job) : Prop where
  graph_eq : Graph.ofSet j.set = .ok j.graph
  selected_length : j.selected.length = j.graph.size
  closed : j.graph.Closed j.selected

theorem Sound.graph (hj : j.Sound) : j.graph.Sound := Graph.sound_ofSet hj.graph_eq

theorem Sound.lt_of_isSelected (hj : j.Sound) (h : j.isSelected i = true) : i < j.graph.size := by
  rw [← hj.selected_length]
  by_contra hi
  rw [isSelected, List.getD_eq_default _ _ (by omega)] at h
  simp at h

theorem Sound.isSelected_source (hj : j.Sound) (h : j.isSelected i = true)
    (hk : j.graph.source i = some k) : j.isSelected k = true :=
  hj.closed i k h hk

/-- Each node of the graph is a node of the set. -/
theorem Sound.exists_node (hj : j.Sound) (hi : i < j.graph.size) :
    ∃ n, j.set.nodes[i]? = some n ∧ n.name = j.graph.name i := by
  rw [Graph.size_ofSet hj.graph_eq, Definition.NodeSet.size] at hi
  have hn := List.getElem?_eq_getElem hi
  exact ⟨_, hn, (Graph.name_ofSet hj.graph_eq hn).symm⟩

end Sound

/-! ## What moves do -/

/-- What a move does. -/
inductive Makes (j : Job) : Progress → Cache → Move → Progress → Cache → Prop
  /-- The first node that is ready takes a slot. -/
  | launch {p c i rest input} (ready : p.ready = i :: rest) (slot : p.tasks.length < j.slots)
      (source : j.resolveInput p i = .ok input) :
      Makes j p c .launch { p with ready := rest, tasks := p.tasks ++ [⟨i, input, .launched⟩] } c
  /-- The first node that is ready is settled, since its source has no value. -/
  | block {p c i rest blocker} (ready : p.ready = i :: rest) (slot : p.tasks.length < j.slots)
      (source : j.resolveInput p i = .error blocker) :
      Makes j p c .launch (j.record { p with ready := rest } i (.blocked blocker)) c
  /-- The value of an earlier run is taken. -/
  | reuse {p c i input v} (task : p.task? i = some ⟨i, input, .launched⟩)
      (stored : j.stored? c i = some v) :
      Makes j p c (.begin i) (p.setStage i (.finished (.cached v))) c
  /-- The step is not started any more. -/
  | refuse {p c i input} (task : p.task? i = some ⟨i, input, .launched⟩)
      (stored : j.stored? c i = none) (cancelled : p.cancelled = true) :
      Makes j p c (.begin i)
        ((p.tell (.nodeStarted j.archive (j.graph.name i) (j.typeName i))).setStage i
          (.finished (.failed .runCancelled)))
        (c.keep j.archive (j.graph.name i) (.failure .runCancelled))
  /-- The step is started. -/
  | start {p c i input} (task : p.task? i = some ⟨i, input, .launched⟩)
      (stored : j.stored? c i = none) (cancelled : p.cancelled = false) :
      Makes j p c (.begin i)
        { (p.tell (.nodeStarted j.archive (j.graph.name i) (j.typeName i))).setStage i .working with
          calls := p.calls ++ [i] } c
  /-- The step ends. -/
  | finish {p c i input r} (task : p.task? i = some ⟨i, input, .working⟩) :
      Makes j p c (.finish i r) (p.setStage i (.finished r.outcome))
        (c.keep j.archive (j.graph.name i) r)
  /-- The node is settled. -/
  | settle {p c i input o} (full : j.launch? p = none)
      (task : p.task? i = some ⟨i, input, .finished o⟩) :
      Makes j p c (.settle i)
        (j.record { p with tasks := p.tasks.filter (·.node != i) } i o) c
  | cancel {p c} : Makes j p c .cancel { p with cancelled := true } c

section Makes

variable {j : Job} {p p' : Progress} {c c' : Cache} {m : Move}

/-- What a step reads depends on the nodes that are settled. -/
theorem resolveInput_congr {i : Nat}
    (h : ∀ k, j.graph.source i = some k → p.outcome? k = p'.outcome? k) :
    j.resolveInput p i = j.resolveInput p' i := by
  rw [resolveInput, resolveInput]
  cases hk : j.graph.source i with
  | none => rfl
  | some k => simp only [h k hk]

@[simp] theorem resolveInput_ready (rest : List Nat) (i : Nat) :
    j.resolveInput { p with ready := rest } i = j.resolveInput p i :=
  resolveInput_congr fun _ _ => rfl

/-- Every move that can be made follows one of the rules. -/
theorem makes_of_move? (h : j.move? p c m = some (p', c')) : j.Makes p c m p' c' := by
  cases m with
  | launch =>
      simp only [move?, launch?, Option.map_eq_some_iff, Prod.mk.injEq] at h
      obtain ⟨q, hq, rfl, rfl⟩ := h
      split at hq
      · simp at hq
      · next i rest hready =>
        split at hq
        · simp at hq
        · next hslot =>
          split at hq
          · next b hsource =>
            rw [← Option.some.inj hq]
            exact .block hready (by omega) hsource
          · next input hsource =>
            rw [← Option.some.inj hq]
            exact .launch hready (by omega) hsource
  | begin i =>
      simp only [move?, begin?] at h
      split at h
      · next n input htask =>
        obtain rfl : n = i := (Progress.mem_of_task? htask).2
        split at h
        · next v hstored =>
          simp only [Option.some.injEq, Prod.mk.injEq] at h
          obtain ⟨rfl, rfl⟩ := h
          exact .reuse htask hstored
        · next hstored =>
          split at h
          · next hcancelled =>
            simp only [Option.some.injEq, Prod.mk.injEq] at h
            obtain ⟨rfl, rfl⟩ := h
            exact .refuse htask hstored hcancelled
          · next hcancelled =>
            simp only [Option.some.injEq, Prod.mk.injEq] at h
            obtain ⟨rfl, rfl⟩ := h
            exact .start htask hstored (Bool.not_eq_true _ ▸ hcancelled)
      · simp at h
  | finish i r =>
      simp only [move?, finish?] at h
      split at h
      · next n input htask =>
        obtain rfl : n = i := (Progress.mem_of_task? htask).2
        cases r <;>
        · simp only [Option.some.injEq, Prod.mk.injEq] at h
          obtain ⟨rfl, rfl⟩ := h
          exact .finish htask
      · simp at h
  | settle i =>
      simp only [move?, settle?, Option.map_eq_some_iff, Prod.mk.injEq] at h
      obtain ⟨q, hq, rfl, rfl⟩ := h
      split at hq
      · simp at hq
      · next hfull =>
        split at hq
        · next n input o htask =>
          obtain rfl : n = i := (Progress.mem_of_task? htask).2
          rw [← Option.some.inj hq]
          exact .settle (by simpa using hfull) htask
        · simp at hq
  | cancel =>
      simp only [move?, Option.some.injEq, Prod.mk.injEq] at h
      obtain ⟨rfl, rfl⟩ := h
      exact .cancel

/-- Every rule is a move that can be made. -/
theorem Makes.move?_eq (h : j.Makes p c m p' c') : j.move? p c m = some (p', c') := by
  cases h with
  | @launch i rest input hready hslot hsource =>
      have hslot' := Nat.not_le.mpr hslot
      simp only [move?, launch?, hready, hslot', if_false, resolveInput_ready, hsource,
        Option.map_some]
  | @block i rest blocker hready hslot hsource =>
      have hslot' := Nat.not_le.mpr hslot
      simp only [move?, launch?, hready, hslot', if_false, resolveInput_ready, hsource,
        Option.map_some]
  | reuse htask hstored => simp [move?, begin?, htask, hstored]
  | @refuse i input htask hstored hcancelled =>
      have hcancelled' : (p.tell (.nodeStarted j.archive (j.graph.name i) (j.typeName i))).cancelled
        = true := hcancelled
      simp only [move?, begin?, htask, hstored, hcancelled', if_true]
      rfl
  | @start i input htask hstored hcancelled =>
      have hcancelled' : (p.tell (.nodeStarted j.archive (j.graph.name i) (j.typeName i))).cancelled
        = false := hcancelled
      simp only [move?, begin?, htask, hstored, hcancelled', Bool.false_eq_true, if_false]
      rfl
  | @finish i input r htask => cases r <;> simp only [move?, finish?, htask] <;> rfl
  | settle hfull htask => simp [move?, settle?, hfull, htask]
  | cancel => rfl

end Makes

/-! ## Schedules -/

/-- A schedule of moves of which each may be made. -/
inductive Leads (j : Job) (allows : Progress → Cache → Move → Prop) :
    List Move → Progress → Cache → Progress → Cache → Prop
  | nil (p c) : Leads j allows [] p c p c
  | cons {m ms} {p p₁ p₂ : Progress} {c c₁ c₂ : Cache} (may : allows p c m)
      (makes : j.move? p c m = some (p₁, c₁)) (rest : Leads j allows ms p₁ c₁ p₂ c₂) :
      Leads j allows (m :: ms) p c p₂ c₂

section Leads

variable {j : Job} {p p' : Progress} {c c' : Cache}
  {allows : Progress → Cache → Move → Prop} {ms : List Move}

/-- **What every move keeps, every schedule keeps.** -/
theorem Leads.induction {I : Progress → Cache → Prop}
    (step : ∀ {p c m p' c'}, I p c → allows p c m → j.Makes p c m p' c' → I p' c')
    (h : j.Leads allows ms p c p' c') (start : I p c) : I p' c' := by
  induction h with
  | nil => exact start
  | cons may makes _ ih => exact ih (step start may (makes_of_move? makes))

theorem Leads.append {ms' : List Move} {p'' : Progress} {c'' : Cache}
    (h : j.Leads allows ms p c p' c') (h' : j.Leads allows ms' p' c' p'' c'') :
    j.Leads allows (ms ++ ms') p c p'' c'' := by
  induction h with
  | nil => exact h'
  | cons may makes _ ih => exact .cons may makes (ih h')

theorem Leads.of_append {ms' : List Move} {p'' : Progress} {c'' : Cache}
    (h : j.Leads allows (ms ++ ms') p c p'' c'') :
    ∃ p' c', j.Leads allows ms p c p' c' ∧ j.Leads allows ms' p' c' p'' c'' := by
  induction ms generalizing p c with
  | nil => exact ⟨p, c, .nil p c, h⟩
  | cons m ms ih =>
      cases h with
      | cons may makes rest =>
          obtain ⟨p', c', h₁, h₂⟩ := ih rest
          exact ⟨p', c', .cons may makes h₁, h₂⟩

/-- The same moves lead to the same state. -/
theorem Leads.unique {allows' : Progress → Cache → Move → Prop} {p'' : Progress} {c'' : Cache}
    (h : j.Leads allows ms p c p' c') (h' : j.Leads allows' ms p c p'' c'') :
    p'' = p' ∧ c'' = c' := by
  induction h with
  | nil =>
      cases h'
      exact ⟨rfl, rfl⟩
  | cons may makes _ ih =>
      cases h' with
      | cons may' makes' rest' =>
          have hsame := Option.some.inj (makes'.symm.trans makes)
          rw [Prod.mk.injEq] at hsame
          obtain ⟨rfl, rfl⟩ := hsame
          exact ih rest'

/-- A schedule may make moves that are allowed more widely. -/
theorem Leads.mono {allows' : Progress → Cache → Move → Prop}
    (himp : ∀ p c m, allows p c m → allows' p c m) (h : j.Leads allows ms p c p' c') :
    j.Leads allows' ms p c p' c' := by
  induction h with
  | nil p c => exact .nil p c
  | cons may makes _ ih => exact .cons (himp _ _ _ may) makes ih

/-- The moves of a schedule are those in its list. -/
theorem Leads.listed (h : j.Leads allows ms p c p' c') :
    j.Leads (fun q d m => allows q d m ∧ m ∈ ms) ms p c p' c' := by
  induction h with
  | nil p c => exact .nil p c
  | cons may makes _ ih =>
      refine .cons ⟨may, List.mem_cons_self⟩ makes (ih.mono fun _ _ m hm => ?_)
      exact ⟨hm.1, List.mem_cons_of_mem _ hm.2⟩

/-- Each move of a schedule is made in a state with what every move keeps. -/
theorem Leads.within {I : Progress → Cache → Prop}
    (step : ∀ {p c m p' c'}, I p c → allows p c m → j.Makes p c m p' c' → I p' c')
    (h : j.Leads allows ms p c p' c') (start : I p c) :
    j.Leads (fun q d m => allows q d m ∧ I q d) ms p c p' c' := by
  induction h with
  | nil p c => exact .nil p c
  | cons may makes _ ih =>
      exact .cons ⟨may, start⟩ makes (ih (step start may (makes_of_move? makes)))

end Leads

end Job

end Distill

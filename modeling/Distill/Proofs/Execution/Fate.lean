import Distill.Proofs.Execution.Completeness
import Distill.Proofs.Execution.Explained

/-!
# The fate of nodes

When the steps compute a function, the end of every node is determined: it follows the
sources from the root on. Whatever the number of slots and in whatever order tasks go on, an
evaluation that is not cancelled gives this.

## Main definitions

* `StepFunction` — what steps give, as a function.
* `Job.fate` — the end of a node, by recursion along the sources.
* `Job.reportOf`, `Job.expected` — the report of given ends, and of these.
* `Job.Obeys` — evaluations whose steps compute a function and that are not cancelled.

## Main statements

* `Job.Explained.eq_fate` — a node that has ended has met its fate.
* `Job.Explained.outcome?_eq` — at the end just the selected nodes have met their fates.
-/

namespace Distill

/-- What steps give, as a function. -/
abbrev StepFunction := (archive node : String) → Step → Option ArtifactValue → StepResult

/-- An environment whose steps compute a function and do not cancel the run. -/
structure Environment.Computes {σ : Type} (env : Environment σ) (steps : StepFunction) : Prop where
  perform : ∀ archive node s input w,
    (env.perform archive node s input w).1 = steps archive node s input
  cancels : ∀ archive node s, env.cancels archive node s = false

namespace Job

variable {j j' : Job} {steps : StepFunction} {p : Progress} {c c' : Cache} {i k : Nat}
  {o : NodeOutcome}

/-! ## The recursion -/

/-- What the step of a node gives for an input. -/
def perform (j : Job) (steps : StepFunction) (i : Nat) (input : Option ArtifactValue) :
    StepResult :=
  match j.set.nodes[i]? with
  | some n => steps j.archive n.name n.step input
  | none => .panic "no such node"

/-- The end of a node that is reached: the value of an earlier run, or what its step gives. -/
def attempt (j : Job) (steps : StepFunction) (c : Cache) (i : Nat)
    (input : Option ArtifactValue) : NodeOutcome :=
  match j.stored? c i with
  | some v => .cached v
  | none => (j.perform steps i input).outcome

/-- The end of a node, by recursion along the sources: a root or a node whose source has a
value is reached, a node whose source failed is blocked by it, and a node whose source is
blocked is blocked by the same node. -/
def fate (hj : j.Sound) (steps : StepFunction) (c : Cache) (i : Nat) : NodeOutcome :=
  match _h : j.graph.source i with
  | none => j.attempt steps c i none
  | some s =>
    match fate hj steps c s with
    | .success v | .cached v => j.attempt steps c i (some v)
    | .failed _ => .blocked (j.graph.name s)
    | .blocked blocker => .blocked blocker
termination_by hj.graph.wellFounded.wrap i
decreasing_by exact _h

/-- The report of the selected nodes with given ends. -/
def reportOf (j : Job) (ends : Nat → NodeOutcome) : Report where
  archive := j.archive
  nodes := (j.graph.order.filter j.isSelected).map fun i => ⟨j.graph.name i, j.typeName i, ends i⟩
  conclusions := j.set.nodes.zipIdx.filterMap fun (n, i) => n.analysis?.map fun a =>
    match if j.isSelected i then (ends i).value? else none with
    | some (.conclusion c) => c
    | _ => Conclusion.unevaluated n.name a.level a.summary a.description

/-- The report of the selected nodes with their fates. -/
def expected (hj : j.Sound) (steps : StepFunction) (c : Cache) : Report :=
  j.reportOf (j.fate hj steps c)

@[simp] theorem stored?_fresh (location : String) (i : Nat) :
    j.stored? (Cache.fresh location) i = none := by
  rw [stored?_eq, Cache.success?_fresh, ite_self]

/-- The fate of a root. -/
theorem fate_of_root (hj : j.Sound) (h : j.graph.source i = none) :
    j.fate hj steps c i = j.attempt steps c i none := by
  rw [fate]
  split
  · rfl
  · next s hs => simp [h] at hs

/-- The fate of a node follows from that of its source. -/
theorem fate_of_source (hj : j.Sound) (h : j.graph.source i = some k) :
    j.fate hj steps c i =
      match j.fate hj steps c k with
      | .success v | .cached v => j.attempt steps c i (some v)
      | .failed _ => .blocked (j.graph.name k)
      | .blocked blocker => .blocked blocker := by
  rw [fate]
  split
  · next hs => simp [h] at hs
  · next s hs =>
    obtain rfl : k = s := Option.some.inj (h.symm.trans hs)
    rfl

/-- The fate of a node follows from what it can read, when its source has met its own. -/
theorem fate_eq_of_resolveInput (hj : j.Sound)
    (h : ∀ k, j.graph.source i = some k → p.outcome? k = some (j.fate hj steps c k)) :
    j.fate hj steps c i =
      match j.resolveInput p i with
      | .ok input => j.attempt steps c i input
      | .error blocker => .blocked blocker := by
  rw [resolveInput]
  cases hk : j.graph.source i with
  | none => exact fate_of_root hj hk
  | some k =>
      simp only [h k hk]
      rw [fate_of_source hj hk]
      cases j.fate hj steps c k <;> rfl

/-- Jobs over the same nodes with the same values of earlier runs have the same fates. -/
theorem fate_congr (hj : j.Sound) (hj' : j'.Sound) (hset : j'.set = j.set)
    (hgraph : j'.graph = j.graph) (harchive : j'.archive = j.archive)
    (hstored : ∀ i, j'.stored? c' i = j.stored? c i) (i : Nat) :
    j'.fate hj' steps c' i = j.fate hj steps c i := by
  have hattempt : ∀ i input, j'.attempt steps c' i input = j.attempt steps c i input := by
    intro i input
    rw [attempt, attempt, hstored, perform, perform, hset, harchive]
  induction i using hj.graph.wellFounded.induction with
  | h i ih =>
      cases hk : j.graph.source i with
      | none =>
          rw [fate_of_root hj hk, fate_of_root hj' (hgraph ▸ hk), hattempt]
      | some k =>
          rw [fate_of_source hj hk, fate_of_source hj' (hgraph ▸ hk), ih k hk]
          simp only [hattempt, hgraph]

/-! ## Evaluations -/

/-- Steps give what they compute, and nothing cancels the run. -/
def Obeys (j : Job) (steps : StepFunction) (p : Progress) (_ : Cache) : Move → Prop
  | .finish i r => ∃ t, p.task? i = some t ∧ r = j.perform steps i t.input
  | .cancel => False
  | .launch | .begin _ | .settle _ => True

/-- Steps that compute a function hold nothing up. -/
theorem productive_obeys (j : Job) (steps : StepFunction) : Productive (j.Obeys steps) where
  launch _ _ := trivial
  begin _ _ _ := trivial
  settle _ _ _ := trivial
  finish p _ := by
    refine ⟨fun t => j.perform steps t.node t.input, fun i t ht => ⟨t, ht, ?_⟩⟩
    obtain ⟨-, rfl⟩ := Progress.mem_of_task? ht
    rfl

/-- **A node that has ended has met its fate.** -/
theorem Explained.eq_fate (hj : j.Sound) (hp : j.Orderly p) (hcancelled : p.cancelled = false)
    (h : j.Explained (j.Obeys steps) c p c') (hi : p.Ended i o) : o = j.fate hj steps c i := by
  induction i using hj.graph.wellFounded.induction generalizing o with
  | h i ih =>
      have hsource : ∀ k, j.graph.source i = some k →
          p.outcome? k = some (j.fate hj steps c k) := by
        intro k hk
        obtain ⟨o', ho'⟩ := Progress.settled_iff.mp
          (hp.settled_source (Orderly.placed_of_ended hi) hk)
        rw [ho', ih k hk (Or.inl ho')]
      rw [fate_eq_of_resolveInput hj hsource]
      cases h.ended i o hi with
      | blocked source _ => rw [source]
      | cached source stored _ => simp only [source, attempt, stored]
      | done source stored task reads may _ =>
          obtain ⟨t, ht, rfl⟩ := may
          rw [task] at ht
          obtain rfl := Option.some.inj ht
          simp only [source, attempt, stored, reads]
      | refused _ _ cancelled _ => simp [hcancelled] at cancelled

/-- At the end every selected node has met its fate, and no other node has ended. -/
theorem Explained.outcome?_eq (hj : j.Sound) (hp : j.Orderly p) (hcancelled : p.cancelled = false)
    (h : j.Explained (j.Obeys steps) c p c') (hover : p.isOver = true) (i : Nat) :
    p.outcome? i = if j.isSelected i then some (j.fate hj steps c i) else none := by
  cases ho : p.outcome? i with
  | some o =>
      have hsettled := Progress.settled_iff.mpr ⟨o, ho⟩
      rw [if_pos (hp.isSelected_of_settled hsettled), h.eq_fate hj hp hcancelled (Or.inl ho)]
  | none =>
      rw [if_neg]
      intro hsel
      have hsettled := hp.settled_of_isOver hj hover hsel
      rw [Progress.Settled, ho] at hsettled
      simp at hsettled

/-- The report of a run in which the selected nodes have the given ends. -/
theorem report_eq_reportOf {ends : Nat → NodeOutcome}
    (h : ∀ i, p.outcome? i = if j.isSelected i then some (ends i) else none) :
    j.report p = j.reportOf ends := by
  have hnodes : ∀ order : List Nat,
      (order.filterMap fun i => (p.outcome? i).map fun o =>
        (⟨j.graph.name i, j.typeName i, o⟩ : NodeReport)) =
      (order.filter j.isSelected).map fun i => ⟨j.graph.name i, j.typeName i, ends i⟩ := by
    intro order
    induction order with
    | nil => rfl
    | cons i rest ih =>
        rw [List.filterMap_cons, h i, ih]
        by_cases hi : j.isSelected i = true
        · rw [if_pos hi, List.filter_cons_of_pos hi]
          rfl
        · rw [if_neg hi, List.filter_cons_of_neg hi]
          rfl
  have hvalue : ∀ i, (p.outcome? i).bind (·.value?) =
      if j.isSelected i then (ends i).value? else none := by
    intro i
    rw [h i]
    split <;> rfl
  have hconclusion : ∀ (i : Nat) (n : Definition.Node), conclusionOf p i n = fun a =>
      match if j.isSelected i then (ends i).value? else none with
      | some (.conclusion c) => c
      | _ => Conclusion.unevaluated n.name a.level a.summary a.description := by
    intro i n
    funext a
    exact congrArg (fun value : Option ArtifactValue =>
      match value with
      | some (.conclusion c) => c
      | _ => Conclusion.unevaluated n.name a.level a.summary a.description) (hvalue i)
  rw [report, reportOf, hnodes]
  simp only [conclusions, hconclusion]

/-! ## Schedule independence -/

/-- The evaluation of the same nodes with another number of slots. -/
def withLimit (j : Job) (limit : Nat) : Job := { j with limit }

theorem Sound.withLimit (hj : j.Sound) (limit : Nat) : (j.withLimit limit).Sound :=
  ⟨hj.graph_eq, hj.selected_length, hj.closed⟩

/-- The number of slots makes no difference to what is expected. -/
theorem expected_withLimit (hj : j.Sound) (limit : Nat) :
    (j.withLimit limit).expected (hj.withLimit limit) steps c = j.expected hj steps c := by
  have hfate : ∀ i, (j.withLimit limit).fate (hj.withLimit limit) steps c i = j.fate hj steps c i :=
    fate_congr hj (hj.withLimit limit) rfl rfl rfl fun _ => rfl
  rw [expected, funext hfate]
  rfl

/-- The moves of an environment whose steps compute a function. -/
theorem obeys_of_performs {σ : Type} {env : Environment σ} (henv : env.Computes steps) {m : Move}
    (hm : env.Performs j p c m) : j.Obeys steps p c m := by
  cases m with
  | launch => trivial
  | begin i => trivial
  | settle i => trivial
  | finish i r =>
      obtain ⟨t, n, w', htask, hn, rfl⟩ := hm
      refine ⟨t, htask, ?_⟩
      rw [henv.perform, perform, hn]
  | cancel =>
      obtain ⟨t, n, -, -, hcancels⟩ := hm
      simp [henv.cancels] at hcancels

/-- An environment whose steps compute a function brings an evaluation to its end. -/
theorem leads_execute_of_computes {σ : Type} {env : Environment σ} (henv : env.Computes steps)
    (hj : j.Sound) (c : Cache) (w : σ) :
    ∃ ms, j.Leads (j.Obeys steps) ms (j.start false) c (env.execute j false c w).1.1
      (env.execute j false c w).1.2 ∧ (env.execute j false c w).1.1.isOver = true := by
  obtain ⟨ms, p, c', heq, h, hover⟩ := env.leads_execute hj false c w
  rw [heq]
  exact ⟨ms, h.mono fun _ _ _ => obeys_of_performs henv, hover⟩

end Job

end Distill

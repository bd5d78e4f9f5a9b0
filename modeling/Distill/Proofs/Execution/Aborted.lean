import Distill.Proofs.Definition.Places
import Distill.Proofs.Execution.Fate

/-!
# Steps without a result

What is told of a task that ended without a result depends on more than its node and its input, so
the text may be another one in each evaluation. All else stays: an evaluation whose steps compute a
function up to these texts is one in which each node has a text of its own.

## Main definitions

* `StepResult.retold`, `StepFunction.retold` — other texts for steps without a result.
* `Job.Follows` — evaluations whose steps compute a function up to these texts.
* `Report.Alike` — reports that are the same up to these texts.

## Main statements

* `Job.Explained.retold` — such an evaluation obeys steps with texts of its own.
* `Job.expected_alike` — the texts change nothing else in what is expected.
* `Job.evaluates_along_sources` — every evaluation gives the expected report.
-/

namespace Distill

/-! ## Other texts -/

/-- Another text is told if there is no result. -/
def StepResult.retold (text : String) : StepResult → StepResult
  | .panic _ => .panic text
  | r => r

/-- Each node has a text of its own for a step without a result. -/
def StepFunction.retold (steps : StepFunction) (texts : String → String) : StepFunction :=
  fun archive node s input => (steps archive node s input).retold (texts node)

/-- Steps that compute a function, but for what is told of a step without a result, and that do
not cancel the run. -/
structure Environment.Follows {σ : Type} (env : Environment σ) (steps : StepFunction) : Prop where
  perform : ∀ archive node s input w, ∃ text,
    (env.perform archive node s input w).1 = (steps archive node s input).retold text
  cancels : ∀ archive node s, env.cancels archive node s = false

/-- The same ends of a node, up to the text of a step without a result. -/
inductive NodeOutcome.Alike : NodeOutcome → NodeOutcome → Prop
  | refl (o) : Alike o o
  | aborted (text text') : Alike (.failed (.aborted text)) (.failed (.aborted text'))

/-- The same report of a node, up to the text of a step without a result. -/
structure NodeReport.Alike (n n' : NodeReport) : Prop where
  name_eq : n.name = n'.name
  type_eq : n.type = n'.type
  outcome : n.outcome.Alike n'.outcome

/-- The same reports, up to the texts of steps without a result. -/
structure Report.Alike (r r' : Report) : Prop where
  archive_eq : r.archive = r'.archive
  nodes : List.Forall₂ NodeReport.Alike r.nodes r'.nodes
  conclusions_eq : r.conclusions = r'.conclusions

theorem NodeOutcome.Alike.value?_eq {o o' : NodeOutcome} (h : o.Alike o') :
    o.value? = o'.value? := by
  cases h <;> rfl

/-- The counts of the conclusions are the same. -/
theorem Report.Alike.counts_eq {r r' : Report} (h : r.Alike r') : r.counts = r'.counts := by
  rw [Report.counts, Report.counts, h.conclusions_eq]

theorem StepResult.outcome_retold_alike (r : StepResult) (text : String) :
    (r.retold text).outcome.Alike r.outcome := by
  cases r with
  | value v => exact .refl _
  | failure f => exact .refl _
  | panic text' => exact .aborted text text'

namespace Job

variable {j : Job} {steps steps' : StepFunction} {p : Progress} {c c' : Cache} {i : Nat}
  {ms : List Move}

/-! ## Evaluations -/

/-- Steps give what they compute, but for what is told of a step without a result, and nothing
cancels the run. -/
def Follows (j : Job) (steps : StepFunction) (p : Progress) (_ : Cache) : Move → Prop
  | .finish i r => ∃ t text, p.task? i = some t ∧ r = (j.perform steps i t.input).retold text
  | .cancel => False
  | .launch | .begin _ | .settle _ => True

/-- What is told of a step without a result may be what the steps say. -/
theorem follows_of_obeys {m : Move} (h : j.Obeys steps p c m) : j.Follows steps p c m := by
  cases m with
  | launch | begin i | settle i => trivial
  | cancel => exact h
  | finish i r =>
      obtain ⟨t, ht, rfl⟩ := h
      cases hr : j.perform steps i t.input with
      | value v => exact ⟨t, "", ht, by rw [hr]; rfl⟩
      | failure f => exact ⟨t, "", ht, by rw [hr]; rfl⟩
      | panic text => exact ⟨t, text, ht, by rw [hr]; rfl⟩

/-- The moves of an environment whose steps compute a function up to these texts. -/
theorem follows_of_performs {σ : Type} {env : Environment σ} (henv : env.Follows steps) {m : Move}
    (hm : env.Performs j p c m) : j.Follows steps p c m := by
  cases m with
  | launch => trivial
  | begin i => trivial
  | settle i => trivial
  | finish i r =>
      obtain ⟨t, n, w', htask, hn, rfl⟩ := hm
      obtain ⟨text, htext⟩ := henv.perform j.archive n.name n.step t.input w'
      refine ⟨t, text, htask, ?_⟩
      rw [htext, perform, hn]
  | cancel =>
      obtain ⟨t, n, -, -, hcancels⟩ := hm
      simp [henv.cancels] at hcancels

/-- **Each node has a text of its own:** an evaluation whose steps compute a function up to these
texts obeys the steps that tell them. -/
theorem Explained.retold (hj : j.Sound) (hp : j.Orderly p) (hover : p.isOver = true)
    (h : j.Explained (j.Follows steps) c p c') :
    ∃ texts, j.Explained (j.Obeys (steps.retold texts)) c p c' := by
  have hone : ∀ i, ∃ text, ∀ steps',
      (∀ input, j.perform steps' i input = (j.perform steps i input).retold text) →
      ∀ o, p.Ended i o → j.Explains (j.Obeys steps') c p c' i o := by
    intro i
    cases ho : p.outcome? i with
    | none => exact ⟨"", fun _ _ o hend => by simp [(ended_iff_of_isOver hover).mp hend] at ho⟩
    | some o =>
        have hsame : ∀ o', p.Ended i o' → o' = o := fun o' hend =>
          Option.some.inj (((ended_iff_of_isOver hover).mp hend).symm.trans ho)
        cases h.ended i o (Or.inl ho) with
        | blocked source same =>
            refine ⟨"", fun steps' _ o' hend => ?_⟩
            exact hsame o' hend ▸ .blocked source same
        | cached source stored same =>
            refine ⟨"", fun steps' _ o' hend => ?_⟩
            exact hsame o' hend ▸ .cached source stored same
        | refused source stored cancelled kept before _ =>
            refine ⟨"", fun steps' _ o' hend => ?_⟩
            exact hsame o' hend ▸ .refused source stored cancelled kept before trivial
        | done source stored task reads may kept =>
            obtain ⟨t, text, ht, rfl⟩ := may
            refine ⟨text, fun steps' hsteps o' hend => ?_⟩
            exact hsame o' hend ▸ .done source stored task reads ⟨t, ht, (hsteps _).symm⟩ kept
  choose texts htexts using hone
  refine ⟨fun name => ((j.set.indexOf? name).map texts).getD "", h.direct_start, h.direct,
    h.untouched, h.working, fun i o hend => htexts i _ (fun input => ?_) o hend⟩
  have hsettled := Progress.settled_iff.mpr ⟨o, (ended_iff_of_isOver hover).mp hend⟩
  obtain ⟨n, hn, -⟩ := hj.exists_node (hj.lt_of_isSelected (hp.isSelected_of_settled hsettled))
  have hplace : j.set.indexOf? n.name = some i := by
    rw [Definition.NodeSet.indexOf?_eq_some_iff, Definition.NodeSet.names, List.getElem?_map, hn]
    rfl
  rw [perform, perform, hn]
  simp only [StepFunction.retold, hplace, Option.map_some, Option.getD_some]

/-- At the end each node has met its fate, with a text of its own. -/
theorem Leads.report_eq_expected (hj : j.Sound) (hc : c.Direct j.archive)
    (h : j.Leads (j.Follows steps) ms (j.start false) c p c') (hover : p.isOver = true) :
    ∃ texts, j.report p = j.expected hj (steps.retold texts) c := by
  have hp := h.orderly hj
  obtain ⟨texts, htexts⟩ := (h.explained hj hc).retold hj hp hover
  refine ⟨texts, report_eq_reportOf fun i => ?_⟩
  exact htexts.outcome?_eq hj hp (h.called hj fun _ _ => id).not_cancelled hover i

/-! ## What stays -/

/-- **The texts change nothing else** in the fate of a node. -/
theorem fate_alike (hj : j.Sound)
    (h : ∀ archive node s input, ∃ text,
      steps' archive node s input = (steps archive node s input).retold text) (i : Nat) :
    (j.fate hj steps' c i).Alike (j.fate hj steps c i) := by
  have hattempt : ∀ i input, (j.attempt steps' c i input).Alike (j.attempt steps c i input) := by
    intro i input
    rw [attempt, attempt, perform, perform]
    cases j.stored? c i with
    | some v => exact .refl _
    | none =>
        cases j.set.nodes[i]? with
        | none => exact .refl _
        | some n =>
            obtain ⟨text, htext⟩ := h j.archive n.name n.step input
            simp only [htext]
            exact StepResult.outcome_retold_alike _ text
  induction i using hj.graph.wellFounded.induction with
  | h i ih =>
      cases hk : j.graph.source i with
      | none =>
          rw [fate_of_root hj hk, fate_of_root hj hk]
          exact hattempt i none
      | some k =>
          rw [fate_of_source hj hk, fate_of_source hj hk]
          have hsource := ih k hk
          generalize j.fate hj steps' c k = o', j.fate hj steps c k = o at hsource
          cases hsource with
          | aborted text text' => exact .refl _
          | refl =>
              cases o' with
              | success v => exact hattempt i (some v)
              | cached v => exact hattempt i (some v)
              | failed f => exact .refl _
              | blocked blocker => exact .refl _

/-- **The texts change nothing else** in what is expected. -/
theorem expected_alike (hj : j.Sound)
    (h : ∀ archive node s input, ∃ text,
      steps' archive node s input = (steps archive node s input).retold text) :
    (j.expected hj steps' c).Alike (j.expected hj steps c) where
  archive_eq := rfl
  nodes := by
    rw [expected, expected, reportOf, reportOf]
    simp only [List.forall₂_map_left_iff, List.forall₂_map_right_iff]
    exact List.forall₂_same.mpr fun i _ => ⟨rfl, rfl, fate_alike hj h i⟩
  conclusions_eq := by
    rw [expected, expected, reportOf, reportOf]
    simp only [(fate_alike hj h _).value?_eq]

/-- Evaluations that tell other texts give alike reports. -/
theorem expected_retold_alike (hj : j.Sound) (texts texts' : String → String) :
    (j.expected hj (steps.retold texts) c).Alike (j.expected hj (steps.retold texts') c) := by
  refine expected_alike hj fun archive node s input => ⟨texts node, ?_⟩
  rw [StepFunction.retold, StepFunction.retold]
  cases steps archive node s input <;> rfl

/-! ## Schedule independence -/

/-- An environment whose steps compute a function up to these texts brings an evaluation to its
end. -/
theorem leads_execute_of_follows {σ : Type} {env : Environment σ} (henv : env.Follows steps)
    (hj : j.Sound) (c : Cache) (w : σ) :
    ∃ ms, j.Leads (j.Follows steps) ms (j.start false) c (env.execute j false c w).1.1
      (env.execute j false c w).1.2 ∧ (env.execute j false c w).1.1.isOver = true := by
  obtain ⟨ms, p, c', heq, h, hover⟩ := env.leads_execute hj false c w
  rw [heq]
  exact ⟨ms, h.mono fun _ _ _ => follows_of_performs henv, hover⟩

end Job

end Distill

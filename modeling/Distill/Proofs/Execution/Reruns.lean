import Distill.Proofs.Cache.ArtifactFile
import Distill.Proofs.Execution.Fate
import Distill.Service.Basic
import Mathlib.Logic.Relation

/-!
# Running again

A run leaves its values in the cache, so that the next run of the same nodes takes them all
and tries only what has failed. A run that is forced does not look at the cache and tries
everything that can be tried.

## Main definitions

* `NodeOutcome.again`, `Report.again` — what a node ends as when nothing has changed.
* `Job.Stores` — moves whose values can be stored and read back.
* `Job.Finishes` — a run that is not cancelled and has come to its end.

## Main statements

* `Job.Explained.stored?_of_value`, `Job.Explained.stored?_of_failed` — what a run leaves in
  the cache.
* `Job.fate_again` — the fates in the cache that a run has left.
* `Job.takes_values_again` — what a run after a run does, and what a forced run does.
-/

namespace Distill

/-- The end of a node in a run when nothing has changed since it ended: a value is taken from
the cache, and everything else is as before. -/
def NodeOutcome.again : NodeOutcome → NodeOutcome
  | success v => cached v
  | o => o

@[simp] theorem NodeOutcome.value?_again (o : NodeOutcome) : o.again.value? = o.value? := by
  cases o <;> rfl

/-- The report of a run when nothing has changed since. -/
def Report.again (r : Report) : Report :=
  { r with nodes := r.nodes.map fun n => { n with outcome := n.outcome.again } }

namespace Job

variable {j : Job} {steps : StepFunction} {p p' : Progress} {c₀ c c' : Cache} {m : Move}
  {i k : Nat} {o : NodeOutcome} {v : ArtifactValue} {allows : Progress → Cache → Move → Prop}

/-! ## What a run leaves in the cache -/

/-- The values of steps are stored and can be read back. -/
def Stores (j : Job) (_ : Progress) (c : Cache) : Move → Prop
  | .finish i (.value v) => v.Proper ∧ v.NumbersReadBack ∧ v.depth ≤ Json.maxDepth ∧
      (c.put j.archive (.succeeded (j.graph.name i) v)).1 = .ok ()
  | _ => True

theorem regular_keep (hc : c.Regular j.archive) (name : String) (r : StepResult) :
    (c.keep j.archive name r).Regular j.archive := by
  cases r with
  | value v | failure f => exact hc.put _ _
  | panic text => exact hc

theorem regular_makes (hc : c.Regular j.archive) (hm : j.Makes p c m p' c') :
    c'.Regular j.archive := by
  cases hm with
  | launch | block | reuse | start | settle | cancel => exact hc
  | refuse | finish => exact regular_keep hc _ _

/-- **A value that a run had is in the cache that it leaves.** -/
theorem Explained.stored?_of_value (hforce : j.force = false)
    (h : j.Explained (fun q d m => j.Stores q d m ∧ d.Regular j.archive) c₀ p c)
    (hi : p.Ended i o) (hv : o.value? = some v) : j.stored? c i = some v := by
  cases h.ended i o hi with
  | blocked | refused => simp [NodeOutcome.value?] at hv
  | cached source stored same =>
      rw [stored?_congr h.direct_start h.direct same, stored]
      exact hv
  | @done input r q d t source stored task reads may kept =>
      cases r with
      | failure | panic => simp [StepResult.outcome, NodeOutcome.value?] at hv
      | value w =>
          obtain rfl : w = v := Option.some.inj hv
          obtain ⟨⟨hproper, hnumbers, hdepth, hok⟩, hregular⟩ := may
          rw [stored?_eq, hforce, if_neg (by simp),
            Cache.success?_congr (direct_keep kept.direct _ _) h.direct kept.after,
            Cache.keep_value]
          exact hregular.success?_put hproper hnumbers hdepth hok

/-- **No value is in the cache for a node that has failed.** -/
theorem Explained.stored?_of_failed {f : Failure} (h : j.Explained allows c₀ p c)
    (hi : p.Ended i (.failed f)) : j.stored? c i = none := by
  have hkeep : ∀ {d r}, j.Kept c₀ d c i r → r.outcome.value? = none → j.stored? c₀ i = none →
      j.stored? c i = none := by
    intro d r kept hr hstored
    have hd : j.stored? d i = none := by
      rw [stored?_congr h.direct_start kept.direct kept.before, hstored]
    rw [stored?_congr (direct_keep kept.direct _ _) h.direct kept.after]
    cases r with
    | value w => simp [StepResult.outcome, NodeOutcome.value?] at hr
    | panic text => exact hd
    | failure f =>
        rw [stored?_eq] at hd ⊢
        split
        · rfl
        · next hforce =>
          rw [if_neg hforce] at hd
          rw [Cache.keep_failure, Cache.success?_put_failed kept.direct, hd, ite_self]
  generalize ho : NodeOutcome.failed f = o at hi
  cases h.ended i o hi with
  | blocked | cached => simp at ho
  | done source stored task reads may kept =>
      refine hkeep kept ?_ stored
      rw [← ho]
      rfl
  | refused source stored cancelled kept => exact hkeep kept rfl stored

/-! ## Fates after a run -/

/-- A node that was reached ends again as it did. -/
theorem attempt_again {input : Option ArtifactValue} (hforce : j.force = false)
    (h : j.Explained (fun q d m => j.Stores q d m ∧ d.Regular j.archive) c₀ p c)
    (hi : p.Ended i (j.attempt steps c₀ i input)) :
    j.attempt steps c i input = (j.attempt steps c₀ i input).again := by
  generalize ho : j.attempt steps c₀ i input = o at hi ⊢
  have hvalue : ∀ v, o.value? = some v → j.attempt steps c i input = .cached v := by
    intro v hv
    rw [attempt, h.stored?_of_value hforce hi hv]
  cases o with
  | success v | cached v => exact hvalue v rfl
  | failed f =>
      have hstored : j.stored? c₀ i = none := by
        rw [attempt] at ho
        split at ho
        · simp at ho
        · next hnone => exact hnone
      rw [attempt, hstored] at ho
      rw [attempt, h.stored?_of_failed hi]
      exact ho
  | blocked b =>
      rw [attempt] at ho
      split at ho
      · simp at ho
      · generalize j.perform steps i input = r at ho
        cases r <;> simp [StepResult.outcome] at ho

/-- **In the cache that a run has left every selected node ends again as it did.** -/
theorem fate_again (hj : j.Sound) (hforce : j.force = false)
    (h : j.Explained (fun q d m => j.Stores q d m ∧ d.Regular j.archive) c₀ p c)
    (hends : ∀ i, j.isSelected i = true → p.Ended i (j.fate hj steps c₀ i))
    (hi : j.isSelected i = true) :
    j.fate hj steps c i = (j.fate hj steps c₀ i).again := by
  induction i using hj.graph.wellFounded.induction with
  | h i ih =>
      have hend := hends i hi
      cases hk : j.graph.source i with
      | none =>
          rw [fate_of_root hj hk] at hend ⊢
          rw [fate_of_root hj hk]
          exact attempt_again hforce h hend
      | some k =>
          have hsource := ih k hk (hj.isSelected_source hi hk)
          rw [fate_of_source hj hk] at hend ⊢
          rw [fate_of_source hj hk, hsource]
          generalize j.fate hj steps c₀ k = o at hend
          cases o with
          | success v | cached v => exact attempt_again hforce h hend
          | failed f | blocked b => rfl

/-- The report depends on the ends of the selected nodes. -/
theorem reportOf_congr {ends ends' : Nat → NodeOutcome}
    (h : ∀ i, j.isSelected i = true → ends i = ends' i) : j.reportOf ends = j.reportOf ends' := by
  have hnodes : ((j.graph.order.filter j.isSelected).map fun i =>
        (⟨j.graph.name i, j.typeName i, ends i⟩ : NodeReport)) =
      (j.graph.order.filter j.isSelected).map fun i => ⟨j.graph.name i, j.typeName i, ends' i⟩ :=
    List.map_congr_left fun i hi => by rw [h i (List.mem_filter.mp hi).2]
  have hvalue : ∀ i, (if j.isSelected i then (ends i).value? else none) =
      if j.isSelected i then (ends' i).value? else none := by
    intro i
    split
    · next hi => rw [h i hi]
    · rfl
  simp only [reportOf, hnodes, hvalue]

theorem again_reportOf (ends : Nat → NodeOutcome) :
    (j.reportOf ends).again = j.reportOf fun i => (ends i).again := by
  simp only [reportOf, Report.again, List.map_map, NodeOutcome.value?_again]
  rfl

/-! ## Runs after runs -/

/-- A run that nothing may cancel has come to its end. -/
structure Finishes (j : Job) (allows : Progress → Cache → Move → Prop) (c : Cache)
    (p : Progress) (c' : Cache) : Prop where
  not_cancel : ∀ q d, ¬ allows q d .cancel
  leads : ∃ ms, j.Leads allows ms (j.start false) c p c'
  isOver : p.isOver = true

/-- An evaluation by an environment whose steps compute a function. -/
theorem finishes_execute {σ : Type} {env : Environment σ} (henv : env.Computes steps)
    (hj : j.Sound) (c : Cache) (w : σ) : j.Finishes (j.Obeys steps) c
      (env.execute j false c w).1.1 (env.execute j false c w).1.2 := by
  obtain ⟨ms, h, hover⟩ := leads_execute_of_computes henv hj c w
  exact ⟨fun _ _ => id, ⟨ms, h⟩, hover⟩

/-- There is an evaluation whose steps compute a function. -/
theorem exists_finishes (hj : j.Sound) (steps : StepFunction) (c : Cache) :
    ∃ p c', j.Finishes (j.Obeys steps) c p c' := by
  obtain ⟨ms, p, c', h, hover⟩ :=
    exists_end (productive_obeys j steps) hj (orderly_start hj false) c
  exact ⟨p, c', fun _ _ => id, ⟨ms, h⟩, hover⟩

theorem Finishes.orderly (hj : j.Sound) (h : j.Finishes allows c p c') : j.Orderly p := by
  obtain ⟨ms, hleads⟩ := h.leads
  exact hleads.orderly hj

theorem Finishes.explained (hj : j.Sound) (hc : c.Direct j.archive)
    (h : j.Finishes allows c p c') : j.Explained allows c p c' := by
  obtain ⟨ms, hleads⟩ := h.leads
  exact hleads.explained hj hc

theorem Finishes.called (hj : j.Sound) (h : j.Finishes allows c p c') : p.Called := by
  obtain ⟨ms, hleads⟩ := h.leads
  exact hleads.called hj h.not_cancel

theorem Finishes.mono {allows' : Progress → Cache → Move → Prop}
    (h : j.Finishes allows c p c') (himp : ∀ q d m, allows q d m → allows' q d m)
    (hno : ∀ q d, ¬ allows' q d .cancel) : j.Finishes allows' c p c' := by
  obtain ⟨ms, hleads⟩ := h.leads
  exact ⟨hno, ⟨ms, hleads.mono himp⟩, h.isOver⟩

theorem Finishes.outcome?_eq (hj : j.Sound) (hc : c.Direct j.archive)
    (h : j.Finishes (j.Obeys steps) c p c') (i : Nat) :
    p.outcome? i = if j.isSelected i then some (j.fate hj steps c i) else none :=
  (h.explained hj hc).outcome?_eq hj (h.orderly hj) (h.called hj).not_cancelled h.isOver i

theorem Finishes.explained_stores (hj : j.Sound) (hc : c.Regular j.archive)
    (h : j.Finishes allows c p c') (hstores : ∀ q d m, allows q d m → j.Stores q d m) :
    j.Explained (fun q d m => j.Stores q d m ∧ d.Regular j.archive) c p c' := by
  obtain ⟨ms, hleads⟩ := h.leads
  refine ((hleads.mono hstores).within (I := fun _ d => d.Regular j.archive) ?_ hc).explained hj
    hc.direct
  exact fun hd _ hm => regular_makes hd hm

/-- At the end the steps of the nodes that were tried have been called once. -/
theorem Finishes.count_calls (hj : j.Sound) (h : j.Finishes allows c p c')
    (hi : p.outcome? i = some o) :
    (o.IsTried → p.calls.count i = 1) ∧ (¬ o.IsTried → i ∉ p.calls) := by
  have hcalled := h.called hj
  have htried : i ∈ p.calls ↔ o.IsTried := by
    simp [hcalled.mem_iff, Progress.Tried, ended_iff_of_isOver h.isOver, hi,
      (Progress.isOver_iff.mp h.isOver).2]
  refine ⟨fun ho => ?_, fun ho hmem => ho (htried.mp hmem)⟩
  exact List.count_eq_one_of_mem hcalled.nodup (htried.mpr ho)

/-- The source of a node that was reached has a value. -/
theorem value?_of_resolveInput {input : Option ArtifactValue} (h : j.resolveInput p i = .ok input)
    (hk : j.graph.source i = some k) :
    ∃ o v, p.outcome? k = some o ∧ o.value? = some v := by
  simp only [resolveInput, hk] at h
  split at h
  · next v hv => exact ⟨_, v, hv, rfl⟩
  · next v hv => exact ⟨_, v, hv, rfl⟩
  · simp at h
  · simp at h
  · simp at h

theorem resolveInput_of_value? (hk : j.graph.source i = some k) (ho : p.outcome? k = some o)
    (hv : o.value? = some v) : j.resolveInput p i = .ok (some v) := by
  cases o with
  | success w | cached w =>
      obtain rfl := Option.some.inj hv
      simp [resolveInput, hk, ho]
  | failed | blocked => simp [NodeOutcome.value?] at hv

/-- **A run takes the values that another has had,** if they are in its cache. -/
theorem Finishes.takes_values (hj : j.Sound) {j' : Job} (hj' : j'.Sound) {p₁ p₂ : Progress}
    {c₁ c₂ : Cache} {allows' : Progress → Cache → Move → Prop}
    (hgraph : j'.graph = j.graph) (hselected : ∀ i, j'.isSelected i = j.isSelected i)
    (hc₀ : c₀.Direct j.archive) (h : j.Finishes allows c₀ p₁ c₁)
    (hc : c.Direct j'.archive) (h' : j'.Finishes allows' c p₂ c₂)
    (hstored : ∀ i o v, p₁.outcome? i = some o → o.value? = some v → j'.stored? c i = some v)
    {v : ArtifactValue} (ho : p₁.outcome? i = some o) (hv : o.value? = some v) :
    p₂.outcome? i = some (.cached v) := by
  induction i using hj.graph.wellFounded.induction generalizing o v with
  | h i ih =>
      have hsel : j'.isSelected i = true := by
        rw [hselected]
        exact (h.orderly hj).isSelected_of_settled (Progress.settled_iff.mpr ⟨o, ho⟩)
      obtain ⟨o₂, ho₂⟩ := Progress.settled_iff.mp
        ((h'.orderly hj').settled_of_isOver hj' h'.isOver hsel)
      have hstored_i := hstored i o v ho hv
      rw [ho₂]
      cases (h'.explained hj' hc).ended i o₂ (Or.inl ho₂) with
      | cached source stored same =>
          obtain rfl := Option.some.inj (stored.symm.trans hstored_i)
          rfl
      | done source stored | refused source stored => simp [hstored_i] at stored
      | blocked source same =>
          -- The source had a value in the first run, so that it has one again.
          cases hk : j.graph.source i with
          | none => simp [resolveInput, hgraph, hk] at source
          | some k =>
              have hreached : ∃ input, j.resolveInput p₁ i = .ok input := by
                cases (h.explained hj hc₀).ended i o (Or.inl ho) with
                | blocked => simp [NodeOutcome.value?] at hv
                | cached source | done source | refused source => exact ⟨_, source⟩
              obtain ⟨input, hinput⟩ := hreached
              obtain ⟨ok, w, hok, hw⟩ := value?_of_resolveInput hinput hk
              rw [resolveInput_of_value? (hgraph ▸ hk) (ih k hk hok hw) rfl] at source
              simp at source

/-- The end of a run leaves the artifacts as they are. -/
theorem fileOf_close (options : RunOptions) (p : Progress) (c : Cache) (archive node : String) :
    (Service.close options j p c).2.fileOf archive node = c.fileOf archive node := by
  rw [Service.close]
  split
  · rfl
  · exact Cache.fileOf_putConclusions _ _ _ _ _

theorem direct_close {archive : String} (hc : c.Direct archive) (options : RunOptions)
    (p : Progress) : (Service.close options j p c).2.Direct archive := by
  rw [Service.close]
  split
  · exact hc
  · exact Cache.direct_putConclusions hc _ _

/-! ## Forced runs -/

/-- **A run that is forced does not look at the cache.** -/
theorem Makes.of_force (hforce : j.force = true) (h : j.Makes p c m p' c') (d : Cache) :
    ∃ d', j.Makes p d m p' d' := by
  refine h.of_stored? fun i _ => ?_
  rw [stored?_eq, stored?_eq, if_pos hforce, if_pos hforce]

theorem Leads.of_force {ms : List Move} (hforce : j.force = true)
    (h : j.Leads (fun _ _ m => m ≠ .cancel) ms p c p' c') (d : Cache) :
    ∃ d', j.Leads (fun _ _ m => m ≠ .cancel) ms p d p' d' := by
  induction h generalizing d with
  | nil p c => exact ⟨d, .nil p d⟩
  | cons may makes _ ih =>
      obtain ⟨d₁, h₁⟩ := (makes_of_move? makes).of_force hforce d
      obtain ⟨d₂, h₂⟩ := ih d₁
      exact ⟨d₂, .cons may h₁.move?_eq h₂⟩

/-- **A run that is forced calls the step of every node whose source has a value,** whatever
the cache holds. -/
theorem Finishes.count_calls_of_force (hj : j.Sound) (hforce : j.force = true)
    (h : j.Finishes allows c p c') (hi : j.isSelected i = true)
    (hsource : ∀ k, j.graph.source i = some k → ∃ v, p.outcome? k = some (.success v)) :
    p.calls.count i = 1 := by
  obtain ⟨o, ho⟩ := Progress.settled_iff.mp ((h.orderly hj).settled_of_isOver hj h.isOver hi)
  refine (h.count_calls hj ho).1 ?_
  obtain ⟨ms, hleads⟩ := h.leads
  have hno : ∀ q d m, allows q d m → m ≠ .cancel := by
    rintro q d m hm rfl
    exact h.not_cancel q d hm
  obtain ⟨d', hfresh⟩ := (hleads.mono hno).of_force hforce (Cache.fresh "")
  cases (hfresh.explained hj (Cache.direct_fresh "" _)).ended i o (Or.inl ho) with
  | done => exact StepResult.isTried_outcome _
  | cached source stored => simp [stored?_eq, hforce] at stored
  | refused => trivial
  | blocked source =>
      cases hk : j.graph.source i with
      | none => simp [resolveInput, hk] at source
      | some k =>
          obtain ⟨v, hv⟩ := hsource k hk
          rw [resolveInput_of_value? hk hv rfl] at source
          simp at source

/-! ## Idempotence -/

/-- **A run after a run takes its values again, and a forced run tries everything.** The first
run starts from any cache; its values are stored and can be read back. The second run has any
number of slots, and no operation on the cache stands between the two. Then every node that
had a value has the same one in the second run, from the cache, and its step is not called. If
the steps of both runs compute the same function, every other node ends as it did, and the
conclusions are the same. In a forced run of any steps, whatever the cache holds, the step of a
selected node is called exactly once if all nodes above it end with success. -/
theorem takes_values_again (hj : j.Sound) :
    (j.force = false → ∀ (options : RunOptions) (limit : Nat) (c₀ c₁ c₂ : Cache)
        (p₁ p₂ : Progress) (allows₁ allows₂ : Progress → Cache → Move → Prop),
      c₀.Regular j.archive → (∀ q d m, allows₁ q d m → j.Stores q d m) →
      j.Finishes allows₁ c₀ p₁ c₁ →
      (j.withLimit limit).Finishes allows₂ (Service.close options j p₁ c₁).2 p₂ c₂ →
      (∀ i o v, p₁.outcome? i = some o → o.value? = some v →
        p₂.outcome? i = some (.cached v) ∧ i ∉ p₂.calls) ∧
      (∀ steps, (∀ q d m, allows₁ q d m → j.Obeys steps q d m) →
        (∀ q d m, allows₂ q d m → (j.withLimit limit).Obeys steps q d m) →
        (j.withLimit limit).report p₂ = (j.report p₁).again)) ∧
    (j.force = true → ∀ c p c' allows, j.Finishes allows c p c' → ∀ i, j.isSelected i = true →
      (∀ k, Relation.TransGen (fun k i => j.graph.source i = some k) k i →
        ∃ v, p.outcome? k = some (.success v)) →
      p.calls.count i = 1) := by
  refine ⟨?_, ?_⟩
  · intro hforce options limit c₀ c₁ c₂ p₁ p₂ allows₁ allows₂ hc₀ hstores h₁ h₂
    have hj' := hj.withLimit limit
    have hexplained := h₁.explained_stores hj hc₀ hstores
    have hclosed := direct_close (j := j) hexplained.direct options p₁
    have hstored : ∀ i, j.stored? (Service.close options j p₁ c₁).2 i = j.stored? c₁ i :=
      fun i => stored?_congr hexplained.direct hclosed (fileOf_close options p₁ c₁ _ _)
    refine ⟨?_, ?_⟩
    · intro i o v ho hv
      have hcached : p₂.outcome? i = some (.cached v) := by
        refine h₁.takes_values hj hj' rfl (fun _ => rfl) hc₀.direct hclosed h₂ ?_ ho hv
        intro i o v ho hv
        exact (hstored i).trans (hexplained.stored?_of_value hforce (Or.inl ho) hv)
      exact ⟨hcached, (h₂.count_calls hj' hcached).2 id⟩
    · intro steps hobeys₁ hobeys₂
      have hfate₁ := (h₁.mono hobeys₁ fun _ _ => id).outcome?_eq hj hc₀.direct
      have hfate₂ := (h₂.mono hobeys₂ fun _ _ => id).outcome?_eq hj' hclosed
      have hreport₂ := (report_eq_reportOf hfate₂).trans (expected_withLimit hj limit)
      rw [report_eq_reportOf hfate₁, hreport₂, again_reportOf]
      refine reportOf_congr fun i hi => ?_
      rw [fate_congr (c := c₁) hj hj rfl rfl rfl hstored]
      refine fate_again hj hforce hexplained (fun i hi => ?_) hi
      exact Or.inl ((hfate₁ i).trans (if_pos hi))
  · intro hforce c p c' allows h i hi habove
    exact h.count_calls_of_force hj hforce hi fun k hk => habove k (.single hk)

/-- A log that can be read, but not be split into lines. -/
def oddLog : StepFunction := fun _ node _ _ =>
  if node = "log" then .value (.bytes [255]) else .failure ⟨.decode, "no lines"⟩

/-- The command gives a value, which is stored, and then the other node fails. -/
theorem finishes_logLines : ∃ p c,
    logLines.Finishes (fun q d m => logLines.Obeys oddLog q d m ∧ logLines.Stores q d m)
      (Cache.fresh "cache") p c ∧
    p.outcome? 0 = some (.success (.bytes [255])) ∧
    p.outcome? 1 = some (.failed ⟨.decode, "no lines"⟩) := by
  have hkept : logLines.stored?
      ((Cache.fresh "cache").keep "sos" "log" (.value (.bytes [255]))) 1 = none := by
    have hd := Cache.direct_fresh "cache" "sos"
    rw [← stored?_fresh "cache" 1]
    refine stored?_congr hd (direct_keep hd _ _) ?_
    exact fileIn_keep_of_ne (i := 0) sound_logLines (by decide) (by decide) (by decide) _ _
  have hvalue : (ArtifactValue.bytes [255]).NumbersReadBack := by
    simp [ArtifactValue.NumbersReadBack, ArtifactValue.json?]
  have hleads : logLines.Leads (fun q d m => logLines.Obeys oddLog q d m ∧ logLines.Stores q d m)
      _ (logLines.start false) (Cache.fresh "cache") _ _ :=
    .cons (m := .launch) ⟨trivial, trivial⟩
      (Makes.launch (i := 0) rfl (by decide) rfl).move?_eq <|
    .cons (m := .begin 0) ⟨trivial, trivial⟩
      (Makes.start rfl (stored?_fresh _ 0) rfl).move?_eq <|
    .cons (m := .finish 0 (.value (.bytes [255])))
      ⟨⟨_, rfl, rfl⟩, trivial, hvalue, by decide, rfl⟩
      (Makes.finish rfl).move?_eq <|
    .cons (m := .settle 0) ⟨trivial, trivial⟩
      (Makes.settle rfl rfl).move?_eq <|
    .cons (m := .launch) ⟨trivial, trivial⟩
      (Makes.launch (i := 1) rfl (by decide) rfl).move?_eq <|
    .cons (m := .begin 1) ⟨trivial, trivial⟩
      (Makes.start rfl hkept rfl).move?_eq <|
    .cons (m := .finish 1 (.failure ⟨.decode, "no lines"⟩)) ⟨⟨_, rfl, rfl⟩, trivial⟩
      (Makes.finish rfl).move?_eq <|
    .cons (m := .settle 1) ⟨trivial, trivial⟩
      (Makes.settle rfl rfl).move?_eq <|
    .nil _ _
  exact ⟨_, _, ⟨fun _ _ h => h.1, ⟨_, hleads⟩, rfl⟩, rfl, rfl⟩

/-- The evaluation of both nodes that does not take values of earlier runs. -/
def freshLogLines : Job := { logLines with force := true }

theorem sound_freshLogLines : freshLogLines.Sound :=
  ⟨sound_logLines.graph_eq, sound_logLines.selected_length, sound_logLines.closed⟩

/-- The value of the command is taken again, and the other node fails again; a forced run calls
both steps. -/
theorem logLines_takes_values_again :
    logLines.Sound ∧ (Cache.fresh "cache").Regular logLines.archive ∧
    (∃ p₁ c₁ p₂ c₂,
      logLines.Finishes (fun q d m => logLines.Obeys oddLog q d m ∧ logLines.Stores q d m)
        (Cache.fresh "cache") p₁ c₁ ∧
      (logLines.withLimit 1).Finishes ((logLines.withLimit 1).Obeys oddLog)
        (Service.close {} logLines p₁ c₁).2 p₂ c₂ ∧
      p₁.outcome? 0 = some (.success (.bytes [255])) ∧
      p₂.outcome? 0 = some (.cached (.bytes [255])) ∧ 0 ∉ p₂.calls ∧
      ((logLines.withLimit 1).report p₂).nodes.map (·.outcome.label) = ["cached", "failed"]) ∧
    ∃ p c, freshLogLines.Finishes (freshLogLines.Obeys oddLog) (Cache.fresh "cache") p c ∧
      p.calls.count 1 = 1 := by
  have hc := Cache.regular_fresh "cache" logLines.archive
  refine ⟨sound_logLines, hc, ?_, ?_⟩
  · obtain ⟨p₁, c₁, h₁, hlog, hlines⟩ := finishes_logLines
    have hsound := sound_logLines.withLimit 1
    obtain ⟨p₂, c₂, h₂⟩ := exists_finishes hsound oddLog (Service.close {} logLines p₁ c₁).2
    obtain ⟨hvalues, hreport⟩ := (takes_values_again sound_logLines).1 rfl {} 1
      _ _ _ _ _ _ _ hc (fun _ _ _ h => h.2) h₁ h₂
    obtain ⟨hcached, hcalls⟩ := hvalues 0 _ _ hlog rfl
    refine ⟨p₁, c₁, p₂, c₂, h₁, h₂, hlog, hcached, hcalls, ?_⟩
    rw [hreport oddLog (fun _ _ _ h => h.1) fun _ _ _ h => h]
    have horder : logLines.graph.order = [0, 1] := rfl
    simp [Report.again, report, horder, hlog, hlines, NodeOutcome.again, NodeOutcome.label]
  · obtain ⟨p, c, h⟩ := exists_finishes sound_freshLogLines oddLog (Cache.fresh "cache")
    have hlog : p.outcome? 0 = some (.success (.bytes [255])) := by
      rw [h.outcome?_eq sound_freshLogLines hc.direct]
      have hselected : freshLogLines.isSelected 0 = true := rfl
      have hroot : freshLogLines.graph.source 0 = none := rfl
      rw [if_pos hselected, fate_of_root _ hroot]
      rfl
    refine ⟨p, c, h, (takes_values_again sound_freshLogLines).2 rfl _ _ _ _ h 1 rfl ?_⟩
    intro k hk
    have hroot : ∀ k, freshLogLines.graph.source 0 ≠ some k := fun _ => nofun
    have hlines : ∀ k, freshLogLines.graph.source 1 = some k → k = 0 := fun _ hk =>
      (Option.some.inj hk).symm
    cases hk with
    | single hk =>
        obtain rfl := hlines k hk
        exact ⟨_, hlog⟩
    | tail habove hk =>
        obtain rfl := hlines _ hk
        cases habove with
        | single hk | tail _ hk => exact absurd hk (hroot _)

end Job

end Distill

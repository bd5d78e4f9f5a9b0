import Distill.Proofs.Execution.Reruns

/-!
# Caching is transparent

Whatever has been done with an archive, a full run gives what it gives on a fresh cache, but
that values are taken from the cache instead of being computed. For every value that can be
read from the cache is the one that the node has in a run on a fresh cache: this holds of a
fresh cache, and every operation keeps it, also a run that is forced, cancelled or filtered,
and one whose results could not be stored.

## Main definitions

* `Report.Agrees` — reports that differ only in where values come from.
* `Job.truth` — the end of a node in a run on a fresh cache.
* `Job.Faithful` — caches whose values are true.
* `Job.Interrupts` — evaluations whose steps compute a function, unless they are cancelled.
* `Service.Operates` — the operations on an archive.

## Main statements

* `Job.Explained.faithful` — a run keeps a cache faithful.
* `Job.Faithful.fate_again` — the fates in a faithful cache.
* `Service.Operates.faithful` — every operation keeps a cache faithful.
* `Service.caching_is_transparent` — a full run after any session.
-/

namespace Distill

/-! ## Reports that agree -/

/-- Two reports say the same of every node, but that values may come from the cache, and draw
the same conclusions. -/
def Report.Agrees (r r' : Report) : Prop :=
  r.again = r'.again ∧ r.conclusions = r'.conclusions ∧ r.counts = r'.counts

theorem Report.agrees_of_again_eq {r r' : Report} (h : r.again = r'.again) : r.Agrees r' := by
  have hconclusions : r.again.conclusions = r'.again.conclusions := by rw [h]
  exact ⟨h, hconclusions, congrArg LevelCounts.ofConclusions hconclusions⟩

namespace Job

variable {j j' : Job} {steps : StepFunction} {p : Progress} {c₀ c c' d : Cache} {i k : Nat}
  {o : NodeOutcome} {v : ArtifactValue} {allows : Progress → Cache → Move → Prop}

/-! ## Runs on a fresh cache -/

/-- The end of a node in a run on a fresh cache. -/
def truth (hj : j.Sound) (steps : StepFunction) (i : Nat) : NodeOutcome :=
  j.fate hj steps (Cache.fresh "") i

theorem truth_congr (hj : j.Sound) (hj' : j'.Sound) (hset : j'.set = j.set)
    (hgraph : j'.graph = j.graph) (harchive : j'.archive = j.archive) (i : Nat) :
    j'.truth hj' steps i = j.truth hj steps i :=
  fate_congr hj hj' hset hgraph harchive (fun _ => by rw [stored?_fresh, stored?_fresh]) i

theorem truth_of_root (hj : j.Sound) (h : j.graph.source i = none) :
    j.truth hj steps i = (j.perform steps i none).outcome := by
  rw [truth, fate_of_root hj h, attempt, stored?_fresh]

theorem truth_of_source (hj : j.Sound) (h : j.graph.source i = some k) :
    j.truth hj steps i =
      match j.truth hj steps k with
      | .success v | .cached v => (j.perform steps i (some v)).outcome
      | .failed _ => .blocked (j.graph.name k)
      | .blocked blocker => .blocked blocker := by
  rw [truth, fate_of_source hj h]
  simp only [attempt, stored?_fresh]
  rfl

/-- A node whose source has ended with its true value ends with what its step gives. -/
theorem truth_of_resolveInput (hj : j.Sound) {input : Option ArtifactValue}
    (h : j.resolveInput p i = .ok input)
    (hsource : ∀ k o v, j.graph.source i = some k → p.outcome? k = some o → o.value? = some v →
      j.truth hj steps k = .success v) :
    j.truth hj steps i = (j.perform steps i input).outcome := by
  cases hk : j.graph.source i with
  | none =>
      simp only [resolveInput, hk, Except.ok.injEq] at h
      rw [truth_of_root hj hk, h]
  | some k =>
      obtain ⟨o, v, ho, hv⟩ := value?_of_resolveInput h hk
      rw [resolveInput_of_value? hk ho hv, Except.ok.injEq] at h
      rw [truth_of_source hj hk, hsource k o v hk ho hv, ← h]

/-! ## Faithful caches -/

/-- Every value that can be read for a node is its true one. -/
structure Faithful (hj : j.Sound) (steps : StepFunction) (c : Cache) : Prop where
  direct : c.Direct j.archive
  truth : ∀ i < j.graph.size, ∀ v, c.success? j.archive (j.graph.name i) = some v →
    j.truth hj steps i = .success v

theorem faithful_fresh (hj : j.Sound) (location : String) :
    Faithful hj steps (Cache.fresh location) where
  direct := Cache.direct_fresh location _
  truth i _ v hv := by simp at hv

/-- A cache is as faithful for one job as for another over the same nodes. -/
theorem Faithful.congr {hj : j.Sound} (hc : Faithful hj steps c) (hj' : j'.Sound)
    (hset : j'.set = j.set) (hgraph : j'.graph = j.graph) (harchive : j'.archive = j.archive) :
    Faithful hj' steps c where
  direct := harchive ▸ hc.direct
  truth i hi v hv := by
    rw [harchive, hgraph] at hv
    rw [truth_congr hj hj' hset hgraph harchive]
    exact hc.truth i (hgraph ▸ hi) v hv

/-- A cache with fewer values is faithful. -/
theorem Faithful.of_success? {hj : j.Sound} (hc : Faithful hj steps c)
    (hdirect : c'.Direct j.archive)
    (h : ∀ i < j.graph.size, ∀ v, c'.success? j.archive (j.graph.name i) = some v →
      c.success? j.archive (j.graph.name i) = some v) : Faithful hj steps c' where
  direct := hdirect
  truth i hi v hv := hc.truth i hi v (h i hi v hv)

/-- **In a faithful cache every node ends as on a fresh one,** but that its value may be taken
from the cache. -/
theorem Faithful.fate_again {hj : j.Sound} (hc : Faithful hj steps c) (hi : i < j.graph.size) :
    (j.fate hj steps c i).again = (j.truth hj steps i).again := by
  have hattempt : ∀ i < j.graph.size, ∀ input,
      j.truth hj steps i = (j.perform steps i input).outcome →
      (j.attempt steps c i input).again = (j.truth hj steps i).again := by
    intro i hi input htruth
    rw [attempt]
    cases hstored : j.stored? c i with
    | none => rw [htruth]
    | some v =>
        rw [hc.truth i hi v (success?_of_stored? hstored)]
        rfl
  induction i using hj.graph.wellFounded.induction with
  | h i ih =>
      cases hk : j.graph.source i with
      | none =>
          rw [fate_of_root hj hk]
          exact hattempt i hi none (truth_of_root hj hk)
      | some k =>
          have hsource := ih k hk (hj.graph.source_lt hk)
          have htruth : j.truth hj steps i = _ := truth_of_source hj hk
          rw [fate_of_source hj hk]
          generalize j.fate hj steps c k = o at hsource
          generalize j.truth hj steps k = o' at hsource htruth
          -- Both sources have the same value, or both have failed in the same way.
          cases o <;> cases o' <;> simp only [NodeOutcome.again, reduceCtorEq] at hsource
          case success.success | success.cached | cached.success | cached.cached =>
            obtain rfl := NodeOutcome.cached.inj hsource
            exact hattempt i hi _ htruth
          case failed.failed => rw [htruth]
          case blocked.blocked =>
            obtain rfl := NodeOutcome.blocked.inj hsource
            rw [htruth]

/-! ## What a run leaves in the cache -/

/-- Steps give what they compute, but that a step may be cancelled while the run is. -/
def Interrupts (j : Job) (steps : StepFunction) (p : Progress) (_ : Cache) : Move → Prop
  | .finish i r => ∃ t, p.task? i = some t ∧ (r = j.perform steps i t.input ∨
      p.cancelled = true ∧ ∃ message, r = .failure ⟨.cancelled, message⟩)
  | .launch | .begin _ | .settle _ | .cancel => True

/-- A value that a step gives is what it computes. -/
theorem perform_of_interrupts {q : Progress} {t : Task} (htask : q.task? i = some t)
    (h : j.Interrupts steps q d (.finish i (.value v))) : j.perform steps i t.input = .value v := by
  obtain ⟨u, hu, hperform | ⟨-, message, hmessage⟩⟩ := h
  · rw [htask] at hu
    obtain rfl := Option.some.inj hu
    exact hperform.symm
  · simp at hmessage

/-- **In a run on a faithful cache every value is the true one,** whenever the run is
cancelled. -/
theorem Explained.truth_of_value {hj : j.Sound} (h : j.Explained (j.Interrupts steps) c₀ p c)
    (hc : Faithful hj steps c₀) (hp : j.Orderly p) (hi : p.Ended i o) (hv : o.value? = some v) :
    j.truth hj steps i = .success v := by
  induction i using hj.graph.wellFounded.induction generalizing o v with
  | h i ih =>
      cases h.ended i o hi with
      | blocked | refused => simp [NodeOutcome.value?] at hv
      | cached source stored same =>
          obtain rfl := Option.some.inj hv
          exact hc.truth i (hp.lt_of_ended hj hi) _ (success?_of_stored? stored)
      | @done input r q d t source stored task reads may kept =>
          cases r with
          | failure | panic => simp [StepResult.outcome, NodeOutcome.value?] at hv
          | value w =>
              obtain rfl := Option.some.inj hv
              have hperform := perform_of_interrupts task may
              rw [reads] at hperform
              rw [truth_of_resolveInput hj source, hperform]
              · rfl
              · exact fun k o v hk ho hv => ih k hk (Or.inl ho) hv

/-- **A run keeps a cache faithful,** whatever can be stored and whenever the run is cancelled,
if what its steps compute is read back as it was stored. -/
theorem Explained.faithful {hj : j.Sound} (h : j.Explained (j.Interrupts steps) c₀ p c)
    (hc : Faithful hj steps c₀) (hp : j.Orderly p)
    (hvalues : ∀ i input v, j.perform steps i input = .value v → v.Proper ∧ v.NumbersReadBack) :
    Faithful hj steps c where
  direct := h.direct
  truth i hi v hv := by
    -- The file of the node is the old one, or what has been kept in place of it.
    have hsame : j.fileIn c i = j.fileIn c₀ i → j.truth hj steps i = .success v := fun hfile =>
      hc.truth i hi v ((Cache.success?_congr h.direct_start h.direct hfile).symm.trans hv)
    have hbefore : ∀ {d r}, j.Kept c₀ d c i r →
        d.success? j.archive (j.graph.name i) = some v → j.truth hj steps i = .success v :=
      fun kept hd => hc.truth i hi v
        ((Cache.success?_congr h.direct_start kept.direct kept.before).symm.trans hd)
    have hafter : ∀ {d r}, j.Kept c₀ d c i r →
        (d.keep j.archive (j.graph.name i) r).success? j.archive (j.graph.name i) = some v :=
      fun kept => (Cache.success?_congr (direct_keep kept.direct _ _) h.direct
        kept.after).symm.trans hv
    have hfailed : ∀ {d f}, j.Kept c₀ d c i (.failure f) → j.truth hj steps i = .success v := by
      intro d f kept
      have hput := hafter kept
      rw [Cache.keep_failure, Cache.success?_put_failed kept.direct] at hput
      split at hput
      · simp at hput
      · exact hbefore kept hput
    by_cases hended : ∃ o, p.Ended i o
    · obtain ⟨o, ho⟩ := hended
      cases h.ended i o ho with
      | blocked _ same | cached _ _ same => exact hsame same
      | refused _ _ _ kept => exact hfailed kept
      | @done input r q d t source stored task reads may kept =>
          cases r with
          | failure f => exact hfailed kept
          | panic text => exact hbefore kept (hafter kept)
          | value w =>
              obtain ⟨hproper, hnumbers⟩ := hvalues i _ w (perform_of_interrupts task may)
              have hput := hafter kept
              rw [Cache.keep_value,
                Cache.success?_put_succeeded kept.direct hproper hnumbers] at hput
              split at hput
              · split at hput
                · obtain rfl := Option.some.inj hput
                  exact h.truth_of_value hc hp ho rfl
                · simp at hput
              · exact hbefore kept hput
    · exact hsame (h.untouched i hi fun o ho => hended ⟨o, ho⟩)

end Job

namespace Service

variable {s : Service} {options : RunOptions} {archive : String} {j : Job}
  {steps : StepFunction} {c c' : Cache}

/-! ## Jobs of a service -/

/-- What a run evaluates: the nodes of the set for the archive. -/
theorem job_eq_ok (h : s.job options archive = .ok j) :
    ∃ selected, s.selection options = .ok selected ∧
      j = ⟨s.set, s.graph, archive, options.force, s.limit options, selected⟩ := by
  rw [job] at h
  cases hselected : s.selection options with
  | error e => simp [hselected, bind, Except.bind] at h
  | ok selected =>
      simp only [hselected, bind, Except.bind, pure, Except.pure, Except.ok.injEq] at h
      exact ⟨selected, rfl, h.symm⟩

theorem eq_of_job (h : s.job options archive = .ok j) :
    j.set = s.set ∧ j.graph = s.graph ∧ j.archive = archive := by
  obtain ⟨selected, -, rfl⟩ := job_eq_ok h
  exact ⟨rfl, rfl, rfl⟩

theorem force_of_job (h : s.job options archive = .ok j) : j.force = options.force := by
  obtain ⟨selected, -, rfl⟩ := job_eq_ok h
  rfl

/-- **The jobs of a service are sound.** -/
theorem sound_job (hs : Graph.ofSet s.set = .ok s.graph) (h : s.job options archive = .ok j) :
    j.Sound := by
  obtain ⟨selected, hselected, rfl⟩ := job_eq_ok h
  have hg := Graph.sound_ofSet hs
  rw [selection] at hselected
  split at hselected
  · obtain rfl := Except.ok.inj hselected
    exact ⟨hs, List.length_replicate, Graph.closed_everything hg⟩
  · next names hnames =>
    cases hselect : s.graph.select names with
    | error name => simp [hselect, Except.mapError] at hselected
    | ok chosen =>
        simp only [hselect, Except.mapError, Except.ok.injEq] at hselected
        obtain ⟨roots, hroots, hclosure⟩ := Graph.select_eq_ok hselect
        obtain ⟨hclosed, hlength⟩ := Graph.closed_closure hg hroots
        rw [← hselected, hclosure]
        exact ⟨hs, hlength, hclosed⟩

/-- The evaluation of all nodes for an archive. -/
def full (s : Service) (archive : String) : Job :=
  ⟨s.set, s.graph, archive, false, s.concurrency, s.graph.everything⟩

theorem sound_full (hs : Graph.ofSet s.set = .ok s.graph) (archive : String) :
    (s.full archive).Sound :=
  have hjob : s.job {} archive = .ok (s.full archive) := rfl
  sound_job hs hjob

/-! ## Sessions -/

/-- What an operation on an archive does to the cache. -/
inductive Operates (s : Service) (steps : StepFunction) (archive : String) : Cache → Cache → Prop
  /-- All nodes or some are evaluated, and the run may be cancelled at any time. -/
  | run {options : RunOptions} {j : Job} {ms : List Move} {cancelled : Bool} {p : Progress}
      {c c' : Cache} (job : s.job options archive = .ok j)
      (leads : j.Leads (j.Interrupts steps) ms (j.start cancelled) c p c')
      (isOver : p.isOver = true) : Operates s steps archive c (close options j p c').2
  | invalidate (node : String) (c : Cache) :
      Operates s steps archive c (s.invalidate archive node c).2
  | clear (c : Cache) : Operates s steps archive c (c.clear archive).2
  /-- The cache is opened anew, or a run is refused. -/
  | reopen (c : Cache) : Operates s steps archive c c

/-- A run without a job does nothing. -/
theorem run_of_refused {σ : Type} {e : ServiceError} (h : s.job options archive = .error e)
    (env : Environment σ) (cancelled : Bool) (c : Cache) (w : σ) :
    (s.run env options archive cancelled c w).1 = (.error e, c) := by
  rw [Service.run, h]
  rfl

/-- A run evaluates its job and stores the conclusions. -/
theorem run_of_job {σ : Type} (h : s.job options archive = .ok j) (env : Environment σ)
    (cancelled : Bool) (c : Cache) (w : σ) :
    (s.run env options archive cancelled c w).1 =
      (close options j (env.execute j cancelled c w).1.1 (env.execute j cancelled c w).1.2).map
        .ok id := by
  rw [Service.run, h]
  rfl

/-- Every run is such an operation, if the steps of the environment compute a function. -/
theorem operates_run {σ : Type} {env : Environment σ} (hs : Graph.ofSet s.set = .ok s.graph)
    (henv : ∀ archive node step input w,
      (env.perform archive node step input w).1 = steps archive node step input)
    (options : RunOptions) (cancelled : Bool) (c : Cache) (w : σ) :
    s.Operates steps archive c (s.run env options archive cancelled c w).1.2 := by
  rw [Service.run]
  cases hj : s.job options archive with
  | error e => exact .reopen c
  | ok j =>
      obtain ⟨ms, p, c', heq, h, hover⟩ := env.leads_execute (sound_job hs hj) cancelled c w
      have hrun : s.Operates steps archive c (close options j p c').2 := by
        refine .run hj (h.mono fun q d m hm => ?_) hover
        cases m with
        | launch | begin | settle | cancel => trivial
        | finish i r =>
            obtain ⟨t, n, w', htask, hn, rfl⟩ := hm
            refine ⟨t, htask, Or.inl ?_⟩
            rw [henv, Job.perform, hn]
      have hclose : (close options j p c').2 = (close options j (env.execute j cancelled c w).1.1
          (env.execute j cancelled c w).1.2).2 := by rw [heq]
      rw [hclose] at hrun
      exact hrun

/-- Files that are taken away leave no values. -/
theorem faithful_of_fileOf {hj : j.Sound} (hc : j.Faithful hj steps c)
    (harchive : j.archive = archive) (hdirect : c'.Direct archive)
    (h : ∀ node, c'.fileOf archive node = none ∨
      c'.fileOf archive node = c.fileOf archive node) : j.Faithful hj steps c' := by
  subst harchive
  refine hc.of_success? hdirect fun i _ v hv => ?_
  rcases h (j.graph.name i) with hnone | hsame
  · rw [Cache.success?_eq hdirect, hnone] at hv
    simp at hv
  · rw [← hv, Cache.success?_congr hc.direct hdirect hsame]

/-- **Every operation keeps a cache faithful.** -/
theorem Operates.faithful (hs : Graph.ofSet s.set = .ok s.graph)
    (hsteps : ∀ node step input v, steps archive node step input = .value v →
      v.Proper ∧ v.NumbersReadBack)
    (h : s.Operates steps archive c c') (hc : Job.Faithful (sound_full hs archive) steps c) :
    Job.Faithful (sound_full hs archive) steps c' := by
  cases h with
  | @run options j ms cancelled p c c' hjob hleads hover =>
      have hj := sound_job hs hjob
      obtain ⟨hset, hgraph, rfl⟩ := eq_of_job hjob
      have hvalues : ∀ i input v, j.perform steps i input = .value v →
          v.Proper ∧ v.NumbersReadBack := by
        intro i input v hv
        rw [Job.perform] at hv
        split at hv
        · exact hsteps _ _ _ v hv
        · simp at hv
      have hstart := hc.congr hj hset hgraph rfl
      have hend := (hleads.explained hj hstart.direct).faithful hstart (hleads.orderly hj) hvalues
      refine faithful_of_fileOf (hend.congr (sound_full hs j.archive) hset.symm hgraph.symm rfl)
        rfl (Job.direct_close hend.direct _ _) fun node => Or.inr ?_
      exact Job.fileOf_close _ _ _ _ _
  | invalidate node c =>
      have hdirect : c.Direct archive := hc.direct
      rw [Service.invalidate]
      split
      · rw [Prod.map_snd, id]
        refine faithful_of_fileOf hc rfl (Cache.direct_invalidate hdirect node) fun other => ?_
        have hfile := Cache.fileOf_invalidate hdirect node archive other
        split at hfile
        · exact Or.inl hfile
        · exact Or.inr hfile
      · exact hc
  | clear c =>
      have hdirect : c.Direct archive := hc.direct
      refine faithful_of_fileOf hc rfl (Cache.direct_clear hdirect) fun other => ?_
      have hfile := Cache.fileOf_clear hdirect archive other
      split at hfile
      · exact Or.inl hfile
      · exact Or.inr hfile
  | reopen c => exact hc

/-- **A cache is faithful after every session** that began with a fresh one. -/
theorem faithful_of_session {location : String} (hs : Graph.ofSet s.set = .ok s.graph)
    (hsteps : ∀ node step input v, steps archive node step input = .value v →
      v.Proper ∧ v.NumbersReadBack)
    (h : Relation.ReflTransGen (s.Operates steps archive) (Cache.fresh location) c) :
    Job.Faithful (sound_full hs archive) steps c := by
  induction h with
  | refl => exact Job.faithful_fresh _ location
  | tail _ hstep ih => exact hstep.faithful hs hsteps ih

/-! ## Full runs -/

/-- A full run on a faithful cache reports what every node ends as on a fresh one. -/
theorem report_of_faithful (hs : Graph.ofSet s.set = .ok s.graph)
    (hc : Job.Faithful (sound_full hs archive) steps c) (hfull : options.nodes = none)
    (hjob : s.job options archive = .ok j) {p : Progress}
    (h : j.Finishes (j.Obeys steps) c p c') :
    (j.report p).again = (s.full archive).reportOf fun i =>
      (Job.truth (sound_full hs archive) steps i).again := by
  have hj := sound_job hs hjob
  obtain ⟨hset, hgraph, harchive⟩ := eq_of_job hjob
  have hstart := hc.congr hj hset hgraph harchive
  have hreport : j.reportOf = (s.full archive).reportOf := by
    obtain ⟨selected, hselected, rfl⟩ := job_eq_ok hjob
    rw [selection, hfull, Except.ok.injEq] at hselected
    rw [← hselected]
    rfl
  rw [Job.report_eq_reportOf (h.outcome?_eq hj hstart.direct), Job.again_reportOf, ← hreport]
  refine Job.reportOf_congr fun i hi => ?_
  rw [hstart.fate_again (hj.lt_of_isSelected hi),
    Job.truth_congr (sound_full hs archive) hj hset hgraph harchive]

/-- **Caching is transparent.** After every session with an archive that began with a fresh
cache, a run of all nodes that is not cancelled reports what such a run reports on a fresh
cache, but that values may come from the cache; the conclusions and their counts are the same.
Such runs exist, and each of the two may be forced. The steps compute a function whose values
are read back as they were stored; in the session, steps may be cancelled and writes may fail.
The last part is about runs of a service with an environment. -/
theorem caching_is_transparent {location : String} (location' : String)
    (hs : Graph.ofSet s.set = .ok s.graph)
    (hsteps : ∀ node step input v, steps archive node step input = .value v →
      v.Proper ∧ v.NumbersReadBack)
    (hsession : Relation.ReflTransGen (s.Operates steps archive) (Cache.fresh location) c)
    (options options' : RunOptions) (hfull : options.nodes = none)
    (hfull' : options'.nodes = none) :
    (∃ j j', s.job options archive = .ok j ∧ s.job options' archive = .ok j' ∧
      (∃ p c₁, j.Finishes (j.Obeys steps) c p c₁) ∧
      (∃ p c₁, j'.Finishes (j'.Obeys steps) (Cache.fresh location') p c₁) ∧
      ∀ p c₁ p' c₁', j.Finishes (j.Obeys steps) c p c₁ →
        j'.Finishes (j'.Obeys steps) (Cache.fresh location') p' c₁' →
        (j.report p).Agrees (j'.report p')) ∧
    ∀ (σ : Type) (env : Environment σ) (w w' : σ), env.Computes steps →
      ∃ r r', (s.run env options archive false c w).1.1 = .ok r ∧
        (s.run env options' archive false (Cache.fresh location') w').1.1 = .ok r' ∧
        r.report.Agrees r'.report := by
  have hjob : ∀ {options : RunOptions}, options.nodes = none →
      ∃ j, s.job options archive = .ok j := by
    intro options hnodes
    rw [job, selection, hnodes]
    exact ⟨_, rfl⟩
  obtain ⟨j, hj⟩ := hjob hfull
  obtain ⟨j', hj'⟩ := hjob hfull'
  have hsound := sound_job hs hj
  have hsound' := sound_job hs hj'
  have hall : ∀ p c₁ p' c₁', j.Finishes (j.Obeys steps) c p c₁ →
      j'.Finishes (j'.Obeys steps) (Cache.fresh location') p' c₁' →
      (j.report p).Agrees (j'.report p') := by
    intro p c₁ p' c₁' h h'
    refine Report.agrees_of_again_eq ?_
    rw [report_of_faithful hs (faithful_of_session hs hsteps hsession) hfull hj h,
      report_of_faithful hs (Job.faithful_fresh _ location') hfull' hj' h']
  refine ⟨⟨j, j', hj, hj', Job.exists_finishes hsound steps c,
    Job.exists_finishes hsound' steps _, hall⟩, ?_⟩
  intro σ env w w' henv
  have hrun : ∀ {options j} c w, s.job options archive = .ok j →
      ∃ r, (s.run env options archive false c w).1.1 = .ok r ∧
        r.report = j.report (env.execute j false c w).1.1 := by
    intro options j c w hj
    rw [Service.run, hj]
    exact ⟨_, rfl, rfl⟩
  obtain ⟨r, hr, hreport⟩ := hrun c w hj
  obtain ⟨r', hr', hreport'⟩ := hrun (Cache.fresh location') w' hj'
  refine ⟨r, r', hr, hr', ?_⟩
  rw [hreport, hreport']
  exact hall _ _ _ _ (Job.finishes_execute henv hsound c w) (Job.finishes_execute henv hsound' _ w')

/-- A service of a command whose lines another node splits. -/
def logLines : Service := { set := .logLines, graph := .logLines }

/-- After a run and the loss of an artifact a forced run reports what a run on a fresh cache
does. -/
theorem logLines_caching_is_transparent :
    Graph.ofSet logLines.set = .ok logLines.graph ∧
    (∀ node step input v, Job.oddLog "sos" node step input = .value v →
      v.Proper ∧ v.NumbersReadBack) ∧
    ∃ c j j', Relation.ReflTransGen (logLines.Operates Job.oddLog "sos") (Cache.fresh "cache") c ∧
      logLines.job { force := true } "sos" = .ok j ∧ logLines.job {} "sos" = .ok j' ∧
      ∃ p c₁ p' c₁', j.Finishes (j.Obeys Job.oddLog) c p c₁ ∧
        j'.Finishes (j'.Obeys Job.oddLog) (Cache.fresh "new") p' c₁' ∧
        (j.report p).Agrees (j'.report p') := by
  have hs : Graph.ofSet logLines.set = .ok logLines.graph := rfl
  have hsteps : ∀ node step input v, Job.oddLog "sos" node step input = .value v →
      v.Proper ∧ v.NumbersReadBack := by
    intro node step input v hv
    rw [Job.oddLog] at hv
    split at hv
    · obtain rfl := StepResult.value.inj hv
      exact ⟨trivial, by simp [ArtifactValue.NumbersReadBack, ArtifactValue.json?]⟩
    · simp at hv
  obtain ⟨p, c, h⟩ := Job.exists_finishes (j := logLines.full "sos") (sound_full hs "sos")
    Job.oddLog (Cache.fresh "cache")
  obtain ⟨ms, hleads⟩ := h.leads
  have hrun : logLines.Operates Job.oddLog "sos" (Cache.fresh "cache")
      (close {} (logLines.full "sos") p c).2 := by
    refine .run (j := logLines.full "sos") rfl (hleads.mono fun q d m hm => ?_) h.isOver
    cases m with
    | launch | begin | settle | cancel => trivial
    | finish i r =>
        obtain ⟨t, htask, hr⟩ := hm
        exact ⟨t, htask, Or.inl hr⟩
  have hsession := Relation.ReflTransGen.tail (.single hrun)
    (Operates.invalidate "log" (close {} (logLines.full "sos") p c).2)
  obtain ⟨⟨j, j', hj, hj', ⟨p₁, c₁, h₁⟩, ⟨p₂, c₂, h₂⟩, hall⟩, -⟩ :=
    caching_is_transparent "new" hs hsteps hsession { force := true } {} rfl rfl
  exact ⟨hs, hsteps, _, j, j', hsession, hj, hj', p₁, c₁, p₂, c₂, h₁, h₂, hall _ _ _ _ h₁ h₂⟩

end Service

end Distill

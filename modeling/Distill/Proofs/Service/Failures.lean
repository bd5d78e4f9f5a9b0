import Distill.Proofs.Execution.Effects
import Distill.Proofs.Service.Sessions

/-!
# What failures leave behind

A node that fails leaves a marker in the cache, so that a later run tries it again. There is
one exception: a step that ends without any result leaves the file of its node as it was. In a
run that is forced this file may hold the value of an earlier run, and the next run takes it.

## Main definitions

* `Job.StoresFailures` — moves whose failures can be stored.

## Main statements

* `Job.Leads.fileIn_of_failed` — the marker of a node that has failed.
* `Service.takes_failed_only_if_aborted` — which failed nodes the next run takes from the cache.
-/

namespace Distill

namespace Job

variable {j : Job} {p p' : Progress} {c₀ c c' : Cache} {m : Move} {ms : List Move} {i : Nat}
  {o : NodeOutcome} {f : Failure} {v : ArtifactValue}
  {allows : Progress → Cache → Move → Prop} {cancelled : Bool}

/-! ## Markers -/

/-- The failures of nodes are stored. -/
def StoresFailures (j : Job) (p : Progress) (c : Cache) : Move → Prop
  | .begin i => p.cancelled = true → j.stored? c i = none →
      (c.put j.archive (.failed (j.graph.name i) .runCancelled)).1 = .ok ()
  | .finish i (.failure f) => (c.put j.archive (.failed (j.graph.name i) f)).1 = .ok ()
  | _ => True

/-- **A node that has failed leaves a marker,** unless its step ended without any result. -/
theorem Leads.fileIn_of_failed (hj : j.Sound)
    (h : j.Leads j.StoresFailures ms (j.start cancelled) c₀ p c) (hi : p.Ended i (.failed f))
    (hpanic : ¬ Panics ms i) :
    j.fileIn c i = (Cache.encode (.failed (j.graph.name i) f)).toOption := by
  obtain ⟨data, hdata, hfile⟩ :=
    h.fileIn_of_failure hj (fun _ _ hstores => hstores) (fun _ _ _ hstores => hstores) hi hpanic
  rw [hfile, hdata]
  rfl

/-- **A value can be read for a node that has failed only if the run was forced and the step
ended without any result;** it is the one that could be read before. -/
theorem Leads.success?_of_failed (hj : j.Sound) (hc : c₀.Direct j.archive)
    (h : j.Leads j.StoresFailures ms (j.start cancelled) c₀ p c) (hi : p.Ended i (.failed f)) :
    c.success? j.archive (j.graph.name i) = some v ↔
      j.force = true ∧ Panics ms i ∧
        c₀.success? j.archive (j.graph.name i) = some v := by
  have hexplained := h.explained hj hc
  by_cases hpanic : Panics ms i
  · by_cases hforce : j.force = true
    · have hsame := Cache.success?_congr hc hexplained.direct (h.fileIn_of_panic hj hpanic)
      simp [hforce, hpanic, hsame]
    · have hstored := hexplained.stored?_of_failed hi
      rw [stored?_eq, if_neg hforce] at hstored
      simp [hforce, hstored]
  · have hfile : c.fileOf j.archive (j.graph.name i) = _ := h.fileIn_of_failed hj hi hpanic
    have hmarker : (Cache.encode (.failed (j.graph.name i) f)).toOption =
        some (Cache.withMarker (.failed (j.graph.name i) f) []) := rfl
    rw [Cache.success?_eq hexplained.direct, hfile, hmarker, Option.bind_some,
      Cache.valueIn_failed, ite_self]
    simp [hpanic]

/-- A node takes a value from the cache exactly when it is reached and the value was there. -/
theorem Explained.cached_iff (h : j.Explained allows c₀ p c) :
    p.outcome? i = some (.cached v) ↔
      (∃ o, p.outcome? i = some o ∧ ∀ blocker, o ≠ .blocked blocker) ∧
        j.stored? c₀ i = some v := by
  constructor
  · intro ho
    refine ⟨⟨_, ho, by simp⟩, ?_⟩
    generalize ho' : NodeOutcome.cached v = o at ho
    cases h.ended i o (Or.inl ho) with
    | blocked | refused => simp at ho'
    | cached source stored same => rw [stored, NodeOutcome.cached.inj ho']
    | @done input r q d t => cases r <;> simp [StepResult.outcome] at ho'
  · rintro ⟨⟨o, ho, hreached⟩, hv⟩
    rw [ho]
    cases h.ended i o (Or.inl ho) with
    | blocked => exact absurd rfl (hreached _)
    | cached source stored same => rw [Option.some.inj (stored.symm.trans hv)]
    | done source stored | refused source stored => simp [hv] at stored

end Job

namespace Service

variable {s : Service} {options options' : RunOptions} {archive : String} {j j' : Job}
  {p p' : Progress} {c₀ c c' : Cache} {ms ms' : List Move} {cancelled cancelled' : Bool} {i : Nat}
  {f : Failure}

/-- **A node that has failed is taken from the cache in the next run only if its step ended
without any result in a forced run.** The first run may be forced or not, of all nodes or
some, its steps may give any results and it may be cancelled at any time, but its failures are
stored; the second is not forced. A node that failed in the first has left a marker, unless its
step ended without any result: then its file is the one from before the run. So the second run
takes a value for the node exactly when the node is reached, the first run was forced, the step
gave no result and the value could be read before. -/
theorem takes_failed_only_if_aborted (hs : Graph.ofSet s.set = .ok s.graph)
    (hjob : s.job options archive = .ok j) (hjob' : s.job options' archive = .ok j')
    (hforce' : options'.force = false) (hc : c₀.Regular archive)
    (h : j.Leads j.StoresFailures ms (j.start cancelled) c₀ p c)
    (h' : j'.Leads (fun _ _ _ => True) ms' (j'.start cancelled') (close options j p c).2 p' c')
    (hi : p.outcome? i = some (.failed f)) :
    (¬ Panics ms i → (close options j p c).2.get archive (s.graph.name i) =
      .ok (some (.failed (s.graph.name i) f))) ∧
    (Panics ms i → (close options j p c).2.fileOf archive (s.graph.name i) =
      c₀.fileOf archive (s.graph.name i)) ∧
    ∀ v, p'.outcome? i = some (.cached v) ↔
      (∃ o, p'.outcome? i = some o ∧ ∀ blocker, o ≠ .blocked blocker) ∧ options.force = true ∧
        Panics ms i ∧ c₀.success? archive (s.graph.name i) = some v := by
  have hj := sound_job hs hjob
  have hj' := sound_job hs hjob'
  obtain ⟨-, hgraph, rfl⟩ := eq_of_job hjob
  obtain ⟨-, hgraph', harchive'⟩ := eq_of_job hjob'
  rw [← force_of_job hjob, ← hgraph]
  have hregular : c.Regular j.archive :=
    h.induction (I := fun _ d => d.Regular j.archive) (fun hd _ hm => Job.regular_makes hd hm) hc
  have hdirect := Job.direct_close (j := j) hregular.direct options p
  have hsame := Job.fileOf_close (j := j) options p c j.archive (j.graph.name i)
  refine ⟨fun hpanic => ?_, fun hpanic => ?_, fun v => ?_⟩
  · have hfile := h.fileIn_of_failed hj (Or.inl hi) hpanic
    exact Cache.get_eq_some hdirect (hregular.fits_of_fileOf hfile) (hsame.trans hfile)
      Cache.decode_failed rfl
  · exact hsame.trans (h.fileIn_of_panic hj hpanic)
  · have hstored : j'.stored? (close options j p c).2 i =
        c.success? j.archive (j.graph.name i) := by
      rw [Job.stored?_eq, force_of_job hjob', hforce', harchive', hgraph', ← hgraph]
      exact Cache.success?_congr hregular.direct hdirect hsame
    rw [(h'.explained hj' (harchive' ▸ hdirect)).cached_iff, hstored,
      h.success?_of_failed hj hc.direct (Or.inl hi)]

/-- A cache with the log of an earlier run. -/
def keptLog : Cache :=
  ((Cache.fresh "cache").put "sos" (.succeeded "log" (.bytes [255]))).2

theorem regular_keptLog : keptLog.Regular "sos" := (Cache.regular_fresh "cache" "sos").put _ _

theorem success?_keptLog : keptLog.success? "sos" "log" = some (.bytes [255]) :=
  (Cache.regular_fresh "cache" "sos").success?_put trivial
    (by simp [ArtifactValue.NumbersReadBack, ArtifactValue.json?]) (by decide) rfl

/-- The command gives no value in a forced run, and the other node is blocked. -/
theorem leads_keptLog {r : StepResult} 
    (hr : r = .panic "boom" ∨ r = .failure ⟨.exec, "no log"⟩) :
    ∃ p c, Job.freshLogLines.Leads Job.freshLogLines.StoresFailures
        [.launch, .begin 0, .finish 0 r, .settle 0, .launch] (Job.freshLogLines.start false)
        keptLog p c ∧ p.isOver = true ∧ p.outcome? 0 = some r.outcome := by
  have hstores : ∀ q, Job.freshLogLines.StoresFailures q keptLog (.finish 0 r) := by
    intro q
    rcases hr with rfl | rfl
    · trivial
    · exact rfl
  rcases hr with rfl | rfl
  all_goals
    have hleads : Job.freshLogLines.Leads Job.freshLogLines.StoresFailures _
        (Job.freshLogLines.start false) keptLog _ _ :=
      .cons (m := .launch) trivial (Job.Makes.launch (i := 0) rfl (by decide) rfl).move?_eq <|
      .cons (m := .begin 0) (fun h => absurd h (by decide))
        (Job.Makes.start rfl rfl rfl).move?_eq <|
      .cons (hstores _) (Job.Makes.finish rfl).move?_eq <|
      .cons (m := .settle 0) trivial (Job.Makes.settle rfl rfl).move?_eq <|
      .cons (m := .launch) trivial (Job.Makes.block (i := 1) rfl (by decide) rfl).move?_eq <|
      .nil _ _
    exact ⟨_, _, hleads, rfl, rfl⟩

/-- The command fails in a forced run: its marker takes the place of the log of an earlier run,
and in the next run it is tried again. -/
theorem logLines_takes_failed_only_if_aborted :
    Graph.ofSet logLines.set = .ok logLines.graph ∧ keptLog.Regular "sos" ∧
    logLines.job { force := true, concurrency := some 2 } "sos" = .ok Job.freshLogLines ∧
    logLines.job { concurrency := some 2 } "sos" = .ok Job.logLines ∧
    ∃ ms p c p' c', Job.freshLogLines.Leads Job.freshLogLines.StoresFailures ms
        (Job.freshLogLines.start false) keptLog p c ∧ p.isOver = true ∧
      p.outcome? 0 = some (.failed ⟨.exec, "no log"⟩) ∧
      Job.logLines.Finishes (Job.logLines.Obeys Job.oddLog)
        (close { force := true, concurrency := some 2 } Job.freshLogLines p c).2 p' c' ∧
      p'.outcome? 0 ≠ some (.cached (.bytes [255])) := by
  obtain ⟨p, c, hleads, hover, hfailed⟩ := leads_keptLog (Or.inr rfl)
  obtain ⟨p', c', h⟩ := Job.exists_finishes Job.sound_logLines Job.oddLog
    (close { force := true, concurrency := some 2 } Job.freshLogLines p c).2
  obtain ⟨ms', hleads'⟩ := h.leads
  have hall : Job.logLines.Leads (fun _ _ _ => True) ms' (Job.logLines.start false) _ p' c' :=
    hleads'.mono fun _ _ _ _ => trivial
  have hforced : logLines.job { force := true, concurrency := some 2 } "sos" =
      .ok Job.freshLogLines := rfl
  have hnext : logLines.job { concurrency := some 2 } "sos" = .ok Job.logLines := rfl
  refine ⟨rfl, regular_keptLog, hforced, hnext, _, p, c, p', c', hleads, hover, hfailed, h, ?_⟩
  intro hcached
  obtain ⟨-, -, hpanic, -⟩ := ((takes_failed_only_if_aborted rfl hforced hnext rfl regular_keptLog
    hleads hall hfailed).2.2 _).mp hcached
  simp [Panics] at hpanic

/-- The command panics in a forced run: the log of an earlier run stays where it is, and in the
next run it is taken for the value of the node that has failed. -/
theorem logLines_takes_aborted :
    ∃ ms p c p' c', Job.freshLogLines.Leads Job.freshLogLines.StoresFailures ms
        (Job.freshLogLines.start false) keptLog p c ∧ p.isOver = true ∧
      p.outcome? 0 = some (.failed (.aborted "boom")) ∧
      Job.logLines.Finishes (Job.logLines.Obeys Job.oddLog)
        (close { force := true, concurrency := some 2 } Job.freshLogLines p c).2 p' c' ∧
      p'.outcome? 0 = some (.cached (.bytes [255])) := by
  obtain ⟨p, c, hleads, hover, hfailed⟩ := leads_keptLog (Or.inl rfl)
  have hdirect := (hleads.explained Job.sound_freshLogLines regular_keptLog.direct).direct
  have hclosed := Job.direct_close (j := Job.freshLogLines) hdirect
    { force := true, concurrency := some 2 } p
  obtain ⟨p', c', h⟩ := Job.exists_finishes Job.sound_logLines Job.oddLog
    (close { force := true, concurrency := some 2 } Job.freshLogLines p c).2
  refine ⟨_, p, c, p', c', hleads, hover, hfailed, h, ?_⟩
  have hstored : c.success? "sos" "log" = some (.bytes [255]) :=
    (hleads.success?_of_failed Job.sound_freshLogLines regular_keptLog.direct
      (Or.inl hfailed)).mpr ⟨rfl, ⟨"boom", by simp⟩, success?_keptLog⟩
  have htaken : Job.logLines.stored?
      (close { force := true, concurrency := some 2 } Job.freshLogLines p c).2 0 =
        some (.bytes [255]) :=
    (Cache.success?_congr hdirect hclosed (Job.fileOf_close _ _ _ _ _)).trans hstored
  have hselected : Job.logLines.isSelected 0 = true := rfl
  have hroot : Job.logLines.graph.source 0 = none := rfl
  rw [h.outcome?_eq Job.sound_logLines hclosed, if_pos hselected, Job.fate_of_root _ hroot,
    Job.attempt, htaken]

end Service

end Distill

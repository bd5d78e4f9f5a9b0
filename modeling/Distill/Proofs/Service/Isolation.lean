import Distill.Proofs.Service.BatchEnd

/-!
# Isolation of archives

When the steps compute a function, the run on an archive alone is determined: its report, and what
it leaves in the cache for the archive. In a batch every archive gets this report and this part of
the cache, in whatever order the archives and their tasks take turns, and however many of them are
active.

## Main definitions

* `Service.Answers` — an entry of the answers of a batch is right.
* `Service.NamesFit` — the names of archives and nodes are not too long for files.

## Main statements

* `Service.RunsAlone.agrees` — runs alone agree.
* `Service.LeadsBatch.undisturbed` — batches that can store everything.
* `Service.archives_are_isolated` — every archive of a batch gets what it gets alone.
-/

namespace Distill.Service

open FileTree (IsShort)

variable {s : Service} {options : RunOptions} {R : RunRules} {archives : List String}
  {archive : String} {b b' : Batch} {c₀ c c' c₁ c₂ : Cache} {m : BatchMove} {ms : List BatchMove}
  {r r₁ r₂ : Except ServiceError Run} {steps : StepFunction}

/-! ## Runs alone -/

/-- Every run on an archive is a run alone. -/
theorem runsAlone_run {σ : Type} {env : Environment σ} (henv : env.Computes steps)
    (hs : Graph.ofSet s.set = .ok s.graph) (options : RunOptions) (archive : String) (c₀ : Cache)
    (w : σ) : s.RunsAlone options (.computed steps) archive c₀
      (s.run env options archive false c₀ w).1.1 (s.run env options archive false c₀ w).1.2 := by
  rw [Service.run]
  cases hjob : s.job options archive with
  | error e => exact .refused hjob
  | ok j =>
      obtain ⟨ms, hleads, hover⟩ :=
        Job.leads_execute_of_computes henv (sound_job hs hjob) c₀ w
      exact .evaluated hjob hleads hover trivial

/-- What is stored or not makes no difference to what may be done. -/
theorem RunsAlone.computed (h : s.RunsAlone options (.undisturbed steps options) archive c₀ r c) :
    s.RunsAlone options (.computed steps) archive c₀ r c := by
  cases h with
  | refused job => exact .refused job
  | evaluated job leads isOver =>
      exact .evaluated job (leads.mono fun _ _ _ => And.left) isOver trivial

/-- The report of a run alone is the one that is expected. -/
theorem RunsAlone.report_eq (hs : Graph.ofSet s.set = .ok s.graph) (hc : c₀.Direct archive)
    {j : Job} (hjob : s.job options archive = .ok j)
    (h : s.RunsAlone options (.computed steps) archive c₀ r c) :
    r.map Run.report = .ok (j.expected (sound_job hs hjob) steps c₀) := by
  cases h with
  | refused job => simp [hjob] at job
  | @evaluated j' ms p c job leads isOver =>
      obtain rfl := Except.ok.inj (hjob.symm.trans job)
      obtain ⟨-, -, rfl⟩ := eq_of_job job
      have h : j.Finishes (j.Obeys steps) c₀ p c := ⟨fun _ _ => id, ⟨ms, leads⟩, isOver⟩
      exact congrArg Except.ok (Job.report_eq_reportOf (h.outcome?_eq (sound_job hs job) hc))

/-- **Runs alone agree:** their reports are the same, and they leave the same for the archive. -/
theorem RunsAlone.agrees (hs : Graph.ofSet s.set = .ok s.graph) (hc : c₀.Direct archive)
    (h₁ : s.RunsAlone options (.undisturbed steps options) archive c₀ r₁ c₁)
    (h₂ : s.RunsAlone options (.undisturbed steps options) archive c₀ r₂ c₂) :
    r₁.map Run.report = r₂.map Run.report ∧ c₁.AgreeOn archive c₂ := by
  have hreports : ∀ {j}, s.job options archive = .ok j → r₁.map Run.report = r₂.map Run.report :=
    fun hjob => (h₁.computed.report_eq hs hc hjob).trans (h₂.computed.report_eq hs hc hjob).symm
  cases h₁ with
  | refused job =>
      cases h₂ with
      | refused job' =>
          obtain rfl := Except.error.inj (job.symm.trans job')
          exact ⟨rfl, Cache.AgreeOn.refl _ _⟩
      | evaluated job' => simp [job] at job'
  | @evaluated j ms p c₁ job leads isOver =>
      cases h₂ with
      | refused job' => simp [job] at job'
      | @evaluated j' ms' p' c₂ job' leads' isOver' =>
          obtain rfl := Except.ok.inj (job.symm.trans job')
          obtain ⟨-, -, rfl⟩ := eq_of_job job
          have h : j.Finishes (j.Undisturbed steps) c₀ p c₁ :=
            ⟨fun _ _ => And.left, ⟨ms, leads⟩, isOver⟩
          have h' : j.Finishes (j.Undisturbed steps) c₀ p' c₂ :=
            ⟨fun _ _ => And.left, ⟨ms', leads'⟩, isOver'⟩
          have hreport : j.report p = j.report p' := Except.ok.inj (hreports job)
          exact ⟨hreports job, Job.close_of_agreeOn (h.agreeOn (sound_job hs job) hc h') hreport _⟩

/-! ## Caches that can store everything -/

/-- The names of the archives and of the nodes are not too long for files. -/
structure NamesFit (s : Service) (archives : List String) : Prop where
  archive : ∀ archive ∈ archives, IsShort (Cache.encodeName archive)
  node : ∀ i < s.graph.size, IsShort (Cache.artifactName (s.graph.name i))

theorem NamesFit.fits (h : s.NamesFit archives) {j : Job} (hj : j.Sound)
    (hjob : s.job options j.archive = .ok j) (harchive : j.archive ∈ archives) (i : Nat)
    (hi : j.isSelected i = true) : Cache.Fits j.archive (j.graph.name i) := by
  have hlt := hj.lt_of_isSelected hi
  have hgraph := (eq_of_job hjob).2.1
  rw [hgraph] at hlt ⊢
  exact ⟨h.archive _ harchive, h.node i hlt⟩

theorem tidy_close (hc : c.Tidy) (options : RunOptions) (j : Job) (p : Progress) :
    (close options j p c).2.Tidy := by
  rw [close]
  split
  · exact hc
  · exact hc.putConclusions _ _

/-- In a tidy cache what a move of a batch stores can be stored. -/
theorem MakesBatch.undisturbed (hs : Graph.ofSet s.set = .ok s.graph) (hfit : s.NamesFit archives)
    (hb : s.Underway options (.computed steps) archives c₀ b c) (hc : c.Tidy)
    (hmay : (RunRules.computed steps).Allow b c m) (hm : s.MakesBatch options b c m b' c') :
    (RunRules.undisturbed steps options).Allow b c m ∧ c'.Tidy := by
  have hone : ∀ {place r r'}, b.run? place = some r → b.run? place = some r' → r' = r :=
    fun hr hr' => Option.some.inj (hr'.symm.trans hr)
  cases hm with
  | refuse | enter => exact ⟨trivial, hc⟩
  | @within place m r p c' run makes =>
      obtain ⟨j, ms, q, d, rfl, harchive, -, -, hjob, hj, hleads, -⟩ := hb.of_run? hs run
      obtain ⟨hstores, htidy⟩ := makes.storesAll_of_tidy (hleads.orderly hj) hc
        (hfit.fits hj hjob (List.mem_of_getElem? harchive))
      refine ⟨fun r' hr' => ?_, htidy⟩
      obtain rfl := hone run hr'
      exact ⟨hmay _ run, hstores⟩
  | @close place r run isOver =>
      obtain ⟨j, ms, q, d, rfl, harchive, -, -, -, -, -, -⟩ := hb.of_run? hs run
      refine ⟨fun r' hr' _ => ?_, tidy_close hc options j q⟩
      obtain rfl := hone run hr'
      rw [hc.putConclusions_fst, if_pos (hfit.archive _ (List.mem_of_getElem? harchive))]

/-- **A batch on a tidy cache can store everything,** if no name is too long. -/
theorem LeadsBatch.undisturbed (hs : Graph.ofSet s.set = .ok s.graph) (hnodup : archives.Nodup)
    (hdirect : ∀ archive ∈ archives, c₀.Direct archive) (hfit : s.NamesFit archives)
    (hb : s.Underway options (.computed steps) archives c₀ b c) (hc : c.Tidy)
    (h : s.LeadsBatch options (.computed steps) ms b c b' c') :
    s.LeadsBatch options (.undisturbed steps options) ms b c b' c' := by
  induction h with
  | nil b c => exact .nil b c
  | cons may makes rest ih =>
      have hm := makesBatch_of_moveBatch? makes
      obtain ⟨hmay, htidy⟩ := hm.undisturbed hs hfit hb hc may
      exact .cons hmay makes
        (ih (hb.makes hs hnodup hdirect (RunRules.local_computed steps) may hm) htidy)

/-- A run alone on a tidy cache can store everything. -/
theorem RunsAlone.undisturbed (hs : Graph.ofSet s.set = .ok s.graph) (hfit : s.NamesFit archives)
    (harchive : archive ∈ archives) (hc : c₀.Tidy)
    (h : s.RunsAlone options (.computed steps) archive c₀ r c) :
    s.RunsAlone options (.undisturbed steps options) archive c₀ r c := by
  cases h with
  | refused job => exact .refused job
  | @evaluated j ms p c job leads isOver may =>
      obtain ⟨-, -, rfl⟩ := eq_of_job job
      have hj := sound_job hs job
      obtain ⟨hleads, htidy⟩ := leads.storesAll_of_tidy hj (Job.orderly_start hj false) hc
        (hfit.fits hj job harchive)
      refine .evaluated job hleads isOver fun _ => ?_
      rw [htidy.putConclusions_fst, if_pos (hfit.archive _ harchive)]

/-! ## Answers -/

/-- An entry of the answers of a batch is right for an archive: it is what a run alone gives from
the cache `c₀`, and every run alone gives the same report and leaves for the archive what the
cache `c` holds. -/
structure Answers (s : Service) (options : RunOptions) (R : RunRules) (c₀ c : Cache)
    (archive : String) (entry : String × Except ServiceError Run) : Prop where
  name : entry.1 = archive
  alone : ∃ d, s.RunsAlone options R archive c₀ entry.2 d ∧ d.AgreeOn archive c
  same : ∀ r d, s.RunsAlone options R archive c₀ r d →
    entry.2.map Run.report = r.map Run.report ∧ d.AgreeOn archive c

/-- The answers at the end of a batch that could store everything. -/
theorem LeadsBatch.answers (hs : Graph.ofSet s.set = .ok s.graph) (hnodup : archives.Nodup)
    (hdirect : ∀ archive ∈ archives, c₀.Direct archive)
    (h : s.LeadsBatch options (.undisturbed steps options) ms (.start archives) c₀ b c)
    (hover : b.IsOver) :
    List.Forall₂ (s.Answers options (.undisturbed steps options) c₀ c) archives
      (b.answers archives) := by
  have hb := h.underway hs hnodup hdirect (RunRules.local_undisturbed steps options)
    (underway_start archives c₀)
  have hentries := (List.forall₂_and_left _ _).mpr ⟨hdirect, hb.answers hover⟩
  refine hentries.imp ?_
  rintro archive entry ⟨hc, hname, d, halone, hsame⟩
  refine ⟨hname, ⟨d, halone, hsame⟩, fun r d' h' => ?_⟩
  obtain ⟨hreport, hagree⟩ := halone.agrees hs hc h'
  exact ⟨hreport, hagree.symm.trans hsame⟩

/-- **Archives are isolated.** The archives are distinct, no link is on the way to their artifacts,
and the steps compute a function; all else is arbitrary. In every state of a batch, whatever has
taken its turn, no more runs are active than the options say, and at least one may be; no batch
goes on for ever, and it can be brought to its end from every state. If everything can be stored,
there is at the end an answer for every archive, in their order: the report is that of every run
on the archive alone from the same cache, and what is in the cache for the archive is what such a
run leaves. Nothing has changed for other archives. The third part says that what an environment
evaluates is such a batch, or such a run; the last one says when everything can be stored, and
compares the batches of an environment with the runs of another one. -/
theorem archives_are_isolated (hs : Graph.ofSet s.set = .ok s.graph) (options : RunOptions)
    (steps : StepFunction) (hnodup : archives.Nodup)
    (hdirect : ∀ archive ∈ archives, c₀.Direct archive) :
    (∀ ms b c, s.LeadsBatch options (.computed steps) ms (.start archives) c₀ b c →
      b.active.length ≤ max (s.limit options) 1 ∧
      ms.length ≤ archives.length * (4 * s.graph.size + 2) ∧
      ∃ ms' b' c', s.LeadsBatch options (.computed steps) ms' b c b' c' ∧ b'.IsOver) ∧
    (∀ ms b c, s.LeadsBatch options (.undisturbed steps options) ms (.start archives) c₀ b c →
      b.IsOver →
      List.Forall₂ (s.Answers options (.undisturbed steps options) c₀ c) archives
        (b.answers archives) ∧
      ∀ archive ∉ archives, c₀.AgreeOn archive c) ∧
    (∀ (σ : Type) (env : Environment σ) (w : σ), env.Computes steps →
      (∃ ms b c, s.LeadsBatch options (.computed steps) ms (.start archives) c₀ b c ∧ b.IsOver ∧
        (s.runMany options env archives c₀ w).1 = (b.answers archives, c)) ∧
      ∀ archive, s.RunsAlone options (.computed steps) archive c₀
        (s.run env options archive false c₀ w).1.1
        (s.run env options archive false c₀ w).1.2) ∧
    (c₀.Tidy → s.NamesFit archives →
      (∀ ms b c, s.LeadsBatch options (.computed steps) ms (.start archives) c₀ b c →
        s.LeadsBatch options (.undisturbed steps options) ms (.start archives) c₀ b c) ∧
      ∀ (σ τ : Type) (env : Environment σ) (env' : Environment τ) (w : σ) (w' : τ),
        env.Computes steps → env'.Computes steps →
        List.Forall₂ (fun archive entry => entry.1 = archive ∧
            entry.2.map Run.report =
              (s.run env' options archive false c₀ w').1.1.map Run.report ∧
            (s.run env' options archive false c₀ w').1.2.AgreeOn archive
              (s.runMany options env archives c₀ w).1.2)
          archives (s.runMany options env archives c₀ w).1.1) := by
  have hstart : s.Underway options (.computed steps) archives c₀ (.start archives) c₀ :=
    underway_start archives c₀
  refine ⟨fun ms b c h => ?_, fun ms b c h hover => ?_, fun σ env w henv => ?_,
    fun hc hfit => ⟨fun ms b c h => ?_, fun σ τ env env' w w' henv henv' => ?_⟩⟩
  · have hb := h.underway hs hnodup hdirect (RunRules.local_computed steps) hstart
    have hlength := h.length_le hs hnodup hdirect (RunRules.local_computed steps)
      not_computed_cancel hstart
    rw [remaining_start] at hlength
    exact ⟨hb.slots, Nat.le_of_add_right_le hlength, hb.exists_end hs hnodup hdirect⟩
  · refine ⟨h.answers hs hnodup hdirect hover, ?_⟩
    exact (h.underway hs hnodup hdirect (RunRules.local_undisturbed steps options)
      (underway_start archives c₀)).others
  · exact ⟨leads_runMany henv hs hnodup hdirect options w,
      fun archive => runsAlone_run henv hs options archive c₀ w⟩
  · exact h.undisturbed hs hnodup hdirect hfit hstart hc
  · obtain ⟨ms, b, c, hleads, hover, heq⟩ := leads_runMany henv hs hnodup hdirect options w
    rw [heq]
    have hanswers := (hleads.undisturbed hs hnodup hdirect hfit hstart hc).answers hs hnodup
      hdirect hover
    refine ((List.forall₂_and_left _ _).mpr ⟨fun _ => id, hanswers⟩).imp ?_
    rintro archive entry ⟨harchive, hentry⟩
    have halone := runsAlone_run henv' hs options archive c₀ w'
    exact ⟨hentry.name, hentry.same _ _ (halone.undisturbed hs hfit harchive hc)⟩

/-- A command that gives a log for one archive only. -/
def onlySos : StepFunction := fun archive node _ _ =>
  if archive = "sos" ∧ node = "log" then .value (.bytes [255]) else .failure ⟨.exec, "no log"⟩

/-- What a run alone says of each node. -/
theorem RunsAlone.nodes_of_onlySos
    (h : logLines.RunsAlone { concurrency := some 2 } (.computed onlySos) archive
      (Cache.fresh "cache") r c) :
    (r.map fun run => run.report.nodes.map fun n => (n.name, n.outcome)) = .ok (
      if archive = "sos" then
        [("log", .success (.bytes [255])), ("lines", .failed ⟨.exec, "no log"⟩)]
      else [("log", .failed ⟨.exec, "no log"⟩), ("lines", .blocked "log")]) := by
  let j : Job := ⟨.logLines, .logLines, archive, false, 2, [true, true]⟩
  have hs : Graph.ofSet logLines.set = .ok logLines.graph := rfl
  have hjob : logLines.job { concurrency := some 2 } archive = .ok j := rfl
  have hlog : j.graph.source 0 = none := rfl
  have hlines : j.graph.source 1 = some 0 := rfl
  have horder : j.graph.order.filter j.isSelected = [0, 1] := rfl
  have hperformLog : ∀ input, j.perform onlySos 0 input =
      if archive = "sos" then .value (.bytes [255]) else .failure ⟨.exec, "no log"⟩ := by
    intro input
    simp [j, Job.perform, onlySos, Definition.NodeSet.logLines, Definition.NodeSet.ofDistinct]
  have hperformLines : ∀ input, j.perform onlySos 1 input = .failure ⟨.exec, "no log"⟩ := by
    intro input
    simp [j, Job.perform, onlySos, Definition.NodeSet.logLines, Definition.NodeSet.ofDistinct]
  have hreport := h.report_eq hs (Cache.direct_fresh "cache" archive) hjob
  cases r with
  | error e => simp [Except.map] at hreport
  | ok run =>
      have hrun : run.report = j.expected (sound_job hs hjob) onlySos (Cache.fresh "cache") :=
        Except.ok.inj hreport
      simp only [Except.map, hrun, Job.expected, Job.reportOf, horder, List.map_cons,
        List.map_nil, Job.fate_of_source _ hlines, Job.fate_of_root _ hlog, Job.attempt,
        Job.stored?_fresh, hperformLog, hperformLines]
      by_cases harchive : archive = "sos"
      · simp only [if_pos harchive]
        rfl
      · simp only [if_neg harchive]
        rfl

/-- Two archives take turns, and only one of them has a log. -/
theorem logLines_archives_are_isolated :
    Graph.ofSet logLines.set = .ok logLines.graph ∧ ["sos", "other"].Nodup ∧
    (∀ archive ∈ ["sos", "other"], (Cache.fresh "cache").Direct archive) ∧
    ∃ ms b c, logLines.LeadsBatch { concurrency := some 2 } (.undisturbed onlySos
        { concurrency := some 2 }) ms (.start ["sos", "other"]) (Cache.fresh "cache") b c ∧
      b.IsOver ∧ b.active.length ≤ 2 ∧
      List.Forall₂ (logLines.Answers { concurrency := some 2 } (.undisturbed onlySos
        { concurrency := some 2 }) (Cache.fresh "cache") c) ["sos", "other"]
        (b.answers ["sos", "other"]) ∧
      (b.answers ["sos", "other"]).map (fun entry => (entry.1, entry.2.map fun run =>
          run.report.nodes.map fun n => (n.name, n.outcome))) =
        [("sos", .ok [("log", .success (.bytes [255])), ("lines", .failed ⟨.exec, "no log"⟩)]),
          ("other", .ok [("log", .failed ⟨.exec, "no log"⟩), ("lines", .blocked "log")])] := by
  have hs : Graph.ofSet logLines.set = .ok logLines.graph := rfl
  have hnodup : ["sos", "other"].Nodup := by decide
  have hdirect : ∀ archive ∈ ["sos", "other"], (Cache.fresh "cache").Direct archive :=
    fun archive _ => Cache.direct_fresh "cache" archive
  have hfit : logLines.NamesFit ["sos", "other"] := ⟨by decide, by decide⟩
  obtain ⟨hall, hover, -, htidy⟩ :=
    archives_are_isolated hs { concurrency := some 2 } onlySos hnodup hdirect
  obtain ⟨-, -, ms, b, c, hleads, hend⟩ := hall [] _ _ (.nil _ _)
  have hundisturbed := (htidy (Cache.tidy_fresh "cache") hfit).1 ms b c hleads
  have hanswers := (hover ms b c hundisturbed hend).1
  refine ⟨hs, hnodup, hdirect, ms, b, c, hundisturbed, hend, (hall ms b c hleads).1, hanswers, ?_⟩
  generalize b.answers ["sos", "other"] = entries at hanswers
  rcases hanswers with _ | ⟨first, _ | ⟨second, _ | _⟩⟩
  obtain ⟨d, hfirst, -⟩ := first.alone
  obtain ⟨d', hsecond, -⟩ := second.alone
  simp only [List.map_cons, List.map_nil, first.name, second.name,
    hfirst.computed.nodes_of_onlySos, hsecond.computed.nodes_of_onlySos]
  rfl

end Distill.Service

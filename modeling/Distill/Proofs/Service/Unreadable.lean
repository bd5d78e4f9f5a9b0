import Distill.Proofs.Cache.Interrupted
import Distill.Proofs.Execution.Aborted
import Distill.Proofs.Service.Failures

/-!
# Artifacts that cannot be read

An artifact that cannot be read counts as absent: a run gives the report that it would give if
the file had been taken away before, and the result of a step takes the place of what could not be
read. Only a node whose file would have too long a name has none afterwards either.

## Main definitions

* `Cache.IsUnreadable` — the cache cannot answer for a node.
* `Cache.without` — a cache whose files of some nodes are taken away.
* `Service.unreadable` — the nodes of a set for which the cache cannot answer.

## Main statements

* `Cache.fileOf_without`, `Cache.success?_without` — the files that are left, and the values.
* `Job.Leads.report_alike` — the report depends on the values that can be read.
* `Job.Leads.stored_of_call` — the result of a step that was called is in the file of its node.
* `Service.unreadable_counts_as_absent` — what a run does with artifacts that cannot be read.
-/

namespace Distill

/-! ## Caches -/

namespace Cache

variable {c : Cache} {archive node other : String} {nodes : List String} {data : Bytes}

/-- The cache cannot answer for a node. -/
def IsUnreadable (c : Cache) (archive node : String) : Prop := ∃ e, c.get archive node = .error e

instance (c : Cache) (archive node : String) : Decidable (c.IsUnreadable archive node) :=
  match h : c.get archive node with
  | .error e => .isTrue ⟨e, h⟩
  | .ok _ => .isFalse fun ⟨_, he⟩ => by simp [h] at he

/-- The cache whose files of some nodes are taken away. -/
def without (c : Cache) (archive : String) (nodes : List String) : Cache :=
  nodes.foldl (fun c node => (c.invalidate archive node).2) c

theorem without_cons : c.without archive (node :: nodes) =
    (c.invalidate archive node).2.without archive nodes := rfl

theorem IsUnreadable.success?_eq_none (h : c.IsUnreadable archive node) :
    c.success? archive node = none := by
  obtain ⟨e, he⟩ := h
  rw [success?, he]

theorem direct_without (hc : c.Direct archive) : (c.without archive nodes).Direct archive := by
  induction nodes generalizing c with
  | nil => exact hc
  | cons node rest ih => exact ih (direct_invalidate hc node)

theorem Tidy.without (hc : c.Tidy) : (c.without archive nodes).Tidy := by
  induction nodes generalizing c with
  | nil => exact hc
  | cons node rest ih => exact ih (hc.invalidate archive node)

/-- In a tidy cache a node whose file is taken away has none. -/
theorem Tidy.fileOf_invalidate_self (hc : c.Tidy) (archive node : String) :
    (c.invalidate archive node).2.fileOf archive node = none := by
  cases hfile : c.fileOf archive node with
  | some data =>
      rw [fileOf_invalidate (hc.direct archive), if_pos ⟨hc.invalidate_of_file hfile, rfl, rfl⟩]
  | none =>
      rcases hc.invalidate_of_none hfile with heq | ⟨-, heq⟩ <;> rwa [heq]

/-- **Just the files of these nodes are taken away.** -/
theorem Tidy.fileOf_without (hc : c.Tidy) (archive' : String) :
    (c.without archive nodes).fileOf archive' node =
      if archive' = archive ∧ node ∈ nodes then none else c.fileOf archive' node := by
  induction nodes generalizing c with
  | nil => simp [Cache.without]
  | cons first rest ih =>
      rw [without_cons, ih (hc.invalidate archive first)]
      by_cases hfirst : archive' = archive ∧ node = first
      · obtain ⟨rfl, rfl⟩ := hfirst
        simp [hc.fileOf_invalidate_self]
      · have hsame : (c.invalidate archive first).2.fileOf archive' node =
            c.fileOf archive' node := by
          rw [fileOf_invalidate (hc.direct archive), if_neg fun h => hfirst h.2]
        have hmem : archive' = archive ∧ node ∈ first :: rest ↔ archive' = archive ∧ node ∈ rest :=
          and_congr_right fun harchive => by
            rw [List.mem_cons, or_iff_right fun hnode => hfirst ⟨harchive, hnode⟩]
        rw [hsame]
        exact if_congr hmem.symm rfl rfl

/-- A file without a value may be taken away: the values that can be read stay. -/
theorem success?_invalidate (hc : c.Direct archive) (h : c.success? archive node = none) :
    (c.invalidate archive node).2.success? archive other = c.success? archive other := by
  have hdirect := direct_invalidate hc node
  by_cases hgone : (c.invalidate archive node).1 = .ok true ∧ archive = archive ∧ other = node
  · have hnone : (c.invalidate archive node).2.fileOf archive other = none := by
      rw [fileOf_invalidate hc, if_pos hgone]
    rw [success?_eq hdirect, hnone, Option.bind_none, ite_self, hgone.2.2, h]
  · refine success?_congr hc hdirect ?_
    rw [fileOf_invalidate hc, if_neg hgone]

/-- **Files without values may be taken away:** the values that can be read stay. -/
theorem success?_without (hc : c.Direct archive)
    (h : ∀ node ∈ nodes, c.success? archive node = none) (other : String) :
    (c.without archive nodes).success? archive other = c.success? archive other := by
  induction nodes generalizing c with
  | nil => rfl
  | cons first rest ih =>
      have hsame : ∀ node, (c.invalidate archive first).2.success? archive node =
          c.success? archive node :=
        fun node => success?_invalidate hc (h first List.mem_cons_self)
      rw [without_cons, ih (direct_invalidate hc first), hsame]
      intro node hnode
      rw [hsame]
      exact h node (List.mem_cons_of_mem _ hnode)

/-- A node whose file would have too long a name has none. -/
theorem Tidy.fileOf_of_not_fits (hc : c.Tidy) (h : ¬ Fits archive node) :
    c.fileOf archive node = none := by
  cases hfile : c.fileOf archive node with
  | none => rfl
  | some data =>
      have hlook : c.tree.look (artifactPath archive node) = some (.file data) :=
        FileTree.fileAt_eq_some_iff.mp hfile
      exact absurd (isShort_artifactPath_iff.mp (hc.possible _ (by simp [hlook]))) h

end Cache

/-! ## Jobs -/

namespace Job

variable {j : Job} {steps : StepFunction} {options : RunOptions} {p p' : Progress}
  {c₀ c₁ c c' : Cache} {ms : List Move} {i : Nat} {allows : Progress → Cache → Move → Prop}

/-- **The report depends on the values that can be read**, and on the texts of steps without a
result. -/
theorem Leads.report_alike {ms' : List Move} (hj : j.Sound) (hc₀ : c₀.Direct j.archive)
    (hc₁ : c₁.Direct j.archive)
    (hvalues : ∀ node, c₁.success? j.archive node = c₀.success? j.archive node)
    (h : j.Leads (j.Follows steps) ms (j.start false) c₀ p c) (hover : p.isOver = true)
    (h' : j.Leads (j.Follows steps) ms' (j.start false) c₁ p' c') (hover' : p'.isOver = true) :
    (j.report p').Alike (j.report p) := by
  have hstored : ∀ i, j.stored? c₁ i = j.stored? c₀ i := fun i => by
    rw [stored?_eq, stored?_eq, hvalues]
  have hsame : ∀ steps, j.expected hj steps c₁ = j.expected hj steps c₀ := fun steps =>
    reportOf_congr fun i _ => fate_congr hj hj rfl rfl rfl hstored i
  obtain ⟨texts, htexts⟩ := h.report_eq_expected hj hc₀ hover
  obtain ⟨texts', htexts'⟩ := h'.report_eq_expected hj hc₁ hover'
  rw [htexts, htexts', hsame]
  exact expected_retold_alike hj texts' texts

/-- **The result of a step that was called is in the file of its node** at the end, unless the
step ended without any result or the file would have too long a name. -/
theorem Leads.stored_of_call (hj : j.Sound) (hno : ∀ q d, ¬ allows q d .cancel) (hc : c₀.Tidy)
    (hfits : Cache.Fits j.archive (j.graph.name i))
    (h : j.Leads allows ms (j.start false) c₀ p c) (hover : p.isOver = true) (hi : i ∈ p.calls)
    (hpanic : ¬ Panics ms i) :
    ∃ (r : StepResult) (a : Artifact) (data : Bytes), p.outcome? i = some r.outcome ∧
      r.artifact? (j.graph.name i) = some a ∧ Cache.encode a = .ok data ∧
      c.fileOf j.archive (j.graph.name i) = some data := by
  have hput : ∀ {d : Cache} {a : Artifact} {data : Bytes}, d.Tidy → a.node = j.graph.name i →
      Cache.encode a = .ok data →
      (d.put j.archive a).2.fileOf j.archive (j.graph.name i) = some data := by
    intro d a data hd hnode hencode
    rw [Cache.fileOf_put, hd.put_fst j.archive hencode, hnode, if_pos ⟨if_pos hfits, rfl, rfl⟩,
      hencode]
    rfl
  have htidy : j.Leads (fun q d m => (allows q d m ∧ m ∈ ms) ∧ d.Tidy) ms (j.start false) c₀ p c :=
    h.listed.within (I := fun _ d => d.Tidy) (fun hd _ hm => hm.tidy hd) hc
  obtain ⟨o, ho, htried⟩ : ∃ o, p.Ended i o ∧ o.IsTried := by
    refine (((h.called hj hno).mem_iff i).mp hi).resolve_left ?_
    simp [(Progress.isOver_iff.mp hover).2]
  have hend := (ended_iff_of_isOver hover).mp ho
  cases (htidy.filed hj).ended i o ho with
  | blocked | cached => exact htried.elim
  | @refused q d may before stored after =>
      exact ⟨.failure .runCancelled, _, _, hend, rfl, rfl, after.trans (hput may.2 rfl rfl)⟩
  | @done r q d may after =>
      cases r with
      | value v => exact ⟨.value v, _, _, hend, rfl, rfl, after.trans (hput may.2 rfl rfl)⟩
      | failure f => exact ⟨.failure f, _, _, hend, rfl, rfl, after.trans (hput may.2 rfl rfl)⟩
      | panic text => exact absurd ⟨text, may.1.2⟩ hpanic

end Job

namespace Service

variable {s : Service}

/-- The nodes for which a cache cannot answer. -/
def unreadable (s : Service) (c : Cache) (archive : String) : List String :=
  s.set.names.filter fun node => decide (c.IsUnreadable archive node)

/-- **An artifact that cannot be read counts as absent.** Whatever the definitions, the options
and the files of the cache, every run whose steps compute a function and that nothing cancels
gives the report that it gives when the files that cannot be read are taken away before, up to
what is told of steps without a result, which need not be a function of the node and its input.
The first part is about runs with environments, the last about all schedules. None of these nodes
is served from the cache. In a tidy cache, with any contents of its files, just these files are
taken away; and the result of a step that was called, and has ended with a result, is in the file
of its node, which has no file only if that would have too long a name. -/
theorem unreadable_counts_as_absent (hs : Graph.ofSet s.set = .ok s.graph) (options : RunOptions)
    (archive : String) (steps : StepFunction) (c₀ : Cache) (hc : c₀.Direct archive) :
    (∀ (σ τ : Type) (env : Environment σ) (env' : Environment τ) (w : σ) (w' : τ),
      env.Follows steps → env'.Follows steps →
      (∀ e, (s.run env options archive false c₀ w).1.1 = .error e →
        (s.run env' options archive false
          (c₀.without archive (s.unreadable c₀ archive)) w').1.1 = .error e) ∧
      ∀ r, (s.run env options archive false c₀ w).1.1 = .ok r →
        ∃ r', (s.run env' options archive false
            (c₀.without archive (s.unreadable c₀ archive)) w').1.1 = .ok r' ∧
          r'.report.Alike r.report) ∧
    (c₀.Tidy → ∀ archive' node,
      (c₀.without archive (s.unreadable c₀ archive)).fileOf archive' node =
        if archive' = archive ∧ node ∈ s.unreadable c₀ archive then none
          else c₀.fileOf archive' node) ∧
    ∀ j, s.job options archive = .ok j → ∀ ms p c,
      j.Leads (j.Follows steps) ms (j.start false) c₀ p c → p.isOver = true →
      (∀ ms' p' c', j.Leads (j.Follows steps) ms' (j.start false)
          (c₀.without archive (s.unreadable c₀ archive)) p' c' → p'.isOver = true →
        (close options j p' c').1.report.Alike (close options j p c).1.report) ∧
      ∀ i, j.graph.name i ∈ s.unreadable c₀ archive →
        (∀ v, p.outcome? i ≠ some (.cached v)) ∧
        (c₀.Tidy → i ∈ p.calls → ¬ Panics ms i →
          (¬ Cache.Fits archive (j.graph.name i) →
            (close options j p c).2.fileOf archive (j.graph.name i) = none) ∧
          (Cache.Fits archive (j.graph.name i) →
            ∃ (r : StepResult) (a : Artifact) (data : Bytes), p.outcome? i = some r.outcome ∧
              r.artifact? (j.graph.name i) = some a ∧ Cache.encode a = .ok data ∧
              (close options j p c).2.fileOf archive (j.graph.name i) = some data)) := by
  have hunreadable : ∀ {node}, node ∈ s.unreadable c₀ archive → c₀.success? archive node = none :=
    fun hnode => (of_decide_eq_true (List.mem_filter.mp hnode).2).success?_eq_none
  have hvalues := Cache.success?_without hc fun node => hunreadable
  have hdirect : (c₀.without archive (s.unreadable c₀ archive)).Direct archive :=
    Cache.direct_without hc
  refine ⟨fun σ τ env env' w w' henv henv' => ?_,
    fun htidy archive' node => htidy.fileOf_without archive', fun j hjob ms p c h hover => ?_⟩
  · cases hjob : s.job options archive with
    | error e =>
        rw [run_of_refused hjob, run_of_refused hjob]
        exact ⟨fun _ => id, fun r hr => by cases hr⟩
    | ok j =>
        have hj := sound_job hs hjob
        obtain ⟨-, -, rfl⟩ := eq_of_job hjob
        obtain ⟨ms, h, hover⟩ := Job.leads_execute_of_follows henv hj c₀ w
        obtain ⟨ms', h', hover'⟩ := Job.leads_execute_of_follows henv' hj
          (c₀.without j.archive (s.unreadable c₀ j.archive)) w'
        rw [run_of_job hjob, run_of_job hjob]
        constructor
        · intro e he
          cases he
        · intro r hr
          obtain rfl := Except.ok.inj hr
          exact ⟨_, rfl, h.report_alike hj hc hdirect hvalues hover h' hover'⟩
  · have hj := sound_job hs hjob
    obtain ⟨-, -, rfl⟩ := eq_of_job hjob
    refine ⟨fun ms' p' c' h' hover' => ?_, fun i hi => ⟨fun v ho => ?_, fun htidy hcall hpanic =>
      ?_⟩⟩
    · exact h.report_alike hj hc hdirect hvalues hover h' hover'
    · have hstored := (((h.explained hj hc).cached_iff).mp ho).2
      rw [Job.stored?_eq, hunreadable hi] at hstored
      simp at hstored
    · rw [Job.fileOf_close]
      refine ⟨fun hlong => ?_, fun hfits => ?_⟩
      · exact (h.tidy htidy).fileOf_of_not_fits hlong
      · exact h.stored_of_call hj (fun _ _ => id) htidy hfits hover hcall hpanic

/-- A cache whose file of the log has no first line. -/
def tornLog : Cache :=
  ((Cache.fresh "cache").writeFile (Cache.artifactsPath "sos") (Cache.artifactName "log") [123]).2

theorem tidy_tornLog : tornLog.Tidy :=
  (Cache.tidy_fresh "cache").writeFile (.artifact "sos" "log" []) _

theorem unreadable_tornLog : logLines.unreadable tornLog "sos" = ["log"] := by
  decide +kernel

/-- The command is run again, since its log cannot be read. -/
theorem leads_tornLog : ∃ p c, Job.logLines.Leads (Job.logLines.Obeys Job.oddLog)
    [.launch, .begin 0, .finish 0 (.value (.bytes [255])), .settle 0, .launch, .begin 1,
      .finish 1 (.failure ⟨.decode, "no lines"⟩), .settle 1]
    (Job.logLines.start false) tornLog p c ∧ p.isOver = true ∧ 0 ∈ p.calls ∧
    p.outcome? 0 = some (.success (.bytes [255])) := by
  have hleads : Job.logLines.Leads (Job.logLines.Obeys Job.oddLog) _ (Job.logLines.start false)
      tornLog _ _ :=
    .cons (m := .launch) trivial (Job.Makes.launch (i := 0) rfl (by decide) rfl).move?_eq <|
    .cons (m := .begin 0) trivial (Job.Makes.start rfl rfl rfl).move?_eq <|
    .cons (m := .finish 0 (.value (.bytes [255]))) ⟨_, rfl, rfl⟩
      (Job.Makes.finish rfl).move?_eq <|
    .cons (m := .settle 0) trivial (Job.Makes.settle rfl rfl).move?_eq <|
    .cons (m := .launch) trivial (Job.Makes.launch (i := 1) rfl (by decide) rfl).move?_eq <|
    .cons (m := .begin 1) trivial (Job.Makes.start rfl rfl rfl).move?_eq <|
    .cons (m := .finish 1 (.failure ⟨.decode, "no lines"⟩)) ⟨_, rfl, rfl⟩
      (Job.Makes.finish rfl).move?_eq <|
    .cons (m := .settle 1) trivial (Job.Makes.settle rfl rfl).move?_eq <|
    .nil _ _
  exact ⟨_, _, hleads, rfl, by decide, rfl⟩

/-- Its value takes the place of what could not be read, and the report is the one of a run that
finds no log. -/
theorem logLines_unreadable_counts_as_absent :
    Graph.ofSet logLines.set = .ok logLines.graph ∧ tornLog.Direct "sos" ∧ tornLog.Tidy ∧
    logLines.job { concurrency := some 2 } "sos" = .ok Job.logLines ∧
    logLines.unreadable tornLog "sos" = ["log"] ∧ Cache.Fits "sos" "log" ∧
    ∃ ms p c, Job.logLines.Leads (Job.logLines.Obeys Job.oddLog) ms (Job.logLines.start false)
        tornLog p c ∧ p.isOver = true ∧ 0 ∈ p.calls ∧ ¬ Panics ms 0 ∧
      (∃ p' c', Job.logLines.Finishes (Job.logLines.Obeys Job.oddLog)
        (tornLog.without "sos" ["log"]) p' c' ∧
        (Job.logLines.report p').Alike (Job.logLines.report p)) ∧
      (close { concurrency := some 2 } Job.logLines p c).2.fileOf "sos" "log" =
        (Cache.encode (.succeeded "log" (.bytes [255]))).toOption := by
  have hjob : logLines.job { concurrency := some 2 } "sos" = .ok Job.logLines := rfl
  have hname : "log" ∈ logLines.unreadable tornLog "sos" := by simp [unreadable_tornLog]
  have hpanic : ¬ Panics [.launch, .begin 0, .finish 0 (.value (.bytes [255])), .settle 0,
      .launch, .begin 1, .finish 1 (.failure ⟨.decode, "no lines"⟩), .settle 1] 0 := by
    simp [Panics]
  obtain ⟨p, c, hleads, hover, hcall, hlog⟩ := leads_tornLog
  obtain ⟨hreport, hfiles⟩ := (unreadable_counts_as_absent rfl { concurrency := some 2 } "sos"
    Job.oddLog tornLog (tidy_tornLog.direct "sos")).2.2 _ hjob _ p c
    (hleads.mono fun _ _ _ => Job.follows_of_obeys) hover
  obtain ⟨p', c', h'⟩ := Job.exists_finishes Job.sound_logLines Job.oddLog
    (tornLog.without "sos" ["log"])
  obtain ⟨-, hstored⟩ := hfiles 0 hname
  obtain ⟨r, a, data, hr, ha, hdata, hfile⟩ :=
    (hstored tidy_tornLog hcall hpanic).2 (by decide)
  refine ⟨rfl, tidy_tornLog.direct "sos", tidy_tornLog, hjob, unreadable_tornLog, by decide, _, p,
    c, hleads, hover, hcall, hpanic, ⟨p', c', h', ?_⟩, ?_⟩
  · rw [← unreadable_tornLog] at h'
    obtain ⟨ms', hleads'⟩ := h'.leads
    exact hreport ms' p' c' (hleads'.mono fun _ _ _ => Job.follows_of_obeys) h'.isOver
  · rw [hlog, Option.some.injEq] at hr
    cases r with
    | value v =>
        obtain rfl := NodeOutcome.success.inj hr
        obtain rfl := Option.some.inj ha
        have hname : Job.logLines.graph.name 0 = "log" := rfl
        rw [hname] at hfile hdata
        rw [hfile, hdata]
        rfl
    | failure f | panic => simp [StepResult.outcome] at hr

/-- The set of a command with a name for which there can be no file. -/
def longLog : Service where
  set := .ofDistinct [⟨Cache.longName, none, .exec ⟨"cat log", [], none⟩⟩] (List.nodup_singleton _)
  graph := ⟨[Cache.longName], [none], [0]⟩

/-- The evaluation of the command. -/
def longJob : Job where
  set := longLog.set
  graph := longLog.graph
  archive := "sos"
  force := false
  limit := 1
  selected := [true]

/-- Its result cannot be stored, though the cache cannot answer for it and the command is run. -/
theorem longLog_is_not_stored :
    Graph.ofSet longLog.set = .ok longLog.graph ∧ longLog.job {} "sos" = .ok longJob ∧
    longLog.unreadable Cache.logged "sos" = [Cache.longName] ∧
    ∃ ms p c, longJob.Leads (longJob.Obeys fun _ _ _ _ => .value (.bytes [])) ms
        (longJob.start false) Cache.logged p c ∧
      p.isOver = true ∧ 0 ∈ p.calls ∧ ¬ Panics ms 0 ∧
      (close {} longJob p c).2.fileOf "sos" Cache.longName = none := by
  have hget : Cache.logged.IsUnreadable "sos" Cache.longName := by decide +kernel
  have hname : longJob.graph.name 0 = Cache.longName := rfl
  have harchive : longJob.archive = "sos" := rfl
  have hstored : longJob.stored? Cache.logged 0 = none := by
    rw [Job.stored?_eq, hname, harchive, hget.success?_eq_none, ite_self]
  have hleads : longJob.Leads (longJob.Obeys fun _ _ _ _ => .value (.bytes []))
      [.launch, .begin 0, .finish 0 (.value (.bytes [])), .settle 0] (longJob.start false)
      Cache.logged _ _ :=
    .cons (m := .launch) trivial (Job.Makes.launch (i := 0) rfl (by decide) rfl).move?_eq <|
    .cons (m := .begin 0) trivial (Job.Makes.start rfl hstored rfl).move?_eq <|
    .cons (m := .finish 0 (.value (.bytes []))) ⟨_, rfl, rfl⟩ (Job.Makes.finish rfl).move?_eq <|
    .cons (m := .settle 0) trivial (Job.Makes.settle rfl rfl).move?_eq <|
    .nil _ _
  refine ⟨rfl, rfl, by decide +kernel, _, _, _, hleads, rfl, by decide, by simp [Panics], ?_⟩
  have htidy : Cache.logged.Tidy := (Cache.tidy_fresh "cache").put "sos" Cache.oldLog
  rw [Job.fileOf_close]
  exact (hleads.tidy htidy).fileOf_of_not_fits (by decide +kernel)

end Service

end Distill

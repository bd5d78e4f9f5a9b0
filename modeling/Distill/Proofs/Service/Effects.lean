import Distill.Proofs.Service.Failures

/-!
# What a run of a service leaves in the cache

A run that can store everything leaves an artifact for each node that it has tried, unless the
step of the node ended without any result. Unless only some nodes are evaluated it leaves the
conclusions as well. Every other file is what it was before the run, so that no run concerns
another archive.

## Main definitions

* `Job.IsFileOfTried` — the files of nodes that a run changes.
* `Job.Leaves` — what a run leaves in the files of a cache.

## Main statements

* `Job.leaves_close` — every run that can store everything leaves these files.
* `Service.changes_just_its_own_files` — the same of the runs of a service.
-/

namespace Distill

namespace Job

variable {j : Job} {options : RunOptions} {p : Progress} {c₀ c : Cache} {ms : List Move}
  {path : List String} {cancelled : Bool}

/-! ## The end of a run -/

theorem fileAt_close (h : options.nodes = none → path ≠ Cache.conclusionsPath j.archive) :
    (Service.close options j p c).2.tree.fileAt path = c.tree.fileAt path := by
  rw [Service.close]
  split
  · rfl
  · next hnodes =>
    have hnone : options.nodes = none := by simpa using hnodes
    exact (Cache.fileAt_writeFile _ _ _ _ _).trans (if_neg fun hpath => h hnone hpath.2)

/-- The conclusions of an archive are replaced unless only some nodes were evaluated. -/
theorem conclusionsOf_close (hok : options.nodes = none →
      (c.putConclusions j.archive (j.report p).conclusions).1 = .ok ()) :
    (Service.close options j p c).2.conclusionsOf j.archive =
      if options.nodes = none then some (Cache.encodeConclusions (j.report p).conclusions)
        else c.conclusionsOf j.archive := by
  rw [Service.close]
  cases hnodes : options.nodes with
  | none =>
      rw [if_pos rfl, Option.isSome_none, if_neg Bool.false_ne_true,
        Cache.conclusionsOf_putConclusions, if_pos ⟨hok hnodes, rfl⟩]
  | some names => simp

/-! ## The files of a run -/

/-- The file of a node that was tried, and whose step has not ended without any result. -/
def IsFileOfTried (j : Job) (ms : List Move) (p : Progress) (path : List String) : Prop :=
  ∃ i o, j.isSelected i = true ∧ p.outcome? i = some o ∧ o.IsTried ∧ ¬ Panics ms i ∧
    path = Cache.artifactPath j.archive (j.graph.name i)

/-- What a run leaves in the files of the cache `c`, when it has found the cache `c₀`. -/
structure Leaves (j : Job) (options : RunOptions) (cancelled : Bool) (ms : List Move)
    (p : Progress) (c₀ c : Cache) : Prop where
  /-- The value of a step is in the file of its node. -/
  success : ∀ i v, p.outcome? i = some (.success v) →
    ∃ data, Cache.encode (.succeeded (j.graph.name i) v) = .ok data ∧
      c.fileOf j.archive (j.graph.name i) = some data
  /-- It is the value that every node with this source reads. -/
  handed : ∀ i v, p.outcome? i = some (.success v) → ∀ before q d, before <+: ms →
    j.Leads (fun _ _ _ => True) before (j.start cancelled) c₀ q d →
    ∀ t ∈ q.tasks, j.graph.source t.node = some i → t.input = some v
  /-- The marker of the failure is in the file of its node. -/
  failed : ∀ i f, p.outcome? i = some (.failed f) → ¬ Panics ms i →
    ∃ data, Cache.encode (.failed (j.graph.name i) f) = .ok data ∧
      c.fileOf j.archive (j.graph.name i) = some data
  aborted : ∀ i text, .finish i (.panic text) ∈ ms →
    p.outcome? i = some (.failed (.aborted text)) ∧
    c.fileOf j.archive (j.graph.name i) = c₀.fileOf j.archive (j.graph.name i)
  cached : ∀ i v, p.outcome? i = some (.cached v) →
    c.fileOf j.archive (j.graph.name i) = c₀.fileOf j.archive (j.graph.name i)
  blocked : ∀ i blocker, p.outcome? i = some (.blocked blocker) →
    c.fileOf j.archive (j.graph.name i) = c₀.fileOf j.archive (j.graph.name i)
  unselected : ∀ i < j.graph.size, j.isSelected i = false →
    c.fileOf j.archive (j.graph.name i) = c₀.fileOf j.archive (j.graph.name i)
  conclusions : c.conclusionsOf j.archive =
    if options.nodes = none then some (Cache.encodeConclusions (j.report p).conclusions)
      else c₀.conclusionsOf j.archive
  /-- A file that has changed is one of these. -/
  changed : ∀ path, c.tree.fileAt path ≠ c₀.tree.fileAt path →
    j.IsFileOfTried ms p path ∨ options.nodes = none ∧ path = Cache.conclusionsPath j.archive
  otherArchives : ∀ archive, archive ≠ j.archive → ∀ rest,
    c.tree.fileAt (Cache.encodeName archive :: rest) =
      c₀.tree.fileAt (Cache.encodeName archive :: rest)

/-- A file that a run changes is that of a node that was tried. -/
theorem Leads.isFileOfTried {allows : Progress → Cache → Move → Prop} (hj : j.Sound)
    (h : j.Leads allows ms (j.start cancelled) c₀ p c) (hover : p.isOver = true)
    (hpath : c.tree.fileAt path ≠ c₀.tree.fileAt path) : j.IsFileOfTried ms p path := by
  have hended : ∃ i o, p.Ended i o ∧ path = Cache.artifactPath j.archive (j.graph.name i) := by
    by_contra hnot
    refine hpath (h.fileAt_eq hj (orderly_start hj cancelled) fun i o hi heq => ?_)
    exact hnot ⟨i, o, hi, heq⟩
  obtain ⟨i, o, hi, rfl⟩ := hended
  have ho : p.outcome? i = some o := (ended_iff_of_isOver hover).mp hi
  have hsettled := Progress.settled_iff.mpr ⟨o, ho⟩
  refine ⟨i, o, (h.orderly hj).isSelected_of_settled hsettled, ho, ?_, ?_, rfl⟩
  · by_contra htried
    exact hpath (h.fileIn_of_untried hj hi htried)
  · intro hpanic
    exact hpath (h.fileIn_of_panic hj hpanic)

/-- A file that has changed at the end of a run is that of a node that was tried, or that of the
conclusions. -/
theorem Leads.changed_close {allows : Progress → Cache → Move → Prop} (hj : j.Sound)
    (h : j.Leads allows ms (j.start cancelled) c₀ p c) (hover : p.isOver = true)
    (hpath : (Service.close options j p c).2.tree.fileAt path ≠ c₀.tree.fileAt path) :
    j.IsFileOfTried ms p path ∨ options.nodes = none ∧ path = Cache.conclusionsPath j.archive := by
  by_cases hclosed : options.nodes = none ∧ path = Cache.conclusionsPath j.archive
  · exact Or.inr hclosed
  · rw [fileAt_close fun hnone heq => hclosed ⟨hnone, heq⟩] at hpath
    exact Or.inl (h.isFileOfTried hj hover hpath)

/-- **A run that can store everything leaves the artifacts of the nodes it has tried,** and the
conclusions if these are all nodes. -/
theorem leaves_close (hj : j.Sound) (h : j.Leads j.StoresAll ms (j.start cancelled) c₀ p c)
    (hover : p.isOver = true) (hconclusions : options.nodes = none →
      (c.putConclusions j.archive (j.report p).conclusions).1 = .ok ()) :
    j.Leaves options cancelled ms p c₀ (Service.close options j p c).2 where
  success i v hi := by
    rw [fileOf_close]
    exact h.fileIn_of_success hj (Or.inl hi)
  handed i v hi before q d hbefore hleads t ht hsource := by
    obtain ⟨after, rfl⟩ := hbefore
    obtain ⟨q', d', hfirst, hrest⟩ := h.of_append
    obtain ⟨rfl, rfl⟩ := hfirst.unique hleads
    exact hrest.input_eq hj (hfirst.orderly hj) ht hsource hi rfl
  failed i f hi hpanic := by
    rw [fileOf_close]
    exact h.fileIn_of_failure hj (fun _ _ hstores => hstores)
      (fun _ _ _ hstores => hstores _ rfl) (Or.inl hi) hpanic
  aborted i text hpanic := by
    rw [fileOf_close]
    have hended := h.ended_of_finish hj (orderly_start hj cancelled) hpanic
    exact ⟨(ended_iff_of_isOver hover).mp hended, h.fileIn_of_panic hj ⟨text, hpanic⟩⟩
  cached i v hi := by
    rw [fileOf_close]
    exact h.fileIn_of_untried hj (Or.inl hi) id
  blocked i blocker hi := by
    rw [fileOf_close]
    exact h.fileIn_of_untried hj (Or.inl hi) id
  unselected i hi hunselected := by
    rw [fileOf_close]
    refine h.fileIn_of_not_ended hj hi fun o ho => ?_
    have hselected := (((h.orderly hj).placed_iff i).mp (Orderly.placed_of_ended ho)).1
    simp [hunselected] at hselected
  conclusions := by
    have hsame : c.conclusionsOf j.archive = c₀.conclusionsOf j.archive :=
      h.fileAt_eq hj (orderly_start hj cancelled) fun _ _ _ => Cache.conclusionsPath_ne_artifactPath
    rw [conclusionsOf_close hconclusions, hsame]
  changed path hpath := h.changed_close hj hover hpath
  otherArchives archive harchive rest := by
    by_contra hpath
    rcases h.changed_close hj hover hpath with ⟨i, -, -, -, -, -, heq⟩ | ⟨-, heq⟩
    · rw [Cache.artifactPath_eq] at heq
      exact harchive (Cache.encodeName_injective (List.cons.inj heq).1)
    · rw [Cache.conclusionsPath_eq] at heq
      exact harchive (Cache.encodeName_injective (List.cons.inj heq).1)

end Job

namespace Service

variable {s : Service}

/-- **A run changes just its own files.** A run that is refused changes none. In every other run
that can store what it has to, whatever the definitions, the options and the cache, whatever its
steps give, and whenever it is cancelled, the file of a node whose step gives a value becomes the
artifact of that value, which is the one that the readers of the node get; that of a node that has
failed becomes the marker of its failure, unless the step ended without any result; the conclusions
are replaced unless only some nodes are evaluated; and every other file stays as it is, all files
of other archives among them. In a tidy cache everything can be stored if no name is too long. The
last part is about runs of a service with an environment: each of them follows such a schedule. -/
theorem changes_just_its_own_files (hs : Graph.ofSet s.set = .ok s.graph) (options : RunOptions)
    (archive : String) (cancelled : Bool) (c₀ : Cache) :
    (∀ e, s.job options archive = .error e → ∀ (σ : Type) (env : Environment σ) (w : σ),
      (s.run env options archive cancelled c₀ w).1 = (.error e, c₀)) ∧
    ∀ j, s.job options archive = .ok j →
      (∀ ms p c, j.Leads j.StoresAll ms (j.start cancelled) c₀ p c → p.isOver = true →
        (options.nodes = none →
          (c.putConclusions archive (j.report p).conclusions).1 = .ok ()) →
        j.Leaves options cancelled ms p c₀ (close options j p c).2) ∧
      (c₀.Tidy → FileTree.IsShort (Cache.encodeName archive) →
        (∀ i, j.isSelected i = true → Cache.Fits archive (j.graph.name i)) →
        ∀ ms p c, j.Leads (fun _ _ _ => True) ms (j.start cancelled) c₀ p c →
          j.Leads j.StoresAll ms (j.start cancelled) c₀ p c ∧
          (c.putConclusions archive (j.report p).conclusions).1 = .ok ()) ∧
      ∀ (σ : Type) (env : Environment σ) (w : σ), ∃ ms p c,
        j.Leads (fun _ _ _ => True) ms (j.start cancelled) c₀ p c ∧ p.isOver = true ∧
        (s.run env options archive cancelled c₀ w).1 =
          (.ok (close options j p c).1, (close options j p c).2) := by
  refine ⟨?_, ?_⟩
  · intro e he σ env w
    rw [Service.run, he]
    rfl
  · intro j hjob
    have hj := sound_job hs hjob
    obtain ⟨-, -, rfl⟩ := eq_of_job hjob
    refine ⟨fun ms p c h hover hconclusions => Job.leaves_close hj h hover hconclusions, ?_, ?_⟩
    · intro hc hshort hfits ms p c h
      obtain ⟨hstores, htidy⟩ := h.storesAll_of_tidy hj (Job.orderly_start hj cancelled) hc hfits
      refine ⟨hstores.mono fun _ _ _ => And.right, ?_⟩
      rw [htidy.putConclusions_fst, if_pos hshort]
    · intro σ env w
      obtain ⟨ms, p, c, heq, h, hover⟩ := env.leads_execute hj cancelled c₀ w
      refine ⟨ms, p, c, h.mono fun _ _ _ _ => trivial, hover, ?_⟩
      have hrun : (s.run env options j.archive cancelled c₀ w).1 =
          (.ok (close options j (env.execute j cancelled c₀ w).1.1
            (env.execute j cancelled c₀ w).1.2).1,
          (close options j (env.execute j cancelled c₀ w).1.1
            (env.execute j cancelled c₀ w).1.2).2) := by
        rw [Service.run, hjob]
        rfl
      rw [hrun, heq]

/-- In a forced run the command gives another log than before, and its lines cannot be split. -/
theorem logLines_changes_just_its_own_files :
    Graph.ofSet logLines.set = .ok logLines.graph ∧
    logLines.job { force := true, concurrency := some 2 } "sos" = .ok Job.freshLogLines ∧
    ∃ ms p c, Job.freshLogLines.Leads Job.freshLogLines.StoresAll ms
        (Job.freshLogLines.start false) keptLog p c ∧ p.isOver = true ∧
      Job.freshLogLines.Leaves { force := true, concurrency := some 2 } false ms p keptLog
        (close { force := true, concurrency := some 2 } Job.freshLogLines p c).2 ∧
      p.outcome? 0 = some (.success (.bytes [1])) ∧
      p.outcome? 1 = some (.failed ⟨.decode, "no lines"⟩) := by
  have hleads : Job.freshLogLines.Leads (fun _ _ _ => True)
      [.launch, .begin 0, .finish 0 (.value (.bytes [1])), .settle 0, .launch, .begin 1,
        .finish 1 (.failure ⟨.decode, "no lines"⟩), .settle 1]
      (Job.freshLogLines.start false) keptLog _ _ :=
    .cons (m := .launch) trivial (Job.Makes.launch (i := 0) rfl (by decide) rfl).move?_eq <|
    .cons (m := .begin 0) trivial (Job.Makes.start rfl rfl rfl).move?_eq <|
    .cons trivial (Job.Makes.finish rfl).move?_eq <|
    .cons (m := .settle 0) trivial (Job.Makes.settle rfl rfl).move?_eq <|
    .cons (m := .launch) trivial (Job.Makes.launch (i := 1) rfl (by decide) rfl).move?_eq <|
    .cons (m := .begin 1) trivial (Job.Makes.start rfl rfl rfl).move?_eq <|
    .cons trivial (Job.Makes.finish rfl).move?_eq <|
    .cons (m := .settle 1) trivial (Job.Makes.settle rfl rfl).move?_eq <|
    .nil _ _
  have hforced : logLines.job { force := true, concurrency := some 2 } "sos" =
      .ok Job.freshLogLines := rfl
  obtain ⟨hall, htidy, -⟩ := (changes_just_its_own_files rfl
    { force := true, concurrency := some 2 } "sos" false keptLog).2 _ hforced
  have hfits : ∀ i, Job.freshLogLines.isSelected i = true →
      Cache.Fits "sos" (Job.freshLogLines.graph.name i) := by
    intro i hi
    have hlt : i < 2 := Job.sound_freshLogLines.lt_of_isSelected hi
    have hboth : ∀ i < 2, Cache.Fits "sos" (Job.freshLogLines.graph.name i) := by decide
    exact hboth i hlt
  have hkept : keptLog.Tidy := (Cache.tidy_fresh "cache").put _ _
  obtain ⟨hstores, hconclusions⟩ := htidy hkept (by decide) hfits _ _ _ hleads
  have hleaves := hall _ _ _ hstores rfl fun _ => hconclusions
  exact ⟨rfl, hforced, _, _, _, hstores, rfl, hleaves, rfl, rfl⟩

end Service

end Distill

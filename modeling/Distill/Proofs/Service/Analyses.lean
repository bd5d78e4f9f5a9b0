import Distill.Proofs.Execution.Completeness
import Distill.Proofs.Service.Histories

/-!
# Conclusions match the definitions

A conclusion in a report is computed now, or it was stored by an earlier run, or it says that
nothing is known. Whatever services of one set have done with a cache that was empty, the value that
can be read for an analysis is a conclusion that carries the fields of its definition. So each run
has one such conclusion for each analysis, in the order of declaration, and it is unknown exactly
for the analyses that have no value.

## Main definitions

* `Conclusion.Fits` — conclusions with the fields of a definition.
* `Definition.NodeSet.Holds` — values that nodes of a set may have.
* `Job.Analyses` — runs in which analyses are done as they say.
* `Job.Draws` — what the conclusion of a run for an analysis is.

## Main statements

* `LevelCounts.get_ofConclusions` — the number at a level.
* `Service.gives_analyses` — analyses give such values, also when these are read back.
* `Service.conclusions_match_definitions` — the conclusions of every run.
-/

namespace Distill

open Definition (NodeSet Node)

/-! ## Counts -/

namespace LevelCounts

theorem get_increment (c : LevelCounts) (l l' : Level) :
    (c.increment l').get l = c.get l + if l' = l then 1 else 0 := by
  cases l <;> cases l' <;> rfl

/-- **The number at a level is that of the findings of this level.** -/
theorem get_ofConclusions (cs : List Conclusion) (l : Level) :
    (ofConclusions cs).get l =
      ((cs.filter (·.abnormal)).filter (decide <| ·.level = l)).length := by
  have hfold : ∀ (ds : List Conclusion) (c : LevelCounts),
      (ds.foldl (fun c d => c.increment d.level) c).get l =
        c.get l + (ds.filter (decide <| ·.level = l)).length := by
    intro ds
    induction ds with
    | nil => simp
    | cons d ds ih =>
        intro c
        rw [List.foldl_cons, ih, get_increment, List.filter_cons]
        by_cases hd : d.level = l
        · simp [hd]
          omega
        · simp [hd]
  rw [ofConclusions, hfold]
  cases l <;> simp [get]

end LevelCounts

/-! ## Values of analyses -/

/-- The conclusion carries the fields of a node that is an analysis. -/
structure Conclusion.Fits (d : Conclusion) (n : Node) (a : AnalysisStep) : Prop where
  name : d.name = n.name
  level : d.level = a.level
  summary : d.summary = a.summary
  description : d.description = a.description

/-- It is known whether there are findings. -/
structure Conclusion.Known (d : Conclusion) : Prop where
  unknown : d.unknown = false
  normal : d.normal = !d.abnormal

/-- The fields and the findings are read back. -/
theorem Conclusion.Fits.reread {d : Conclusion} {n : Node} {a : AnalysisStep} (h : d.Fits n a) :
    d.reread.Fits n a := ⟨h.name, h.level, h.summary, h.description⟩

theorem Conclusion.Known.reread {d : Conclusion} (h : d.Known) : d.reread.Known :=
  ⟨h.unknown, h.normal⟩

theorem Step.fits_conclude (n : Node) (a : AnalysisStep) (input : ArtifactValue)
    (spent : Elapsed) : (conclude n.name a input spent).Fits n a := ⟨rfl, rfl, rfl, rfl⟩

theorem Step.known_conclude (node : String) (a : AnalysisStep) (input : ArtifactValue)
    (spent : Elapsed) : (conclude node a input spent).Known := ⟨rfl, rfl⟩

/-- A value that a node of the set may have: that of an analysis is a conclusion with the fields of
its definition, and every conclusion is as its type promises. -/
structure Definition.NodeSet.Holds (set : NodeSet) (node : String) (v : ArtifactValue) : Prop where
  proper : v.IfConclusion Conclusion.Proper
  analysis : ∀ n ∈ set.nodes, n.name = node → ∀ a, n.analysis? = some a →
    ∃ d, v = .conclusion d ∧ d.Fits n a ∧ d.Known

namespace Job

/-- Analyses are done as they say, and other steps give anything: conclusions are as their type
promises. -/
structure Analyses (j : Job) (p : Progress) (c : Cache) (m : Move) : Prop where
  proper : j.Upholds Conclusion.Proper p c m
  concludes : ∀ i v t n a, m = .finish i (.value v) → p.task? i = some t →
    j.set.nodes[i]? = some n → n.analysis? = some a →
    ∃ u spent, t.input = some u ∧ v = .conclusion (Step.conclude n.name a u spent)

end Job

theorem Definition.Node.step_of_analysis? {n : Node} {a : AnalysisStep}
    (h : n.analysis? = some a) : n.step = .analysis a := by
  rw [analysis?] at h
  split at h
  · next hstep => rw [hstep, Option.some.inj h]
  · simp at h

/-- An environment in which analyses are done as they say makes such moves. -/
theorem Environment.analyses_of_performs {σ : Type} {env : Environment σ}
    (hproper : env.Upholds Conclusion.Proper) (henv : env.Analyses) {j : Job} {p : Progress}
    {c : Cache} {m : Move} (h : env.Performs j p c m) : j.Analyses p c m := by
  refine ⟨hproper.job h, ?_⟩
  rintro i v t n a rfl htask hn ha
  obtain ⟨t', n', w, htask', hn', hv⟩ := h
  rw [htask, Option.some.injEq] at htask'
  rw [hn, Option.some.injEq] at hn'
  subst htask' hn'
  rw [Definition.Node.step_of_analysis? ha] at hv
  exact henv _ _ a _ w v hv.symm

namespace Service

variable {s : Service}

/-- **Analyses give such values,** also when these are read back. -/
theorem gives_analyses (hs : s.Sound) :
    s.Gives Job.Analyses fun _ node v => s.set.Holds node v := by
  intro options archive j p c i v t hjob hp hkeeps htask hmay
  have hj := sound_job hs hjob
  obtain ⟨hset, -, -⟩ := eq_of_job hjob
  have hproper := hkeeps.ifConclusion hp (fun _ _ _ h => h.proper) htask hmay.proper
  -- The node of the task is the only one of its name.
  obtain ⟨n, hn, hname⟩ := hj.exists_node (hj.lt_of_isSelected (hp.isSelected_of_task? htask))
  have hunique : ∀ n' ∈ s.set.nodes, n'.name = j.graph.name i → n' = n := fun n' hn' hname' =>
    List.inj_on_of_nodup_map s.set.distinct hn' (hset ▸ List.mem_of_getElem? hn)
      (hname'.trans hname.symm)
  have hconclude : ∀ a, n.analysis? = some a → ∃ d, v = .conclusion d ∧ d.Fits n a ∧ d.Known ∧
      d.Lasting := by
    intro a ha
    obtain ⟨u, spent, hu, rfl⟩ := hmay.concludes i v t n a rfl htask hn ha
    exact ⟨_, rfl, Step.fits_conclude n a u spent, Step.known_conclude n.name a u spent,
      Step.lasting_of_proper_conclude (hproper _ rfl)⟩
  refine ⟨⟨hproper, fun n' hn' hname' a ha => ?_⟩,
    fun w hw => ⟨ArtifactValue.proper_of_ofPayload? hw, fun n' hn' hname' a ha => ?_⟩⟩
  · obtain rfl := hunique n' hn' hname'
    obtain ⟨d, hd, hfits, hknown, -⟩ := hconclude a ha
    exact ⟨d, hd, hfits, hknown⟩
  · obtain rfl := hunique n' hn' hname'
    obtain ⟨d, rfl, hfits, hknown, hlasting⟩ := hconclude a ha
    have hread : (ArtifactValue.conclusion d).IfConclusion Conclusion.IsRead := by
      intro e he
      rw [← ArtifactValue.conclusion.inj he]
      exact hlasting.isRead
    refine ⟨d.reread, ?_, hfits.reread, hknown.reread⟩
    rw [← ArtifactValue.conclusion?_eq_some_iff, ArtifactValue.conclusion?_of_ofPayload? hread hw]
    rfl

end Service

/-! ## The conclusions of a run -/

namespace Job

variable {j : Job} {p : Progress} {c : Cache}

/-- What the conclusion of a run for an analysis is. -/
structure Draws (j : Job) (p : Progress) (n : Node) (d : Conclusion) : Prop where
  fits : ∃ a, n.analysis? = some a ∧ d.Fits n a
  /-- Exactly one of the three is true. -/
  one : [d.abnormal, d.normal, d.unknown].count true = 1
  /-- Nothing is known exactly of the analyses that are not evaluated or have no value. -/
  unknown_iff : ∀ i, j.set.nodes[i]? = some n → (d.unknown = true ↔
    j.isSelected i = false ∨ ∃ o, p.outcome? i = some o ∧ o.isUsable = false)

/-- **The conclusion for an analysis,** if all values are such as its set has. -/
theorem draws_conclusionOf (hj : j.Sound) (hp : j.Orderly p) (hover : p.isOver = true)
    (hkeeps : j.Keeps (fun _ node v => j.set.Holds node v) p c) {i : Nat} {n : Node}
    {a : AnalysisStep} (hn : j.set.nodes[i]? = some n) (ha : n.analysis? = some a) :
    j.Draws p n (conclusionOf p i n a) := by
  have hindex : ∀ k, j.set.nodes[k]? = some n → k = i := by
    intro k hk
    have hinj := List.nodup_iff_injective_getElem.mp j.set.distinct
    obtain ⟨hlt, hk⟩ := List.getElem?_eq_some_iff.mp hk
    obtain ⟨hlt', hn⟩ := List.getElem?_eq_some_iff.mp hn
    have heq := @hinj ⟨k, by simpa using hlt⟩ ⟨i, by simpa using hlt'⟩ (by simp [hk, hn])
    exact Fin.mk.inj heq
  have hsettled := hp.settled_iff hj hover (i := i)
  rw [conclusionOf]
  cases hvalue : (p.outcome? i).bind (·.value?) with
  | some v =>
      obtain ⟨o, ho, hv⟩ := Option.bind_eq_some_iff.mp hvalue
      obtain ⟨d, rfl, hfits, hknown⟩ := (hkeeps.ended i o v (Or.inl ho) hv).analysis n
        (List.mem_of_getElem? hn) (Graph.name_ofSet hj.graph_eq hn).symm a ha
      refine ⟨⟨a, ha, hfits⟩, ?_, fun k hk => ?_⟩
      · simp only [hknown.unknown, hknown.normal]
        cases d.abnormal <;> rfl
      · obtain rfl := hindex k hk
        have hselected := hsettled.mp (Progress.settled_iff.mpr ⟨o, ho⟩)
        simp [hknown.unknown, hselected, ho, NodeOutcome.isUsable, hv]
  | none =>
      refine ⟨⟨a, ha, rfl, rfl, rfl, rfl⟩, rfl, fun k hk => ?_⟩
      obtain rfl := hindex k hk
      refine ⟨fun _ => ?_, fun _ => rfl⟩
      cases hselected : j.isSelected k with
      | false => exact Or.inl rfl
      | true =>
          obtain ⟨o, ho⟩ := Progress.settled_iff.mp (hsettled.mpr hselected)
          rw [ho, Option.bind_some] at hvalue
          exact Or.inr ⟨o, ho, by simp [NodeOutcome.isUsable, hvalue]⟩

/-- A list that is filtered, against what is made of the items that are kept. -/
theorem forall₂_filter_filterMap {α β : Type} {R : α → β → Prop} {keep : α → Bool}
    {f : α × Nat → Option β} (l : List α) (k : Nat)
    (hkept : ∀ i x, l[i]? = some x → keep x = true → ∃ b, f (x, k + i) = some b ∧ R x b)
    (hleft : ∀ i x, l[i]? = some x → keep x = false → f (x, k + i) = none) :
    List.Forall₂ R (l.filter keep) ((l.zipIdx k).filterMap f) := by
  induction l generalizing k with
  | nil => exact .nil
  | cons x l ih =>
      have hrest := ih (k + 1)
        (fun i y hy hkeep => by
          have h := hkept (i + 1) y (by simpa using hy) hkeep
          rwa [← Nat.add_assoc, Nat.add_right_comm] at h)
        (fun i y hy hkeep => by
          have h := hleft (i + 1) y (by simpa using hy) hkeep
          rwa [← Nat.add_assoc, Nat.add_right_comm] at h)
      rw [List.zipIdx_cons, List.filterMap_cons]
      cases hkeep : keep x with
      | true =>
          obtain ⟨b, hb, hxb⟩ := hkept 0 x rfl hkeep
          rw [List.filter_cons_of_pos hkeep]
          rw [Nat.add_zero] at hb
          simp only [hb]
          exact .cons hxb hrest
      | false =>
          have hnone := hleft 0 x rfl hkeep
          rw [List.filter_cons_of_neg (by simp [hkeep])]
          rw [Nat.add_zero] at hnone
          simp only [hnone]
          exact hrest

/-- **There is one conclusion for each analysis,** in the order of declaration. -/
theorem forall₂_conclusions (hj : j.Sound) (hp : j.Orderly p) (hover : p.isOver = true)
    (hkeeps : j.Keeps (fun _ node v => j.set.Holds node v) p c) :
    List.Forall₂ (j.Draws p) j.set.analyses (j.report p).conclusions := by
  refine forall₂_filter_filterMap _ 0 (fun i n hn hanalysis => ?_) fun i n hn hanalysis => ?_
  · obtain ⟨a, ha⟩ := Option.isSome_iff_exists.mp hanalysis
    exact ⟨conclusionOf p i n a, by simp [ha], draws_conclusionOf hj hp hover hkeeps hn ha⟩
  · have hnone : n.analysis? = none := Option.isNone_iff_eq_none.mp (by
      rw [← Option.isSome_eq_false_iff]
      exact hanalysis)
    simp [hnone]

end Job

namespace Service

variable {set : NodeSet} {location : String} {history : List Operation} {c : Cache}

/-- **Conclusions match the definitions.** After every session of services of one set on a cache
that was empty, with runs, artifacts that are dropped and archives that are cleared, each run has
one conclusion for each analysis of the set, in the order of declaration. It carries the name, the
level, the summary and the description of the analysis; exactly one of abnormal, normal and unknown
is true of it, the last exactly if the analysis is not evaluated or has no value; and the number of
a level is that of the findings of this level. Runs are of all nodes or of some, forced or not, with
any number of slots, and cancelled at any time. Analyses are done as they say; the other steps give
anything, or fail. The last part is about runs of a service with an environment: each of them is
such a run. -/
theorem conclusions_match_definitions
    (h : Session (fun s => s.set = set ∧ s.Sound) Job.Analyses location history c) {s : Service}
    (hset : s.set = set) (hs : s.Sound) (options : RunOptions) (archive : String)
    (cancelled : Bool) {j : Job} (hjob : s.job options archive = .ok j) :
    (∀ ms p c', j.Leads j.Analyses ms (j.start cancelled) c p c' → p.isOver = true →
      List.Forall₂ (j.Draws p) set.analyses (j.report p).conclusions ∧
      ∀ l, (j.report p).counts.get l =
        ((j.report p).findings.filter (decide <| ·.level = l)).length) ∧
    ∀ (σ : Type) (env : Environment σ), env.Upholds Conclusion.Proper → env.Analyses →
      ∀ w, ∃ ms p c', j.Leads j.Analyses ms (j.start cancelled) c p c' ∧ p.isOver = true ∧
        (s.run env options archive cancelled c w).1 =
          (.ok (close options j p c').1, (close options j p c').2) := by
  subst hset
  have hj := sound_job hs hjob
  obtain ⟨hjset, -, -⟩ := eq_of_job hjob
  have honly : c.Only fun _ node v => s.set.Holds node v := by
    refine h.only fun s' hkind => ⟨hkind.2, ?_⟩
    have hgives := gives_analyses hkind.2
    rwa [hkind.1] at hgives
  refine ⟨fun ms p c' hleads hover => ⟨?_, LevelCounts.get_ofConclusions _⟩, ?_⟩
  · have hkeeps := hleads.keeps hj honly fun q d i v t hq hk htask hmay =>
      gives_analyses hs options archive j q d i v t hjob hq hk htask hmay
    rw [← hjset] at hkeeps ⊢
    exact Job.forall₂_conclusions hj (hleads.orderly hj) hover hkeeps
  · intro σ env hproper hanalyses w
    obtain ⟨ms, p, c', heq, hleads, hover⟩ := env.leads_execute hj cancelled c w
    refine ⟨ms, p, c', hleads.mono fun _ _ _ hm => env.analyses_of_performs hproper hanalyses hm,
      hover, ?_⟩
    have hrun : (s.run env options archive cancelled c w).1 =
        (.ok (close options j (env.execute j cancelled c w).1.1
          (env.execute j cancelled c w).1.2).1,
        (close options j (env.execute j cancelled c w).1.1
          (env.execute j cancelled c w).1.2).2) := by
      rw [Service.run, hjob]
      rfl
    rw [hrun, heq]

/-- After a run in which there were errors, a run of the command alone knows nothing of them. -/
theorem logErrors_conclusions_match_definitions :
    ∃ history c j,
      Session (fun s => s.set = logErrors.set ∧ s.Sound) Job.Analyses "cache" history c ∧
      logErrors.Sound ∧ logErrors.job { nodes := some ["log"] } "sos" = .ok j ∧
      ∃ ms p c', j.Leads j.Analyses ms (j.start false) c p c' ∧ p.isOver = true ∧
        (j.report p).conclusions.map (·.unknown) = [true] ∧
        (j.report p).counts.get .error = 0 := by
  have hs := sound_logErrors
  have hproper := upholds_oneLine fun node a u spent hu => Step.proper_conclude node a spent hu
  have hanalyses : ∀ j p c m, oneLine.Performs j p c m → Job.Analyses j p c m :=
    fun _ _ _ _ hm => oneLine.analyses_of_performs hproper Environment.analyses_ofCommands hm
  have hrun := does_run hs hanalyses {} "sos" false (Cache.fresh "cache") ()
  have hempty : Session (fun s => s.set = logErrors.set ∧ s.Sound) Job.Analyses "cache" []
      (Cache.fresh "cache") := .start
  have hsession := hempty.next ⟨rfl, hs⟩ hrun
  have hjob : logErrors.job { nodes := some ["log"] } "sos" =
      .ok ⟨logErrors.set, logErrors.graph, "sos", false, 1, [true, false]⟩ := rfl
  obtain ⟨hall, hruns⟩ := conclusions_match_definitions hsession rfl hs _ "sos" false hjob
  obtain ⟨ms, p, c', hleads, hover, -⟩ :=
    hruns Unit oneLine hproper Environment.analyses_ofCommands ()
  obtain ⟨hdraws, hcounts⟩ := hall ms p c' hleads hover
  obtain ⟨d, rest, hd, hrest, hconclusions⟩ := List.forall₂_cons_left_iff.mp hdraws
  obtain rfl := List.forall₂_nil_left_iff.mp hrest
  -- The errors are not selected.
  have hunknown : d.unknown = true := (hd.unknown_iff 1 rfl).mpr (Or.inl rfl)
  have hone : ∀ abnormal normal, [abnormal, normal, true].count true = 1 → abnormal = false := by
    decide
  have habnormal : d.abnormal = false := hone _ d.normal (hunknown ▸ hd.one)
  refine ⟨_, _, _, hsession, hs, hjob, ms, p, c', hleads, hover, ?_, ?_⟩
  · rw [hconclusions, List.map_singleton, hunknown]
  · rw [hcounts, Report.findings, hconclusions]
    simp [habnormal]

end Service

end Distill

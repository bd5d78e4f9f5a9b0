import Distill.Proofs.Execution.Reruns

/-!
# Failures and the nodes below them

A node is blocked exactly when a node above it has failed. There is one such node; its name
is handed on from source to source, and nothing is done for the nodes below it.

## Main definitions

* `Graph.Above` — the nodes on the way from a root to a node.
* `Job.Passes` — the ends of nodes go with what their sources have left.

## Main statements

* `Job.Leads.passes` — a node is blocked when its source has no value, and only then.
* `Job.Leads.not_concerns` — no move concerns a node that is blocked.
* `Job.blocked_by_the_one_failure_above` — what is above a node that is blocked.
-/

namespace Distill

/-! ## Chains of sources -/

namespace Graph

variable {g : Graph} {i k n : Nat}

/-- A node is on the way from a root to another one: it is the source of that one, or the
source of its source, and so on. -/
def Above (g : Graph) : Nat → Nat → Prop := Relation.TransGen (Feeds g.sources)

/-- Above a node are its source and what is above that. -/
theorem above_iff (hk : g.source i = some k) : g.Above n i ↔ n = k ∨ g.Above n k := by
  constructor
  · intro h
    obtain ⟨m, hnm, hm⟩ := Relation.TransGen.tail'_iff.mp h
    obtain rfl : m = k := Option.some.inj (hm.symm.trans hk)
    rcases Relation.reflTransGen_iff_eq_or_transGen.mp hnm with heq | habove
    · exact Or.inl heq.symm
    · exact Or.inr habove
  · rintro (rfl | habove)
    · exact .single hk
    · exact habove.tail hk

/-- Nothing is above a root. -/
theorem not_above_of_root (h : g.source i = none) : ¬ g.Above n i := by
  intro habove
  obtain ⟨m, -, hm⟩ := Relation.TransGen.tail'_iff.mp habove
  rw [Feeds, ← source, h] at hm
  simp at hm

/-- No node is above itself. -/
theorem Sound.not_above_self (hg : g.Sound) : ¬ g.Above i i :=
  fun h => hg.wellFounded.transGen.asymmetric i i h h

/-- Of two nodes on the same way one is above the other. -/
theorem Above.linear (hk : g.Above k i) (hn : g.Above n i) : n = k ∨ g.Above k n ∨ g.Above n k := by
  induction hk with
  | single hsource => exact ((above_iff hsource).mp hn).imp_right Or.inr
  | tail habove hsource ih =>
      rcases (above_iff hsource).mp hn with rfl | hn
      · exact Or.inr (Or.inl habove)
      · exact ih hn

end Graph

namespace Job

variable {j : Job} {p p' : Progress} {c c' d : Cache} {m : Move} {ms : List Move} {i k : Nat}
  {o : NodeOutcome} {allows : Progress → Cache → Move → Prop}

/-! ## What moves store and call -/

/-- Nothing is stored but the artifact of the node that the move concerns. -/
theorem Makes.fileIn_eq (hj : j.Sound) (hp : j.Orderly p) (h : j.Makes p c m p' c')
    (hi : i < j.graph.size) (hm : ¬ m.Concerns i) : j.fileIn c' i = j.fileIn c i := by
  have hlt : ∀ {k t}, p.task? k = some t → k < j.graph.size := fun htask =>
    hj.lt_of_isSelected (hp.isSelected_of_task? htask)
  cases h with
  | launch | block | reuse | start | settle | cancel => rfl
  | refuse task | finish task => exact fileIn_keep_of_ne hj (hlt task) hi (Ne.symm hm) c _

/-- A step is called by the move that begins the node. -/
theorem Makes.mem_calls (h : j.Makes p c m p' c') (hi : i ∈ p'.calls) :
    i ∈ p.calls ∨ m.Concerns i := by
  cases h with
  | launch | block | reuse | refuse | finish | settle | cancel => exact Or.inl hi
  | start => simpa [Move.Concerns, eq_comm] using hi

/-! ## What nodes read -/

/-- A node that has had its turn has had it for good, and what it reads stays the same. -/
theorem Orderly.resolveInput_makes (hj : j.Sound) (hp : j.Orderly p) (hm : j.Makes p c m p' c')
    (hk : k ∈ p.ready ++ p.running ∨ p.Settled k) :
    (k ∈ p'.ready ++ p'.running ∨ p'.Settled k) ∧ j.resolveInput p' k = j.resolveInput p k := by
  have hrecord : ∀ {i : Nat} {q : Progress} {o : NodeOutcome}, i ∈ p.ready ++ p.running →
      q.outcomes = p.outcomes → (∀ n, p.Settled n → (j.record q i o).Settled n) ∧
        j.resolveInput (j.record q i o) k = j.resolveInput p k := by
    intro i q o hi houtcomes
    have hlt := hp.lt_outcomes_length hj hi
    refine ⟨fun n hn => ?_, hp.resolveInput_record houtcomes (hp.unsettled i hi) hlt hk o⟩
    rw [settled_record (houtcomes ▸ hlt), Progress.Settled, Progress.outcome?, houtcomes]
    exact Or.inr hn
  have hboth : (∀ n, p.Settled n → p'.Settled n) ∧
      j.resolveInput p' k = j.resolveInput p k := by
    cases hm with
    | launch | reuse | refuse | start | finish | cancel =>
        exact ⟨fun _ hn => hn, resolveInput_congr fun _ _ => rfl⟩
    | block ready => exact hrecord (by simp [ready]) rfl
    | settle full task =>
        exact hrecord (List.mem_append_right _ (Progress.mem_running_of_task? task)) rfl
  obtain ⟨hselected, hsource⟩ := (hp.placed_iff k).mp hk
  exact ⟨((hp.makes hj hm).placed_iff k).mpr ⟨hselected, fun n hn => hboth.1 n (hsource n hn)⟩,
    hboth.2⟩

/-- The ends of nodes go with what their sources have left: a node is blocked when its source
has no value, by the node that is in the way, and only then. -/
def Passes (j : Job) (p : Progress) : Prop :=
  ∀ i o, p.Ended i o → ∀ blocker, o = .blocked blocker ↔ j.resolveInput p i = .error blocker

/-- An end that a move brings about goes with what the source has left. -/
theorem Orderly.ended_makes (hj : j.Sound) (hp : j.Orderly p) (hm : j.Makes p c m p' c')
    (ho : p'.Ended i o) : p.Ended i o ∨ i ∈ p.ready ++ p.running ∧
      ∀ blocker, o = .blocked blocker ↔ j.resolveInput p i = .error blocker := by
  have hrunning : ∀ {k t}, p.task? k = some t → k ∈ p.ready ++ p.running := fun htask =>
    List.mem_append_right _ (Progress.mem_running_of_task? htask)
  -- A task that finishes has read something, and no step leaves its node blocked.
  have hfinished : ∀ {k input stage} {q : Progress} {o' : NodeOutcome},
      p.task? k = some ⟨k, input, stage⟩ → (∀ o, stage ≠ .finished o) → q.tasks = p.tasks →
      q.outcomes = p.outcomes → (∀ blocker, o' ≠ .blocked blocker) →
      (q.setStage k (.finished o')).Ended i o → p.Ended i o ∨ i ∈ p.ready ++ p.running ∧
        ∀ blocker, o = .blocked blocker ↔ j.resolveInput p i = .error blocker := by
    intro k input stage q o' htask hstage htasks houtcomes hnot ho
    rcases (hp.ended_finished htask hstage htasks houtcomes).mp ho with hold | ⟨rfl, rfl⟩
    · exact Or.inl hold
    · refine Or.inr ⟨hrunning htask, fun blocker => iff_of_false (hnot blocker) ?_⟩
      have hinput : j.resolveInput p i = .ok input :=
        hp.input _ (Progress.mem_of_task? htask).1
      simp [hinput]
  cases hm with
  | launch => exact Or.inl (ended_launch.mp ho)
  | cancel => exact Or.inl ho
  | start task => exact Or.inl ((hp.ended_working task (by simp) rfl rfl).mp ho)
  | reuse task => exact hfinished task (by simp) rfl rfl (by simp) ho
  | refuse task => exact hfinished task (by simp) rfl rfl (by simp) ho
  | @finish k input r task =>
      exact hfinished task (by simp) rfl rfl (by cases r <;> simp [StepResult.outcome]) ho
  | @block k rest blocker ready slot source =>
      have hmem : k ∈ p.ready := by simp [ready]
      rcases (hp.ended_record (q := { p with ready := rest }) hj (List.mem_append_left _ hmem) rfl
        (hp.mem_tasks_of_ready hmem)).mp ho with ⟨rfl, rfl⟩ | ⟨-, hold⟩
      · refine Or.inr ⟨List.mem_append_left _ hmem, fun b => ?_⟩
        rw [source, NodeOutcome.blocked.injEq, Except.error.injEq]
      · exact Or.inl hold
  | @settle k input o' full task =>
      rcases (hp.ended_record (q := { p with tasks := p.tasks.filter (·.node != k) }) hj
        (hrunning task) rfl mem_tasks_filter).mp ho with ⟨rfl, rfl⟩ | ⟨-, hold⟩
      · exact Or.inl ((hp.ended_iff task).mpr rfl)
      · exact Or.inl hold

/-- **In every state of a schedule the ends of nodes go with what their sources have left.** -/
theorem Leads.passes {cancelled : Bool} (hj : j.Sound)
    (h : j.Leads allows ms (j.start cancelled) c p c') : j.Passes p := by
  refine (h.induction (I := fun q _ => j.Orderly q ∧ j.Passes q) ?_
    ⟨orderly_start hj cancelled, fun i o ho => absurd ho (not_ended_start cancelled)⟩).2
  rintro q d m q' d' ⟨hq, hpasses⟩ - hm
  refine ⟨hq.makes hj hm, fun i o ho blocker => ?_⟩
  rcases hq.ended_makes hj hm ho with hold | ⟨hplaced, hnew⟩
  · rw [(hq.resolveInput_makes hj hm (Orderly.placed_of_ended hold)).2]
    exact hpasses i o hold blocker
  · rw [(hq.resolveInput_makes hj hm (Or.inl hplaced)).2]
    exact hnew blocker

/-! ## Nodes that are blocked -/

/-- What a node reads is the same in all later states. -/
theorem Leads.resolveInput_eq (hj : j.Sound) (hp : j.Orderly p) (h : j.Leads allows ms p c p' c')
    (hk : k ∈ p.ready ++ p.running ∨ p.Settled k) :
    j.resolveInput p' k = j.resolveInput p k := by
  induction h with
  | nil => rfl
  | cons may makes rest ih =>
      have hmakes := makes_of_move? makes
      obtain ⟨hplaced, hsame⟩ := hp.resolveInput_makes hj hmakes hk
      rw [ih (hp.makes hj hmakes) hplaced, hsame]

/-- **No move concerns a node whose source has no value.** -/
theorem Leads.not_concerns (hj : j.Sound) (hp : j.Orderly p) (h : j.Leads allows ms p c p' c')
    {blocker : String} (hi : j.resolveInput p' i = .error blocker) (hm : m ∈ ms) :
    ¬ m.Concerns i := by
  induction h with
  | nil => simp at hm
  | @cons m₁ ms p p₁ p₂ c c₁ c₂ may makes rest ih =>
      have hmakes := makes_of_move? makes
      rcases List.mem_cons.mp hm with rfl | hm
      · intro hconcerns
        -- A node that a move concerns is in flight, and has read something.
        have htask : ∃ input stage, p.task? i = some ⟨i, input, stage⟩ := by
          cases hmakes with
          | reuse task | refuse task | start task | finish task =>
              obtain rfl : _ = i := hconcerns
              exact ⟨_, _, task⟩
          | launch | block | settle | cancel => exact hconcerns.elim
        obtain ⟨input, stage, htask⟩ := htask
        have hread : j.resolveInput p i = .ok input :=
          hp.input _ (Progress.mem_of_task? htask).1
        have hsame := (Leads.cons may makes rest).resolveInput_eq hj hp (Or.inl
          (List.mem_append_right _ (Progress.mem_running_of_task? htask)))
        rw [hsame, hread] at hi
        simp at hi
      · exact ih (hp.makes hj hmakes) hi hm

/-- A node that no move concerns keeps its file, and its step is not called. -/
theorem Leads.of_not_concerns (hj : j.Sound) (hp : j.Orderly p) (hi : i < j.graph.size)
    (h : j.Leads allows ms p c p' c') (hms : ∀ m ∈ ms, ¬ m.Concerns i) (hcalls : i ∉ p.calls) :
    i ∉ p'.calls ∧ j.fileIn c' i = j.fileIn c i := by
  induction h with
  | nil => exact ⟨hcalls, rfl⟩
  | cons may makes rest ih =>
      have hmakes := makes_of_move? makes
      have hnot := hms _ List.mem_cons_self
      obtain ⟨hcalls', hfile⟩ := ih (hp.makes hj hmakes)
        (fun m hm => hms m (List.mem_cons_of_mem _ hm))
        fun hmem => (hmakes.mem_calls hmem).elim hcalls hnot
      exact ⟨hcalls', hfile.trans (hmakes.fileIn_eq hj hp hi hnot)⟩

/-! ## The failure above -/

/-- Above a node that is not blocked every node has a value. -/
theorem Passes.value?_above (hj : j.Sound) (h : j.Passes p) (ho : p.outcome? i = some o)
    (hfree : ∀ blocker, o ≠ .blocked blocker) (hk : j.graph.Above k i) :
    ∃ o v, p.outcome? k = some o ∧ o.value? = some v := by
  induction i using hj.graph.wellFounded.induction generalizing o with
  | h i ih =>
      cases hsource : j.graph.source i with
      | none => exact absurd hk (Graph.not_above_of_root hsource)
      | some s =>
          cases hinput : j.resolveInput p i with
          | error blocker => exact absurd ((h i o (Or.inl ho) blocker).mpr hinput) (hfree blocker)
          | ok input =>
              obtain ⟨o', v, ho', hv⟩ := value?_of_resolveInput hinput hsource
              rcases (Graph.above_iff hsource).mp hk with rfl | habove
              · exact ⟨o', v, ho', hv⟩
              · refine ih s hsource ho' ?_ habove
                rintro blocker rfl
                simp [NodeOutcome.value?] at hv

/-- What is in the way of a node: its source has failed, or the source is blocked itself. -/
theorem Orderly.failed_or_blocked (hp : j.Orderly p) (hi : p.Settled i) {blocker : String}
    (h : j.resolveInput p i = .error blocker) :
    ∃ s, j.graph.source i = some s ∧ ((∃ f, p.outcome? s = some (.failed f)) ∧
      j.graph.name s = blocker ∨ p.outcome? s = some (.blocked blocker)) := by
  cases hsource : j.graph.source i with
  | none => simp [resolveInput, hsource] at h
  | some s =>
      obtain ⟨o, ho⟩ := Progress.settled_iff.mp (hp.settled_source (Or.inr hi) hsource)
      simp only [resolveInput, hsource, ho] at h
      cases o with
      | success v | cached v => simp at h
      | failed f => exact ⟨s, rfl, Or.inl ⟨⟨f, ho⟩, Except.error.inj h⟩⟩
      | blocked b => exact ⟨s, rfl, Or.inr (Except.error.inj h ▸ ho)⟩

/-- **A node that is blocked is below the node that blocks it,** which has failed, and all
nodes between the two are blocked by the same node. -/
theorem Passes.exists_failure (hj : j.Sound) (hp : j.Orderly p) (h : j.Passes p)
    {blocker : String} (ho : p.outcome? i = some (.blocked blocker)) :
    ∃ k f, j.graph.Above k i ∧ p.outcome? k = some (.failed f) ∧ j.graph.name k = blocker ∧
      ∀ n, j.graph.Above k n → j.graph.Above n i → p.outcome? n = some (.blocked blocker) := by
  induction i using hj.graph.wellFounded.induction with
  | h i ih =>
      obtain ⟨s, hsource, hs⟩ := hp.failed_or_blocked (Progress.settled_iff.mpr ⟨_, ho⟩)
        ((h i _ (Or.inl ho) blocker).mp rfl)
      rcases hs with ⟨⟨f, hf⟩, hname⟩ | hs
      · refine ⟨s, f, .single hsource, hf, hname, fun n hsn hni => ?_⟩
        -- Nothing is between a node and its source.
        rcases (Graph.above_iff hsource).mp hni with rfl | hns
        · exact absurd hsn hj.graph.not_above_self
        · exact absurd (hsn.trans hns) hj.graph.not_above_self
      · obtain ⟨k, f, habove, hf, hname, hbetween⟩ := ih s hsource hs
        refine ⟨k, f, habove.tail hsource, hf, hname, fun n hkn hni => ?_⟩
        rcases (Graph.above_iff hsource).mp hni with rfl | hns
        · exact hs
        · exact hbetween n hkn hns

/-- **A node is blocked exactly when a node above it has failed.** That node is the only one
above it that has failed, and the one that blocks it. All nodes between the two are blocked by
the same node, and all nodes above the failure have values. No step is called for a node that
is blocked, its artifact is not looked up and not stored, and its file stays as it is. The
schedule may give any results and may be cancelled at any time. -/
theorem blocked_by_the_one_failure_above {cancelled : Bool} (hj : j.Sound)
    (h : j.Leads (fun _ _ _ => True) ms (j.start cancelled) c p c') (hover : p.isOver = true)
    (hi : j.isSelected i = true) :
    ((∃ blocker, p.outcome? i = some (.blocked blocker)) ↔
      ∃ k f, j.graph.Above k i ∧ p.outcome? k = some (.failed f)) ∧
    ∀ blocker, p.outcome? i = some (.blocked blocker) →
      (∃ k f, j.graph.Above k i ∧ p.outcome? k = some (.failed f) ∧ j.graph.name k = blocker ∧
        (∀ n f, j.graph.Above n i → p.outcome? n = some (.failed f) → n = k) ∧
        (∀ n, j.graph.Above k n → j.graph.Above n i → p.outcome? n = some (.blocked blocker)) ∧
        ∀ n, j.graph.Above n k → ∃ o v, p.outcome? n = some o ∧ o.value? = some v) ∧
      (∀ m ∈ ms, ¬ m.Concerns i) ∧ i ∉ p.calls ∧ j.fileIn c' i = j.fileIn c i := by
  have hp := h.orderly hj
  have hpasses := h.passes hj
  refine ⟨⟨?_, ?_⟩, ?_⟩
  · rintro ⟨blocker, ho⟩
    obtain ⟨k, f, habove, hf, -⟩ := hpasses.exists_failure hj hp ho
    exact ⟨k, f, habove, hf⟩
  · rintro ⟨k, f, habove, hf⟩
    obtain ⟨o, ho⟩ := Progress.settled_iff.mp (hp.settled_of_isOver hj hover hi)
    by_contra hnot
    obtain ⟨o', v, ho', hv⟩ := hpasses.value?_above hj ho
      (fun blocker heq => hnot ⟨blocker, heq ▸ ho⟩) habove
    obtain rfl := Option.some.inj (ho'.symm.trans hf)
    simp [NodeOutcome.value?] at hv
  · intro blocker ho
    obtain ⟨k, f, habove, hf, hname, hbetween⟩ := hpasses.exists_failure hj hp ho
    have hvalues : ∀ n, j.graph.Above n k → ∃ o v, p.outcome? n = some o ∧ o.value? = some v :=
      fun n hn => hpasses.value?_above hj hf (by simp) hn
    refine ⟨⟨k, f, habove, hf, hname, ?_, hbetween, hvalues⟩, ?_⟩
    · intro n f' hn hf'
      rcases habove.linear hn with rfl | hkn | hnk
      · rfl
      · simp [hbetween n hkn hn] at hf'
      · obtain ⟨o, v, ho', hv⟩ := hvalues n hnk
        obtain rfl := Option.some.inj (ho'.symm.trans hf')
        simp [NodeOutcome.value?] at hv
    · have hstart := orderly_start hj cancelled
      have hnot : ∀ m ∈ ms, ¬ m.Concerns i := fun m =>
        h.not_concerns hj hstart ((hpasses i _ (Or.inl ho) blocker).mp rfl)
      exact ⟨hnot, h.of_not_concerns hj hstart (hj.lt_of_isSelected hi) hnot (by simp [start])⟩

end Job

/-- A command, and nodes that split its output into lines, these into words, and the words into
letters. -/
def Definition.NodeSet.logLetters : NodeSet :=
  .ofDistinct [⟨"log", none, .exec ⟨"cat log", [], none⟩⟩, ⟨"lines", some "log", .splitLines⟩,
    ⟨"words", some "lines", .splitLines⟩, ⟨"letters", some "words", .splitLines⟩] (by decide)

/-- The evaluation of all nodes of `Definition.NodeSet.logLetters` in two slots. -/
def Job.logLetters : Job where
  set := .logLetters
  graph := ⟨["log", "lines", "words", "letters"], [none, some 0, some 1, some 2], [0, 1, 2, 3]⟩
  archive := "sos"
  force := false
  limit := 2
  selected := [true, true, true, true]

theorem Job.sound_logLetters : Job.logLetters.Sound where
  graph_eq := rfl
  selected_length := rfl
  closed := Graph.closed_everything (Graph.sound_ofSet (s := .logLetters) rfl)

/-- The lines have failed, so that the letters are blocked by them, and so are the words
between the two. -/
theorem Job.logLetters_blocked_by_the_one_failure_above :
    logLetters.Sound ∧ ∃ ms p c', logLetters.Leads (fun _ _ _ => True) ms (logLetters.start false)
      (Cache.fresh "cache") p c' ∧ p.isOver = true ∧ logLetters.isSelected 3 = true ∧
      p.outcome? 3 = some (.blocked "lines") ∧ 3 ∉ p.calls ∧
      p.outcome? 2 = some (.blocked "lines") ∧
      ∃ o v, p.outcome? 0 = some o ∧ o.value? = some v := by
  obtain ⟨p, c', h⟩ := exists_finishes sound_logLetters oddLog (Cache.fresh "cache")
  obtain ⟨ms, hleads⟩ := h.leads
  have hlog : logLetters.graph.source 0 = none := rfl
  have hlines : logLetters.graph.source 1 = some 0 := rfl
  have hwords : logLetters.graph.source 2 = some 1 := rfl
  have hletters : logLetters.graph.source 3 = some 2 := rfl
  have hperform : ∀ input, logLetters.perform oddLog 0 input = .value (.bytes [255]) ∧
      logLetters.perform oddLog 1 input = .failure ⟨.decode, "no lines"⟩ := fun _ => ⟨rfl, rfl⟩
  have hblocked : p.outcome? 3 = some (.blocked "lines") := by
    have hselected : logLetters.isSelected 3 = true := rfl
    rw [h.outcome?_eq sound_logLetters (Cache.direct_fresh _ _), if_pos hselected]
    simp only [fate_of_source _ hletters, fate_of_source _ hwords, fate_of_source _ hlines,
      fate_of_root _ hlog, attempt, stored?_fresh, hperform, StepResult.outcome]
    rfl
  have hall : logLetters.Leads (fun _ _ _ => True) ms (logLetters.start false) _ p c' :=
    hleads.mono fun _ _ _ _ => trivial
  obtain ⟨⟨k, f, habove, hk, hname, hone, hbetween, hvalues⟩, -, hcalls, -⟩ :=
    (blocked_by_the_one_failure_above sound_logLetters hall h.isOver (i := 3) rfl).2 _ hblocked
  have hlt : k < logLetters.graph.size := sound_logLetters.lt_of_isSelected
    ((h.orderly sound_logLetters).isSelected_of_settled (Progress.settled_iff.mpr ⟨_, hk⟩))
  obtain rfl : k = 1 := Graph.name_injective sound_logLetters.graph_eq hlt (by decide) hname
  exact ⟨sound_logLetters, ms, p, c', hall, h.isOver, rfl, hblocked, hcalls,
    hbetween 2 (.single hwords) (.single hletters), hvalues 0 (.single hlines)⟩

end Distill

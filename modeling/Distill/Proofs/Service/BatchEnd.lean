import Distill.Proofs.Service.Batches

/-!
# The end of a batch

Every archive enters once and every run ends once, and in between a run makes at most four moves
for each node, so that no schedule of a batch goes on for ever. And as long as a batch is not over
there is something to do: an environment brings it to its end.

## Main definitions

* `Batch.remaining` — how many moves there can still be.

## Main statements

* `Service.LeadsBatch.length_le` — a schedule is no longer than what remains.
* `Service.Underway.exists_end` — a batch can always be brought to its end.
* `Service.leads_runMany` — an environment does so.
-/

namespace Distill

/-- How many moves there can still be over a graph of so many nodes: for each archive that waits
its entry, its end and four moves for each node. -/
def Batch.remaining (b : Batch) (size : Nat) : Nat :=
  b.waiting.length * (4 * size + 2) + (b.active.map fun r => r.job.remaining r.progress + 1).sum

/-- What is left out counts no longer. -/
theorem sum_map_filter_lt {α : Type} {f : α → Nat} {keep : α → Bool} {l : List α} {a : α}
    (ha : a ∈ l) (hkeep : keep a = false) (hpos : 0 < f a) :
    ((l.filter keep).map f).sum < (l.map f).sum := by
  induction l with
  | nil => simp at ha
  | cons b rest ih =>
      have hle : ((rest.filter keep).map f).sum ≤ (rest.map f).sum :=
        (List.filter_sublist.map f).sum_le_sum fun _ _ => Nat.zero_le _
      rw [List.map_cons, List.sum_cons]
      by_cases hb : keep b = true
      · rcases List.mem_cons.mp ha with rfl | ha
        · simp [hkeep] at hb
        · have := ih ha
          rw [List.filter_cons_of_pos hb, List.map_cons, List.sum_cons]
          omega
      · rw [List.filter_cons_of_neg hb]
        rcases List.mem_cons.mp ha with rfl | ha
        · omega
        · have := ih ha
          omega

namespace Service

variable {s : Service} {options : RunOptions} {R : RunRules} {archives : List String}
  {b b' : Batch} {c₀ c c' : Cache} {m : BatchMove} {ms : List BatchMove} {steps : StepFunction}

/-! ## What remains -/

theorem remaining_start (archives : List String) (size : Nat) :
    (Batch.start archives).remaining size = archives.length * (4 * size + 2) := by
  simp [Batch.remaining, Batch.start]

/-- An active run over the graph of the service. -/
theorem Underway.orderly (h : s.Underway options R archives c₀ b c)
    (hs : Graph.ofSet s.set = .ok s.graph) {place : Nat} {r : ActiveRun}
    (hrun : b.run? place = some r) : r.job.Sound ∧ r.job.Orderly r.progress := by
  obtain ⟨j, ms, p, d, rfl, -, -, -, -, hj, hleads, -⟩ := h.of_run? hs hrun
  exact ⟨hj, hleads.orderly hj⟩

/-- **Less remains after every move,** if none is a cancellation. -/
theorem Underway.remaining_lt (h : s.Underway options R archives c₀ b c)
    (hs : Graph.ofSet s.set = .ok s.graph) (hno : ∀ j p d, ¬ R.move j p d .cancel)
    (hmay : R.Allow b c m) (hm : s.MakesBatch options b c m b' c') :
    b'.remaining s.graph.size < b.remaining s.graph.size := by
  cases hm with
  | @refuse archive place rest e waiting slot job =>
      have hsum : ((b.active.filter (·.place != place)).map fun r =>
          r.job.remaining r.progress + 1).sum ≤
          (b.active.map fun r => r.job.remaining r.progress + 1).sum :=
        (List.filter_sublist.map _).sum_le_sum fun _ _ => Nat.zero_le _
      simp only [Batch.remaining, Batch.settle, waiting, List.length_cons, Nat.succ_mul]
      omega
  | @enter archive place rest j waiting slot job =>
      have hleft : j.remaining (j.start false) ≤ 4 * s.graph.size := by
        have hle := j.remaining_le (j.start false)
        rwa [(eq_of_job job).2.1] at hle
      simp only [Batch.remaining, waiting, List.length_cons, Nat.succ_mul, List.map_append,
        List.map_cons, List.map_nil, List.sum_append, List.sum_cons, List.sum_nil]
      omega
  | @within place m r p c' run makes =>
      obtain ⟨hj, hp⟩ := h.orderly hs run
      obtain ⟨hmem, rfl⟩ := Batch.mem_of_run? run
      have hcancel : m.isCancel = false := by
        cases m with
        | cancel => exact absurd (hmay r run) (hno _ _ _)
        | launch | begin | finish | settle => rfl
      have hlt := makes.remaining_lt hj hp hcancel
      refine Nat.add_lt_add_left ?_ _
      rw [Batch.setProgress, List.map_map]
      have hone : ∀ r' ∈ b.active, r'.place = r.place → r' = r := fun r' hr' hplace => by
        have hfind := find?_of_nodup h.nodup hr'
        rw [hplace] at hfind
        exact Option.some.inj (hfind.symm.trans run)
      refine List.sum_lt_sum _ _ ?_ ⟨r, hmem, ?_⟩
      · intro r' hr'
        simp only [Function.comp_apply]
        split
        · next hplace =>
          obtain rfl := hone r' hr' hplace
          exact Nat.succ_le_succ hlt.le
        · exact le_refl _
      · simp only [Function.comp_apply, if_true]
        exact Nat.succ_lt_succ hlt
  | @close place r run isOver =>
      obtain ⟨hmem, rfl⟩ := Batch.mem_of_run? run
      exact Nat.add_lt_add_left (sum_map_filter_lt hmem (by simp) (Nat.succ_pos _)) _

/-- **A schedule is no longer than what remains.** -/
theorem LeadsBatch.length_le (hs : Graph.ofSet s.set = .ok s.graph) (hnodup : archives.Nodup)
    (hdirect : ∀ archive ∈ archives, c₀.Direct archive) (hR : R.Local)
    (hno : ∀ j p d, ¬ R.move j p d .cancel) (hb : s.Underway options R archives c₀ b c)
    (h : s.LeadsBatch options R ms b c b' c') :
    ms.length + b'.remaining s.graph.size ≤ b.remaining s.graph.size := by
  induction h with
  | nil => simp
  | cons may makes rest ih =>
      have hm := makesBatch_of_moveBatch? makes
      have hlt := hb.remaining_lt hs hno may hm
      have htail := ih (hb.makes hs hnodup hdirect hR may hm)
      rw [List.length_cons]
      omega

/-! ## Going on -/

theorem not_computed_cancel (j : Job) (p : Progress) (d : Cache) :
    ¬ (RunRules.computed steps).move j p d .cancel := id

/-- The moves of a run of the batch. -/
theorem leads_within {j : Job} {p p' : Progress} {place : Nat} {moves : List Move}
    (h : j.Leads (R.move j) moves p c p' c') (hrun : b.run? place = some ⟨place, j, p⟩) :
    ∃ b', s.LeadsBatch options R (moves.map (.within place)) b c b' c' := by
  induction h generalizing b with
  | nil p c => exact ⟨b, .nil b c⟩
  | @cons m ms p p₁ p₂ c c₁ c₂ may makes rest ih =>
      have hrun' := Batch.run?_setProgress hrun p₁ place
      rw [if_pos rfl] at hrun'
      obtain ⟨b', hb'⟩ := ih hrun'
      have hmay : R.Allow b c (.within place m) := by
        intro r hr
        obtain rfl := Option.some.inj (hrun.symm.trans hr)
        exact may
      have hmakes : s.MakesBatch options b c (.within place m) (b.setProgress place p₁) c₁ :=
        .within hrun (Job.makes_of_move? makes)
      exact ⟨b', .cons hmay hmakes.moveBatch?_eq hb'⟩

/-- Moves of a schedule are made one after another. -/
theorem makeBatchMoves_eq (h : s.LeadsBatch options R ms b c b' c') :
    s.makeBatchMoves options b c ms = (b', c') := by
  induction h with
  | nil => rfl
  | cons may makes _ ih =>
      rw [← ih]
      simp only [makeBatchMoves, List.foldl_cons, makes, Option.getD_some]

/-- If no archive can enter and no run is active, no archive waits, for there is a slot. -/
theorem waiting_eq_nil (h : s.enter? options b = none) (hactive : b.active = []) :
    b.waiting = [] := by
  cases hwaiting : b.waiting with
  | nil => rfl
  | cons first rest =>
      have hslot : ¬ s.batchSlots options ≤ b.active.length := by
        rw [hactive, batchSlots, List.length_nil]
        omega
      rw [enter?, hwaiting] at h
      simp only [hslot, if_false] at h
      split at h <;> simp at h

variable {σ : Type} {env : Environment σ}

/-- At the end no move is made. -/
theorem nextBatchMoves_of_isOver (h : b.IsOver) (w : σ) :
    s.nextBatchMoves options env b w = ([], w) := by
  have hfull : s.enter? options b = none := by rw [enter?, h.1]
  simp only [nextBatchMoves, hfull, h.2, Option.isSome_none, Bool.false_eq_true, if_false]
  rfl

/-- **As long as a batch is not over, the next moves are a schedule** that is not empty. -/
theorem leads_nextBatchMoves (henv : env.Computes steps) (hs : Graph.ofSet s.set = .ok s.graph)
    (h : s.Underway options (.computed steps) archives c₀ b c) (hover : ¬ b.IsOver) (w : σ) :
    ∃ b' c', s.LeadsBatch options (.computed steps) (s.nextBatchMoves options env b w).1 b c b' c' ∧
      (s.nextBatchMoves options env b w).1 ≠ [] := by
  have hsingle : ∀ {m b' c'}, (RunRules.computed steps).Allow b c m →
      s.MakesBatch options b c m b' c' →
      s.LeadsBatch options (.computed steps) [m] b c b' c' :=
    fun hmay hm => .cons hmay hm.moveBatch?_eq (.nil _ _)
  cases henter : s.enter? options b with
  | some b' =>
      have hm : s.MakesBatch options b c .enter b' c :=
        makesBatch_of_moveBatch? (by rw [moveBatch?, henter]; rfl)
      have hnext : s.nextBatchMoves options env b w = ([.enter], w) := by
        simp only [nextBatchMoves, henter, Option.isSome_some, if_true]
        rfl
      rw [hnext]
      exact ⟨b', c, hsingle trivial hm, by simp⟩
  | none =>
      cases hactive : b.active with
      | nil =>
          exact absurd ⟨waiting_eq_nil henter hactive, hactive⟩ hover
      | cons r rest =>
          have hrun : b.run? r.place = some r := by simp [Batch.run?, hactive]
          obtain ⟨hj, hp⟩ := h.orderly hs hrun
          cases hend : r.progress.isOver with
          | true =>
              have hnext : s.nextBatchMoves options env b w = ([.close r.place], w) := by
                simp only [nextBatchMoves, henter, hactive, hend, Option.isSome_none,
                  Bool.false_eq_true, if_false, if_true]
                rfl
              rw [hnext]
              exact ⟨_, _, hsingle (fun _ _ => trivial) (.close hrun hend), by simp⟩
          | false =>
              have hnext : (s.nextBatchMoves options env b w).1 =
                  (env.nextMoves r.job r.progress w).1.map (.within r.place) := by
                simp only [nextBatchMoves, henter, hactive, hend, Option.isSome_none,
                  Bool.false_eq_true, if_false]
                rfl
              rw [hnext]
              obtain ⟨p', c', hleads, -, hlt⟩ := env.leads_nextMoves hj hp hend c w
              have hobeys : r.job.Leads ((RunRules.computed steps).move r.job)
                  (env.nextMoves r.job r.progress w).1 r.progress c p' c' :=
                hleads.mono fun _ _ _ => Job.obeys_of_performs henv
              obtain ⟨b', hb'⟩ := leads_within hobeys hrun
              refine ⟨b', c', hb', fun hnil => ?_⟩
              rw [List.map_eq_nil_iff] at hnil
              rw [hnil] at hleads
              cases hleads
              exact absurd hlt (lt_irrefl _)

section Rounds

variable (henv : env.Computes steps) (hs : Graph.ofSet s.set = .ok s.graph)
  (hnodup : archives.Nodup) (hdirect : ∀ archive ∈ archives, c₀.Direct archive)
include henv hs hnodup hdirect

/-- So many rounds come to the end, unless more remains. -/
theorem leads_advanceBatch (h : s.Underway options (.computed steps) archives c₀ b c) (n : Nat)
    (w : σ) :
    ∃ ms b' c', (s.advanceBatch options env n (b, c) w).1 = (b', c') ∧
      s.LeadsBatch options (.computed steps) ms b c b' c' ∧
      (b'.IsOver ∨ b'.remaining s.graph.size + n ≤ b.remaining s.graph.size) := by
  induction n generalizing b c w with
  | zero => exact ⟨[], b, c, rfl, .nil b c, Or.inr (le_refl _)⟩
  | succ n ih =>
      have hround : s.advanceBatch options env (n + 1) (b, c) w =
          s.advanceBatch options env n
            (s.makeBatchMoves options b c (s.nextBatchMoves options env b w).1)
            (s.nextBatchMoves options env b w).2 := rfl
      rw [hround]
      by_cases hover : b.IsOver
      · rw [nextBatchMoves_of_isOver hover]
        have hnone : s.makeBatchMoves options b c [] = (b, c) := rfl
        rw [hnone]
        obtain ⟨ms, b', c', heq, hleads, hend⟩ := ih h w
        refine ⟨ms, b', c', heq, hleads, Or.inl ?_⟩
        have hzero : b.remaining s.graph.size = 0 := by simp [Batch.remaining, hover.1, hover.2]
        have hlength := hleads.length_le hs hnodup hdirect (RunRules.local_computed steps)
          not_computed_cancel h
        obtain rfl : ms = [] := List.eq_nil_of_length_eq_zero (by omega)
        cases hleads
        exact hover
      · obtain ⟨b₁, c₁, hleads₁, hne⟩ := leads_nextBatchMoves henv hs h hover w
        have h₁ := hleads₁.underway hs hnodup hdirect (RunRules.local_computed steps) h
        have hlength := hleads₁.length_le hs hnodup hdirect (RunRules.local_computed steps)
          not_computed_cancel h
        have hpos := List.length_pos_of_ne_nil hne
        rw [makeBatchMoves_eq hleads₁]
        obtain ⟨ms, b', c', heq, hleads, hend⟩ := ih h₁ (s.nextBatchMoves options env b w).2
        refine ⟨_, b', c', heq, hleads₁.append hleads, hend.imp_right fun h => ?_⟩
        omega

/-- So many rounds as moves remain are enough. -/
theorem leads_advanceBatch_remaining (h : s.Underway options (.computed steps) archives c₀ b c)
    (w : σ) :
    ∃ ms b' c',
      (s.advanceBatch options env (b.remaining s.graph.size) (b, c) w).1 = (b', c') ∧
      s.LeadsBatch options (.computed steps) ms b c b' c' ∧ b'.IsOver := by
  obtain ⟨ms, b', c', heq, hleads, hend⟩ :=
    leads_advanceBatch henv hs hnodup hdirect h (b.remaining s.graph.size) w
  refine ⟨ms, b', c', heq, hleads, hend.elim id fun hzero => ?_⟩
  by_contra hover
  have h' := hleads.underway hs hnodup hdirect (RunRules.local_computed steps) h
  obtain ⟨b'', c'', hnext, hne⟩ := leads_nextBatchMoves henv hs h' hover w
  have hlength := hnext.length_le hs hnodup hdirect (RunRules.local_computed steps)
    not_computed_cancel h'
  have hpos := List.length_pos_of_ne_nil hne
  omega

/-- **An environment brings a batch to its end.** -/
theorem leads_runMany (options : RunOptions) (w : σ) :
    ∃ ms b c, s.LeadsBatch options (.computed steps) ms (.start archives) c₀ b c ∧ b.IsOver ∧
      (s.runMany options env archives c₀ w).1 = (b.answers archives, c) := by
  have hstart : s.Underway options (.computed steps) archives c₀ (.start archives) c₀ :=
    underway_start archives c₀
  obtain ⟨ms, b, c, heq, hleads, hover⟩ :=
    leads_advanceBatch_remaining henv hs hnodup hdirect hstart w
  refine ⟨ms, b, c, hleads, hover, ?_⟩
  rw [remaining_start] at heq
  have hrun : (s.runMany options env archives c₀ w).1 =
      ((s.advanceBatch options env (archives.length * (4 * s.graph.size + 2))
          (.start archives, c₀) w).1.1.answers archives,
        (s.advanceBatch options env (archives.length * (4 * s.graph.size + 2))
          (.start archives, c₀) w).1.2) := rfl
  rw [hrun, heq]

end Rounds

/-- **A batch can always be brought to its end.** -/
theorem Underway.exists_end (hs : Graph.ofSet s.set = .ok s.graph) (hnodup : archives.Nodup)
    (hdirect : ∀ archive ∈ archives, c₀.Direct archive)
    (h : s.Underway options (.computed steps) archives c₀ b c) :
    ∃ ms b' c', s.LeadsBatch options (.computed steps) ms b c b' c' ∧ b'.IsOver := by
  let env : Environment Unit :=
    { perform := fun archive node step input w => (steps archive node step input, w)
      cancels := fun _ _ _ => false }
  have henv : env.Computes steps := ⟨fun _ _ _ _ _ => rfl, fun _ _ _ => rfl⟩
  obtain ⟨ms, b', c', -, hleads, hover⟩ :=
    leads_advanceBatch_remaining henv hs hnodup hdirect h ()
  exact ⟨ms, b', c', hleads, hover⟩

end Service

end Distill

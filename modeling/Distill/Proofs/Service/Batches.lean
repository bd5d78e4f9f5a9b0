import Distill.Proofs.Execution.Apart
import Distill.Proofs.Service.Sessions
import Distill.Service.Batch

/-!
# Batches of archives

What happens in a batch, as a relation with one rule for each thing that can happen, and the
schedules that are made of it: the archives enter one after another, and the runs that have
entered go on in any order. In every state no more runs are active than there are slots, and what
has come about for an archive is what comes about when it is alone.

## Main definitions

* `RunRules` — what the runs of a batch may do.
* `Service.MakesBatch`, `Service.LeadsBatch` — moves and schedules.
* `Service.RunsAlone` — the run on an archive with nothing beside it.
* `Service.Stands`, `Service.Underway` — the invariant, for one archive and for the batch.

## Main statements

* `Service.Underway.makes` — every move keeps the invariant.
* `Service.LeadsBatch.underway` — it holds in every state of a schedule.
* `Service.Underway.answers` — at the end there is an answer for every archive, in their order.
-/

namespace Distill

/-! ## Views of a batch -/

namespace Batch

variable {b : Batch} {place k : Nat} {r : ActiveRun}

/-- No archive waits, and no run is active. -/
def IsOver (b : Batch) : Prop := b.waiting = [] ∧ b.active = []

theorem mem_of_run? (h : b.run? place = some r) : r ∈ b.active ∧ r.place = place := by
  refine ⟨List.mem_of_find?_eq_some h, ?_⟩
  simpa using List.find?_some h

theorem run?_eq_none_iff : b.run? place = none ↔ ∀ r ∈ b.active, r.place ≠ place := by
  simp [run?, List.find?_eq_none]

theorem run?_settle (k : Nat) (r : Except ServiceError Run) (place : Nat) :
    (b.settle k r).run? place = if place = k then none else b.run? place := by
  simp only [run?, settle, List.find?_filter]
  by_cases hk : place = k
  · rw [if_pos hk, List.find?_eq_none]
    intro r _
    simp [hk]
  · rw [if_neg hk]
    congr 1
    funext r
    by_cases hr : r.place = place <;> simp [hr, hk]

theorem run?_setProgress (h : b.run? k = some r) (p : Progress) (place : Nat) :
    (b.setProgress k p).run? place =
      if place = k then some { r with progress := p } else b.run? place := by
  simp only [run?, setProgress, List.find?_map]
  have hpred : ((fun r : ActiveRun => r.place == place) ∘
      fun r => if r.place = k then { r with progress := p } else r) =
      fun r => r.place == place := by
    funext r
    by_cases hr : r.place = k <;> simp [hr]
  rw [hpred]
  by_cases hk : place = k
  · subst hk
    rw [run?] at h
    have hr : r.place = place := by simpa using List.find?_some h
    simp [h, hr]
  · rw [if_neg hk]
    cases hfind : b.active.find? (·.place == place) with
    | none => rfl
    | some r =>
        have hr : r.place = place := by simpa using List.find?_some hfind
        simp [hr, hk]

theorem map_place_setProgress (b : Batch) (k : Nat) (p : Progress) :
    (b.setProgress k p).active.map (·.place) = b.active.map (·.place) := by
  rw [setProgress, List.map_map]
  refine List.map_congr_left fun r _ => ?_
  simp only [Function.comp_apply]
  split <;> rfl

theorem run?_append (r : ActiveRun) (waiting : List (String × Nat)) (place : Nat) :
    ({ b with waiting, active := b.active ++ [r] } : Batch).run? place =
      (b.run? place).or (if r.place = place then some r else none) := by
  simp only [run?, List.find?_append, List.find?_singleton, beq_iff_eq]

end Batch

/-! ## What may be done -/

/-- What the runs of a batch may do. -/
structure RunRules where
  /-- A run may make a move. -/
  move : Job → Progress → Cache → Move → Prop
  /-- A run with nothing left to do may end. -/
  close : Job → Progress → Cache → Prop

namespace RunRules

/-- A move of a batch may be made. -/
def Allow (R : RunRules) (b : Batch) (c : Cache) : BatchMove → Prop
  | .enter => True
  | .within place m => ∀ r, b.run? place = some r → R.move r.job r.progress c m
  | .close place => ∀ r, b.run? place = some r → R.close r.job r.progress c

/-- What a run may do depends on the part of the cache that is about its archive. -/
structure Local (R : RunRules) : Prop where
  move : ∀ {j p c d m}, c.Direct j.archive → c.AgreeOn j.archive d → R.move j p c m → R.move j p d m
  close : ∀ {j p c d}, c.AgreeOn j.archive d → R.close j p c → R.close j p d

/-- Steps give what they compute, and nothing cancels a run. -/
def computed (steps : StepFunction) : RunRules where
  move j := j.Obeys steps
  close _ _ _ := True

/-- Besides, everything can be stored. -/
def undisturbed (steps : StepFunction) (options : RunOptions) : RunRules where
  move j := j.Undisturbed steps
  close j p c := options.nodes = none →
    (c.putConclusions j.archive (j.report p).conclusions).1 = .ok ()

theorem local_computed (steps : StepFunction) : (computed steps).Local where
  move {j p c d m} _ _ h := by
    cases m <;> exact h
  close _ h := h

theorem local_undisturbed (steps : StepFunction) (options : RunOptions) :
    (undisturbed steps options).Local where
  move {j p c d m} hc hd h := by
    refine ⟨?_, Job.StoresAll.of_agreeOn h.2 hc hd⟩
    cases m <;> exact h.1
  close hd h hnodes := (hd.putConclusions _).1.symm.trans (h hnodes)

end RunRules

namespace Service

variable {s : Service} {options : RunOptions} {R R' : RunRules} {archives : List String}
  {archive : String} {b b' b₁ : Batch} {c₀ c c' c₁ : Cache} {m : BatchMove} {ms : List BatchMove}
  {place : Nat}

/-! ## Moves -/

/-- What a move of a batch does. -/
inductive MakesBatch (s : Service) (options : RunOptions) :
    Batch → Cache → BatchMove → Batch → Cache → Prop
  /-- The run on the first archive that waits cannot start. -/
  | refuse {b c archive place rest e} (waiting : b.waiting = (archive, place) :: rest)
      (slot : b.active.length < s.batchSlots options) (job : s.job options archive = .error e) :
      MakesBatch s options b c .enter ({ b with waiting := rest }.settle place (.error e)) c
  /-- The run on the first archive that waits takes a slot. -/
  | enter {b c archive place rest j} (waiting : b.waiting = (archive, place) :: rest)
      (slot : b.active.length < s.batchSlots options) (job : s.job options archive = .ok j) :
      MakesBatch s options b c .enter
        { b with waiting := rest, active := b.active ++ [⟨place, j, j.start false⟩] } c
  /-- A run goes on. -/
  | within {b c place m r p c'} (run : b.run? place = some r)
      (makes : r.job.Makes r.progress c m p c') :
      MakesBatch s options b c (.within place m) (b.setProgress place p) c'
  /-- A run with nothing left to do ends. -/
  | close {b c place r} (run : b.run? place = some r) (isOver : r.progress.isOver = true) :
      MakesBatch s options b c (.close place)
        (b.settle place (.ok (close options r.job r.progress c).1))
        (close options r.job r.progress c).2

/-- Every move that can be made follows one of the rules. -/
theorem makesBatch_of_moveBatch? (h : s.moveBatch? options b c m = some (b', c')) :
    s.MakesBatch options b c m b' c' := by
  cases m with
  | enter =>
      simp only [moveBatch?, enter?, Option.map_eq_some_iff, Prod.mk.injEq] at h
      obtain ⟨q, hq, rfl, rfl⟩ := h
      split at hq
      · simp at hq
      · next archive place rest hwaiting =>
        split at hq
        · simp at hq
        · next hslot =>
          split at hq
          · next e hjob =>
            rw [← Option.some.inj hq]
            exact .refuse hwaiting (Nat.not_le.mp hslot) hjob
          · next j hjob =>
            rw [← Option.some.inj hq]
            exact .enter hwaiting (Nat.not_le.mp hslot) hjob
  | within place m =>
      simp only [moveBatch?, bind, Option.bind_eq_some_iff, pure, Option.some.injEq,
        Prod.mk.injEq] at h
      obtain ⟨r, hrun, ⟨p, d⟩, hmove, rfl, rfl⟩ := h
      exact .within hrun (Job.makes_of_move? hmove)
  | close place =>
      simp only [moveBatch?, bind, Option.bind_eq_some_iff] at h
      obtain ⟨r, hrun, hclose⟩ := h
      split at hclose
      · next hover =>
        obtain ⟨rfl, rfl⟩ := Prod.mk.inj (Option.some.inj hclose)
        exact .close hrun hover
      · simp at hclose

/-- Every rule is a move that can be made. -/
theorem MakesBatch.moveBatch?_eq (h : s.MakesBatch options b c m b' c') :
    s.moveBatch? options b c m = some (b', c') := by
  cases h with
  | refuse hwaiting hslot hjob =>
      simp [moveBatch?, enter?, hwaiting, Nat.not_le.mpr hslot, hjob]
  | enter hwaiting hslot hjob =>
      simp [moveBatch?, enter?, hwaiting, Nat.not_le.mpr hslot, hjob]
  | within hrun hmakes => simp [moveBatch?, hrun, hmakes.move?_eq]
  | close hrun hover => simp [moveBatch?, hrun, hover]

/-! ## Schedules -/

/-- A schedule of moves of which each may be made. -/
inductive LeadsBatch (s : Service) (options : RunOptions) (R : RunRules) :
    List BatchMove → Batch → Cache → Batch → Cache → Prop
  | nil (b : Batch) (c : Cache) : LeadsBatch s options R [] b c b c
  | cons {m : BatchMove} {ms : List BatchMove} {b b₁ b₂ : Batch} {c c₁ c₂ : Cache}
      (may : R.Allow b c m) (makes : s.moveBatch? options b c m = some (b₁, c₁))
      (rest : LeadsBatch s options R ms b₁ c₁ b₂ c₂) :
      LeadsBatch s options R (m :: ms) b c b₂ c₂

/-- **What every move keeps, every schedule keeps.** -/
theorem LeadsBatch.induction {I : Batch → Cache → Prop}
    (step : ∀ {b c m b' c'}, I b c → R.Allow b c m → s.MakesBatch options b c m b' c' → I b' c')
    (h : s.LeadsBatch options R ms b c b' c') (start : I b c) : I b' c' := by
  induction h with
  | nil => exact start
  | cons may makes _ ih => exact ih (step start may (makesBatch_of_moveBatch? makes))

theorem LeadsBatch.append {ms' : List BatchMove} {b'' : Batch} {c'' : Cache}
    (h : s.LeadsBatch options R ms b c b' c') (h' : s.LeadsBatch options R ms' b' c' b'' c'') :
    s.LeadsBatch options R (ms ++ ms') b c b'' c'' := by
  induction h with
  | nil => exact h'
  | cons may makes _ ih => exact .cons may makes (ih h')

/-! ## Runs alone -/

/-- The run on an archive with nothing beside it: what it answers and the cache it leaves. -/
inductive RunsAlone (s : Service) (options : RunOptions) (R : RunRules) (archive : String)
    (c₀ : Cache) : Except ServiceError Run → Cache → Prop
  | refused {e} (job : s.job options archive = .error e) :
      RunsAlone s options R archive c₀ (.error e) c₀
  | evaluated {j ms p c} (job : s.job options archive = .ok j)
      (leads : j.Leads (R.move j) ms (j.start false) c₀ p c) (isOver : p.isOver = true)
      (may : R.close j p c) :
      RunsAlone s options R archive c₀ (.ok (close options j p c).1) (close options j p c).2

/-! ## One archive of a batch -/

/-- How far an archive has come in a batch. Whatever has been done about it has been done as in
a run alone, whose cache agrees on the archive. -/
inductive Stands (s : Service) (options : RunOptions) (R : RunRules) (c₀ : Cache) (b : Batch)
    (c : Cache) (place : Nat) (archive : String) : Prop
  | waits (waiting : (archive, place) ∈ b.waiting) (run : b.run? place = none)
      (result : b.results[place]? = some none) (same : c₀.AgreeOn archive c)
  | runs {j ms p d} (entered : (archive, place) ∉ b.waiting)
      (run : b.run? place = some ⟨place, j, p⟩) (result : b.results[place]? = some none)
      (job : s.job options archive = .ok j)
      (leads : j.Leads (R.move j) ms (j.start false) c₀ p d) (same : d.AgreeOn archive c)
  | answered {r d} (entered : (archive, place) ∉ b.waiting) (run : b.run? place = none)
      (result : b.results[place]? = some (some r)) (alone : s.RunsAlone options R archive c₀ r d)
      (same : d.AgreeOn archive c)

/-- What is done about other archives changes nothing for this one. -/
theorem Stands.frame (h : s.Stands options R c₀ b c place archive)
    (hwaiting : (archive, place) ∈ b'.waiting ↔ (archive, place) ∈ b.waiting)
    (hrun : b'.run? place = b.run? place) (hresult : b'.results[place]? = b.results[place]?)
    (hc : c.AgreeOn archive c') : s.Stands options R c₀ b' c' place archive := by
  cases h with
  | waits waiting run result same =>
      exact .waits (hwaiting.mpr waiting) (hrun.trans run) (hresult.trans result) (same.trans hc)
  | runs entered run result job leads same =>
      exact .runs (entered ∘ hwaiting.mp) (hrun.trans run) (hresult.trans result) job leads
        (same.trans hc)
  | answered entered run result alone same =>
      exact .answered (entered ∘ hwaiting.mp) (hrun.trans run) (hresult.trans result) alone
        (same.trans hc)

/-- The run of an archive, as far as it has come. -/
theorem Stands.of_run? (h : s.Stands options R c₀ b c place archive) {r : ActiveRun}
    (hrun : b.run? place = some r) : ∃ j ms p d, r = ⟨place, j, p⟩ ∧
      (archive, place) ∉ b.waiting ∧ b.results[place]? = some none ∧
      s.job options archive = .ok j ∧ j.Leads (R.move j) ms (j.start false) c₀ p d ∧
      d.AgreeOn archive c := by
  cases h with
  | runs entered run result job leads same =>
      exact ⟨_, _, _, _, Option.some.inj (hrun.symm.trans run), entered, result, job, leads, same⟩
  | waits _ run | answered _ run => simp [hrun] at run

/-! ## The batch -/

/-- What holds in every state of a batch that began with the cache `c₀`. -/
structure Underway (s : Service) (options : RunOptions) (R : RunRules) (archives : List String)
    (c₀ : Cache) (b : Batch) (c : Cache) : Prop where
  results_length : b.results.length = archives.length
  /-- The last archives wait. -/
  waiting : b.waiting <:+ archives.zipIdx
  slots : b.active.length ≤ s.batchSlots options
  nodup : (b.active.map (·.place)).Nodup
  place_lt : ∀ r ∈ b.active, r.place < archives.length
  stands : ∀ place archive, archives[place]? = some archive →
    s.Stands options R c₀ b c place archive
  others : ∀ archive ∉ archives, c₀.AgreeOn archive c

/-- **The invariant holds at the start.** -/
theorem underway_start (archives : List String) (c₀ : Cache) :
    s.Underway options R archives c₀ (.start archives) c₀ where
  results_length := List.length_map _
  waiting := List.suffix_refl _
  slots := Nat.zero_le _
  nodup := List.nodup_nil
  place_lt _ hr := absurd hr List.not_mem_nil
  stands place archive harchive := by
    refine .waits ?_ rfl ?_ (Cache.AgreeOn.refl _ _)
    · exact List.mem_zipIdx_iff_getElem?.mpr harchive
    · rw [Batch.start, List.getElem?_map, harchive, Option.map_some]
  others _ _ := Cache.AgreeOn.refl _ _

namespace Underway

variable (h : s.Underway options R archives c₀ b c)
include h

/-- The first archive that waits. -/
theorem of_waiting {rest : List (String × Nat)} (hwaiting : b.waiting = (archive, place) :: rest) :
    archives[place]? = some archive ∧ (archive, place) ∉ rest ∧ rest <:+ archives.zipIdx ∧
      b.run? place = none ∧ b.results[place]? = some none ∧ c₀.AgreeOn archive c := by
  have hsuffix := h.waiting
  rw [hwaiting] at hsuffix
  have hplace : archives[place]? = some archive :=
    List.mem_zipIdx_iff_getElem?.mp (hsuffix.subset List.mem_cons_self)
  have hnodup : archives.zipIdx.Nodup := by
    refine List.Nodup.of_map Prod.snd ?_
    rw [List.zipIdx_map_snd]
    exact List.nodup_range'
  have hnot := (List.nodup_cons.mp (hnodup.sublist hsuffix.sublist)).1
  refine ⟨hplace, hnot, (List.suffix_cons _ _).trans hsuffix, ?_⟩
  cases h.stands place archive hplace with
  | waits _ run result same => exact ⟨run, result, same⟩
  | runs entered | answered entered => exact absurd (by simp [hwaiting]) entered

/-- An active run has done what it does when it is alone. -/
theorem of_run? (hs : Graph.ofSet s.set = .ok s.graph) {r : ActiveRun}
    (hrun : b.run? place = some r) : ∃ j ms p d, r = ⟨place, j, p⟩ ∧
      archives[place]? = some j.archive ∧ (j.archive, place) ∉ b.waiting ∧
      b.results[place]? = some none ∧ s.job options j.archive = .ok j ∧ j.Sound ∧
      j.Leads (R.move j) ms (j.start false) c₀ p d ∧ d.AgreeOn j.archive c := by
  obtain ⟨hmem, rfl⟩ := Batch.mem_of_run? hrun
  have harchive := List.getElem?_eq_getElem (h.place_lt r hmem)
  obtain ⟨j, ms, p, d, hr, hentered, hresult, hjob, hleads, hsame⟩ :=
    (h.stands _ _ harchive).of_run? hrun
  obtain ⟨-, -, heq⟩ := eq_of_job hjob
  rw [← heq] at harchive hentered hjob hsame
  exact ⟨j, ms, p, d, hr, harchive, hentered, hresult, hjob, sound_job hs hjob, hleads, hsame⟩

/-- What holds after something has been done about one archive: the other archives stand where
they have stood. -/
theorem of_place {place : Nat} {archive : String} (hnodup : archives.Nodup)
    (harchive : archives[place]? = some archive)
    (hresults : b'.results.length = b.results.length) (hsuffix : b'.waiting <:+ archives.zipIdx)
    (hslots : b'.active.length ≤ s.batchSlots options)
    (hactive : (b'.active.map (·.place)).Nodup)
    (hplace : ∀ r ∈ b'.active, r.place < archives.length)
    (hwaiting : ∀ other k, k ≠ place → ((other, k) ∈ b'.waiting ↔ (other, k) ∈ b.waiting))
    (hrun : ∀ k, k ≠ place → b'.run? k = b.run? k)
    (hresult : ∀ k, k ≠ place → b'.results[k]? = b.results[k]?)
    (hc : ∀ other, other ≠ archive → c.AgreeOn other c')
    (hstands : s.Stands options R c₀ b' c' place archive) :
    s.Underway options R archives c₀ b' c' where
  results_length := hresults.trans h.results_length
  waiting := hsuffix
  slots := hslots
  nodup := hactive
  place_lt := hplace
  stands k other hother := by
    by_cases hk : k = place
    · subst hk
      obtain rfl := Option.some.inj (harchive.symm.trans hother)
      exact hstands
    · refine (h.stands k other hother).frame (hwaiting other k hk) (hrun k hk) (hresult k hk)
        (hc other ?_)
      rintro rfl
      have hlt := (List.getElem?_eq_some_iff.mp hother).1
      exact hk ((List.getElem?_inj hlt hnodup).mp (hother.trans harchive.symm))
  others other hother := by
    refine (h.others other hother).trans (hc other ?_)
    rintro rfl
    exact hother (List.mem_of_getElem? harchive)

/-- What holds after a run has ended as it ends when it is alone. -/
theorem settle {waiting : List (String × Nat)} {r : Except ServiceError Run} {d : Cache}
    (hnodup : archives.Nodup) (harchive : archives[place]? = some archive)
    (hsuffix : waiting <:+ archives.zipIdx)
    (hwaiting : ∀ other k, k ≠ place → ((other, k) ∈ waiting ↔ (other, k) ∈ b.waiting))
    (hentered : (archive, place) ∉ waiting)
    (hc : ∀ other, other ≠ archive → c.AgreeOn other c')
    (halone : s.RunsAlone options R archive c₀ r d) (hsame : d.AgreeOn archive c') :
    s.Underway options R archives c₀ ({ b with waiting }.settle place r) c' := by
  have hlt : place < b.results.length := by
    rw [h.results_length]
    exact (List.getElem?_eq_some_iff.mp harchive).1
  have hrun : ∀ k, ({ b with waiting }.settle place r).run? k =
      if k = place then none else b.run? k := Batch.run?_settle place r
  refine h.of_place hnodup harchive (List.length_set ..) hsuffix
    (Nat.le_trans (List.length_filter_le _ _) h.slots) (h.nodup.sublist (List.filter_sublist.map _))
    (fun r hr => h.place_lt r (List.mem_filter.mp hr).1) hwaiting
    (fun k hk => (hrun k).trans (if_neg hk)) (fun k hk => List.getElem?_set_ne (Ne.symm hk)) hc ?_
  exact .answered hentered ((hrun place).trans (if_pos rfl)) (List.getElem?_set_self hlt) halone
    hsame

/-- What holds after a run has taken a slot. -/
theorem enter {rest : List (String × Nat)} {j : Job} (hnodup : archives.Nodup)
    (hwaiting : b.waiting = (archive, place) :: rest)
    (hslot : b.active.length < s.batchSlots options) (hjob : s.job options archive = .ok j) :
    s.Underway options R archives c₀
      { b with waiting := rest, active := b.active ++ [⟨place, j, j.start false⟩] } c := by
  obtain ⟨harchive, hnot, hsuffix, hrun, hresult, hsame⟩ := h.of_waiting hwaiting
  have hlt := (List.getElem?_eq_some_iff.mp harchive).1
  have hmem : ∀ other k, k ≠ place → ((other, k) ∈ rest ↔ (other, k) ∈ b.waiting) :=
    fun other k hk => by simp [hwaiting, hk]
  refine h.of_place hnodup harchive rfl hsuffix ?_ ?_ ?_ hmem ?_ (fun k _ => rfl)
    (fun other _ => Cache.AgreeOn.refl c other) ?_
  · rw [List.length_append, List.length_singleton]
    exact hslot
  · rw [List.map_append, List.map_singleton, List.nodup_append]
    refine ⟨h.nodup, by simp, ?_⟩
    rintro k hk k' hk' rfl
    obtain ⟨r, hr, rfl⟩ := List.mem_map.mp hk
    exact Batch.run?_eq_none_iff.mp hrun r hr (List.mem_singleton.mp hk')
  · intro r hr
    rcases List.mem_append.mp hr with hr | hr
    · exact h.place_lt r hr
    · rwa [List.mem_singleton.mp hr]
  · intro k hk
    rw [Batch.run?_append, if_neg (Ne.symm hk), Option.or_none]
  · refine .runs hnot ?_ hresult hjob (.nil _ _) hsame
    rw [Batch.run?_append, hrun, if_pos rfl]
    rfl

/-- What holds after a run has gone on: beside it, the run alone goes on in the same way. -/
theorem within {r : ActiveRun} {move : Move} {p : Progress} (hs : Graph.ofSet s.set = .ok s.graph)
    (hnodup : archives.Nodup) (hdirect : ∀ archive ∈ archives, c₀.Direct archive) (hR : R.Local)
    (hrun : b.run? place = some r) (hmay : R.move r.job r.progress c move)
    (hmakes : r.job.Makes r.progress c move p c') :
    s.Underway options R archives c₀ (b.setProgress place p) c' := by
  obtain ⟨j, ms, q, d, rfl, harchive, hentered, hresult, hjob, hj, hleads, hsame⟩ :=
    h.of_run? hs hrun
  have hc := hsame.direct
    (hleads.explained hj (hdirect _ (List.mem_of_getElem? harchive))).direct
  obtain ⟨d', hmakes', hsame'⟩ := hmakes.of_agreeOn hc hsame.symm
  have hmay' : R.move j q d move := hR.move hc hsame.symm hmay
  have hplaces := b.map_place_setProgress place p
  refine h.of_place hnodup harchive rfl h.waiting ?_ (hplaces ▸ h.nodup) ?_
    (fun _ _ _ => Iff.rfl) (fun k hk => (Batch.run?_setProgress hrun p k).trans (if_neg hk))
    (fun k _ => rfl) (fun other hne => hmakes.agreeOn hne.symm) ?_
  · rw [Batch.setProgress, List.length_map]
    exact h.slots
  · intro r hr
    have hmem : r.place ∈ b.active.map (·.place) := hplaces ▸ List.mem_map_of_mem hr
    obtain ⟨r', hr', heq⟩ := List.mem_map.mp hmem
    exact heq ▸ h.place_lt r' hr'
  · exact .runs hentered ((Batch.run?_setProgress hrun p place).trans (if_pos rfl)) hresult hjob
      (hleads.append (.cons hmay' hmakes'.move?_eq (.nil _ _))) hsame'.symm

/-- **Every move keeps the invariant.** -/
theorem makes (hs : Graph.ofSet s.set = .ok s.graph) (hnodup : archives.Nodup)
    (hdirect : ∀ archive ∈ archives, c₀.Direct archive) (hR : R.Local) (hmay : R.Allow b c m)
    (hm : s.MakesBatch options b c m b' c') : s.Underway options R archives c₀ b' c' := by
  cases hm with
  | @refuse archive place rest e waiting slot job =>
      obtain ⟨harchive, hnot, hsuffix, -, -, hsame⟩ := h.of_waiting waiting
      exact h.settle hnodup harchive hsuffix (fun other k hk => by simp [waiting, hk]) hnot
        (fun other _ => Cache.AgreeOn.refl c other) (.refused job) hsame
  | enter waiting slot job => exact h.enter hnodup waiting slot job
  | within run makes => exact h.within hs hnodup hdirect hR run (hmay _ run) makes
  | @close place r run isOver =>
      obtain ⟨j, ms, q, d, rfl, harchive, hentered, hresult, hjob, hj, hleads, hsame⟩ :=
        h.of_run? hs run
      have hmay' : R.close j q d := hR.close hsame.symm (hmay _ run)
      have halone : s.RunsAlone options R j.archive c₀ (.ok (close options j q d).1)
          (close options j q d).2 := .evaluated hjob hleads isOver hmay'
      exact h.settle hnodup harchive h.waiting (fun _ _ _ => Iff.rfl) hentered
        (fun other hne => Job.agreeOn_close hne.symm options q c) halone
        (Job.close_of_agreeOn hsame rfl options)

end Underway

/-- **The invariant holds in every state of a schedule.** -/
theorem LeadsBatch.underway (hs : Graph.ofSet s.set = .ok s.graph) (hnodup : archives.Nodup)
    (hdirect : ∀ archive ∈ archives, c₀.Direct archive) (hR : R.Local)
    (h : s.LeadsBatch options R ms b c b' c') (hb : s.Underway options R archives c₀ b c) :
    s.Underway options R archives c₀ b' c' :=
  h.induction (fun hb hmay hm => hb.makes hs hnodup hdirect hR hmay hm) hb

/-! ## The end -/

/-- Results that are all known are answers in the order of the archives. -/
theorem forall₂_answers {P : String → Except ServiceError Run → Prop}
    {results : List (Option (Except ServiceError Run))} (hlength : results.length = archives.length)
    (h : ∀ (place : Nat) archive, archives[place]? = some archive →
      ∃ r, results[place]? = some (some r) ∧ P archive r) :
    List.Forall₂ (fun archive entry => entry.1 = archive ∧ P archive entry.2) archives
      ((archives.zip results).filterMap fun (archive, r) => r.map (archive, ·)) := by
  induction archives generalizing results with
  | nil => exact .nil
  | cons archive archives ih =>
      cases results with
      | nil => simp at hlength
      | cons result results =>
          obtain ⟨r, hr, hP⟩ := h 0 archive rfl
          obtain rfl : result = some r := Option.some.inj hr
          exact .cons ⟨rfl, hP⟩ (ih (Nat.succ.inj hlength) fun place other hother =>
            h (place + 1) other hother)

/-- **At the end there is an answer for every archive, in their order.** It is that of a run
alone, and what the cache holds for the archive is what this run leaves. -/
theorem Underway.answers (h : s.Underway options R archives c₀ b c) (hover : b.IsOver) :
    List.Forall₂ (fun archive entry => entry.1 = archive ∧ ∃ d,
      s.RunsAlone options R archive c₀ entry.2 d ∧ d.AgreeOn archive c)
      archives (b.answers archives) := by
  obtain ⟨hwaiting, hactive⟩ := hover
  refine forall₂_answers (P := fun archive r => ∃ d, s.RunsAlone options R archive c₀ r d ∧
    d.AgreeOn archive c) h.results_length fun place archive harchive => ?_
  cases h.stands place archive harchive with
  | waits waiting => simp [hwaiting] at waiting
  | runs _ run => simp [Batch.run?, hactive] at run
  | answered _ _ result alone same => exact ⟨_, result, _, alone, same⟩

end Service

end Distill

import Distill.Proofs.Cache.Layout
import Distill.Proofs.Execution.Propagation

/-!
# What runs do to files

A run changes the file of a node at most once, when the step of the node has ended or is
refused, and no other file. This holds of every cache, also of one with links: a file is
changed where it stands, while a value may be read from another place.

## Main definitions

* `Job.Files` — how the file of a node that has ended has come about.
* `Job.StoresAll` — moves whose results can be stored.

## Main statements

* `Job.Leads.fileAt_eq` — which files stay as they are.
* `Job.Leads.filed` — the files of nodes in every state of a schedule.
* `Job.Leads.fileIn_of_success`, `Job.Leads.fileIn_of_failure`, `Job.Leads.fileIn_of_panic`,
  `Job.Leads.fileIn_of_untried` — the file of a node by its end.
* `Job.Leads.storesAll_of_tidy` — caches in which everything can be stored.
* `Job.Leads.input_eq` — the value of a node is what its readers get.
-/

namespace Distill

/-! ## Storing a result -/

theorem Cache.fileAt_keep {archive node : String} {path : List String}
    (h : path ≠ Cache.artifactPath archive node) (c : Cache) (r : StepResult) :
    (c.keep archive node r).tree.fileAt path = c.tree.fileAt path := by
  cases r with
  | value v | failure f => exact (Cache.fileAt_put _ _ _ _).trans (if_neg fun hpath => h hpath.2)
  | panic text => rfl

/-- An artifact that can be stored has octets, and they are the file of its node. -/
theorem Cache.fileOf_put_of_ok {c : Cache} {archive : String} {a : Artifact}
    (h : (c.put archive a).1 = .ok ()) : ∃ data, Cache.encode a = .ok data ∧
      (c.put archive a).2.fileOf archive a.node = some data := by
  cases hencode : Cache.encode a with
  | error e => simp [Cache.put, hencode] at h
  | ok data =>
      refine ⟨data, rfl, ?_⟩
      rw [Cache.fileOf_put, if_pos ⟨h, rfl, rfl⟩, hencode]
      rfl

namespace Job

variable {j : Job} {p p' q : Progress} {c₀ c c' d : Cache} {m : Move} {ms ms' : List Move}
  {i k : Nat} {o : NodeOutcome} {f : Failure} {v : ArtifactValue} {path : List String}
  {allows : Progress → Cache → Move → Prop} {cancelled : Bool}

/-! ## Nodes that have ended -/

/-- No move concerns a node that has ended. -/
theorem Orderly.not_concerns_of_ended (hp : j.Orderly p) (hm : j.Makes p c m p' c')
    (h : p.Ended i o) : ¬ m.Concerns i := by
  intro hconcerns
  cases hm with
  | reuse task | refuse task | start task | finish task =>
      obtain rfl : _ = i := hconcerns
      exact hp.not_ended_of_task? task (by simp) h
  | launch | block | settle | cancel => exact hconcerns

/-- **A node that has ended in some state has ended in all later ones.** -/
theorem Leads.ended (hj : j.Sound) (hp : j.Orderly p) (h : j.Leads allows ms p c p' c')
    (hi : p.Ended i o) : p'.Ended i o := by
  induction h with
  | nil => exact hi
  | cons may makes rest ih =>
      have hm := makes_of_move? makes
      exact ih (hp.makes hj hm) (hp.ended_of_makes hj hm hi)

/-- A node whose step has given a result has ended with it. -/
theorem Leads.ended_of_finish {r : StepResult} (hj : j.Sound) (hp : j.Orderly p)
    (h : j.Leads allows ms p c p' c') (hi : .finish i r ∈ ms) : p'.Ended i r.outcome := by
  induction h with
  | nil => simp at hi
  | cons may makes rest ih =>
      have hm := makes_of_move? makes
      have hp' := hp.makes hj hm
      rcases List.mem_cons.mp hi with rfl | hi
      · cases hm with
        | finish task =>
            refine rest.ended hj hp' ?_
            exact (hp.ended_finished task (by simp) rfl rfl).mpr (Or.inr ⟨rfl, rfl⟩)
      · exact ih hp' hi

/-- The file of a node that has ended stays as it is. -/
theorem Leads.fileIn_of_ended (hj : j.Sound) (hp : j.Orderly p) (h : j.Leads allows ms p c p' c')
    (hi : p.Ended i o) : j.fileIn c' i = j.fileIn c i := by
  induction h with
  | nil => rfl
  | cons may makes rest ih =>
      have hm := makes_of_move? makes
      rw [ih (hp.makes hj hm) (hp.ended_of_makes hj hm hi),
        hm.fileIn_eq hj hp (hp.lt_of_ended hj hi) (hp.not_concerns_of_ended hm hi)]

/-! ## Files that stay -/

/-- A move changes no file but that of a node that has ended with it. -/
theorem Makes.fileAt_eq (hp : j.Orderly p) (h : j.Makes p c m p' c')
    (hpath : ∀ i o, p'.Ended i o → path ≠ Cache.artifactPath j.archive (j.graph.name i)) :
    c'.tree.fileAt path = c.tree.fileAt path := by
  cases h with
  | launch | block | reuse | start | settle | cancel => rfl
  | @refuse i input task =>
      refine Cache.fileAt_keep (hpath i (.failed .runCancelled) ?_) c _
      exact (hp.ended_finished task (by simp) rfl rfl).mpr (Or.inr ⟨rfl, rfl⟩)
  | @finish i input r task =>
      refine Cache.fileAt_keep (hpath i r.outcome ?_) c _
      exact (hp.ended_finished task (by simp) rfl rfl).mpr (Or.inr ⟨rfl, rfl⟩)

/-- **A schedule changes no files but those of nodes that have ended.** -/
theorem Leads.fileAt_eq (hj : j.Sound) (hp : j.Orderly p) (h : j.Leads allows ms p c p' c')
    (hpath : ∀ i o, p'.Ended i o → path ≠ Cache.artifactPath j.archive (j.graph.name i)) :
    c'.tree.fileAt path = c.tree.fileAt path := by
  induction h with
  | nil => rfl
  | cons may makes rest ih =>
      have hm := makes_of_move? makes
      have hp' := hp.makes hj hm
      rw [ih hp' hpath]
      exact hm.fileAt_eq hp fun i o hi => hpath i o (rest.ended hj hp' hi)

/-- The file of a node that has not ended is not that of a node that has. -/
theorem Orderly.artifactPath_ne (hj : j.Sound) (hp : j.Orderly p) (hi : i < j.graph.size)
    (hnot : ∀ o, ¬ p.Ended i o) : ∀ k o, p.Ended k o →
      Cache.artifactPath j.archive (j.graph.name i) ≠
        Cache.artifactPath j.archive (j.graph.name k) := by
  intro k o hk heq
  have hname := (Cache.artifactPath_inj.mp heq).2
  obtain rfl := Graph.name_injective hj.graph_eq hi (hp.lt_of_ended hj hk) hname
  exact hnot o hk

/-- The file of a node that has not ended is the one at the start. -/
theorem Leads.fileIn_of_not_ended (hj : j.Sound) (h : j.Leads allows ms (j.start cancelled) c₀ p c)
    (hi : i < j.graph.size) (hnot : ∀ o, ¬ p.Ended i o) : j.fileIn c i = j.fileIn c₀ i :=
  h.fileAt_eq hj (orderly_start hj cancelled) ((h.orderly hj).artifactPath_ne hj hi hnot)

/-- **A step that ends without any result leaves the file of its node as it was.** -/
theorem Leads.fileIn_of_panic (hj : j.Sound) (h : j.Leads allows ms (j.start cancelled) c₀ p c)
    (hi : Panics ms i) : j.fileIn c i = j.fileIn c₀ i := by
  obtain ⟨text, hi⟩ := hi
  obtain ⟨before, after, rfl⟩ := List.append_of_mem hi
  obtain ⟨q, d, hbefore, hafter⟩ := h.of_append
  have hq := hbefore.orderly hj
  cases hafter with
  | cons may makes rest =>
      have hm := makes_of_move? makes
      cases hm with
      | finish task =>
          -- At the moment of the panic the node has not ended, and then it has.
          have hnot : ∀ o, ¬ q.Ended i o := fun _ => hq.not_ended_of_task? task (by simp)
          have hended : (q.setStage i (.finished (StepResult.panic text).outcome)).Ended i
              (StepResult.panic text).outcome :=
            (hq.ended_finished task (by simp) rfl rfl).mpr (Or.inr ⟨rfl, rfl⟩)
          have hlt := hj.lt_of_isSelected (hq.isSelected_of_task? task)
          rw [rest.fileIn_of_ended hj (hq.makes hj (makes_of_move? makes)) hended]
          exact hbefore.fileIn_of_not_ended hj hlt hnot

/-! ## Files that change -/

/-- How the file of a node that has ended has come about. -/
inductive Files (j : Job) (allows : Progress → Cache → Move → Prop) (c₀ c : Cache) (i : Nat) :
    NodeOutcome → Prop
  | blocked {blocker : String} (same : j.fileIn c i = j.fileIn c₀ i) :
      Files j allows c₀ c i (.blocked blocker)
  | cached {v : ArtifactValue} (same : j.fileIn c i = j.fileIn c₀ i) :
      Files j allows c₀ c i (.cached v)
  /-- The result of the step has been stored, as far as the cache could. -/
  | done {r : StepResult} {q : Progress} {d : Cache} (may : allows q d (.finish i r))
      (after : j.fileIn c i = j.fileIn (d.keep j.archive (j.graph.name i) r) i) :
      Files j allows c₀ c i r.outcome
  /-- The step was not started any more, and that has been stored. -/
  | refused {q : Progress} {d : Cache} (may : allows q d (.begin i)) (before : q.cancelled = true)
      (stored : j.stored? d i = none)
      (after : j.fileIn c i =
        j.fileIn (d.keep j.archive (j.graph.name i) (.failure .runCancelled)) i) :
      Files j allows c₀ c i (.failed .runCancelled)

theorem Files.congr (h : j.Files allows c₀ c i o) (hfile : j.fileIn c' i = j.fileIn c i) :
    j.Files allows c₀ c' i o := by
  cases h with
  | blocked same => exact .blocked (hfile ▸ same)
  | cached same => exact .cached (hfile ▸ same)
  | done may after => exact .done may (hfile ▸ after)
  | refused may before stored after => exact .refused may before stored (hfile ▸ after)

/-- The files of nodes in a state, since the start with the cache `c₀`. -/
structure Filed (j : Job) (allows : Progress → Cache → Move → Prop) (c₀ : Cache) (p : Progress)
    (c : Cache) : Prop where
  untouched : ∀ i < j.graph.size, (∀ o, ¬ p.Ended i o) → j.fileIn c i = j.fileIn c₀ i
  ended : ∀ i o, p.Ended i o → j.Files allows c₀ c i o

theorem filed_start (cancelled : Bool) : j.Filed allows c₀ (j.start cancelled) c₀ where
  untouched _ _ _ := rfl
  ended _ _ ho := absurd ho (not_ended_start cancelled)

/-- An end that a move brings about has left its file. -/
theorem Filed.files_of_makes (hj : j.Sound) (hp : j.Orderly p) (h : j.Filed allows c₀ p c)
    (hmay : allows p c m) (hm : j.Makes p c m p' c') (hk : p'.Ended k o) :
    p.Ended k o ∨ j.Files allows c₀ c' k o := by
  have hbefore : ∀ {i t}, p.task? i = some t → (∀ o, t.stage ≠ .finished o) →
      j.fileIn c i = j.fileIn c₀ i := by
    intro i t htask hstage
    exact h.untouched i (hj.lt_of_isSelected (hp.isSelected_of_task? htask))
      fun _ => hp.not_ended_of_task? htask hstage
  cases hm with
  | launch => exact Or.inl (ended_launch.mp hk)
  | cancel => exact Or.inl hk
  | start task => exact Or.inl ((hp.ended_working task (by simp) rfl rfl).mp hk)
  | reuse task =>
      rcases (hp.ended_finished task (by simp) rfl rfl).mp hk with hold | ⟨rfl, rfl⟩
      · exact Or.inl hold
      · exact Or.inr (.cached (hbefore task (by simp)))
  | refuse task stored hcancelled =>
      rcases (hp.ended_finished task (by simp) rfl rfl).mp hk with hold | ⟨rfl, rfl⟩
      · exact Or.inl hold
      · exact Or.inr (.refused hmay hcancelled stored rfl)
  | finish task =>
      rcases (hp.ended_finished task (by simp) rfl rfl).mp hk with hold | ⟨rfl, rfl⟩
      · exact Or.inl hold
      · exact Or.inr (.done hmay rfl)
  | @block i rest blocker ready slot source =>
      have hmem : i ∈ p.ready := by simp [ready]
      have hplaced : i ∈ p.ready ++ p.running := List.mem_append_left _ hmem
      rcases (hp.ended_record (q := { p with ready := rest }) hj hplaced rfl
        (hp.mem_tasks_of_ready hmem)).mp hk with ⟨rfl, rfl⟩ | ⟨-, hold⟩
      · refine Or.inr (.blocked (h.untouched k ?_ fun _ => hp.not_ended_of_ready hmem))
        exact hj.lt_of_isSelected ((hp.placed_iff k).mp (Or.inl hplaced)).1
      · exact Or.inl hold
  | @settle i input o' full task =>
      rcases (hp.ended_record (q := { p with tasks := p.tasks.filter (·.node != i) }) hj
        (List.mem_append_right _ (Progress.mem_running_of_task? task)) rfl
        mem_tasks_filter).mp hk with ⟨rfl, rfl⟩ | ⟨-, hold⟩
      · exact Or.inl ((hp.ended_iff task).mpr rfl)
      · exact Or.inl hold

/-- **Every move keeps the invariant.** -/
theorem Filed.makes (hj : j.Sound) (hp : j.Orderly p) (h : j.Filed allows c₀ p c)
    (hmay : allows p c m) (hm : j.Makes p c m p' c') : j.Filed allows c₀ p' c' where
  untouched i hi hnot := by
    have hfile := hm.fileAt_eq hp ((hp.makes hj hm).artifactPath_ne hj hi hnot)
    exact hfile.trans (h.untouched i hi fun o ho => hnot o (hp.ended_of_makes hj hm ho))
  ended i o hi := by
    rcases h.files_of_makes hj hp hmay hm hi with hold | hnew
    · exact (h.ended i o hold).congr
        (hm.fileIn_eq hj hp (hp.lt_of_ended hj hold) (hp.not_concerns_of_ended hm hold))
    · exact hnew

/-- **The invariant holds in every state of a schedule.** -/
theorem Leads.filed (hj : j.Sound) (h : j.Leads allows ms (j.start cancelled) c₀ p c) :
    j.Filed allows c₀ p c := by
  refine (h.induction (I := fun q d => j.Orderly q ∧ j.Filed allows c₀ q d) ?_
    ⟨orderly_start hj cancelled, filed_start cancelled⟩).2
  rintro q d m q' d' ⟨hq, hfiled⟩ hmay hm
  exact ⟨hq.makes hj hm, hfiled.makes hj hq hmay hm⟩

/-! ## Files by the ends of nodes -/

/-- What moves store can be stored. -/
def StoresAll (j : Job) (p : Progress) (c : Cache) : Move → Prop
  | .begin i => p.cancelled = true → j.stored? c i = none →
      (c.put j.archive (.failed (j.graph.name i) .runCancelled)).1 = .ok ()
  | .finish i r => ∀ a, r.artifact? (j.graph.name i) = some a → (c.put j.archive a).1 = .ok ()
  | .launch | .settle _ | .cancel => True

/-- The value of a node whose step has given one is in its file. -/
theorem Leads.fileIn_of_success (hj : j.Sound)
    (h : j.Leads j.StoresAll ms (j.start cancelled) c₀ p c) (hi : p.Ended i (.success v)) :
    ∃ data, Cache.encode (.succeeded (j.graph.name i) v) = .ok data ∧
      j.fileIn c i = some data := by
  generalize ho : NodeOutcome.success v = o at hi
  cases (h.filed hj).ended i o hi with
  | blocked | cached | refused => simp at ho
  | @done r q d may after =>
      cases r with
      | failure | panic => simp [StepResult.outcome] at ho
      | value w =>
          obtain rfl := NodeOutcome.success.inj ho
          rw [after]
          exact Cache.fileOf_put_of_ok (may _ rfl)

/-- **The marker of a node that has failed is in its file** if failures can be stored, unless its
step has ended without any result. -/
theorem Leads.fileIn_of_failure (hj : j.Sound) (h : j.Leads allows ms (j.start cancelled) c₀ p c)
    (hrefusals : ∀ q d, allows q d (.begin i) → q.cancelled = true → j.stored? d i = none →
      (d.put j.archive (.failed (j.graph.name i) .runCancelled)).1 = .ok ())
    (hfailures : ∀ q d f, allows q d (.finish i (.failure f)) →
      (d.put j.archive (.failed (j.graph.name i) f)).1 = .ok ())
    (hi : p.Ended i (.failed f)) (hpanic : ¬ Panics ms i) :
    ∃ data, Cache.encode (.failed (j.graph.name i) f) = .ok data ∧ j.fileIn c i = some data := by
  generalize ho : NodeOutcome.failed f = o at hi
  cases (h.listed.filed hj).ended i o hi with
  | blocked | cached => simp at ho
  | @refused q d may before stored after =>
      obtain rfl := NodeOutcome.failed.inj ho
      rw [after]
      exact Cache.fileOf_put_of_ok (hrefusals q d may.1 before stored)
  | @done r q d may after =>
      cases r with
      | value w => simp [StepResult.outcome] at ho
      | panic text => exact absurd ⟨text, may.2⟩ hpanic
      | failure f' =>
          obtain rfl := NodeOutcome.failed.inj ho
          rw [after]
          exact Cache.fileOf_put_of_ok (hfailures q d f may.1)

/-- **The file of a node that was not tried stays as it was.** -/
theorem Leads.fileIn_of_untried (hj : j.Sound) (h : j.Leads allows ms (j.start cancelled) c₀ p c)
    (hi : p.Ended i o) (ho : ¬ o.IsTried) : j.fileIn c i = j.fileIn c₀ i := by
  cases (h.filed hj).ended i o hi with
  | blocked same | cached same => exact same
  | @done r => exact absurd r.isTried_outcome ho
  | refused => exact absurd trivial ho

/-! ## Caches that can store everything -/

theorem tidy_keep (hc : c.Tidy) (archive node : String) (r : StepResult) :
    (c.keep archive node r).Tidy := by
  cases r with
  | value v | failure f => exact hc.put archive _
  | panic text => exact hc

theorem Makes.tidy (hc : c.Tidy) (hm : j.Makes p c m p' c') : c'.Tidy := by
  cases hm with
  | launch | block | reuse | start | settle | cancel => exact hc
  | refuse | finish => exact tidy_keep hc _ _ _

/-- A run leaves a tidy cache. -/
theorem Leads.tidy (hc : c.Tidy) (h : j.Leads allows ms p c p' c') : c'.Tidy :=
  h.induction (I := fun _ d => d.Tidy) (fun hd _ hm => hm.tidy hd) hc

/-- In a tidy cache what a move stores can be stored, if no name is too long. -/
theorem Makes.storesAll_of_tidy (hp : j.Orderly p) (hc : c.Tidy)
    (hfits : ∀ i, j.isSelected i = true → Cache.Fits j.archive (j.graph.name i))
    (hm : j.Makes p c m p' c') : j.StoresAll p c m ∧ c'.Tidy := by
  have hput : ∀ {i t data} {a : Artifact}, p.task? i = some t → a.node = j.graph.name i →
      Cache.encode a = .ok data → (c.put j.archive a).1 = .ok () := by
    intro i t data a htask hnode hencode
    rw [hc.put_fst j.archive hencode, hnode, if_pos (hfits i (hp.isSelected_of_task? htask))]
  refine ⟨?_, hm.tidy hc⟩
  cases hm with
  | launch | block | settle | cancel => trivial
  | reuse task | start task | refuse task => exact fun _ _ => hput task rfl rfl
  | @finish i input r task =>
      intro a ha
      cases r with
      | value v | failure f =>
          obtain rfl := Option.some.inj ha
          exact hput task rfl rfl
      | panic text => simp [StepResult.artifact?] at ha

/-- **In a tidy cache everything can be stored,** if no name is too long. -/
theorem Leads.storesAll_of_tidy (hj : j.Sound) (hp : j.Orderly p) (hc : c.Tidy)
    (hfits : ∀ i, j.isSelected i = true → Cache.Fits j.archive (j.graph.name i))
    (h : j.Leads allows ms p c p' c') :
    j.Leads (fun q d m => allows q d m ∧ j.StoresAll q d m) ms p c p' c' ∧ c'.Tidy := by
  induction h with
  | nil p c => exact ⟨.nil p c, hc⟩
  | cons may makes rest ih =>
      have hm := makes_of_move? makes
      obtain ⟨hstores, htidy⟩ := hm.storesAll_of_tidy hp hc hfits
      obtain ⟨hrest, htidy'⟩ := ih (hp.makes hj hm) htidy
      exact ⟨.cons ⟨may, hstores⟩ makes hrest, htidy'⟩

/-! ## Values that are handed on -/

/-- **The value of a node is what its readers get,** in every state of a schedule. -/
theorem Leads.input_eq (hj : j.Sound) (hq : j.Orderly q) (h : j.Leads allows ms q d p c) {t : Task}
    (ht : t ∈ q.tasks) (hsource : j.graph.source t.node = some i) (ho : p.outcome? i = some o)
    (hv : o.value? = some v) : t.input = some v := by
  have hplaced : t.node ∈ q.ready ++ q.running := List.mem_append_right _ (List.mem_map_of_mem ht)
  have hsame := h.resolveInput_eq hj hq (Or.inl hplaced)
  rw [hq.input t ht, resolveInput_of_value? hsource ho hv] at hsame
  exact (Except.ok.inj hsame).symm

end Job

end Distill

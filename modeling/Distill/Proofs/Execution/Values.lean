import Distill.Proofs.Artifact.Conclusions
import Distill.Proofs.Cache.ArtifactFile
import Distill.Proofs.Execution.Effects

/-!
# Values that may stand for nodes

A value of a node comes from its step or from the cache, and every value in a cache that nothing
else has touched has come from a step. So what every step keeps to, as far as its values are read
back from their stored form, all values keep to: those of the nodes in every state of a run, and
those that can be read from the cache after any number of runs.

## Main definitions

* `Admits` — values that may stand for a node, also when they are read back.
* `Cache.Only` — tidy caches in which only such values can be read.
* `Job.Keeps` — states of a run in which all values are such.

## Main statements

* `Job.Orderly.origin_of_value` — where the value of a node comes from.
* `Cache.Only.keep`, `Cache.Only.putConclusions`, `Cache.Only.invalidate`, `Cache.Only.clear` —
  what can be done with such a cache.
* `Job.Leads.keeps` — the values in every state of a run.
-/

namespace Distill

/-- The value may stand for the node of the archive, and so may whatever is read of its stored
form. -/
def Admits (may : String → String → ArtifactValue → Prop) (archive node : String)
    (v : ArtifactValue) : Prop :=
  may archive node v ∧
    ∀ w, ArtifactValue.ofPayload? v.encoding v.payload = some w → may archive node w

namespace Cache

variable {may : String → String → ArtifactValue → Prop} {c c' : Cache} {archive node : String}

/-! ## Caches -/

/-- The value in the file of a success is what is read of its stored form. -/
theorem valueIn_withMarker (v : ArtifactValue) :
    valueIn node (withMarker (.succeeded node v.encoding) v.payload) =
      ArtifactValue.ofPayload? v.encoding v.payload := by
  rw [valueIn, decode, readMarker_withMarker]
  simp only [bind, Except.bind]
  cases ArtifactValue.ofPayload? v.encoding v.payload with
  | none => rfl
  | some w => simp [pure, Except.pure]

/-- Nothing but the cache has touched its files, and only values that may can be read. -/
structure Only (may : String → String → ArtifactValue → Prop) (c : Cache) : Prop where
  tidy : c.Tidy
  value : ∀ archive node v, c.success? archive node = some v → may archive node v

theorem only_fresh (location : String) : Only may (fresh location) :=
  ⟨tidy_fresh location, by simp⟩

/-- A value that can be read is the one in the file of its node. -/
theorem Tidy.fileOf_of_success? (hc : c.Tidy) {v : ArtifactValue}
    (h : c.success? archive node = some v) :
    ∃ data, c.fileOf archive node = some data ∧ valueIn node data = some v := by
  rw [success?_eq (hc.direct archive)] at h
  split at h
  · exact Option.bind_eq_some_iff.mp h
  · simp at h

/-- A cache whose files were there before, or hold values that may. -/
theorem Only.of_fileOf (hc : c.Only may) (hc' : c'.Tidy)
    (h : ∀ archive node data, c'.fileOf archive node = some data →
      c.fileOf archive node = some data ∨ ∀ v, valueIn node data = some v → may archive node v) :
    c'.Only may := by
  refine ⟨hc', fun archive node v hv => ?_⟩
  obtain ⟨data, hfile, hvalue⟩ := hc'.fileOf_of_success? hv
  rcases h archive node data hfile with hold | hnew
  · refine hc.value archive node v ?_
    rw [← hv]
    exact success?_congr (hc'.direct archive) (hc.tidy.direct archive) (hold.trans hfile.symm)
  · exact hnew v hvalue

/-- **A result can be stored,** if its value may stand for the node. -/
theorem Only.keep (hc : c.Only may) {r : StepResult}
    (hr : ∀ v, r = .value v → Admits may archive node v) : (c.keep archive node r).Only may := by
  refine hc.of_fileOf (Job.tidy_keep hc.tidy archive node r) fun archive' other data hfile => ?_
  -- A file that was put is the one of the node.
  have hput : ∀ a : Artifact, a.node = node →
      (c.put archive a).2.fileOf archive' other = some data →
      c.fileOf archive' other = some data ∨
        archive' = archive ∧ other = node ∧ (encode a).toOption = some data := by
    rintro a rfl hfile
    rw [fileOf_put] at hfile
    split at hfile
    · next h => exact Or.inr ⟨h.2.1, h.2.2, hfile⟩
    · exact Or.inl hfile
  cases r with
  | panic text => exact Or.inl hfile
  | failure f =>
      rcases hput _ rfl hfile with hold | ⟨rfl, rfl, hencode⟩
      · exact Or.inl hold
      · obtain rfl := Option.some.inj hencode
        refine Or.inr fun v hv => ?_
        rw [valueIn_failed] at hv
        simp at hv
  | value w =>
      rcases hput _ rfl hfile with hold | ⟨rfl, rfl, hencode⟩
      · exact Or.inl hold
      · obtain rfl := Option.some.inj hencode
        refine Or.inr fun v hv => ?_
        rw [Artifact.node_succeeded, valueIn_withMarker] at hv
        exact (hr w rfl).2 v hv

theorem Only.putConclusions (hc : c.Only may) (archive : String) (cs : List Conclusion) :
    (c.putConclusions archive cs).2.Only may :=
  hc.of_fileOf (hc.tidy.putConclusions archive cs) fun _ _ _ hfile =>
    Or.inl (by rwa [fileOf_putConclusions] at hfile)

theorem Only.invalidate (hc : c.Only may) (archive node : String) :
    (c.invalidate archive node).2.Only may := by
  refine hc.of_fileOf (hc.tidy.invalidate archive node) fun _ _ _ hfile => Or.inl ?_
  rw [fileOf_invalidate (hc.tidy.direct archive)] at hfile
  split at hfile
  · simp at hfile
  · exact hfile

theorem Only.clear (hc : c.Only may) (archive : String) : (c.clear archive).2.Only may := by
  refine hc.of_fileOf (hc.tidy.clear archive) fun _ _ _ hfile => Or.inl ?_
  rw [fileOf_clear (hc.tidy.direct archive)] at hfile
  split at hfile
  · simp at hfile
  · exact hfile

end Cache

namespace Job

variable {may : String → String → ArtifactValue → Prop} {j : Job} {p p' : Progress}
  {c₀ c c' : Cache} {m : Move} {i : Nat} {o : NodeOutcome} {v : ArtifactValue}
  {allows : Progress → Cache → Move → Prop} {ms : List Move}

/-! ## Runs -/

/-- **Where the value of a node comes from:** it was there before, or it is read from the cache, or
its step gives it. -/
theorem Orderly.origin_of_value (hj : j.Sound) (hp : j.Orderly p) (hm : j.Makes p c m p' c')
    (h : p'.Ended i o) (hv : o.value? = some v) :
    p.Ended i o ∨ j.stored? c i = some v ∨ m = .finish i (.value v) := by
  cases hm with
  | launch => exact Or.inl (ended_launch.mp h)
  | cancel => exact Or.inl h
  | start task => exact Or.inl ((hp.ended_working task (by simp) rfl rfl).mp h)
  | reuse task stored =>
      rcases (hp.ended_finished task (by simp) rfl rfl).mp h with hold | ⟨rfl, rfl⟩
      · exact Or.inl hold
      · exact Or.inr (Or.inl (stored.trans hv))
  | refuse task =>
      rcases (hp.ended_finished task (by simp) rfl rfl).mp h with hold | ⟨rfl, rfl⟩
      · exact Or.inl hold
      · simp [NodeOutcome.value?] at hv
  | @finish k input r task =>
      rcases (hp.ended_finished task (by simp) rfl rfl).mp h with hold | ⟨rfl, rfl⟩
      · exact Or.inl hold
      · cases r with
        | failure | panic => simp [StepResult.outcome, NodeOutcome.value?] at hv
        | value w =>
            obtain rfl := Option.some.inj hv
            exact Or.inr (Or.inr rfl)
  | @block k rest blocker ready slot source =>
      have hmem : k ∈ p.ready := by simp [ready]
      rcases (hp.ended_record (q := { p with ready := rest }) hj (List.mem_append_left _ hmem) rfl
        (hp.mem_tasks_of_ready hmem)).mp h with ⟨rfl, rfl⟩ | ⟨-, hold⟩
      · simp [NodeOutcome.value?] at hv
      · exact Or.inl hold
  | @settle k input o' full task =>
      have hplaced := List.mem_append_right p.ready (Progress.mem_running_of_task? task)
      rcases (hp.ended_record (q := { p with tasks := p.tasks.filter (·.node != k) }) hj hplaced rfl
        mem_tasks_filter).mp h with ⟨rfl, rfl⟩ | ⟨-, hold⟩
      · exact Or.inl ((hp.ended_iff task).mpr rfl)
      · exact Or.inl hold

/-- All values are such as may stand for their nodes: those that can be read from the cache, and
those of the nodes that have ended. -/
structure Keeps (j : Job) (may : String → String → ArtifactValue → Prop) (p : Progress)
    (c : Cache) : Prop where
  only : c.Only may
  ended : ∀ i o v, p.Ended i o → o.value? = some v → may j.archive (j.graph.name i) v

theorem keeps_start (hc : c.Only may) (cancelled : Bool) : j.Keeps may (j.start cancelled) c :=
  ⟨hc, fun _ _ _ ho => absurd ho (not_ended_start cancelled)⟩

/-- What a task reads is the value of its source. -/
theorem Keeps.input (h : j.Keeps may p c) (hp : j.Orderly p) {t : Task} (ht : t ∈ p.tasks)
    (hv : t.input = some v) :
    ∃ k, j.graph.source t.node = some k ∧ may j.archive (j.graph.name k) v := by
  have hinput := hp.input t ht
  cases hk : j.graph.source t.node with
  | none =>
      rw [resolveInput, hk, hv] at hinput
      simp at hinput
  | some k =>
      obtain ⟨o, w, ho, hw⟩ := value?_of_resolveInput hinput hk
      rw [resolveInput_of_value? hk ho hw, Except.ok.injEq, hv] at hinput
      obtain rfl := Option.some.inj hinput
      exact ⟨k, rfl, h.ended k o w (Or.inl ho) hw⟩

/-- **Every move keeps to such values,** if the value that a step gives is one. -/
theorem Keeps.makes (hj : j.Sound) (hp : j.Orderly p) (h : j.Keeps may p c)
    (hm : j.Makes p c m p' c')
    (hgives : ∀ i v, m = .finish i (.value v) → Admits may j.archive (j.graph.name i) v) :
    j.Keeps may p' c' := by
  refine ⟨?_, fun i o v ho hv => ?_⟩
  · cases hm with
    | launch | block | reuse | start | settle | cancel => exact h.only
    | refuse => exact h.only.keep (by simp)
    | @finish i input r =>
        refine h.only.keep fun v hr => hgives i v ?_
        rw [hr]
  · rcases hp.origin_of_value hj hm ho hv with hold | hstored | hfinish
    · exact h.ended i o v hold hv
    · exact h.only.value _ _ _ (success?_of_stored? hstored)
    · exact (hgives i v hfinish).1

/-- **Every run keeps to such values,** if its steps do as long as all values are such. -/
theorem Leads.keeps (hj : j.Sound) {cancelled : Bool} (hc : c₀.Only may)
    (hgives : ∀ p c i v t, j.Orderly p → j.Keeps may p c → p.task? i = some t →
      allows p c (.finish i (.value v)) → Admits may j.archive (j.graph.name i) v)
    (h : j.Leads allows ms (j.start cancelled) c₀ p c) : j.Keeps may p c := by
  refine (h.induction (I := fun q d => j.Orderly q ∧ j.Keeps may q d) ?_
    ⟨orderly_start hj cancelled, keeps_start hc cancelled⟩).2
  rintro q d m q' d' ⟨hq, hkeeps⟩ hmay hm
  refine ⟨hq.makes hj hm, hkeeps.makes hj hq hm fun i v heq => ?_⟩
  subst heq
  cases hm with
  | finish task => exact hgives q d i v _ hq hkeeps task hmay

end Job

end Distill

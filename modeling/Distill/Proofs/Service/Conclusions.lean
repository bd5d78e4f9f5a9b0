import Distill.Proofs.Cache.Directory
import Distill.Proofs.Cache.Interrupted
import Distill.Proofs.Service.Histories

/-!
# Stored conclusions follow the last full run

What a cache answers about the conclusions of an archive depends on two kinds of operations only:
the last run of all nodes of this archive has left its conclusions, unless the archive was cleared
since. Runs of some of the nodes, artifacts that are dropped and whatever is done with other
archives change nothing of it; whether the run was forced or cancelled, and whether nodes have
failed, does not matter. Durations are printed and read, which may change them.

## Main definitions

* `Operation.lastFull` — the report of the last full run of an archive since it was cleared.
* `Service.Recorded` — what the cache holds of the conclusions of the archives.

## Main statements

* `Service.Recorded.next` — every operation keeps the record.
* `Service.conclusions_follow_the_last_full_run` — the answers about the conclusions of an archive.
-/

namespace Distill

open FileTree (IsShort)

namespace Operation

/-! ## The last full run -/

/-- The operation is a run of all nodes of the archive, or clears it. -/
def Concludes (archive : String) : Operation → Prop
  | run options report => options.nodes = none ∧ report.archive = archive
  | clear other => other = archive
  | refused _ _ | invalidate _ _ | list _ => False

/-- The report of the last run of all nodes of an archive since it was cleared, if there was one.
The latest operation stands first. -/
def lastFull (archive : String) : List Operation → Option Report
  | [] => none
  | run options report :: earlier =>
    if options.nodes = none ∧ report.archive = archive then some report
    else lastFull archive earlier
  | clear other :: earlier => if other = archive then none else lastFull archive earlier
  | refused _ _ :: earlier | invalidate _ _ :: earlier | list _ :: earlier =>
    lastFull archive earlier

variable {archive : String} {op : Operation} {history : List Operation}

/-- Other operations do not count. -/
theorem lastFull_cons_of_not (h : ¬ op.Concludes archive) :
    lastFull archive (op :: history) = lastFull archive history := by
  cases op with
  | run => exact if_neg h
  | clear => exact if_neg h
  | refused | invalidate | list => rfl

end Operation

/-! ## Conclusions that are read back -/

namespace Job

variable {j : Job} {p : Progress}

/-- The conclusions of a run can be stored and read if the values of its nodes can. -/
theorem lasting_of_mem_conclusions
    (hvalues : ∀ i o v, p.Ended i o → o.value? = some v → v.IfConclusion Conclusion.Lasting) :
    ∀ d ∈ j.conclusions p, d.Lasting := by
  intro d hd
  rw [conclusions, List.mem_filterMap] at hd
  obtain ⟨⟨n, i⟩, -, hd⟩ := hd
  obtain ⟨a, -, rfl⟩ := Option.map_eq_some_iff.mp hd
  rw [conclusionOf]
  split
  · next d hvalue =>
    obtain ⟨o, ho, hv⟩ := Option.bind_eq_some_iff.mp hvalue
    exact hvalues i o _ (Or.inl ho) hv d rfl
  · exact Conclusion.lasting_unevaluated _ _ _ _

end Job

namespace Service

variable {s : Service} {op : Operation} {c c' : Cache} {archive : String}
  {history : List Operation}

/-- Conclusions that can be stored and read may stand for any node. -/
theorem gives_lasting (s : Service) :
    s.Gives (Job.Upholds Conclusion.Lasting) fun _ _ v => v.IfConclusion Conclusion.Lasting := by
  intro options archive j p c i v t _ hp hkeeps htask hmay
  have hv := hkeeps.ifConclusion hp (fun _ _ _ => id) htask hmay
  exact ⟨hv, fun w hw => ArtifactValue.lasting_of_ofPayload? hv hw⟩

/-- What the cache holds of the conclusions of the archives: those of their last full runs. -/
structure Recorded (history : List Operation) (c : Cache) : Prop where
  only : c.Only fun _ _ v => v.IfConclusion Conclusion.Lasting
  file : ∀ archive, IsShort (Cache.encodeName archive) → c.conclusionsOf archive =
    (Operation.lastFull archive history).map fun r => Cache.encodeConclusions r.conclusions
  report : ∀ archive r, Operation.lastFull archive history = some r →
    r.archive = archive ∧ ∀ d ∈ r.conclusions, d.Lasting

/-- An operation that leaves the conclusions of the archives as they are. -/
theorem Recorded.next_of_not (h : Recorded history c)
    (honly : c'.Only fun _ _ v => v.IfConclusion Conclusion.Lasting)
    (hnot : ∀ archive, ¬ op.Concludes archive)
    (hfile : ∀ archive, c'.conclusionsOf archive = c.conclusionsOf archive) :
    Recorded (op :: history) c' where
  only := honly
  file archive hshort := by
    rw [hfile, Operation.lastFull_cons_of_not (hnot archive)]
    exact h.file archive hshort
  report archive r hr := by
    rw [Operation.lastFull_cons_of_not (hnot archive)] at hr
    exact h.report archive r hr

/-- An archive that is cleared has no conclusions. -/
theorem Recorded.clear (h : Recorded history c) (archive : String) :
    Recorded (.clear archive :: history) (c.clear archive).2 := by
  refine ⟨h.only.clear archive, fun other hshort => ?_, fun other r hr => ?_⟩
  · rw [Cache.conclusionsOf_clear (h.only.tidy.direct archive), Operation.lastFull,
      h.file other hshort]
    by_cases hother : other = archive
    · -- The archive has a name that fits, so that it can be cleared.
      subst hother
      rcases h.only.tidy.clear_fst other with hok | ⟨hlong, -⟩
      · rw [if_pos ⟨hok, rfl⟩, if_pos rfl, Option.map_none]
      · exact absurd hshort hlong
    · rw [if_neg fun hand => hother hand.2, if_neg (Ne.symm hother)]
  · rw [Operation.lastFull] at hr
    split at hr
    · simp at hr
    · exact h.report other r hr

/-- A run that has left the conclusions as they were until its end replaces those of its archive
if it is a full run. -/
theorem Recorded.close {options : RunOptions} {j : Job} {p : Progress} {c₁ : Cache}
    (h : Recorded history c)
    (honly : c₁.Only fun _ _ v => v.IfConclusion Conclusion.Lasting)
    (hsame : ∀ other, c₁.conclusionsOf other = c.conclusionsOf other)
    (hlasting : ∀ d ∈ j.conclusions p, d.Lasting) :
    Recorded (.run options (j.report p) :: history) (Service.close options j p c₁).2 := by
  by_cases hnodes : options.nodes = none
  · have hclose : (Service.close options j p c₁).2 =
        (c₁.putConclusions j.archive (j.report p).conclusions).2 := by
      simp only [Service.close, hnodes, Option.isSome_none, Bool.false_eq_true, if_false]
    rw [hclose]
    refine ⟨honly.putConclusions _ _, fun other hshort => ?_, fun other r hr => ?_⟩
    · rw [Cache.conclusionsOf_putConclusions, hsame, honly.tidy.putConclusions_fst,
        Operation.lastFull, h.file other hshort]
      by_cases hother : other = j.archive
      · rw [if_pos ⟨if_pos (hother ▸ hshort), hother⟩, if_pos ⟨hnodes, hother.symm⟩]
        rfl
      · rw [if_neg fun hand => hother hand.2, if_neg fun hand => hother hand.2.symm]
    · rw [Operation.lastFull] at hr
      split at hr
      · next hfull =>
        obtain rfl := Option.some.inj hr
        exact ⟨hfull.2, hlasting⟩
      · exact h.report other r hr
  · have hclose : (Service.close options j p c₁).2 = c₁ := by
      rw [Service.close, if_pos (Option.isSome_iff_ne_none.mpr hnodes)]
    rw [hclose]
    exact h.next_of_not honly (fun _ hand => hnodes hand.1) hsame

/-- **Every operation keeps the record:** a full run replaces the conclusions of its archive, an
archive that is cleared has none, and nothing else changes them. -/
theorem Recorded.next (hs : s.Sound) (h : Recorded history c)
    (hdoes : s.Does (Job.Upholds Conclusion.Lasting) op c c') : Recorded (op :: history) c' := by
  have honly := hdoes.only hs s.gives_lasting h.only
  cases hdoes with
  | refused | list => exact h.next_of_not honly (fun _ => id) fun _ => rfl
  | invalidate archive node =>
      refine h.next_of_not honly (fun _ => id) fun other => ?_
      rw [Service.invalidate]
      split
      · exact Cache.conclusionsOf_invalidate (h.only.tidy.direct archive) node other
      · rfl
  | clear archive => exact h.clear archive
  | @run options archive j ms cancelled p c c₁ hjob hleads hover =>
      have hj := sound_job hs hjob
      have hkeeps := hleads.keeps hj h.only fun q d i v t hq hk htask hmay =>
        s.gives_lasting options archive j q d i v t hjob hq hk htask hmay
      have hsame : ∀ other, c₁.conclusionsOf other = c.conclusionsOf other := fun other =>
        hleads.fileAt_eq hj (Job.orderly_start hj cancelled) fun _ _ _ =>
          Cache.conclusionsPath_ne_artifactPath
      exact h.close hkeeps.only hsame (Job.lasting_of_mem_conclusions hkeeps.ended)

/-- **The record is right after every session.** -/
theorem recorded_of_session {location : String}
    (h : Session Service.Sound (Job.Upholds Conclusion.Lasting) location history c) :
    Recorded history c := by
  induction h with
  | start =>
      refine ⟨Cache.only_fresh location, fun archive _ => ?_, fun archive r hr => ?_⟩
      · rw [Cache.conclusionsOf, FileTree.fileAt, Cache.tree_fresh,
          FileTree.look_empty (by simp [Cache.conclusionsPath_eq])]
        rfl
      · simp [Operation.lastFull] at hr
  | next service _ does ih => exact ih.next service does

/-! ## Answers -/

/-- **The conclusions of an archive are those of its last full run,** as they are read. -/
theorem Recorded.conclusions (h : Recorded history c)
    (hshort : IsShort (Cache.encodeName archive)) :
    c.conclusions archive = .ok ((Operation.lastFull archive history).map fun r =>
      r.conclusions.map Conclusion.reread) := by
  have hfile := h.file archive hshort
  have hplace : Cache.Place (Cache.conclusionsPath archive) (.file []) := .conclusions archive []
  rw [Cache.conclusions]
  cases hlast : Operation.lastFull archive history with
  | none =>
      rw [hlast] at hfile
      rcases h.only.tidy.readFile?_of_none hplace hfile with hnone | ⟨⟨name, hname, hlong⟩, -⟩
      · rw [hnone]
        rfl
      · exact absurd (Cache.isShort_conclusionsPath_iff.mpr hshort name hname) hlong
  | some r =>
      rw [hlast] at hfile
      obtain ⟨-, hlasting⟩ := h.report archive r hlast
      have hdecode := Cache.decodeConclusions?_of_isRead fun d hd => (hlasting d hd).isRead
      rw [h.only.tidy.readFile?_of_file hplace hfile]
      simp [bind, Except.bind, pure, Except.pure, hdecode]

/-- The summary tells of the conclusions that are stored. -/
theorem summary_of_conclusions {answer : Except CacheError (Option (List Conclusion))}
    (h : c.conclusions archive = answer) :
    c.summary archive = answer.map fun cs =>
      { archive, analysed := cs.isSome, conclusions := cs.elim {} LevelCounts.ofConclusions } := by
  rw [Cache.summary, h]
  cases answer with
  | error e => rfl
  | ok cs => cases cs <;> rfl

/-- What is read of conclusions counts as they do. -/
theorem ofConclusions_reread (cs : List Conclusion) :
    LevelCounts.ofConclusions (cs.map Conclusion.reread) = LevelCounts.ofConclusions cs := by
  rw [LevelCounts.ofConclusions, LevelCounts.ofConclusions, List.filter_map, List.foldl_map]
  rfl

/-- **Stored conclusions follow the last full run.** After every session of services on a cache
that was empty, with runs of all nodes or of some, forced or not and cancelled at any time, with
artifacts that are dropped or listed and archives that are cleared, the conclusions of an archive
are those of its last full run since it was cleared, and there are none if there was no such run.
They are as they are read: a duration may be another one after it was printed. The archive is shown
as analysed exactly if there was such a run, with the counts of its report, and else with no counts.
No other operation changes either answer. Steps may give anything, fail or end without any result;
a conclusion must be one that can be stored and read if the one that the step reads is, which holds
of all steps as they run on a host, whatever time they take.

The name of the archive must not be too long for a directory, so that its conclusions can be
stored; otherwise there is no answer once the cache has a directory. The third part is about runs
of a service with an environment: each of them is such an operation. -/
theorem conclusions_follow_the_last_full_run {location : String}
    (h : Session Service.Sound (Job.Upholds Conclusion.Lasting) location history c)
    (archive : String) :
    (IsShort (Cache.encodeName archive) →
      c.conclusions archive = .ok ((Operation.lastFull archive history).map fun r =>
        r.conclusions.map Conclusion.reread) ∧
      c.summary archive = .ok
        { archive
          analysed := (Operation.lastFull archive history).isSome
          conclusions := (Operation.lastFull archive history).elim {} Report.counts } ∧
      (∀ r, Operation.lastFull archive history = some r → c.summary archive = .ok r.summary) ∧
      ∀ (s : Service) op c', s.Sound → s.Does (Job.Upholds Conclusion.Lasting) op c c' →
        ¬ op.Concludes archive →
        c'.conclusions archive = c.conclusions archive ∧ c'.summary archive = c.summary archive) ∧
    (¬ IsShort (Cache.encodeName archive) →
      c.conclusions archive =
        (if c.root.isNone then .ok none else .error (.io .nameTooLong)) ∧
      c.summary archive =
        (if c.root.isNone then .ok { archive, analysed := false, conclusions := {} }
          else .error (.io .nameTooLong))) ∧
    (∀ (σ : Type) (env : Environment σ), env.Upholds Conclusion.Lasting →
      ∀ (s : Service) options other cancelled w, s.Sound →
        s.Does (Job.Upholds Conclusion.Lasting)
          (.ofRun options other (s.run env options other cancelled c w).1.1) c
          (s.run env options other cancelled c w).1.2) ∧
    ∀ (host : Host) (clock : StateM FileTree Elapsed),
      (host.environment clock).Upholds Conclusion.Lasting := by
  have hrecord := recorded_of_session h
  refine ⟨fun hshort => ?_, fun hlong => ?_, ?_, fun host clock => host.upholds_lasting clock⟩
  · have hconclusions := hrecord.conclusions hshort
    have hsummary := summary_of_conclusions hconclusions
    refine ⟨hconclusions, hsummary.trans ?_, fun r hr => hsummary.trans ?_,
      fun s op c' hs hdoes hnot => ?_⟩
    · cases Operation.lastFull archive history with
      | none => rfl
      | some r =>
          simp only [Except.map, Option.map_some, Option.isSome_some, Option.elim_some,
            ofConclusions_reread, Report.counts]
    · obtain ⟨rfl, -⟩ := hrecord.report archive r hr
      simp only [hr, Except.map, Option.map_some, Option.isSome_some, Option.elim_some,
        ofConclusions_reread, Report.summary, Report.counts]
    · have hsame : c'.conclusions archive = c.conclusions archive := by
        rw [(hrecord.next hs hdoes).conclusions hshort, hconclusions,
          Operation.lastFull_cons_of_not hnot]
      exact ⟨hsame, by rw [summary_of_conclusions hsame, summary_of_conclusions rfl]⟩
  · have hconclusions := Cache.conclusions_of_long (c := c) hlong
    refine ⟨hconclusions, (summary_of_conclusions hconclusions).trans ?_⟩
    split <;> rfl
  · intro σ env henv s options other cancelled w hs
    exact does_run hs (fun j p d m hm => henv.job hm) options other cancelled c w

/-- A full run of the command and the analysis. -/
theorem exists_run_logErrors : ∃ r c,
    Session Service.Sound (Job.Upholds Conclusion.Lasting) "cache" [.run { force := true } r] c ∧
    r.archive = "sos" ∧ r.conclusions = [Step.conclude "errors" ⟨.error, "errors in the log", ""⟩
      (.bytes (Bytes.ofString "full\n")) someTime] ∧ c.root.isNone = false := by
  obtain ⟨r, hr, harchive, hconclusions, hroot⟩ : ∃ r,
      (logErrors.run oneLine { force := true } "sos" false (Cache.fresh "cache") ()).1.1 = .ok r ∧
      r.report.archive = "sos" ∧ r.report.conclusions = [Step.conclude "errors"
        ⟨.error, "errors in the log", ""⟩ (.bytes (Bytes.ofString "full\n")) someTime] ∧
      (logErrors.run oneLine { force := true } "sos" false
        (Cache.fresh "cache") ()).1.2.root.isNone = false := ⟨_, rfl, rfl, rfl, rfl⟩
  have hlasting : oneLine.Upholds Conclusion.Lasting := upholds_oneLine fun node a u spent hu =>
    Step.lasting_of_proper_conclude (Step.proper_conclude node a spent fun d hd => (hu d hd).proper)
  have hrun := does_run sound_logErrors (fun j p d m hm => hlasting.job hm)
    { force := true } "sos" false (Cache.fresh "cache") ()
  rw [hr] at hrun
  exact ⟨r.report, _, .next sound_logErrors .start hrun, harchive, hconclusions, hroot⟩

/-- After a full run and the loss of an artifact the conclusions are still those of the run. -/
theorem logErrors_conclusions_follow_the_last_full_run :
    ∃ history c r,
      Session Service.Sound (Job.Upholds Conclusion.Lasting) "cache" history c ∧
      IsShort (Cache.encodeName "sos") ∧ Operation.lastFull "sos" history = some r ∧
      c.conclusions "sos" = .ok (some (r.conclusions.map Conclusion.reread)) ∧
      c.summary "sos" = .ok r.summary ∧
      r.conclusions = [Step.conclude "errors" ⟨.error, "errors in the log", ""⟩
        (.bytes (Bytes.ofString "full\n")) someTime] := by
  obtain ⟨r, c, hrun, harchive, hconclusions, -⟩ := exists_run_logErrors
  have hsession := hrun.next sound_logErrors (Does.invalidate "sos" "log" c)
  have hlast : Operation.lastFull "sos" [.invalidate "sos" "log", .run { force := true } r] =
      some r := if_pos ⟨rfl, harchive⟩
  obtain ⟨hanswers, -, hsummary, -⟩ :=
    (conclusions_follow_the_last_full_run hsession "sos").1 (by decide)
  refine ⟨_, _, r, hsession, by decide, hlast, ?_, hsummary r hlast, hconclusions⟩
  rw [hanswers, hlast]
  rfl

/-- A duration that is read as another one than it was printed, and an archive without any run whose
name is too long for a directory. -/
theorem measuredTime_is_not_read_back :
    ∃ history c r,
      Session Service.Sound (Job.Upholds Conclusion.Lasting) "cache" history c ∧
      Operation.lastFull "sos" history = some r ∧
      c.conclusions "sos" ≠ .ok (some r.conclusions) ∧
      Operation.lastFull Cache.longName history = none ∧
      c.conclusions Cache.longName = .error (.io .nameTooLong) := by
  obtain ⟨r, c, hsession, harchive, hconclusions, hroot⟩ := exists_run_logErrors
  have hlast : Operation.lastFull "sos" [.run { force := true } r] = some r :=
    if_pos ⟨rfl, harchive⟩
  have hother : "sos" ≠ Cache.longName := by decide +kernel
  have hread : (Number.real someTime.toDouble).reread.toDouble ≠ someTime.toDouble := by
    decide +kernel
  refine ⟨_, c, r, hsession, hlast, fun heq => hread ?_, ?_, ?_⟩
  · rw [(recorded_of_session hsession).conclusions (by decide), hlast] at heq
    have hsame : r.conclusions.map Conclusion.reread = r.conclusions :=
      Option.some.inj (Except.ok.inj heq)
    rw [hconclusions, List.map_cons, List.cons.injEq] at hsame
    have hduration := congrArg Conclusion.duration hsame.1
    simpa only [Conclusion.reread, Step.conclude_duration] using hduration
  · exact if_neg fun hand => hother (harchive ▸ hand.2)
  · rw [Cache.conclusions_of_long (by decide +kernel), hroot]
    rfl

end Service

end Distill

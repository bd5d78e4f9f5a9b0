import Distill.Proofs.Execution.Values
import Distill.Proofs.Service.Effects
import Distill.Proofs.Step.Concluding

/-!
# Sessions

Services use a cache for any archives, one operation after another. Whatever holds of the values
that steps give, also when these are read back, holds of all values that can be read from the cache
after a session, for nothing else brings values into it.

## Main definitions

* `Operation`, `Service.Does` — what is done with the archives of a cache, and its effect.
* `Session` — operations of services, one after another, on a cache that was empty.
* `Job.Upholds` — moves of which something holds of all conclusions.

## Main statements

* `Service.does_run` — the runs of a service are such operations.
* `Session.only` — the values in the cache after a session.
-/

namespace Distill

/-! ## Operations -/

/-- What is done with the archives of a cache. -/
inductive Operation where
  /-- A run that has ended with a report. -/
  | run (options : RunOptions) (report : Report)
  /-- A run that is refused. -/
  | refused (options : RunOptions) (archive : String)
  | invalidate (archive node : String)
  | list (archive : String)
  | clear (archive : String)

namespace Operation

/-- The operation that a run is: it ends with a report, or it is refused. -/
def ofRun (options : RunOptions) (archive : String) : Except ServiceError Run → Operation
  | .ok r => run options r.report
  | .error _ => refused options archive

end Operation

namespace Service

/-- The graph of the service is that of its set. -/
def Sound (s : Service) : Prop := Graph.ofSet s.set = .ok s.graph

/-- What an operation of a service does to the cache. In a run steps give what they may, and it
may be cancelled at any time. -/
inductive Does (s : Service) (allows : Job → Progress → Cache → Move → Prop) :
    Operation → Cache → Cache → Prop
  | run {options : RunOptions} {archive : String} {j : Job} {ms : List Move} {cancelled : Bool}
      {p : Progress} {c c' : Cache} (job : s.job options archive = .ok j)
      (leads : j.Leads (allows j) ms (j.start cancelled) c p c') (isOver : p.isOver = true) :
      Does s allows (.run options (j.report p)) c (close options j p c').2
  | refused {options : RunOptions} {archive : String} {e : ServiceError} {c : Cache}
      (job : s.job options archive = .error e) : Does s allows (.refused options archive) c c
  | invalidate (archive node : String) (c : Cache) :
      Does s allows (.invalidate archive node) c (s.invalidate archive node c).2
  | list (archive : String) (c : Cache) : Does s allows (.list archive) c c
  | clear (archive : String) (c : Cache) : Does s allows (.clear archive) c (c.clear archive).2

variable {s : Service} {allows : Job → Progress → Cache → Move → Prop}
  {may : String → String → ArtifactValue → Prop} {op : Operation} {c c' : Cache}

/-- **The runs of a service are such operations,** if its environment gives what steps may. -/
theorem does_run {σ : Type} {env : Environment σ} (hs : s.Sound)
    (henv : ∀ j p c m, env.Performs j p c m → allows j p c m) (options : RunOptions)
    (archive : String) (cancelled : Bool) (c : Cache) (w : σ) :
    s.Does allows (.ofRun options archive (s.run env options archive cancelled c w).1.1) c
      (s.run env options archive cancelled c w).1.2 := by
  rw [Service.run]
  cases hj : s.job options archive with
  | error e => exact .refused hj
  | ok j =>
      obtain ⟨ms, p, c', heq, h, hover⟩ := env.leads_execute (sound_job hs hj) cancelled c w
      have hrun : s.Does allows (.run options (j.report p)) c (close options j p c').2 :=
        .run hj (h.mono fun q d m hm => henv j q d m hm) hover
      have hp : (env.execute j cancelled c w).1.1 = p := by rw [heq]
      have hc : (env.execute j cancelled c w).1.2 = c' := by rw [heq]
      rw [← hp, ← hc] at hrun
      exact hrun

/-- Steps of all jobs of the service give values that may stand for their nodes, as long as all
values are such. -/
def Gives (s : Service) (allows : Job → Progress → Cache → Move → Prop)
    (may : String → String → ArtifactValue → Prop) : Prop :=
  ∀ options archive j p c i v t, s.job options archive = .ok j → j.Orderly p → j.Keeps may p c →
    p.task? i = some t → allows j p c (.finish i (.value v)) →
    Admits may j.archive (j.graph.name i) v

/-- **Every operation leaves only values that may be there.** -/
theorem Does.only (hs : s.Sound) (hgives : s.Gives allows may)
    (h : s.Does allows op c c') (hc : c.Only may) : c'.Only may := by
  cases h with
  | refused | list => exact hc
  | clear archive => exact hc.clear archive
  | invalidate archive node =>
      rw [Service.invalidate]
      split
      · exact hc.invalidate archive node
      · exact hc
  | @run options archive j ms cancelled p c c' hjob hleads hover =>
      have hkeeps := hleads.keeps (sound_job hs hjob) hc fun q d i v t hq hk htask hmay =>
        hgives options archive j q d i v t hjob hq hk htask hmay
      rw [close]
      split
      · exact hkeeps.only
      · exact hkeeps.only.putConclusions _ _

end Service

/-- A session: operations of services of some kind, one after another, on a cache that was empty.
The latest one stands first. -/
inductive Session (kind : Service → Prop) (allows : Job → Progress → Cache → Move → Prop)
    (location : String) : List Operation → Cache → Prop
  | start : Session kind allows location [] (Cache.fresh location)
  | next {s : Service} {op : Operation} {history : List Operation} {c c' : Cache} (service : kind s)
      (before : Session kind allows location history c) (does : s.Does allows op c c') :
      Session kind allows location (op :: history) c'

/-- **After a session only values that may be there can be read.** -/
theorem Session.only {kind : Service → Prop} {allows : Job → Progress → Cache → Move → Prop}
    {may : String → String → ArtifactValue → Prop} {location : String} {history : List Operation}
    {c : Cache} (hkind : ∀ s, kind s → s.Sound ∧ s.Gives allows may)
    (h : Session kind allows location history c) : c.Only may := by
  induction h with
  | start => exact Cache.only_fresh location
  | next service _ does ih =>
      obtain ⟨hs, hgives⟩ := hkind _ service
      exact does.only hs hgives ih

/-! ## Conclusions -/

/-- Something holds of the conclusion that a step gives, if it holds of the one that the step
reads. -/
def Job.Upholds (Q : Conclusion → Prop) (_ : Job) (p : Progress) (_ : Cache) : Move → Prop
  | .finish i (.value v) =>
      ∀ t, p.task? i = some t → (∀ u, t.input = some u → u.IfConclusion Q) → v.IfConclusion Q
  | .finish _ _ | .launch | .begin _ | .settle _ | .cancel => True

/-- What the steps of an environment uphold, its moves do. -/
theorem Environment.Upholds.job {σ : Type} {env : Environment σ} {Q : Conclusion → Prop}
    (henv : env.Upholds Q) {j : Job} {p : Progress} {c : Cache} {m : Move}
    (h : env.Performs j p c m) : j.Upholds Q p c m := by
  cases m with
  | launch | begin | settle | cancel => trivial
  | finish i r =>
      cases r with
      | failure | panic => trivial
      | value v =>
          obtain ⟨t, n, w, htask, -, hv⟩ := h
          intro u hu hinput
          rw [htask, Option.some.injEq] at hu
          subst hu
          exact henv _ _ _ _ w v hinput hv.symm

/-- What a step gives under such a move, when it holds of the conclusions of all nodes. -/
theorem Job.Keeps.ifConclusion {may : String → String → ArtifactValue → Prop}
    {Q : Conclusion → Prop} {j : Job} {p : Progress} {c : Cache} {i : Nat} {v : ArtifactValue}
    {t : Task} (hkeeps : j.Keeps may p c) (hp : j.Orderly p)
    (hmay : ∀ archive node v, may archive node v → v.IfConclusion Q) (htask : p.task? i = some t)
    (h : j.Upholds Q p c (.finish i (.value v))) : v.IfConclusion Q := by
  refine h t htask fun u hu => ?_
  obtain ⟨k, -, hu⟩ := hkeeps.input hp (Progress.mem_of_task? htask).1 hu
  exact hmay _ _ u hu

/-! ## A command and an analysis -/

namespace Service

/-- A service of a command and an analysis of its output. -/
def logErrors : Service where
  set := .ofDistinct [⟨"log", none, .exec ⟨"cat log", [], none⟩⟩,
    ⟨"errors", some "log", .analysis ⟨.error, "errors in the log", ""⟩⟩] (by decide)
  graph := ⟨["log", "errors"], [none, some 0], [0, 1]⟩

/-- The time that every analysis takes. -/
def someTime : Elapsed := ⟨1, 858542883, by decide, by decide⟩

/-- An environment in which every command gives one line. -/
def oneLine : Environment Unit :=
  .ofCommands (fun _ _ _ => pure (.bytes (Bytes.ofString "full\n"))) (pure someTime)

theorem upholds_oneLine {Q : Conclusion → Prop}
    (hconclude : ∀ node a u spent, u.IfConclusion Q → Q (Step.conclude node a u spent)) :
    oneLine.Upholds Q := by
  refine Environment.upholds_ofCommands hconclude fun archive node e w v w' hv => ?_
  rw [← Except.ok.inj (congrArg Prod.fst hv)]
  exact ArtifactValue.ifConclusion_of_none rfl

theorem sound_logErrors : logErrors.Sound := rfl

end Service

end Distill

import Distill.Proofs.Cache.Parts
import Distill.Proofs.Execution.Effects
import Distill.Proofs.Execution.Reruns

/-!
# Evaluations that share a cache

The evaluation of an archive sees and changes nothing of a cache but the part of this archive. So
it goes on in the same way whatever others do to their parts. What it leaves there at its end is
determined by the steps, if they compute a function and everything can be stored.

## Main definitions

* `Job.Undisturbed` — evaluations that are not cancelled and can store everything.

## Main statements

* `Job.Makes.agreeOn` — a move leaves the parts of other archives as they are.
* `Job.Makes.of_agreeOn` — a move does the same in caches that agree on the archive.
* `Job.Finishes.agreeOn` — every such evaluation leaves the same for its archive.
-/

namespace Distill

/-! ## Storing a result -/

theorem Cache.agreeOn_keep {archive other : String} (hne : other ≠ archive) (c : Cache)
    (node : String) (r : StepResult) : c.AgreeOn archive (c.keep other node r) := by
  cases r with
  | value v | failure f => exact Cache.agreeOn_put hne c _
  | panic text => exact Cache.AgreeOn.refl c archive

theorem Cache.AgreeOn.keep {c d : Cache} {archive : String} (h : c.AgreeOn archive d)
    (node : String) (r : StepResult) :
    (c.keep archive node r).AgreeOn archive (d.keep archive node r) := by
  cases r with
  | value v | failure f => exact (h.put _).2
  | panic text => exact h

namespace Job

variable {j : Job} {p p' p₁ p₂ : Progress} {c₀ c c' c₁ c₂ d : Cache} {m : Move} {ms : List Move}
  {i : Nat} {archive : String} {steps : StepFunction} {options : RunOptions}
  {allows : Progress → Cache → Move → Prop} {cancelled : Bool}

/-! ## Other archives -/

/-- **A move leaves the parts of other archives as they are.** -/
theorem Makes.agreeOn (h : j.Makes p c m p' c') (hne : j.archive ≠ archive) :
    c.AgreeOn archive c' := by
  cases h with
  | launch | block | reuse | start | settle | cancel => exact Cache.AgreeOn.refl c archive
  | refuse | finish => exact Cache.agreeOn_keep hne c _ _

theorem agreeOn_close (hne : j.archive ≠ archive) (options : RunOptions) (p : Progress)
    (c : Cache) : c.AgreeOn archive (Service.close options j p c).2 := by
  rw [Service.close]
  split
  · exact Cache.AgreeOn.refl c archive
  · exact Cache.agreeOn_putConclusions hne c _

/-! ## The archive itself -/

theorem stored?_of_agreeOn (hc : c.Direct j.archive) (h : c.AgreeOn j.archive d) (i : Nat) :
    j.stored? d i = j.stored? c i :=
  stored?_congr hc (h.direct hc) (h.fileOf_eq _).symm

/-- **A move does the same in caches that agree on the archive.** -/
theorem Makes.of_agreeOn (h : j.Makes p c m p' c') (hc : c.Direct j.archive)
    (hd : c.AgreeOn j.archive d) : ∃ d', j.Makes p d m p' d' ∧ c'.AgreeOn j.archive d' := by
  have hstored := stored?_of_agreeOn hc hd
  cases h with
  | launch ready slot source => exact ⟨d, .launch ready slot source, hd⟩
  | block ready slot source => exact ⟨d, .block ready slot source, hd⟩
  | reuse task stored => exact ⟨d, .reuse task ((hstored _).trans stored), hd⟩
  | refuse task stored cancelled =>
      exact ⟨_, .refuse task ((hstored _).trans stored) cancelled, hd.keep _ _⟩
  | start task stored cancelled =>
      exact ⟨d, .start task ((hstored _).trans stored) cancelled, hd⟩
  | finish task => exact ⟨_, .finish task, hd.keep _ _⟩
  | settle full task => exact ⟨d, .settle full task, hd⟩
  | cancel => exact ⟨d, .cancel, hd⟩

/-- Equal reports leave the same at the end of a run. -/
theorem close_of_agreeOn (h : c.AgreeOn j.archive d) (hreport : j.report p = j.report p')
    (options : RunOptions) :
    (Service.close options j p c).2.AgreeOn j.archive (Service.close options j p' d).2 := by
  rw [Service.close, Service.close]
  split
  · exact h
  · simp only [hreport]
    exact (h.putConclusions _).2

/-! ## What is left at the end -/

/-- Steps give what they compute, nothing cancels the run, and everything can be stored. -/
def Undisturbed (j : Job) (steps : StepFunction) (p : Progress) (c : Cache) (m : Move) : Prop :=
  j.Obeys steps p c m ∧ j.StoresAll p c m

/-- What can be stored can be stored in every cache that agrees on the archive. -/
theorem StoresAll.of_agreeOn (h : j.StoresAll p c m) (hc : c.Direct j.archive)
    (hd : c.AgreeOn j.archive d) : j.StoresAll p d m := by
  cases m with
  | launch | settle | cancel => trivial
  | begin i =>
      intro hcancelled hnone
      rw [stored?_of_agreeOn hc hd] at hnone
      exact (hd.put _).1.symm.trans (h hcancelled hnone)
  | finish i r => exact fun a ha => (hd.put a).1.symm.trans (h a ha)

/-- Files stand where an evaluation has changed something, or below. -/
theorem Leads.raised (h : j.Leads allows ms p c p' c')
    (hstores : ∀ q d m, allows q d m → j.StoresAll q d m) : c.tree.Raised c'.tree := by
  refine h.induction (I := fun _ d => c.tree.Raised d.tree) ?_ (FileTree.Raised.refl _)
  intro q d m q' d' hraised hmay hm
  have hstores := hstores q d m hmay
  cases hm with
  | launch | block | reuse | start | settle | cancel => exact hraised
  | refuse task stored cancelled =>
      exact hraised.trans (Cache.raised_put (hstores cancelled stored))
  | @finish i input r task =>
      cases r with
      | value v | failure f => exact hraised.trans (Cache.raised_put (hstores _ rfl))
      | panic text => exact hraised

/-- What the file of a node holds at the end: what its step gave, if it was tried and gave
something. -/
def fileLeft (j : Job) (steps : StepFunction) (c₀ : Cache) (p : Progress) (i : Nat) :
    Option Bytes :=
  match p.outcome? i, j.resolveInput p i with
  | some (.success _), .ok input | some (.failed _), .ok input =>
    match (j.perform steps i input).artifact? (j.graph.name i) with
    | some a => (Cache.encode a).toOption
    | none => j.fileIn c₀ i
  | _, _ => j.fileIn c₀ i

theorem Explained.fileIn_eq (h : j.Explained (j.Undisturbed steps) c₀ p c)
    (hover : p.isOver = true) (hcancelled : p.cancelled = false) (hi : i < j.graph.size) :
    j.fileIn c i = j.fileLeft steps c₀ p i := by
  have hended : ∀ o, p.Ended i o ↔ p.outcome? i = some o := fun _ => ended_iff_of_isOver hover
  rw [fileLeft]
  cases ho : p.outcome? i with
  | none => exact h.untouched i hi fun o hend => by simp [(hended o).mp hend] at ho
  | some o =>
      cases h.ended i o ((hended o).mpr ho) with
      | blocked _ same | cached _ _ same => exact same
      | refused _ _ cancelled => simp [hcancelled] at cancelled
      | @done input r q d t source stored task reads may kept =>
          obtain ⟨⟨t', ht', hr⟩, hstores⟩ := may
          obtain rfl := Option.some.inj (task.symm.trans ht')
          rw [reads] at hr
          subst hr
          have hafter := kept.after
          generalize hr : j.perform steps i input = r at hafter hstores
          cases r with
          | panic text =>
              simp only [StepResult.outcome, source, hr, StepResult.artifact?]
              exact hafter.trans kept.before
          | value v | failure f =>
              obtain ⟨data, hencode, hfile⟩ := Cache.fileOf_put_of_ok (hstores _ rfl)
              simp only [StepResult.outcome, source, hr, StepResult.artifact?, hencode]
              exact hafter.trans hfile

/-- **Every evaluation leaves the same for its archive** if it is not disturbed, in whatever order
its tasks go on. -/
theorem Finishes.agreeOn (hj : j.Sound) (hc : c₀.Direct j.archive)
    (h₁ : j.Finishes (j.Undisturbed steps) c₀ p₁ c₁)
    (h₂ : j.Finishes (j.Undisturbed steps) c₀ p₂ c₂) : c₁.AgreeOn j.archive c₂ := by
  have hobeys : ∀ {p c}, j.Finishes (j.Undisturbed steps) c₀ p c → ∀ i,
      p.outcome? i = if j.isSelected i then some (j.fate hj steps c₀ i) else none :=
    fun h => (h.mono (fun _ _ _ => And.left) fun _ _ => id).outcome?_eq hj hc
  have hleft : ∀ i, j.fileLeft steps c₀ p₁ i = j.fileLeft steps c₀ p₂ i := by
    intro i
    have houtcome : ∀ k, p₁.outcome? k = p₂.outcome? k := fun k =>
      (hobeys h₁ k).trans (hobeys h₂ k).symm
    rw [fileLeft, fileLeft, houtcome i, resolveInput_congr fun k _ => houtcome k]
  have hraised : ∀ {p c}, j.Finishes (j.Undisturbed steps) c₀ p c → c₀.tree.Raised c.tree := by
    intro p c h
    obtain ⟨ms, hleads⟩ := h.leads
    exact hleads.raised fun _ _ _ => And.right
  have hnode : ∀ {p c}, j.Finishes (j.Undisturbed steps) c₀ p c → ∀ i < j.graph.size,
      j.fileIn c i = j.fileLeft steps c₀ p i := fun h i hi =>
    (h.explained hj hc).fileIn_eq h.isOver (h.called hj).not_cancelled hi
  have hother : ∀ {p c}, j.Finishes (j.Undisturbed steps) c₀ p c → ∀ path,
      (∀ i < j.graph.size, path ≠ Cache.artifactPath j.archive (j.graph.name i)) →
      c.tree.fileAt path = c₀.tree.fileAt path := by
    intro p c h path hpath
    obtain ⟨ms, hleads⟩ := h.leads
    refine hleads.fileAt_eq hj (orderly_start hj false) fun i o hi => hpath i ?_
    exact (h.orderly hj).lt_of_ended hj hi
  refine (hraised h₁).agreeOn (hraised h₂) fun rest => ?_
  by_cases hpath : ∃ i < j.graph.size, Cache.encodeName j.archive :: rest =
      Cache.artifactPath j.archive (j.graph.name i)
  · obtain ⟨i, hi, heq⟩ := hpath
    rw [heq]
    exact (hnode h₁ i hi).trans ((hleft i).trans (hnode h₂ i hi).symm)
  · have hnot : ∀ i < j.graph.size, Cache.encodeName j.archive :: rest ≠
        Cache.artifactPath j.archive (j.graph.name i) := fun i hi heq => hpath ⟨i, hi, heq⟩
    rw [hother h₁ _ hnot, hother h₂ _ hnot]

end Job

end Distill

import Distill.Proofs.Cache.ArtifactFile
import Distill.Proofs.Cache.Layout
import Distill.Proofs.Filter.Outputs
import Distill.Proofs.Step.Checked
import Distill.Proofs.Step.Concluding
import Distill.Proofs.Yaml.Ordered

/-!
# Values of steps that are read back

Steps that run no command make of a value that is read back from its stored form one that is as
its type promises. It is read back in its turn, unless it is nested too deeply for the reader: a
filter puts all its outputs into one array, and may put each of them into more, so that a
document of the greatest depth becomes a sequence that can be written and not be read.

## Main definitions

* `ArtifactValue.Storable` — a value that is read back from its stored form.
* `Step.Transforms` — a step that runs no command.
* `Step.endsFlat` — a step that ends with lines or with a conclusion.

## Main statements

* `ArtifactValue.Storable.proper`, `ArtifactValue.storable_iff` — values that are read back.
* `Step.proper_of_run` — what a step gives is as its type promises.
* `Step.depth_le_of_endsFlat`, `Step.depth_applyFilter` — how deep lines, conclusions and the
  outputs of filters are nested.
* `Step.gives_storable_unless_too_deep` — values of steps that are read back.
-/

namespace Distill

/-! ## Values that are read back -/

namespace ArtifactValue

variable {v : ArtifactValue}

/-- What is read of the stored form of the value is the value. -/
def Storable (v : ArtifactValue) : Prop := ofPayload? v.encoding v.payload = some v

/-- What is read of a stored form is as its type promises. -/
theorem Storable.proper (h : v.Storable) : v.Proper := by
  cases v with
  | bytes b => trivial
  | document w =>
      obtain ⟨w', hw, heq⟩ := Option.map_eq_some_iff.mp h
      obtain rfl := document.inj heq
      exact Json.sorted_of_parseBytes? hw
  | sequence items =>
      rw [Storable, encoding, ofPayload?] at h
      split at h
      · next items' hitems =>
        obtain rfl := sequence.inj (Option.some.inj h)
        exact Json.sorted_of_parseBytes? hitems
      · cases h
  | conclusion c => exact proper_of_ofPayload? h c rfl

/-- **A value that is as its type promises is read back exactly if it is not nested too deeply.** -/
theorem storable_iff (hv : v.Proper) (hnumbers : v.NumbersReadBack) :
    v.Storable ↔ v.depth ≤ Json.maxDepth := by
  rw [Storable, ofPayload?_payload hv hnumbers]
  split <;> simp [*]

theorem proper_sequence {items : List Json} (h : ∀ w ∈ items, w.Sorted) :
    (sequence items).Proper := Json.sortedItems_iff.mpr h

end ArtifactValue

namespace Step

/-! ## Single steps -/

variable {u v : ArtifactValue}

theorem proper_decodeText {s : String} (h : decodeText s = .ok v) : v.Proper := by
  rw [decodeText] at h
  split at h
  · obtain rfl := Except.ok.inj h
    trivial
  · split at h
    · cases h
    · next w hread =>
      obtain rfl := Except.ok.inj h
      exact Yaml.sorted_of_readJson hread w List.mem_cons_self
    · next ws _ hread =>
      obtain rfl := Except.ok.inj h
      exact ArtifactValue.proper_sequence (Yaml.sorted_of_readJson hread)

/-- A document that is decoded from a text has ordered fields, as one that was there has. -/
theorem proper_decode (hu : u.Proper) (h : decode u = .ok v) : v.Proper := by
  rw [decode.eq_def] at h
  split at h
  · exact proper_decodeText h
  · exact proper_decodeText h
  · exact proper_decodeText h
  · obtain rfl := Except.ok.inj h
    exact hu
  · cases h

/-- The documents that a filter is applied to have ordered fields. -/
theorem sorted_documents (hu : u.Proper) : ∀ d ∈ documents u, d.Sorted := by
  cases u with
  | bytes b =>
      cases hread : b.text?.bind Json.parseStream? with
      | none => simp [documents, documentsOfBytes, hread]
      | some vs =>
          obtain ⟨s, -, hs⟩ := Option.bind_eq_some_iff.mp hread
          rw [documents, documentsOfBytes, hread]
          exact fun d hd => Json.sorted_of_mem_parseStream? hs hd
  | document w =>
      rintro d (_ | ⟨_, ⟨⟩⟩)
      exact hu
  | sequence items => exact Json.sortedItems_iff.mp hu
  | conclusion c =>
      rintro d (_ | ⟨_, ⟨⟩⟩)
      exact Json.sorted_sort _

/-- What a filter gives is as deep as the filter reaches, and one level more. -/
theorem exists_of_applyFilter {f : Filter} {n : Nat} (hf : Filter.parse f.expression = .ok f)
    (hu : u.Proper) (hdocuments : ∀ d ∈ documents u, d.depth ≤ n) (h : applyFilter f u = .ok v) :
    ∃ vs, v = .sequence vs ∧ ∀ w ∈ vs, w.Within (f.expr.reach n) := by
  rw [applyFilter] at h
  split at h
  · next vs hvs =>
    refine ⟨vs, (Except.ok.inj h).symm, Filter.forall_mem_eachOutput hvs fun d hd xs hxs => ?_⟩
    exact Filter.within_of_apply hf ⟨sorted_documents hu d hd, hdocuments d hd⟩ hxs
  · cases h

theorem proper_applyFilter {f : Filter} (hf : Filter.parse f.expression = .ok f) (hu : u.Proper)
    (h : applyFilter f u = .ok v) : v.Proper := by
  obtain ⟨vs, rfl, hvs⟩ :=
    exists_of_applyFilter hf hu (Json.depthItems_le_iff.mp (Nat.le_refl _)) h
  exact ArtifactValue.proper_sequence fun w hw => (hvs w hw).sorted

theorem depth_applyFilter {f : Filter} {n : Nat} (hf : Filter.parse f.expression = .ok f)
    (hu : u.Proper) (hdocuments : ∀ d ∈ documents u, d.depth ≤ n) (h : applyFilter f u = .ok v) :
    v.depth ≤ f.expr.reach n + 1 := by
  obtain ⟨vs, rfl, hvs⟩ := exists_of_applyFilter hf hu hdocuments h
  exact (Json.within_array hvs).depth_le

theorem proper_lines (u : ArtifactValue) : (lines u).Proper :=
  ArtifactValue.proper_sequence (List.forall_mem_map.mpr fun s _ => Json.sorted_string s)

/-! ## Steps without commands -/

/-- No part of the step runs a command, and every filter in it is the one that its text denotes. -/
structure Transforms (s : Step) : Prop where
  noCommand : ∀ e, exec e ∉ s.parts
  filters : ∀ f, filter f ∈ s.parts → Filter.parse f.expression = .ok f

theorem Transforms.of_mem_chain {steps : List Step} {s : Step} (h : (chain steps).Transforms)
    (hs : s ∈ steps) : s.Transforms :=
  ⟨fun e he => h.noCommand e (mem_parts_chain hs he),
    fun f hf => h.filters f (mem_parts_chain hs hf)⟩

section Run

variable {σ : Type} {command : ExecStep → Doing σ ArtifactValue} {clock : StateM σ Elapsed}
  {node : String}
  {input : Option ArtifactValue} {w w' : σ}

mutual

/-- **What a step gives is as its type promises,** if what it reads is. -/
theorem proper_of_run {s : Step} {input : Option ArtifactValue} {w w' : σ} {v : ArtifactValue}
    (hs : s.Transforms) (hinput : ∀ u ∈ input, u.Proper)
    (h : run command clock node s input w = (.ok v, w')) : v.Proper := by
  cases s with
  | exec e => exact absurd (mem_parts_self _) (hs.noCommand e)
  | chain steps =>
      rw [run] at h
      exact proper_of_runChain (fun s hmem => hs.of_mem_chain hmem) hinput h
  | decodeYaml =>
      rw [run, Doing.lift_apply, Prod.mk.injEq] at h
      obtain ⟨u, hu, hv⟩ := exists_of_requireInput h.1
      exact proper_decode (hinput u hu) hv
  | filter f =>
      rw [run, Doing.lift_apply, Prod.mk.injEq] at h
      obtain ⟨u, hu, hv⟩ := exists_of_requireInput h.1
      exact proper_applyFilter (hs.filters f (mem_parts_self _)) (hinput u hu) hv
  | splitLines =>
      rw [run, Doing.lift_apply, Prod.mk.injEq] at h
      obtain ⟨u, -, hv⟩ := exists_of_requireInput h.1
      obtain rfl := Except.ok.inj hv
      exact proper_lines u
  | analysis a =>
      obtain ⟨u, spent, hu, rfl⟩ := eq_conclude_of_run h
      refine proper_conclude node a spent ?_
      rintro c rfl
      exact hinput _ hu

/-- The last of the steps of a chain reads what the one before it gives. -/
theorem proper_of_runChain {steps : List Step} {input : Option ArtifactValue} {w w' : σ}
    {v : ArtifactValue} (hsteps : ∀ s ∈ steps, s.Transforms) (hinput : ∀ u ∈ input, u.Proper)
    (h : runChain command clock node steps input w = (.ok v, w')) : v.Proper := by
  cases steps with
  | nil => exact hinput v (eq_of_runChain_nil h)
  | cons s rest =>
      obtain ⟨output, w₁, hrun, hrest⟩ := exists_of_runChain_cons h
      have houtput := proper_of_run (hsteps s List.mem_cons_self) hinput hrun
      refine proper_of_runChain (fun t ht => hsteps t (List.mem_cons_of_mem _ ht)) (fun u hu => ?_)
        hrest
      rwa [← Option.some.inj hu]

end

/-! ## Nesting -/

mutual

/-- Whether the last thing that a step does is to split a text into lines or to conclude. -/
def endsFlat : Step → Bool
  | splitLines | analysis _ => true
  | chain steps => lastEndsFlat steps
  | exec _ | decodeYaml | filter _ => false

/-- Whether the last of some steps ends so. -/
def lastEndsFlat : List Step → Bool
  | [] => false
  | [s] => endsFlat s
  | _ :: rest => lastEndsFlat rest

end

theorem depth_lines (u : ArtifactValue) : (lines u).depth ≤ 1 := by
  refine Nat.succ_le_succ (Json.depthItems_le_iff.mpr fun w hw => ?_)
  obtain ⟨s, -, rfl⟩ := List.mem_map.mp hw
  exact Nat.le_refl 0

mutual

/-- **Lines and conclusions are not nested deeply,** whatever a step makes them of. -/
theorem depth_le_of_endsFlat {s : Step} {input : Option ArtifactValue} {w w' : σ}
    {v : ArtifactValue} (hs : s.endsFlat = true)
    (h : run command clock node s input w = (.ok v, w')) : v.depth ≤ 5 := by
  cases s with
  | splitLines =>
      rw [run, Doing.lift_apply, Prod.mk.injEq] at h
      obtain ⟨u, -, hv⟩ := exists_of_requireInput h.1
      obtain rfl := Except.ok.inj hv
      exact Nat.le_trans (depth_lines u) (by decide)
  | analysis a =>
      obtain ⟨u, spent, -, rfl⟩ := eq_conclude_of_run h
      exact Conclusion.depth_toJson _
  | chain steps =>
      rw [run] at h
      rw [endsFlat] at hs
      exact depth_le_of_lastEndsFlat hs h
  | exec | decodeYaml | filter => cases hs

theorem depth_le_of_lastEndsFlat {steps : List Step} {input : Option ArtifactValue} {w w' : σ}
    {v : ArtifactValue} (hs : lastEndsFlat steps = true)
    (h : runChain command clock node steps input w = (.ok v, w')) : v.depth ≤ 5 := by
  match steps with
  | [] => cases hs
  | [s] =>
      obtain ⟨output, w₁, hrun, hrest⟩ := exists_of_runChain_cons h
      obtain rfl := Option.some.inj (eq_of_runChain_nil hrest)
      exact depth_le_of_endsFlat hs hrun
  | s :: t :: rest =>
      obtain ⟨output, w₁, -, hrest⟩ := exists_of_runChain_cons h
      have hlast : lastEndsFlat (t :: rest) = true := hs
      exact depth_le_of_lastEndsFlat hlast hrest

end

/-! ## Stored forms -/

/-- **What a step gives for a value that is read back is read back, unless it is nested too
deeply.** Lines and conclusions never are, and what a filter gives is not if the filter does not
reach so deep for the documents in its input. A value that was written to a cache is found there
by the next run if it is not nested too deeply; if it is, nothing is found. -/
theorem gives_storable_unless_too_deep {s : Step} (hs : s.Transforms) {u v : ArtifactValue}
    {w w' : σ} (hu : u.Storable) (hrun : run command clock node s (some u) w = (.ok v, w'))
    (hnumbers : v.NumbersReadBack) :
    (v.Storable ↔ v.depth ≤ Json.maxDepth) ∧ (s.endsFlat = true → v.Storable) ∧
      (∀ f n, s = filter f → (∀ d ∈ documents u, d.depth ≤ n) → f.expr.reach n < Json.maxDepth →
        v.Storable) ∧
      ∀ {c : Cache} {archive : String}, c.Regular archive →
        (c.put archive (.succeeded node v)).1 = .ok () →
        (c.put archive (.succeeded node v)).2.success? archive node =
          if v.depth ≤ Json.maxDepth then some v else none := by
  have hv : v.Proper := by
    refine proper_of_run hs (fun t ht => ?_) hrun
    obtain rfl := Option.some.inj ht
    exact hu.proper
  have hiff := ArtifactValue.storable_iff hv hnumbers
  refine ⟨hiff, fun hflat => ?_, fun f n hf hdocuments hreach => ?_, fun hc hok => ?_⟩
  · exact hiff.mpr (Nat.le_trans (depth_le_of_endsFlat hflat hrun) (by decide))
  · subst hf
    rw [run_filter, Prod.mk.injEq] at hrun
    have hparse := hs.filters f (mem_parts_self _)
    exact hiff.mpr (Nat.le_trans (depth_applyFilter hparse hu.proper hdocuments hrun.1) hreach)
  · split
    · next hdepth => exact hc.success?_put hv hnumbers hdepth hok
    · next hdepth =>
      rw [Cache.success?_put_succeeded hc.direct hv hnumbers, if_pos hok,
        if_neg fun h => hdepth h.2]

end Run

/-- Commands on a host that has none. -/
def withoutCommands : ExecStep → Doing Unit ArtifactValue :=
  fun _ => .lift (.error ⟨.exec, "not found"⟩)

/-- The items of an array, one after another. -/
def eachItem : Filter := ⟨".[]", .iterate⟩

/-- Each item of a document on a line of its own. -/
def itemLines : Step := chain [decodeYaml, filter eachItem, splitLines]

theorem transforms_itemLines : itemLines.Transforms := by
  constructor
  · simp [itemLines, parts]
  · intro f hf
    obtain rfl : f = eachItem := by simpa [itemLines, parts] using hf
    rfl

/-- A text of two lines in a list becomes two lines, which the next run finds. -/
theorem itemLines_gives_storable_unless_too_deep :
    let input : ArtifactValue := .document (.array [.string "one\ntwo"])
    let output : ArtifactValue := .sequence [.string "one", .string "two"]
    let cache := (Cache.fresh "cache").put "sos" (.succeeded "lines" output)
    itemLines.Transforms ∧ input.Storable ∧
      run withoutCommands stopped "lines" itemLines (some input) () = (.ok output, ()) ∧
      output.NumbersReadBack ∧ cache.1 = .ok () ∧
      output.Storable ∧ cache.2.success? "sos" "lines" = some output := by
  intro input output cache
  have hinput : input.Storable := by
    have hproper : input.Proper := ⟨trivial, trivial⟩
    refine (ArtifactValue.storable_iff hproper ?_).mpr (by decide)
    rintro w ⟨⟩
    exact ⟨trivial, trivial⟩
  have hrun : run withoutCommands stopped "lines" itemLines (some input) () = (.ok output, ()) :=
    rfl
  have hnumbers : output.NumbersReadBack := by
    rintro w ⟨⟩
    exact ⟨trivial, trivial, trivial⟩
  have hput : cache.1 = .ok () := by
    rw [(Cache.tidy_fresh "cache").put_fst "sos" rfl]
    decide
  obtain ⟨-, hflat, -, hserved⟩ :=
    gives_storable_unless_too_deep transforms_itemLines hinput hrun hnumbers
  have hfound := hserved (Cache.regular_fresh "cache" "sos") hput
  rw [if_pos (by decide)] at hfound
  exact ⟨transforms_itemLines, hinput, hrun, hnumbers, hput, hflat rfl, hfound⟩

/-! ## Documents of the greatest depth -/

/-- The input as it is. -/
def unchanged : Filter := ⟨".", .identity⟩

theorem transforms_unchanged : (filter unchanged).Transforms := by
  constructor
  · simp [parts]
  · intro f hf
    obtain rfl : f = unchanged := by simpa [parts] using hf
    rfl

end Step

namespace Json

/-- Null in so many arrays. -/
def nested : Nat → Json
  | 0 => null
  | n + 1 => array [nested n]

theorem depth_nested (n : Nat) : (nested n).depth = n := by
  induction n with
  | zero => rfl
  | succ n ih => rw [nested, depth, depthItems, depthItems, ih, Nat.max_zero]

theorem sorted_nested (n : Nat) : (nested n).Sorted := by
  induction n with
  | zero => trivial
  | succ n ih => exact ⟨ih, trivial⟩

theorem numbersReadBack_nested (n : Nat) : (nested n).NumbersReadBack := by
  induction n with
  | zero => trivial
  | succ n ih => exact ⟨ih, trivial⟩

end Json

namespace Step

/-- A document of the greatest depth is read back, and the sequence that a filter makes of it is
not: it is written, and the next run finds nothing. -/
theorem nested_is_written_and_not_read_back :
    let document : ArtifactValue := .document (.nested 127)
    let written : ArtifactValue := .sequence [.nested 127]
    let cache := (Cache.fresh "cache").put "sos" (.succeeded "all" written)
    (filter unchanged).Transforms ∧ document.Storable ∧
      run withoutCommands stopped "all" (filter unchanged) (some document) () = (.ok written, ()) ∧
      written.NumbersReadBack ∧ ¬ written.Storable ∧ cache.1 = .ok () ∧
      cache.2.success? "sos" "all" = none := by
  intro document written cache
  have hnumbers : written.NumbersReadBack := by
    rintro w ⟨⟩
    exact Json.numbersReadBack_nested 128
  have hproper : written.Proper := Json.sorted_nested 128
  have hdepth : ¬ written.depth ≤ Json.maxDepth := by
    have heq : written.depth = 128 := Json.depth_nested 128
    rw [heq]
    decide
  have hdocument : document.Storable := by
    have hproper : document.Proper := Json.sorted_nested 127
    refine (ArtifactValue.storable_iff hproper ?_).mpr (Nat.le_of_eq (Json.depth_nested 127))
    rintro w ⟨⟩
    exact Json.numbersReadBack_nested 127
  have hput : cache.1 = .ok () := by
    rw [(Cache.tidy_fresh "cache").put_fst "sos" rfl]
    decide
  have hserved : cache.2.success? "sos" "all" = _ :=
    Cache.success?_put_succeeded (Cache.direct_fresh "cache" "sos") hproper hnumbers
  rw [if_pos hput, if_neg fun h => hdepth h.2] at hserved
  exact ⟨transforms_unchanged, hdocument, rfl, hnumbers,
    mt (ArtifactValue.storable_iff hproper hnumbers).mp hdepth, hput, hserved⟩

end Step

end Distill

import Distill.Proofs.Cache.ArtifactFile
import Distill.Proofs.Cache.Layout
import Mathlib.Data.List.Sort
import Mathlib.Data.String.Basic

/-!
# A cache as a map

A cache answers as if it held a map from archives and nodes to artifacts and one from archives to
conclusions, whatever the names are and however often it is opened again. Only a name that is
too long for a file makes it refuse a request, and then nothing changes.

## Main definitions

* `Cache.Request`, `Cache.Answer`, `Cache.serve` — the operations of a cache.
* `Cache.Holdings` — the maps, `Cache.Holdings.Answers` what they answer, and
  `Cache.Holdings.after` what becomes of them.
* `Cache.Follows` — answers that are those of the maps.
* `Cache.Holds` — the files of a cache are those of what is held.

## Main statements

* `Cache.Holds.serves` — one request keeps `Cache.Holds`.
* `Cache.answers_as_a_map_does` — the answers to a list of requests.
-/

namespace Distill.Cache

open FileTree (IsShort)

/-! ## Requests -/

/-- What is asked of a cache. -/
inductive Request where
  | put (archive : String) (a : Artifact)
  | get (archive node : String)
  | invalidate (archive node : String)
  | clear (archive : String)
  | list (archive : String)
  | putConclusions (archive : String) (cs : List Conclusion)
  | conclusions (archive : String)
  /-- The same files are opened anew, maybe by another name of their location. -/
  | reopen (location : String)

/-- What a cache answers. -/
inductive Answer where
  | done
  | artifact (a : Option Artifact)
  | removed (was : Bool)
  | nodes (names : List String)
  | conclusions (cs : Option (List Conclusion))
  | failed (e : CacheError)

/-- The answer of an operation that may fail. -/
@[simp] def Answer.ofExcept {α : Type} (f : α → Answer) : Except CacheError α → Answer
  | .ok x => f x
  | .error e => .failed e

/-- The answer to a request, and the cache after it. -/
@[simp] def serve (c : Cache) : Request → Answer × Cache
  | .put archive a => (c.put archive a).map (Answer.ofExcept fun _ => .done) id
  | .get archive node => (Answer.ofExcept .artifact (c.get archive node), c)
  | .invalidate archive node => (c.invalidate archive node).map (Answer.ofExcept .removed) id
  | .clear archive => (c.clear archive).map (Answer.ofExcept fun _ => .done) id
  | .list archive => (Answer.ofExcept .nodes (c.list archive), c)
  | .putConclusions archive cs =>
    (c.putConclusions archive cs).map (Answer.ofExcept fun _ => .done) id
  | .conclusions archive => (Answer.ofExcept .conclusions (c.conclusions archive), c)
  | .reopen location => (.done, { c with location })

/-- The answers to requests, one after the other. -/
def answers (c : Cache) : List Request → List Answer
  | [] => []
  | r :: rs => (c.serve r).1 :: (c.serve r).2.answers rs

namespace Request

/-- The names in a request are not too long for files. -/
def Fits : Request → Prop
  | put archive a => Cache.Fits archive a.node
  | get archive node | invalidate archive node => Cache.Fits archive node
  | clear archive | list archive | putConclusions archive _ | conclusions archive =>
    IsShort (encodeName archive)
  | reopen _ => True

/-- What is to be stored can be read back. -/
def Storable : Request → Prop
  | put _ a => Cache.Storable a
  | putConclusions _ cs => ∀ c ∈ cs, c.Proper ∧ c.toJson.NumbersReadBack
  | _ => True

end Request

/-! ## Maps -/

/-- An artifact for some nodes of some archives, and conclusions for some archives. -/
structure Holdings where
  artifact : (archive node : String) → Option Artifact
  conclusions : (archive : String) → Option (List Conclusion)

namespace Holdings

/-- Nothing is held. -/
def empty : Holdings := ⟨fun _ _ => none, fun _ => none⟩

/-- Whether the artifact that is held for a node is a success. -/
def succeeded (h : Holdings) (archive node : String) : Bool :=
  (h.artifact archive node).any Artifact.isSuccess

/-- What is held after a request. -/
@[simp] def after (h : Holdings) : Request → Holdings
  | .put archive a =>
    if isHollow a then h
    else { h with artifact := fun archive' node =>
      if archive' = archive ∧ node = a.node then some (stored a) else h.artifact archive' node }
  | .invalidate archive node =>
    { h with artifact := fun archive' other =>
      if archive' = archive ∧ other = node then none else h.artifact archive' other }
  | .clear archive =>
    { artifact := fun archive' node => if archive' = archive then none else h.artifact archive' node
      conclusions := fun archive' => if archive' = archive then none else h.conclusions archive' }
  | .putConclusions archive cs =>
    { h with conclusions := fun archive' =>
      if archive' = archive then some cs else h.conclusions archive' }
  | .get .. | .list _ | .conclusions _ | .reopen _ => h

/-- The answer to a request that what is held gives. -/
@[simp] def Answers (h : Holdings) : Request → Answer → Prop
  | .put _ a, answer =>
    answer = if isHollow a then .failed (.corrupt a.node .missingValue) else .done
  | .get archive node, answer => answer = .artifact (h.artifact archive node)
  | .invalidate archive node, answer => answer = .removed (h.artifact archive node).isSome
  | .list archive, answer =>
    ∃ names, answer = .nodes names ∧ names.Pairwise (· < ·) ∧
      ∀ node, node ∈ names ↔ h.succeeded archive node
  | .conclusions archive, answer => answer = .conclusions (h.conclusions archive)
  | .clear _, answer | .putConclusions _ _, answer | .reopen _, answer => answer = .done

end Holdings

/-- Answers to requests that are those of what is held at first. A request is refused only if a
name in it is too long for a file; then what is held stays. -/
inductive Follows : Holdings → List Request → List Answer → Prop
  | nil {h : Holdings} : Follows h [] []
  | answered {h : Holdings} {r : Request} {rs : List Request} {answer : Answer}
      {answers : List Answer} : h.Answers r answer → Follows (h.after r) rs answers →
        Follows h (r :: rs) (answer :: answers)
  | refused {h : Holdings} {r : Request} {rs : List Request} {answers : List Answer} :
      ¬ r.Fits → Follows h rs answers →
        Follows h (r :: rs) (.failed (.io .nameTooLong) :: answers)

/-! ## Files of what is held -/

/-- In the files of a cache stands what is held, and nothing else. -/
structure Holds (c : Cache) (h : Holdings) : Prop where
  tidy : c.Tidy
  artifact : ∀ archive node,
    Option.Rel (fun data a => decode data = .ok a ∧ a.node = node)
      (c.fileOf archive node) (h.artifact archive node)
  conclusions : ∀ archive,
    Option.Rel (fun data cs => decodeConclusions? data = some cs)
      (c.conclusionsOf archive) (h.conclusions archive)

/-- A request is answered from what is held or, if a name is too long, refused. -/
def Serves (c : Cache) (h : Holdings) (r : Request) : Prop :=
  (h.Answers r (c.serve r).1 ∧ Holds (c.serve r).2 (h.after r)) ∨
    (¬ r.Fits ∧ (c.serve r).1 = .failed (.io .nameTooLong) ∧ Holds (c.serve r).2 h)

variable {c : Cache} {h : Holdings} {archive node : String} {a : Artifact}
  {cs : List Conclusion}

theorem Holdings.after_invalidate_of_none (hnone : h.artifact archive node = none) :
    h.after (.invalidate archive node) = h := by
  have hsame : (fun archive' other =>
      if archive' = archive ∧ other = node then none else h.artifact archive' other) =
        h.artifact := by
    funext archive' other
    split
    · next heq => rw [heq.1, heq.2, hnone]
    · rfl
  rw [after, hsame]

theorem holds_fresh (location : String) : Holds (fresh location) .empty := by
  have hfile : ∀ path ≠ [], (fresh location).tree.fileAt path = none := by
    intro path hpath
    rw [FileTree.fileAt, tree_fresh, FileTree.look_empty hpath]
    rfl
  refine ⟨tidy_fresh location, fun archive node => ?_, fun archive => ?_⟩
  · rw [fileOf, hfile _ (by simp [artifactPath_eq])]
    exact .none
  · rw [conclusionsOf, hfile _ (by simp [conclusionsPath_eq])]
    exact .none

/-- Different names are in strictly ascending order once they are sorted. -/
theorem pairwise_lt_mergeSort {names : List String} (hnodup : names.Nodup) :
    (names.mergeSort fun a b => a ≤ b).Pairwise (· < ·) := by
  have hsorted : (names.mergeSort fun a b => a ≤ b).Pairwise (· ≤ ·) :=
    List.pairwise_mergeSort' (· ≤ ·) names
  have hdistinct : (names.mergeSort fun a b => a ≤ b).Nodup :=
    (List.mergeSort_perm _ _).nodup_iff.mpr hnodup
  exact (hsorted.and hdistinct).imp fun h => lt_of_le_of_ne h.1 h.2

/-- What is held depends on the files only. -/
theorem Holds.of_files {c' : Cache} (hc : Holds c h) (htidy : c'.Tidy)
    (hfile : ∀ archive node, c'.fileOf archive node = c.fileOf archive node)
    (hconclusions : ∀ archive, c'.conclusionsOf archive = c.conclusionsOf archive) :
    Holds c' h :=
  ⟨htidy, fun archive node => hfile archive node ▸ hc.artifact archive node,
    fun archive => hconclusions archive ▸ hc.conclusions archive⟩

namespace Holds

variable (hc : Holds c h)
include hc

/-! ### Artifacts -/

/-- Either there is the file of an artifact that is held, or there is neither. -/
theorem artifact_cases (archive node : String) :
    (c.fileOf archive node = none ∧ h.artifact archive node = none) ∨
      ∃ data a, c.fileOf archive node = some data ∧ h.artifact archive node = some a ∧
        decode data = .ok a ∧ a.node = node := by
  have hrel := hc.artifact archive node
  generalize c.fileOf archive node = file, h.artifact archive node = held at hrel
  cases hrel with
  | none => exact Or.inl ⟨rfl, rfl⟩
  | some hread => exact Or.inr ⟨_, _, rfl, rfl, hread⟩

theorem fits_of_file {data : Bytes} (hfile : c.fileOf archive node = some data) :
    Fits archive node := by
  refine isShort_artifactPath_iff.mp (hc.tidy.possible _ ?_)
  rw [FileTree.fileAt_eq_some_iff.mp hfile]
  simp

theorem serves_put (ha : Storable a) : Serves c h (.put archive a) := by
  cases hhollow : isHollow a with
  | true =>
      have hput : c.put archive a = (.error (.corrupt a.node .missingValue), c) := by
        rw [put, encode_of_isHollow hhollow]
      refine Or.inl ⟨?_, ?_⟩
      · simp [hput, hhollow]
      · simpa [hput, hhollow] using hc
  | false =>
      obtain ⟨m, payload, hencode⟩ := exists_encode hhollow
      have hput := hc.tidy.put_fst archive hencode
      have htidy := hc.tidy.put archive a
      have hfile := fileOf_put c archive a
      have hconclusions := conclusionsOf_put c archive a
      by_cases hfits : Fits archive a.node
      · rw [if_pos hfits] at hput
        refine Or.inl ⟨?_, htidy, fun archive' node => ?_, fun archive' => ?_⟩
        · simp [hput, hhollow]
        · simp only [serve, Prod.map, id, hfile, hput, true_and, hencode, Holdings.after, hhollow,
            Bool.false_eq_true, if_false]
          split
          · next heq => exact .some ⟨decode_of_encode ha hencode, heq.2.symm⟩
          · exact hc.artifact archive' node
        · simp only [serve, Prod.map, id, hconclusions, Holdings.after, hhollow,
            Bool.false_eq_true, if_false]
          exact hc.conclusions archive'
      · rw [if_neg hfits] at hput
        refine Or.inr ⟨hfits, ?_, hc.of_files htidy (fun archive' node => ?_) hconclusions⟩
        · simp [hput]
        · simp [hfile, hput]

theorem serves_get (archive node : String) : Serves c h (.get archive node) := by
  rcases hc.artifact_cases archive node with ⟨hfile, hnone⟩ | ⟨data, a, hfile, hsome, hread⟩
  · rcases hc.tidy.readFile?_of_none (.artifact archive node []) hfile with
      hfound | ⟨⟨name, hname, hlong⟩, hfound⟩
    · have hget : c.get archive node = .ok none := by rw [get, hfound]; rfl
      refine Or.inl ⟨?_, hc⟩
      simp [hget, hnone]
    · have hget : c.get archive node = .error (.io .nameTooLong) := by rw [get, hfound]; rfl
      refine Or.inr ⟨fun hfits => hlong ?_, ?_, hc⟩
      · exact isShort_artifactPath_iff.mpr hfits name hname
      · simp [hget]
  · have hget := get_eq_some (hc.tidy.direct archive) (hc.fits_of_file hfile) hfile hread.1 hread.2
    refine Or.inl ⟨?_, hc⟩
    simp [hget, hsome]

theorem serves_invalidate (archive node : String) : Serves c h (.invalidate archive node) := by
  rcases hc.artifact_cases archive node with ⟨hfile, hnone⟩ | ⟨data, a, hfile, hsome, -⟩
  · rcases hc.tidy.invalidate_of_none hfile with hinvalidate | ⟨hfits, hinvalidate⟩
    · refine Or.inl ⟨?_, ?_⟩
      · simp [hinvalidate, hnone]
      · rw [Holdings.after_invalidate_of_none hnone]
        simpa [hinvalidate] using hc
    · refine Or.inr ⟨hfits, ?_, ?_⟩
      · simp [hinvalidate]
      · simpa [hinvalidate] using hc
  · have hinvalidate := hc.tidy.invalidate_of_file hfile
    have hfiles := fileOf_invalidate (hc.tidy.direct archive) node
    refine Or.inl ⟨?_, hc.tidy.invalidate archive node, fun archive' other => ?_,
      fun archive' => ?_⟩
    · simp [hinvalidate, hsome]
    · simp only [serve, Prod.map, id, hfiles, hinvalidate, true_and, Holdings.after]
      split
      · exact .none
      · exact hc.artifact archive' other
    · simp only [serve, Prod.map, id, conclusionsOf_invalidate (hc.tidy.direct archive),
        Holdings.after]
      exact hc.conclusions archive'

theorem serves_clear (archive : String) : Serves c h (.clear archive) := by
  rcases hc.tidy.clear_fst archive with hclear | ⟨hlong, hclear⟩
  · have hdirect := hc.tidy.direct archive
    refine Or.inl ⟨?_, hc.tidy.clear archive, fun archive' node => ?_, fun archive' => ?_⟩
    · simp [hclear]
    · simp only [serve, Prod.map, id, fileOf_clear hdirect, hclear, true_and, Holdings.after]
      split
      · exact .none
      · exact hc.artifact archive' node
    · simp only [serve, Prod.map, id, conclusionsOf_clear hdirect, hclear, true_and,
        Holdings.after]
      split
      · exact .none
      · exact hc.conclusions archive'
  · refine Or.inr ⟨hlong, ?_, ?_⟩
    · simp [hclear]
    · simpa [hclear] using hc

/-! ### Lists of artifacts -/

/-- Which files are those of successes. -/
theorem succeeded?_eq (hthere : c.fileOf archive node ≠ none) :
    c.succeeded? (artifactPath archive node) = .ok (Option.guard (h.succeeded archive) node) := by
  rcases hc.artifact_cases archive node with ⟨hnone, -⟩ | ⟨data, a, hfile, hheld, hdecode, hnode⟩
  · exact absurd hnone hthere
  · rw [succeeded?, hc.tidy.read_of_file (.artifact archive node data) hfile]
    rcases readMarker_of_decode hdecode with ⟨hok, e, payload, hmarker⟩ | ⟨hno, f, payload, hmarker⟩
    · simp [hmarker, Option.guard, Holdings.succeeded, hheld, hok, hnode]
    · simp [hmarker, Option.guard, Holdings.succeeded, hheld, hno]

/-- The successes among the nodes that have files are listed. -/
theorem list_eq {nodes : List String}
    (hnames : c.find (·.names (artifactsPath archive)) = .ok (nodes.map artifactName))
    (hfiles : ∀ node ∈ nodes, c.fileOf archive node ≠ none) :
    c.list archive = .ok ((nodes.filter (h.succeeded archive)).mergeSort fun a b => a ≤ b) := by
  have hartifacts : (nodes.map artifactName).filter isArtifactName = nodes.map artifactName := by
    rw [List.filter_eq_self]
    intro name hname
    obtain ⟨node, -, rfl⟩ := List.mem_map.mp hname
    exact isArtifactName_artifactName node
  have hsuccesses : (nodes.map artifactName).mapM
      (fun name => c.succeeded? (artifactsPath archive ++ [name])) =
        .ok (nodes.map (Option.guard (h.succeeded archive))) := by
    rw [List.mapM_map]
    exact mapM_eq_pure fun node hnode => hc.succeeded?_eq (hfiles node hnode)
  have hfilter : (nodes.map (Option.guard (h.succeeded archive))).filterMap id =
      nodes.filter (h.succeeded archive) := by
    rw [List.filterMap_map, Function.id_comp]
    exact congrFun List.filterMap_eq_filter nodes
  rw [list]
  simp only [hnames, hartifacts, bind, Except.bind, hsuccesses, hfilter]
  rfl

/-- A success that is held has a file. -/
theorem fileOf_of_succeeded (hs : h.succeeded archive node = true) :
    c.fileOf archive node ≠ none := by
  rcases hc.artifact_cases archive node with ⟨-, hheld⟩ | ⟨data, a, hfile, -⟩
  · simp [Holdings.succeeded, hheld] at hs
  · simp [hfile]

theorem serves_list (archive : String) : Serves c h (.list archive) := by
  rcases hc.tidy.look_of_directory (.artifacts archive) with hnone | hdir
  · have hempty : ∀ node, ¬ h.succeeded archive node = true := fun node hs =>
      hc.fileOf_of_succeeded hs (fileOf_of_missing hnone node)
    rcases hc.tidy.names_of_missing hnone with hnames | ⟨hlong, hnames⟩
    · have hlist : c.list archive = .ok [] := by rw [list, hnames]; rfl
      refine Or.inl ⟨⟨[], ?_, List.Pairwise.nil, ?_⟩, hc⟩
      · simp [hlist]
      · simp [hempty]
    · have hlist : c.list archive = .error (.io .nameTooLong) := by rw [list, hnames]; rfl
      refine Or.inr ⟨hlong, ?_, hc⟩
      simp [hlist]
  · obtain ⟨nodes, hnames, hnodup, hmem⟩ := hc.tidy.names_of_directory hdir
    have hlist := hc.list_eq hnames fun node hnode => (hmem node).mp hnode
    refine Or.inl ⟨⟨(nodes.filter (h.succeeded archive)).mergeSort fun a b => a ≤ b, ?_,
      pairwise_lt_mergeSort (hnodup.filter _), fun node => ?_⟩, hc⟩
    · simp only [serve, hlist, Answer.ofExcept]
    · rw [List.mem_mergeSort, List.mem_filter, hmem, and_iff_right_iff_imp]
      exact hc.fileOf_of_succeeded

/-! ### Conclusions -/

theorem serves_putConclusions (hcs : ∀ c ∈ cs, c.Proper ∧ c.toJson.NumbersReadBack) :
    Serves c h (.putConclusions archive cs) := by
  have hput := hc.tidy.putConclusions_fst archive cs
  have htidy := hc.tidy.putConclusions archive cs
  have hfile := fileOf_putConclusions c archive cs
  have hconclusions := conclusionsOf_putConclusions c archive cs
  by_cases hfits : IsShort (encodeName archive)
  · rw [if_pos hfits] at hput
    refine Or.inl ⟨?_, htidy, fun archive' node => ?_, fun archive' => ?_⟩
    · simp [hput]
    · simp only [serve, Prod.map, id, hfile, Holdings.after]
      exact hc.artifact archive' node
    · simp only [serve, Prod.map, id, hconclusions, hput, true_and, Holdings.after]
      split
      · exact .some (decodeConclusions?_encodeConclusions (fun c hc => (hcs c hc).1)
          fun c hc => (hcs c hc).2)
      · exact hc.conclusions archive'
  · rw [if_neg hfits] at hput
    refine Or.inr ⟨hfits, ?_, hc.of_files htidy hfile fun archive' => ?_⟩
    · simp [hput]
    · simp [hconclusions, hput]

theorem serves_conclusions (archive : String) : Serves c h (.conclusions archive) := by
  have hrel := hc.conclusions archive
  generalize hfile : c.conclusionsOf archive = file, hheld : h.conclusions archive = held at hrel
  cases hrel with
  | none =>
      rcases hc.tidy.readFile?_of_none (.conclusions archive []) hfile with
        hfound | ⟨⟨name, hname, hlong⟩, hfound⟩
      · have hget : c.conclusions archive = .ok none := by rw [Cache.conclusions, hfound]; rfl
        refine Or.inl ⟨?_, hc⟩
        simp [hget, hheld]
      · have hget : c.conclusions archive = .error (.io .nameTooLong) := by
          rw [Cache.conclusions, hfound]
          rfl
        refine Or.inr ⟨fun hfits => hlong ?_, ?_, hc⟩
        · exact isShort_conclusionsPath_iff.mpr hfits name hname
        · simp [hget]
  | @some data cs hdecode =>
      have hget : c.conclusions archive = .ok (some cs) := by
        rw [Cache.conclusions, hc.tidy.readFile?_of_file (.conclusions archive data) hfile]
        simp [bind, Except.bind, hdecode, pure, Except.pure]
      refine Or.inl ⟨?_, hc⟩
      simp [hget, hheld]

/-! ### Runs -/

theorem serves_reopen (location : String) : Serves c h (.reopen location) :=
  Or.inl ⟨rfl, ⟨hc.tidy.place, hc.tidy.possible, hc.tidy.ordered⟩, hc.artifact, hc.conclusions⟩

/-- **A request is answered from what is held.** -/
theorem serves {r : Request} (hr : r.Storable) : Serves c h r := by
  cases r with
  | put archive a => exact hc.serves_put hr
  | get archive node => exact hc.serves_get archive node
  | invalidate archive node => exact hc.serves_invalidate archive node
  | clear archive => exact hc.serves_clear archive
  | list archive => exact hc.serves_list archive
  | putConclusions archive cs => exact hc.serves_putConclusions hr
  | conclusions archive => exact hc.serves_conclusions archive
  | reopen location => exact hc.serves_reopen location

end Holds

theorem Holds.follows {rs : List Request} (hc : Holds c h) (hrs : ∀ r ∈ rs, r.Storable) :
    Follows h rs (c.answers rs) := by
  induction rs generalizing c h with
  | nil => exact .nil
  | cons r rs ih =>
      have hrest : ∀ r ∈ rs, r.Storable := fun r' hr' => hrs r' (by simp [hr'])
      rcases hc.serves (hrs r (by simp)) with ⟨hanswer, hnext⟩ | ⟨hfits, hanswer, hnext⟩
      · exact .answered hanswer (ih hnext hrest)
      · rw [answers, hanswer]
        exact .refused hfits (ih hnext hrest)

/-- **A cache answers as a map does.** Starting without any files, it answers every request from
the last artifacts and conclusions that were put and not dropped since, where a failure is held
without any value. None of them is ever found to be corrupt, and a success without a value is
refused without any other effect. -/
theorem answers_as_a_map_does (location : String) {rs : List Request}
    (hrs : ∀ r ∈ rs, r.Storable) : Follows .empty rs ((fresh location).answers rs) :=
  (holds_fresh location).follows hrs

/-- Requests with names that are no names of files. -/
def oddRequests : List Request :=
  [.put "" (.succeeded ".." (.bytes [10, 255])),
    .put "." ⟨"..", .succeeded, none⟩,
    .put "a/b" (.failed "" ⟨.exec, "no\nsuch file"⟩),
    .put "%" (.succeeded "é\n" (.document .null)),
    .putConclusions "a/b" [
      { name := "", level := .error, summary := "é", description := "\n", results := ["%"],
        details := [], abnormal := true, normal := false, unknown := false,
        duration := Double.zero false }],
    .reopen "",
    .list "a/b", .get "a/b" "", .get "a" "b", .conclusions "a/b", .conclusions "a",
    .clear "a/b", .invalidate "%" "é\n", .invalidate "%25" "é\n", .list "", .get "" ".."]

/-- They are answered as well. -/
theorem oddRequests_answers_as_a_map_does :
    (∀ r ∈ oddRequests, r.Storable) ∧
      Follows .empty oddRequests ((fresh "cache").answers oddRequests) := by
  have hstorable : ∀ r ∈ oddRequests, r.Storable := by
    have hzero : (Number.real (Double.zero false)).ReadsBack := by
      unfold Number.ReadsBack
      decide +kernel
    simp [oddRequests, Request.Storable, Storable, Artifact.value?, Artifact.succeeded,
      Artifact.failed, ArtifactValue.Proper, ArtifactValue.NumbersReadBack, ArtifactValue.json?,
      ArtifactValue.depth, Json.depth, Json.maxDepth, Json.Sorted, Conclusion.Proper,
      Conclusion.toJson, Json.NumbersReadBack, Json.NumbersReadBackItems,
      Json.NumbersReadBackValues, hzero]
  exact ⟨hstorable, answers_as_a_map_does "cache" hstorable⟩

/-- A failure with a value. -/
def strayValue : Artifact := ⟨"log", .failed ⟨.exec, "no log"⟩, some (.bytes [49])⟩

/-- It is put without any complaint, and its value is lost. -/
theorem strayValue_is_not_held :
    Storable strayValue ∧
      (fresh "cache").answers [.put "sos" strayValue, .get "sos" "log"] =
        [.done, .artifact (some (.failed "log" ⟨.exec, "no log"⟩))] ∧
      strayValue.value ≠ (Artifact.failed "log" ⟨.exec, "no log"⟩).value := by
  have hstorable : Storable strayValue := by simp [Storable, strayValue, Artifact.value?]
  have hfits : Fits "sos" "log" := by decide
  have hsolid : isHollow strayValue = false := rfl
  have hstored : stored strayValue = .failed "log" ⟨.exec, "no log"⟩ := rfl
  refine ⟨hstorable, ?_, by simp [strayValue, Artifact.failed]⟩
  have hserved : Serves (fresh "cache") .empty (.put "sos" strayValue) :=
    (holds_fresh "cache").serves_put hstorable
  obtain ⟨hput, hheld⟩ | ⟨hlong, -⟩ := hserved
  · obtain ⟨hget, -⟩ | ⟨hlong, -⟩ := hheld.serves_get "sos" "log"
    · have hdone : ((fresh "cache").serve (.put "sos" strayValue)).1 = .done := by
        simpa [hsolid] using hput
      have hfound : (((fresh "cache").serve (.put "sos" strayValue)).2.serve (.get "sos" "log")).1 =
          .artifact (some (stored strayValue)) := by
        have hnode : strayValue.node = "log" := rfl
        rw [hget, Holdings.after, hsolid]
        simp [hnode]
      rw [answers, answers, answers, hdone, hfound, hstored]
    · exact absurd hfits hlong
  · exact absurd hfits hlong

end Distill.Cache

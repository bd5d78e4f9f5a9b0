import Distill.Graph.Basic
import Mathlib.Data.List.Nodup
import Mathlib.Data.List.Perm.Subperm

/-!
# The order of evaluation

Sorting takes the first node that is ready, and a node is ready when its source has
come. In a set of sources without cycles every chain of sources ends, so that nothing
stays behind: the order holds every node once, behind its source.

## Main definitions

* `Feeds` — one node is the source of another.
* `Sorting.Inv` — what holds in every state of sorting.

## Main statements

* `orderOf_perm`, `orderOf_pairwise` — the order holds every node once, and none before
  its source.
-/

namespace Distill

/-! ## Ascending lists -/

theorem insertAscending_perm (i : Nat) (l : List Nat) : (insertAscending i l).Perm (i :: l) := by
  induction l with
  | nil => rfl
  | cons j rest ih =>
      rw [insertAscending]
      split
      · rfl
      · exact (ih.cons j).trans (List.Perm.swap i j rest)

theorem mem_insertAscending {i k : Nat} {l : List Nat} :
    k ∈ insertAscending i l ↔ k = i ∨ k ∈ l := by
  rw [(insertAscending_perm i l).mem_iff, List.mem_cons]

/-- A number that is put where it belongs keeps the order. -/
theorem pairwise_insertAscending {i : Nat} {l : List Nat} (hl : l.Pairwise (· < ·))
    (hi : i ∉ l) : (insertAscending i l).Pairwise (· < ·) := by
  induction l with
  | nil => exact List.pairwise_singleton _ i
  | cons j rest ih =>
      obtain ⟨hj, hrest⟩ := List.pairwise_cons.mp hl
      have hne : i ≠ j := fun h => hi (by simp [h])
      rw [insertAscending]
      split
      · next hle =>
        refine List.pairwise_cons.mpr ⟨?_, hl⟩
        intro k hk
        rcases List.mem_cons.mp hk with rfl | hk
        · omega
        · have := hj k hk
          omega
      · next hlt =>
        refine List.pairwise_cons.mpr ⟨?_, ih hrest fun h => hi (by simp [h])⟩
        intro k hk
        rcases mem_insertAscending.mp hk with rfl | hk
        · omega
        · exact hj k hk

/-- Several numbers are put where they belong. -/
theorem foldl_insertAscending_perm (ds l : List Nat) :
    (ds.foldl (fun acc d => insertAscending d acc) l).Perm (ds ++ l) := by
  induction ds generalizing l with
  | nil => rfl
  | cons d rest ih =>
      calc
        (rest.foldl (fun acc d => insertAscending d acc) (insertAscending d l)).Perm
            (rest ++ insertAscending d l) := ih _
        _ |>.Perm (rest ++ d :: l) := (insertAscending_perm d l).append_left rest
        _ |>.Perm (d :: (rest ++ l)) := List.perm_middle

theorem pairwise_foldl_insertAscending {ds l : List Nat} (hl : l.Pairwise (· < ·))
    (hd : (ds ++ l).Nodup) :
    (ds.foldl (fun acc d => insertAscending d acc) l).Pairwise (· < ·) := by
  induction ds generalizing l with
  | nil => exact hl
  | cons d rest ih =>
      rw [List.cons_append, List.nodup_cons] at hd
      have hdl : d ∉ l := fun h => hd.1 (by simp [h])
      refine ih (pairwise_insertAscending hl hdl) ?_
      have hperm := (insertAscending_perm d l).append_left rest
      rw [hperm.nodup_iff, List.perm_middle.nodup_iff, List.nodup_cons]
      exact hd

/-! ## Sources -/

/-- A node is the source of another. -/
def Feeds (sources : List (Option Nat)) (a b : Nat) : Prop := sourceAt sources b = some a

theorem lt_of_sourceAt {sources : List (Option Nat)} {i k : Nat}
    (h : sourceAt sources i = some k) : i < sources.length := by
  by_contra hi
  rw [sourceAt, List.getElem?_eq_none (by omega)] at h
  simp at h

@[simp] theorem mem_dependentsAt {sources : List (Option Nat)} {i d : Nat} :
    d ∈ dependentsAt sources i ↔ sourceAt sources d = some i := by
  simp only [dependentsAt, List.mem_filter, List.mem_range, decide_eq_true_eq,
    and_iff_right_iff_imp]
  exact lt_of_sourceAt

theorem nodup_dependentsAt (sources : List (Option Nat)) (i : Nat) :
    (dependentsAt sources i).Nodup :=
  List.nodup_range.filter _

/-! ## Sorting -/

namespace Sorting

/-- What holds in every state of sorting: a node has come or is ready exactly when its
source has come, and then no source of it is missing. -/
structure Inv (sources : List (Option Nat)) (s : Sorting) : Prop where
  nodup : (s.done ++ s.ready).Nodup
  ascending : s.ready.Pairwise (· < ·)
  mem_iff : ∀ i, i ∈ s.done ++ s.ready ↔
    i < sources.length ∧ ∀ k, sourceAt sources i = some k → k ∈ s.done
  missing_eq : ∀ i, s.missing[i]? =
    if i < sources.length then some (if i ∈ s.done ++ s.ready then 0 else 1) else none
  pairwise : s.done.Pairwise fun a b => sourceAt sources a ≠ some b

variable {sources : List (Option Nat)} {s : Sorting}

theorem inv_start (sources : List (Option Nat)) : Inv sources (start sources) where
  nodup := by
    rw [start, List.nil_append]
    exact List.nodup_range.filter _
  ascending := by simpa [start] using List.pairwise_lt_range.filter _
  mem_iff i := by
    simp only [start, List.nil_append, List.mem_filter, List.mem_range, Option.isNone_iff_eq_none,
      List.not_mem_nil, imp_false]
    refine and_congr_right fun _ => ?_
    cases sourceAt sources i <;> simp
  missing_eq i := by
    by_cases hi : i < sources.length
    · simp only [start, List.getElem?_map, List.getElem?_eq_getElem hi, Option.map_some, hi,
        if_true, List.nil_append, List.mem_filter, List.mem_range, true_and, sourceAt,
        Option.join_some]
      cases sources[i] <;> simp
    · simp [start, hi]
  pairwise := List.Pairwise.nil

/-- What the nodes that read an output do when it comes: each of them misses nothing more
and is ready. -/
theorem foldl_release (ds : List Nat) (hds : ds.Nodup)
    (hone : ∀ d ∈ ds, s.missing[d]? = some 1) :
    (ds.foldl release s).done = s.done ∧
      (ds.foldl release s).ready = ds.foldl (fun acc d => insertAscending d acc) s.ready ∧
      ∀ k, (ds.foldl release s).missing[k]? = if k ∈ ds then some 0 else s.missing[k]? := by
  induction ds generalizing s with
  | nil => simp
  | cons d rest ih =>
      obtain ⟨hd, hrest⟩ := List.nodup_cons.mp hds
      have hmissing : s.missing[d]? = some 1 := hone d (by simp)
      have hlen : d < s.missing.length := (List.getElem?_eq_some_iff.mp hmissing).1
      have hstep : release s d =
          { s with missing := s.missing.set d 0, ready := insertAscending d s.ready } := by
        simp [release, List.getD_eq_getElem?_getD, hmissing]
      rw [List.foldl_cons, hstep]
      obtain ⟨hdone, hready, hmiss⟩ := ih (s := { s with
        missing := s.missing.set d 0, ready := insertAscending d s.ready }) hrest <| by
          intro e he
          have hne : d ≠ e := fun h => hd (h ▸ he)
          rw [List.getElem?_set_ne hne]
          exact hone e (by simp [he])
      refine ⟨hdone, hready, ?_⟩
      intro k
      rw [hmiss]
      by_cases hk : k = d
      · subst hk
        simp [hd, List.getElem?_set_self hlen]
      · simp [hk, List.getElem?_set_ne (Ne.symm hk)]

/-- What a step does: the first node that is ready comes, and the nodes that read its output,
none of which was ready before, are ready. -/
theorem Inv.of_next? {s' : Sorting} (hs : Inv sources s) (h : next? sources s = some s') :
    ∃ i rest, s.ready = i :: rest ∧ i ∉ s.done ∧
      (∀ d, sourceAt sources d = some i → d ∉ s.done ++ s.ready) ∧
      s'.done = s.done ++ [i] ∧
      s'.ready = (dependentsAt sources i).foldl (fun acc d => insertAscending d acc) rest ∧
      ∀ k, s'.missing[k]? = if k ∈ dependentsAt sources i then some 0 else s.missing[k]? := by
  rw [next?] at h
  split at h
  · simp at h
  · next i rest hready =>
    have hnodup := hs.nodup
    rw [hready] at hnodup
    have hidone : i ∉ s.done := fun hi =>
      (List.nodup_append.mp hnodup).2.2 i hi i (by simp) rfl
    have hlate : ∀ d, sourceAt sources d = some i → d ∉ s.done ++ s.ready := by
      intro d hd hmem
      exact hidone (((hs.mem_iff d).mp hmem).2 i hd)
    have hone : ∀ d ∈ dependentsAt sources i, s.missing[d]? = some 1 := by
      intro d hd
      have hsrc := mem_dependentsAt.mp hd
      rw [hs.missing_eq, if_pos (lt_of_sourceAt hsrc), if_neg (hlate d hsrc)]
    have hrelease := foldl_release (s := { s with ready := rest, done := s.done ++ [i] }) _
      (nodup_dependentsAt sources i) hone
    rw [Option.some.inj h] at hrelease
    exact ⟨i, rest, hready, hidone, hlate, hrelease⟩

/-- **One step of sorting keeps the invariant.** -/
theorem Inv.next {s' : Sorting} (hs : Inv sources s) (h : next? sources s = some s') :
    Inv sources s' := by
  obtain ⟨i, rest, hready, hidone, hlate, hdone, hready', hmissing⟩ := hs.of_next? h
  have hplaced : ∀ k, k ∈ (s.done ++ [i]) ++ rest ↔ k ∈ s.done ++ s.ready := by
    intro k
    rw [hready]
    simp
  have hperm : (s'.done ++ s'.ready).Perm
      (dependentsAt sources i ++ ((s.done ++ [i]) ++ rest)) := by
    rw [hdone, hready']
    refine ((foldl_insertAscending_perm _ _).append_left _).trans ?_
    rw [← List.append_assoc, ← List.append_assoc]
    exact List.perm_append_comm.append_right _
  have hmem : ∀ k, k ∈ s'.done ++ s'.ready ↔
      sourceAt sources k = some i ∨ k ∈ s.done ++ s.ready := by
    intro k
    rw [hperm.mem_iff, List.mem_append, mem_dependentsAt, hplaced]
  have hnodup : (dependentsAt sources i ++ ((s.done ++ [i]) ++ rest)).Nodup := by
    have hbefore := hs.nodup
    rw [hready] at hbefore
    rw [List.nodup_append]
    refine ⟨nodup_dependentsAt sources i, by simpa using hbefore, ?_⟩
    intro d hd k hk hdk
    subst hdk
    exact hlate d (mem_dependentsAt.mp hd) ((hplaced d).mp hk)
  refine ⟨hperm.nodup_iff.mpr hnodup, ?_, ?_, ?_, ?_⟩
  · rw [hready']
    have hasc := hs.ascending
    rw [hready] at hasc
    refine pairwise_foldl_insertAscending (List.pairwise_cons.mp hasc).2 ?_
    exact hnodup.sublist ((List.sublist_append_right _ _).append_left _)
  · intro k
    rw [hmem, hs.mem_iff, hdone]
    constructor
    · rintro (hk | ⟨hk, hsrc⟩)
      · refine ⟨lt_of_sourceAt hk, ?_⟩
        intro m hm
        rw [hk] at hm
        simp [Option.some.inj hm]
      · exact ⟨hk, fun m hm => by simp [hsrc m hm]⟩
    · rintro ⟨hk, hsrc⟩
      by_cases hki : sourceAt sources k = some i
      · exact Or.inl hki
      · refine Or.inr ⟨hk, ?_⟩
        intro m hm
        have hmem := hsrc m hm
        rcases List.mem_append.mp hmem with hmem | hmem
        · exact hmem
        · rw [List.mem_singleton.mp hmem] at hm
          exact absurd hm hki
  · intro k
    rw [hmissing, hs.missing_eq]
    simp only [mem_dependentsAt, hmem]
    by_cases hk : sourceAt sources k = some i
    · simp [hk, lt_of_sourceAt hk]
    · simp [hk]
  · rw [hdone, List.pairwise_append]
    refine ⟨hs.pairwise, List.pairwise_singleton _ i, ?_⟩
    intro a ha b hb hab
    rw [List.mem_singleton.mp hb] at hab
    exact hidone (((hs.mem_iff a).mp (by simp [ha])).2 i hab)

/-- A node more has come. -/
theorem length_done_next {s' : Sorting} (hs : Inv sources s) (h : next? sources s = some s') :
    s'.done.length = s.done.length + 1 := by
  obtain ⟨i, rest, -, -, -, hdone, -, -⟩ := hs.of_next? h
  rw [hdone, List.length_append, List.length_singleton]

/-- When nothing is ready, everything has come: a node that has not would have a source
that has not, and so on without end. -/
theorem Inv.mem_done_of_ready_nil (hs : Inv sources s) (hwf : WellFounded (Feeds sources))
    (hlt : ∀ i k, sourceAt sources i = some k → k < sources.length) (hready : s.ready = [])
    {i : Nat} (hi : i < sources.length) : i ∈ s.done := by
  induction i using hwf.induction with
  | h i ih =>
      have hmem : i ∈ s.done ++ s.ready :=
        (hs.mem_iff i).mpr ⟨hi, fun k hk => ih k hk (hlt i k hk)⟩
      simpa [hready] using hmem

/-- Enough steps lead to a state in which everything has come. -/
theorem inv_run (hwf : WellFounded (Feeds sources))
    (hlt : ∀ i k, sourceAt sources i = some k → k < sources.length) {n : Nat}
    (hs : Inv sources s) (hn : sources.length ≤ n + s.done.length) :
    Inv sources (run sources n s) ∧ (run sources n s).done.Perm (List.range sources.length) := by
  have hbound : ∀ t : Sorting, Inv sources t → ∀ i ∈ t.done, i < sources.length :=
    fun t ht i hi => ((ht.mem_iff i).mp (by simp [hi])).1
  have hnodup : ∀ t : Sorting, Inv sources t → t.done.Nodup := fun t ht =>
    (List.nodup_append.mp ht.nodup).1
  induction n generalizing s with
  | zero =>
      refine ⟨hs, ?_⟩
      have hsub : s.done.Subperm (List.range sources.length) :=
        (hnodup s hs).subperm fun i hi => List.mem_range.mpr (hbound s hs i hi)
      exact hsub.perm_of_length_le (by simpa using hn)
  | succ n ih =>
      rw [run]
      split
      · next hnone =>
        refine ⟨hs, ?_⟩
        have hready : s.ready = [] := by
          cases hr : s.ready with
          | nil => rfl
          | cons i rest => simp [next?, hr] at hnone
        rw [List.perm_ext_iff_of_nodup (hnodup s hs) List.nodup_range]
        intro i
        rw [List.mem_range]
        exact ⟨hbound s hs i, hs.mem_done_of_ready_nil hwf hlt hready⟩
      · next s' hsome =>
        refine ih (hs.next hsome) ?_
        rw [length_done_next hs hsome]
        omega

end Sorting

variable {sources : List (Option Nat)}

/-- **The order holds every node once.** -/
theorem orderOf_perm (hwf : WellFounded (Feeds sources))
    (hlt : ∀ i k, sourceAt sources i = some k → k < sources.length) :
    (orderOf sources).Perm (List.range sources.length) :=
  (Sorting.inv_run hwf hlt (Sorting.inv_start sources) (by simp)).2

/-- **No node stands before its source.** -/
theorem orderOf_pairwise (hwf : WellFounded (Feeds sources))
    (hlt : ∀ i k, sourceAt sources i = some k → k < sources.length) :
    (orderOf sources).Pairwise fun a b => sourceAt sources a ≠ some b :=
  (Sorting.inv_run hwf hlt (Sorting.inv_start sources) (by simp)).1.pairwise

end Distill

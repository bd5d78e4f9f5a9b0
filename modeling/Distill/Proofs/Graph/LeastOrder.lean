import Distill.Proofs.Graph.Soundness

/-!
# The least order

A node can come when its source has come. An order is greedy when each node in it is the least
of those that can come; so there is no more than one greedy order of the same nodes, every other
order with the sources first is greater, and the nodes of a closed selection are in greedy order
when all others are left out. Sorting takes the least node that is ready, and so it is greedy.

## Main definitions

* `CanFollow` — the nodes that can come next.
* `Admissible`, `Greedy` — orders of some nodes, with the sources first and as small as can be.

## Main statements

* `Greedy.eq_or_lex` — a greedy order is less than every other one.
* `Greedy.prefix_of_forall_mem`, `Greedy.filter` — it is the only one, and so is what it is on a
  closed selection.
* `Sorting.Inv.greedy_run` — sorting is greedy.
* `Graph.order_is_least` — the order of a graph, and the counts of missing sources.
-/

namespace Distill

/-! ## Greedy orders -/

/-- The node can come after the others: it has not come yet, but its source has. -/
def CanFollow (sources : List (Option Nat)) (done : List Nat) (i : Nat) : Prop :=
  i < sources.length ∧ i ∉ done ∧ ∀ k, sourceAt sources i = some k → k ∈ done

/-- Each node of the order is one of the chosen nodes and can follow those before it. -/
def Admissible (sources : List (Option Nat)) (chosen : Nat → Bool) (l : List Nat) : Prop :=
  ∀ before i after, l = before ++ i :: after → chosen i = true ∧ CanFollow sources before i

/-- Each node of the order is the least of the chosen nodes that can follow those before it. -/
structure Greedy (sources : List (Option Nat)) (chosen : Nat → Bool) (l : List Nat) : Prop where
  admissible : Admissible sources chosen l
  least : ∀ before i after, l = before ++ i :: after → ∀ k, chosen k = true →
    CanFollow sources before k → i ≤ k

variable {sources : List (Option Nat)} {chosen : Nat → Bool} {l o : List Nat} {i k : Nat}

theorem greedy_nil (sources : List (Option Nat)) (chosen : Nat → Bool) :
    Greedy sources chosen [] where
  admissible before i after h := by simp at h
  least before i after h := by simp at h

/-- The least node that can come keeps an order greedy. -/
theorem Greedy.concat (h : Greedy sources chosen l) (hi : chosen i = true)
    (hfollow : CanFollow sources l i)
    (hleast : ∀ k, chosen k = true → CanFollow sources l k → i ≤ k) :
    Greedy sources chosen (l ++ [i]) := by
  -- A split of the longer order is one of the old order, or it is at the new node.
  have hsplit : ∀ before m after, l ++ [i] = before ++ m :: after →
      (∃ rest, l = before ++ m :: rest) ∨ (before = l ∧ m = i) := by
    intro before m after heq
    rcases List.eq_nil_or_concat after with rfl | ⟨rest, last, rfl⟩
    · obtain ⟨hl, hm⟩ := List.append_inj' heq rfl
      exact Or.inr ⟨hl.symm, (List.cons.inj hm).1.symm⟩
    · have heq' : l ++ [i] = (before ++ m :: rest) ++ [last] := by simpa using heq
      exact Or.inl ⟨rest, (List.append_inj' heq' rfl).1⟩
  constructor
  · intro before m after heq
    rcases hsplit before m after heq with ⟨rest, hl⟩ | ⟨rfl, rfl⟩
    · exact h.admissible before m rest hl
    · exact ⟨hi, hfollow⟩
  · intro before m after heq
    rcases hsplit before m after heq with ⟨rest, hl⟩ | ⟨rfl, rfl⟩
    · exact h.least before m rest hl
    · exact hleast

/-- In an admissible order a node stands behind its source. -/
theorem Admissible.idxOf_lt (h : Admissible sources chosen l) (hi : i ∈ l)
    (hk : sourceAt sources i = some k) : l.idxOf k < l.idxOf i := by
  obtain ⟨before, after, rfl⟩ := List.append_of_mem hi
  obtain ⟨-, -, hfresh, hsource⟩ := h before i after rfl
  have hmem : k ∈ before := hsource k hk
  calc
    (before ++ i :: after).idxOf k = before.idxOf k := List.idxOf_append_of_mem hmem
    _ < before.length := List.idxOf_lt_length_of_mem hmem
    _ ≤ (before ++ i :: after).idxOf i := by
      rw [List.idxOf_append_of_notMem hfresh]
      omega

/-- An order of all nodes in which every node stands behind its source is admissible. -/
theorem admissible_of_idxOf_lt (hperm : l.Perm (List.range sources.length))
    (h : ∀ i k, sourceAt sources i = some k → l.idxOf k < l.idxOf i) :
    Admissible sources (fun _ => true) l := by
  rintro before i after rfl
  have hnodup : (before ++ i :: after).Nodup := hperm.nodup_iff.mpr List.nodup_range
  have hfresh : i ∉ before := by
    intro hi
    exact (List.nodup_append.mp hnodup).2.2 i hi i (by simp) rfl
  have hlt : i < sources.length := List.mem_range.mp (hperm.mem_iff.mp (by simp))
  refine ⟨rfl, hlt, hfresh, ?_⟩
  intro k hk
  by_contra hlate
  have hidx := h i k hk
  rw [List.idxOf_append_of_notMem hfresh, List.idxOf_append_of_notMem hlate,
    List.idxOf_cons_self] at hidx
  omega

/-- **A greedy order is less than every other admissible order** of as many nodes: where the two
differ first, the other one has a node that could come, and so a greater one. -/
theorem Greedy.eq_or_lex (ho : Greedy sources chosen o) (hl : Admissible sources chosen l)
    (hlen : o.length = l.length) : o = l ∨ List.Lex (· < ·) o l := by
  suffices h : ∀ t u before : List Nat, t.length = u.length → o = before ++ t → l = before ++ u →
      t = u ∨ List.Lex (· < ·) t u from h o l [] hlen rfl rfl
  intro t
  induction t with
  | nil =>
      intro u before htu _ _
      exact Or.inl (List.length_eq_zero_iff.mp htu.symm).symm
  | cons x t ih =>
      intro u before htu hot hlu
      cases u with
      | nil => simp at htu
      | cons y u =>
          obtain ⟨hy, hfollow⟩ := hl before y u hlu
          have hle : x ≤ y := ho.least before x t hot y hy hfollow
          rcases Nat.lt_or_eq_of_le hle with hlt | rfl
          · exact Or.inr (List.Lex.rel hlt)
          · have hrest := ih u (before ++ [x]) (by simpa using htu) (by simpa using hot)
              (by simpa using hlu)
            rcases hrest with rfl | hlex
            · exact Or.inl rfl
            · exact Or.inr (List.Lex.cons hlex)

/-- **There is one greedy order:** every other one is the beginning of the one that holds all
chosen nodes. -/
theorem Greedy.prefix_of_forall_mem (hl : Greedy sources chosen l) (ho : Greedy sources chosen o)
    (hall : ∀ i, chosen i = true → i ∈ o) : l <+: o := by
  suffices h : ∀ t u before : List Nat, l = before ++ t → o = before ++ u → t <+: u from
    h l o [] rfl rfl
  intro t
  induction t with
  | nil => intro u _ _ _; exact List.nil_prefix
  | cons x t ih =>
      intro u before hlt hou
      obtain ⟨hx, hfollow⟩ := hl.admissible before x t hlt
      cases u with
      | nil =>
          rw [List.append_nil] at hou
          exact absurd (hou ▸ hall x hx) hfollow.2.1
      | cons y u =>
          obtain ⟨hy, hfollow'⟩ := ho.admissible before y u hou
          obtain rfl : x = y := Nat.le_antisymm (hl.least before x t hlt y hy hfollow')
            (ho.least before y u hou x hx hfollow)
          rw [List.cons_prefix_cons]
          exact ⟨rfl, ih u (before ++ [x]) (by simpa using hlt) (by simpa using hou)⟩

/-- **The nodes of a closed selection are in greedy order** when those of a greedy order that are
not selected are left out: a node of the selection can follow the selected nodes exactly when it
can follow them all. -/
theorem Greedy.filter (ho : Greedy sources (fun _ => true) o)
    (hclosed : ∀ i k, chosen i = true → sourceAt sources i = some k → chosen k = true) :
    Greedy sources chosen (o.filter chosen) := by
  have hfollow : ∀ before i, chosen i = true →
      (CanFollow sources (before.filter chosen) i ↔ CanFollow sources before i) := by
    intro before i hi
    refine and_congr_right fun _ => and_congr ?_ ?_
    · simp [hi]
    · refine forall_congr' fun k => forall_congr' fun hk => ?_
      simp [hclosed i k hi hk]
  -- A split of what is left comes from a split of the whole order.
  have hsplit : ∀ before i after, o.filter chosen = before ++ i :: after →
      chosen i = true ∧ ∃ front rest, o = front ++ i :: rest ∧ before = front.filter chosen := by
    intro before i after heq
    obtain ⟨front, back, rfl, hfront, hback⟩ := List.filter_eq_append_iff.mp heq
    obtain ⟨skipped, rest, rfl, hskipped, hi, -⟩ := List.filter_eq_cons_iff.mp hback
    refine ⟨hi, front ++ skipped, rest, by simp, ?_⟩
    have hnone : skipped.filter chosen = [] := List.filter_eq_nil_iff.mpr hskipped
    rw [List.filter_append, hfront, hnone, List.append_nil]
  constructor
  · intro before i after heq
    obtain ⟨hi, front, rest, rfl, rfl⟩ := hsplit before i after heq
    exact ⟨hi, (hfollow front i hi).mpr (ho.admissible front i rest rfl).2⟩
  · intro before i after heq k hk hcan
    obtain ⟨hi, front, rest, rfl, rfl⟩ := hsplit before i after heq
    exact ho.least front i rest rfl k rfl ((hfollow front k hk).mp hcan)

/-! ## Sorting -/

namespace Sorting

variable {s s' : Sorting}

/-- **What is ready can come next.** -/
theorem Inv.mem_ready_iff (hs : Inv sources s) : i ∈ s.ready ↔ CanFollow sources s.done i := by
  constructor
  · intro hi
    obtain ⟨hlt, hsource⟩ := (hs.mem_iff i).mp (List.mem_append_right _ hi)
    refine ⟨hlt, ?_, hsource⟩
    intro hdone
    exact (List.nodup_append.mp hs.nodup).2.2 i hdone i hi rfl
  · rintro ⟨hlt, hfresh, hsource⟩
    have hmem := (hs.mem_iff i).mpr ⟨hlt, hsource⟩
    exact (List.mem_append.mp hmem).resolve_left hfresh

/-- The first node that is ready is the least that can come. -/
theorem Inv.greedy_next (hs : Inv sources s) (h : next? sources s = some s')
    (hg : Greedy sources (fun _ => true) s.done) : Greedy sources (fun _ => true) s'.done := by
  obtain ⟨i, rest, hready, -, -, hdone, -, -⟩ := hs.of_next? h
  have hasc := hs.ascending
  rw [hready] at hasc
  rw [hdone]
  refine hg.concat rfl (hs.mem_ready_iff.mp (by simp [hready])) ?_
  intro k _ hk
  have hmem := hs.mem_ready_iff.mpr hk
  rw [hready] at hmem
  rcases List.mem_cons.mp hmem with rfl | hmem
  · exact Nat.le_refl k
  · exact Nat.le_of_lt ((List.pairwise_cons.mp hasc).1 k hmem)

/-- **Sorting is greedy,** and the invariant holds after any number of steps. -/
theorem Inv.greedy_run (hs : Inv sources s) (hg : Greedy sources (fun _ => true) s.done)
    (n : Nat) : Inv sources (run sources n s) ∧
      Greedy sources (fun _ => true) (run sources n s).done := by
  induction n generalizing s with
  | zero => exact ⟨hs, hg⟩
  | succ n ih =>
      rw [run]
      split
      · exact ⟨hs, hg⟩
      · next s' hsome => exact ih (hs.next hsome) (hs.greedy_next hsome hg)

/-- **A source is missing from every node that is released:** its own source has just come, and
before that the node has had no turn. -/
theorem Inv.missing_of_release (hs : Inv sources s) {rest before after : List Nat} {d : Nat}
    (hready : s.ready = i :: rest) (hsplit : dependentsAt sources i = before ++ d :: after) :
    (before.foldl release { s with ready := rest, done := s.done ++ [i] }).missing[d]? =
      some 1 := by
  have hnext : next? sources s = some ((dependentsAt sources i).foldl release
      { s with ready := rest, done := s.done ++ [i] }) := by
    rw [next?, hready]
  obtain ⟨i', rest', hready', -, hlate, -, -, -⟩ := hs.of_next? hnext
  obtain rfl : i' = i := (List.cons.inj (hready'.symm.trans hready)).1
  have hnodup := nodup_dependentsAt sources i'
  rw [hsplit] at hnodup
  have hone : ∀ e ∈ before ++ d :: after, s.missing[e]? = some 1 := by
    intro e he
    have hsource : sourceAt sources e = some i' := mem_dependentsAt.mp (hsplit ▸ he)
    rw [hs.missing_eq, if_pos (lt_of_sourceAt hsource), if_neg (hlate e hsource)]
  have hfresh : d ∉ before := by
    intro hd
    exact (List.nodup_append.mp hnodup).2.2 d hd d (by simp) rfl
  obtain ⟨-, -, hmissing⟩ := foldl_release
    (s := { s with ready := rest, done := s.done ++ [i'] }) before
    (List.nodup_append.mp hnodup).1 fun e he => hone e (by simp [he])
  rw [hmissing, if_neg hfresh]
  exact hone d (by simp)

end Sorting

theorem greedy_orderOf (sources : List (Option Nat)) :
    Greedy sources (fun _ => true) (orderOf sources) :=
  ((Sorting.inv_start sources).greedy_run (greedy_nil sources _) sources.length).2

/-! ## The order of a graph -/

namespace Graph

variable {g : Graph}

theorem greedy_order {s : Definition.NodeSet} (h : ofSet s = .ok g) :
    Greedy g.sources (fun _ => true) g.order := by
  rw [(ofSet_eq_ok h).2.2.2]
  exact greedy_orderOf g.sources

/-- **The order of evaluation is the least order with the sources first.** It holds every node
of the set once, every node behind its source, and among all such orders it is the least in the
order of sequences, so that the first declared node comes whenever there is a choice. While the
order is made, no count of missing sources is lowered that is zero already: the last part is
about every node `d` that is released when `i` comes, in every state of sorting. -/
theorem order_is_least {s : Definition.NodeSet} (h : ofSet s = .ok g) :
    g.order.Perm (List.range s.size) ∧
    (∀ i k, g.source i = some k → g.order.idxOf k < g.order.idxOf i) ∧
    (∀ l : List Nat, l.Perm (List.range s.size) →
      (∀ i k, g.source i = some k → l.idxOf k < l.idxOf i) →
        g.order = l ∨ List.Lex (· < ·) g.order l) ∧
    ∀ n i rest before d after,
      (Sorting.run g.sources n (Sorting.start g.sources)).ready = i :: rest →
      dependentsAt g.sources i = before ++ d :: after →
      0 < (before.foldl Sorting.release
        { Sorting.run g.sources n (Sorting.start g.sources) with
          ready := rest
          done := (Sorting.run g.sources n (Sorting.start g.sources)).done ++ [i] }).missing.getD
            d 0 := by
  have hg := sound_ofSet h
  have hsize := size_ofSet h
  have hgreedy := greedy_order h
  refine ⟨hsize ▸ hg.order_perm, ?_, ?_, ?_⟩
  · intro i k hk
    have hi : i ∈ g.order := hg.mem_order.mpr (hg.sources_length ▸ lt_of_sourceAt hk)
    exact hgreedy.admissible.idxOf_lt hi hk
  · intro l hl hsources
    have hrange : List.range s.size = List.range g.sources.length := by
      rw [hg.sources_length, hsize]
    refine hgreedy.eq_or_lex (admissible_of_idxOf_lt (hrange ▸ hl) hsources) ?_
    rw [hg.order_perm.length_eq, hl.length_eq, hsize]
  · intro n i rest before d after hready hsplit
    have hinv := ((Sorting.inv_start g.sources).greedy_run (greedy_nil g.sources _) n).1
    have hone := hinv.missing_of_release hready hsplit
    rw [List.getD_eq_getElem?_getD, hone]
    exact Nat.one_pos

end Graph

/-- Nodes that are declared before their sources, and a command between them. -/
def Definition.NodeSet.backwards : NodeSet :=
  .ofDistinct [⟨"words", some "lines", .splitLines⟩, ⟨"lines", some "log", .splitLines⟩,
    ⟨"kernel", none, .exec ⟨"uname", [], none⟩⟩, ⟨"log", none, .exec ⟨"cat log", [], none⟩⟩]
    (by decide)

/-- The graph of `Definition.NodeSet.backwards`. -/
def Graph.backwards : Graph :=
  ⟨["words", "lines", "kernel", "log"], [some 1, some 3, none, none], [2, 3, 1, 0]⟩

/-- Of the two roots the one that is declared first comes first; to begin with the other one gives
a greater order. -/
theorem Graph.backwards_order_is_least :
    ofSet .backwards = .ok backwards ∧
    [3, 1, 0, 2].Perm (List.range (Definition.NodeSet.backwards).size) ∧
    (∀ i k, backwards.source i = some k → [3, 1, 0, 2].idxOf k < [3, 1, 0, 2].idxOf i) ∧
    List.Lex (· < ·) backwards.order [3, 1, 0, 2] := by
  have hset : ofSet .backwards = .ok backwards := rfl
  have hperm : [3, 1, 0, 2].Perm (List.range (Definition.NodeSet.backwards).size) := by decide
  have hsources : ∀ i k, backwards.source i = some k →
      [3, 1, 0, 2].idxOf k < [3, 1, 0, 2].idxOf i := by
    intro i k hk
    have hi : i < 4 := lt_of_sourceAt hk
    have hboth : ∀ i < 4, ∀ k ∈ backwards.source i,
        [3, 1, 0, 2].idxOf k < [3, 1, 0, 2].idxOf i := by decide
    exact hboth i hi k hk
  refine ⟨hset, hperm, hsources, ?_⟩
  rcases (order_is_least hset).2.2.1 _ hperm hsources with heq | hlex
  · exact absurd heq (by decide)
  · exact hlex

end Distill

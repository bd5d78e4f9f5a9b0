import Distill.Proofs.Graph.Order
import Mathlib.Data.List.Chain
import Mathlib.Data.List.TakeWhile
import Mathlib.Logic.Relation

/-!
# The search for a cycle

A search walks along the sources until they end, come to a node visited before, or come back to
the way. All searches share the nodes visited: what an earlier search has left behind are nodes
whose sources end, so that a search can stop there, and a node comes twice to a search only when
it is on its way.

## Main definitions

* `Loop` — a way that comes back to itself.
* `Way` — the way of a search.

## Main statements

* `searchFrom_eq_cycle`, `searchFrom_eq_ended` — what a search comes to.
* `firstCycle_eq_some` — the first cycle is that of the first node whose sources do not end.
* `wellFounded_feeds` — without a cycle all chains of sources end.
-/

namespace Distill

/-! ## Ways that come back -/

/-- A way from a node that leads to a cycle and then goes around it once: the first node of the
cycle comes again at the end, and otherwise no node comes twice. -/
structure Loop {α : Type} (next : α → α → Prop) (start : α) (lead : List α) (first : α)
    (ring : List α) : Prop where
  head : (lead ++ first :: ring).head? = some start
  chain : (lead ++ (first :: ring ++ [first])).IsChain next
  nodup : (lead ++ first :: ring).Nodup

namespace Loop

variable {α β : Type} {next : α → α → Prop} {start a : α} {lead : List α} {first : α}
  {ring : List α}

/-- The nodes that a way comes to. -/
private theorem reflTransGen_of_isChain {way : List α} (hchain : way.IsChain next)
    (hstart : way.head? = some start) (ha : a ∈ way) : Relation.ReflTransGen next start a := by
  induction way generalizing start with
  | nil => simp at ha
  | cons b rest ih =>
      obtain rfl : b = start := Option.some.inj hstart
      rcases List.mem_cons.mp ha with rfl | ha
      · exact .refl
      · cases rest with
        | nil => simp at ha
        | cons d rest =>
            rw [List.isChain_cons_cons] at hchain
            exact .head hchain.1 (ih hchain.2 rfl ha)

/-- The way leads to the cycle. -/
theorem reaches (h : Loop next start lead first ring) :
    Relation.ReflTransGen next start first := by
  have hchain := h.chain
  rw [← List.append_assoc] at hchain
  exact reflTransGen_of_isChain hchain.left_of_append h.head (by simp)

/-- **Every node of the cycle leads back to itself.** -/
theorem transGen_of_mem (h : Loop next start lead first ring) (ha : a ∈ first :: ring) :
    Relation.TransGen next a a := by
  have hpairs : (first :: ring ++ [first]).Pairwise (Relation.TransGen next) := by
    rw [← List.isChain_iff_pairwise]
    exact h.chain.right_of_append.imp fun _ _ => .single
  rw [List.cons_append, List.pairwise_cons, List.pairwise_append] at hpairs
  obtain ⟨hfirst, -, -, hlast⟩ := hpairs
  rcases List.mem_cons.mp ha with rfl | ha
  · exact hfirst a (by simp)
  · exact (hlast a ha first (by simp)).trans (hfirst a (by simp [ha]))

/-- Every node of the way is followed by another. -/
private theorem exists_next (h : Loop next start lead first ring)
    (ha : a ∈ lead ++ first :: ring) : ∃ b, next a b := by
  have hchain := h.chain
  rw [← List.append_assoc] at hchain
  obtain ⟨before, after, hsplit⟩ := List.append_of_mem ha
  rw [hsplit, List.append_assoc, List.cons_append] at hchain
  have htail := hchain.right_of_append
  cases after with
  | nil => exact ⟨first, (List.isChain_cons_cons.mp htail).1⟩
  | cons b after => exact ⟨b, (List.isChain_cons_cons.mp htail).1⟩

/-- The way with other names for its nodes, different ones for different nodes. -/
theorem map {next' : β → β → Prop} {f : α → β} (h : Loop next start lead first ring)
    (hnext : ∀ a b, next a b → next' (f a) (f b))
    (hinj : ∀ a b a' b', next a a' → next b b' → f a = f b → a = b) :
    Loop next' (f start) (lead.map f) (f first) (ring.map f) where
  head := by
    rw [← List.map_cons, ← List.map_append, List.head?_map, h.head]
    rfl
  chain := by
    have hmap := List.isChain_map_of_isChain f hnext h.chain
    simpa using hmap
  nodup := by
    rw [← List.map_cons, ← List.map_append]
    refine h.nodup.map_on ?_
    intro a ha b hb hab
    obtain ⟨a', ha'⟩ := h.exists_next ha
    obtain ⟨b', hb'⟩ := h.exists_next hb
    exact hinj a b a' b' ha' hb' hab

end Loop

/-! ## The way of a search -/

variable {sources : List (Option Nat)} {start i k fuel : Nat}
  {visited visited' way cycle nodes : List Nat}

/-- A way along the sources, from one node to another, on which no node comes twice. -/
structure Way (sources : List (Option Nat)) (start : Nat) (way : List Nat) (i : Nat) : Prop where
  head : way.head? = some start
  last : way.getLast? = some i
  chain : way.IsChain (flip (Feeds sources))
  nodup : way.Nodup

theorem way_start (sources : List (Option Nat)) (start : Nat) :
    Way sources start [start] start where
  head := rfl
  last := rfl
  chain := List.isChain_singleton start
  nodup := List.nodup_singleton start

namespace Way

theorem mem_last (h : Way sources start way i) : i ∈ way := List.mem_of_getLast? h.last

/-- The next source extends the chain. -/
theorem chain_concat (h : Way sources start way i) (hk : sourceAt sources i = some k) :
    (way ++ [k]).IsChain (flip (Feeds sources)) := by
  refine h.chain.append (List.isChain_singleton k) ?_
  intro a ha b hb
  rw [h.last, Option.mem_some_iff] at ha
  rw [List.head?_cons, Option.mem_some_iff] at hb
  subst ha hb
  exact hk

theorem concat (h : Way sources start way i) (hk : sourceAt sources i = some k)
    (hfresh : k ∉ way) : Way sources start (way ++ [k]) k where
  head := by
    rw [List.head?_append, h.head]
    rfl
  last := by simp
  chain := h.chain_concat hk
  nodup := by
    rw [List.nodup_append]
    refine ⟨h.nodup, List.nodup_singleton k, ?_⟩
    intro a ha b hb hab
    rw [List.mem_singleton.mp hb] at hab
    exact hfresh (hab ▸ ha)

/-- A source that is on the way closes a loop. -/
theorem loop (h : Way sources start way i) (hk : sourceAt sources i = some k) (hmem : k ∈ way) :
    ∃ lead ring, way.dropWhile (· != k) = k :: ring ∧
      Loop (flip (Feeds sources)) start lead k ring := by
  have hsplit := List.takeWhile_append_dropWhile (p := (· != k)) (l := way)
  cases hdrop : way.dropWhile (· != k) with
  | nil =>
      have hne := List.dropWhile_eq_nil_iff.mp hdrop k hmem
      simp at hne
  | cons first ring =>
      have hfirst : (first != k) = false := by
        have := List.head?_dropWhile_not (· != k) way
        rw [hdrop] at this
        simpa using this
      obtain rfl : first = k := by simpa using hfirst
      rw [hdrop] at hsplit
      refine ⟨way.takeWhile (· != first), ring, rfl, ?_, ?_, ?_⟩
      · rw [hsplit]
        exact h.head
      · rw [← List.append_assoc, hsplit]
        exact h.chain_concat hk
      · rw [hsplit]
        exact h.nodup

/-- When the sources of its last node end, those of all nodes on the way do. -/
theorem acc (h : Way sources start way i) (hi : Acc (Feeds sources) i) :
    ∀ x ∈ way, Acc (Feeds sources) x := by
  obtain ⟨-, hlast, hchain, -⟩ := h
  induction way with
  | nil => simp
  | cons a rest ih =>
      cases rest with
      | nil =>
          obtain rfl : a = i := by simpa using hlast
          intro x hx
          rw [List.mem_singleton.mp hx]
          exact hi
      | cons b rest =>
          rw [List.isChain_cons_cons] at hchain
          have hrest := ih (by simpa using hlast) hchain.2
          intro x hx
          rcases List.mem_cons.mp hx with rfl | hx
          · constructor
            intro y hy
            obtain rfl : b = y := Option.some.inj (hchain.1.symm.trans hy)
            exact hrest b (by simp)
          · exact hrest x hx

/-- Distinct nodes are no more than there are. -/
theorem length_le (h : Way sources start way i) (hbound : ∀ x ∈ way, x < sources.length) :
    way.length ≤ sources.length := by
  have hsub : way ⊆ List.range sources.length := fun x hx => List.mem_range.mpr (hbound x hx)
  simpa using (h.nodup.subperm hsub).length_le

end Way

/-! ## One search -/

/-- **A search finds a loop of its way.** -/
theorem searchFrom_eq_cycle (h : searchFrom sources fuel visited way i = .cycle cycle)
    (hway : Way sources start way i) : ∃ lead first ring, cycle = first :: ring ++ [first] ∧
      Loop (flip (Feeds sources)) start lead first ring := by
  induction fuel generalizing visited way i with
  | zero => simp [searchFrom] at h
  | succ fuel ih =>
      rw [searchFrom] at h
      split at h
      · simp at h
      · next k hk =>
        split at h
        · next hmem =>
          obtain ⟨lead, ring, hring, hloop⟩ := hway.loop hk (by simpa using hmem)
          rw [hring] at h
          exact ⟨lead, k, ring, (Search.cycle.inj h).symm, hloop⟩
        · next hfresh =>
          split at h
          · simp at h
          · exact ih h (hway.concat hk (by simpa using hfresh))

/-- **A search that ends has visited only nodes whose sources end,** if those that were visited
before are such nodes or on its way: the nodes on the way are as good as the last one, and that
one is a root, or its source was visited before and is not on the way. -/
theorem searchFrom_eq_ended (hlt : ∀ i k, sourceAt sources i = some k → k < sources.length)
    (h : searchFrom sources fuel visited way i = .ended visited') (hway : Way sources start way i)
    (hbound : ∀ x ∈ way, x < sources.length) (hfuel : sources.length < fuel + way.length)
    (hvisited : ∀ x ∈ visited, x ∈ way ∨ Acc (Feeds sources) x) :
    i ∈ visited' ∧ visited ⊆ visited' ∧ ∀ x ∈ visited', Acc (Feeds sources) x := by
  induction fuel generalizing visited way i with
  | zero =>
      have := hway.length_le hbound
      omega
  | succ fuel ih =>
      have hlast : Acc (Feeds sources) i →
          ∀ x ∈ i :: visited, Acc (Feeds sources) x := by
        intro hi x hx
        rcases List.mem_cons.mp hx with rfl | hx
        · exact hi
        · rcases hvisited x hx with hx | hx
          · exact hway.acc hi x hx
          · exact hx
      rw [searchFrom] at h
      split at h
      · next hroot =>
        rw [← Search.ended.inj h]
        refine ⟨by simp, by simp, hlast ?_⟩
        constructor
        intro y hy
        rw [Feeds, hroot] at hy
        simp at hy
      · next k hk =>
        split at h
        · simp at h
        · next hnew =>
          have hfresh : k ∉ way := by simpa using hnew
          split at h
          · next hold =>
            rw [← Search.ended.inj h]
            refine ⟨by simp, by simp, hlast ?_⟩
            have hmem : k ∈ i :: visited := by simpa using hold
            rcases List.mem_cons.mp hmem with rfl | hmem
            · exact absurd hway.mem_last hfresh
            · rcases hvisited k hmem with hk' | hk'
              · exact absurd hk' hfresh
              · constructor
                intro y hy
                obtain rfl : k = y := Option.some.inj (hk.symm.trans hy)
                exact hk'
          · obtain ⟨-, hsub, hacc⟩ := ih h (hway.concat hk hfresh)
              (by
                intro x hx
                rcases List.mem_append.mp hx with hx | hx
                · exact hbound x hx
                · rw [List.mem_singleton.mp hx]
                  exact hlt i k hk)
              (by
                rw [List.length_append, List.length_singleton]
                omega)
              (by
                intro x hx
                rcases List.mem_cons.mp hx with rfl | hx
                · exact .inl (List.mem_append_left _ hway.mem_last)
                · exact (hvisited x hx).imp_left (List.mem_append_left _))
            exact ⟨hsub (by simp), fun x hx => hsub (by simp [hx]), hacc⟩

/-! ## All searches -/

/-- A search from a node of its own that ends. -/
theorem searchFrom_start (hlt : ∀ i k, sourceAt sources i = some k → k < sources.length)
    (hi : i < sources.length) (hvisited : ∀ x ∈ visited, Acc (Feeds sources) x)
    (h : searchFrom sources sources.length visited [i] i = .ended visited') :
    i ∈ visited' ∧ ∀ x ∈ visited', Acc (Feeds sources) x := by
  have hended := searchFrom_eq_ended hlt h (way_start sources i)
    (fun x hx => by rwa [List.mem_singleton.mp hx]) (by simp) fun x hx => .inr (hvisited x hx)
  exact ⟨hended.1, hended.2.2⟩

/-- Without a cycle the sources of all nodes end. -/
theorem cycleAmong_eq_none (hlt : ∀ i k, sourceAt sources i = some k → k < sources.length)
    (hnodes : ∀ i ∈ nodes, i < sources.length) (hvisited : ∀ x ∈ visited, Acc (Feeds sources) x)
    (h : cycleAmong sources visited nodes = none) : ∀ i ∈ nodes, Acc (Feeds sources) i := by
  induction nodes generalizing visited with
  | nil => simp
  | cons i rest ih =>
      have hrest : ∀ x ∈ rest, x < sources.length := fun x hx => hnodes x (by simp [hx])
      rw [cycleAmong] at h
      rw [List.forall_mem_cons]
      split at h
      · next hold => exact ⟨hvisited i (by simpa using hold), ih hrest hvisited h⟩
      · split at h
        · simp at h
        · next visited' hended =>
          obtain ⟨hi, hacc⟩ := searchFrom_start hlt (hnodes i (by simp)) hvisited hended
          exact ⟨hacc i hi, ih hrest hacc h⟩

/-- The cycle is that of the first node whose search finds one. -/
theorem cycleAmong_eq_some (hlt : ∀ i k, sourceAt sources i = some k → k < sources.length)
    (hnodes : ∀ i ∈ nodes, i < sources.length) (hvisited : ∀ x ∈ visited, Acc (Feeds sources) x)
    (h : cycleAmong sources visited nodes = some cycle) :
    ∃ before start after, nodes = before ++ start :: after ∧
      (∀ i ∈ before, Acc (Feeds sources) i) ∧
      ∃ lead first ring, cycle = first :: ring ++ [first] ∧
        Loop (flip (Feeds sources)) start lead first ring := by
  induction nodes generalizing visited with
  | nil => simp [cycleAmong] at h
  | cons i rest ih =>
      have hrest : ∀ x ∈ rest, x < sources.length := fun x hx => hnodes x (by simp [hx])
      -- A node whose sources end comes before what the other nodes lead to.
      have hlater : ∀ visited, (∀ x ∈ visited, Acc (Feeds sources) x) → i ∈ visited →
          cycleAmong sources visited rest = some cycle →
          ∃ before start after, i :: rest = before ++ start :: after ∧
            (∀ x ∈ before, Acc (Feeds sources) x) ∧
            ∃ lead first ring, cycle = first :: ring ++ [first] ∧
              Loop (flip (Feeds sources)) start lead first ring := by
        intro visited hvisited hi hcycle
        obtain ⟨before, start, after, rfl, hbefore, hloop⟩ := ih hrest hvisited hcycle
        refine ⟨i :: before, start, after, rfl, ?_, hloop⟩
        rw [List.forall_mem_cons]
        exact ⟨hvisited i hi, hbefore⟩
      rw [cycleAmong] at h
      split at h
      · next hold => exact hlater visited hvisited (by simpa using hold) h
      · split at h
        · next found hfound =>
          rw [← Option.some.inj h]
          exact ⟨[], i, rest, rfl, by simp, searchFrom_eq_cycle hfound (way_start sources i)⟩
        · next visited' hended =>
          obtain ⟨hi, hacc⟩ := searchFrom_start hlt (hnodes i (by simp)) hvisited hended
          exact hlater visited' hacc hi h

/-- **The first cycle is that of the first node whose sources do not end.** -/
theorem firstCycle_eq_some (hlt : ∀ i k, sourceAt sources i = some k → k < sources.length)
    (h : firstCycle sources = some cycle) :
    ∃ start < sources.length, (∀ i < start, Acc (Feeds sources) i) ∧
      ∃ lead first ring, cycle = first :: ring ++ [first] ∧
        Loop (flip (Feeds sources)) start lead first ring := by
  obtain ⟨before, start, after, hrange, hbefore, hloop⟩ :=
    cycleAmong_eq_some hlt (fun i hi => List.mem_range.mp hi) (by simp) h
  have hlength := congrArg List.length hrange
  rw [List.length_range, List.length_append, List.length_cons] at hlength
  have hstart : (List.range sources.length)[before.length]? = some start := by
    rw [hrange]
    simp
  rw [List.getElem?_range (by omega), Option.some.injEq] at hstart
  refine ⟨start, by omega, ?_, hloop⟩
  intro i hi
  have hget : (List.range sources.length)[i]? = before[i]? := by
    rw [hrange, List.getElem?_append_left (by omega)]
  rw [List.getElem?_range (by omega)] at hget
  exact hbefore i (List.mem_of_getElem? hget.symm)

/-- **Without a cycle all chains of sources end.** -/
theorem wellFounded_feeds (hlt : ∀ i k, sourceAt sources i = some k → k < sources.length)
    (h : firstCycle sources = none) : WellFounded (Feeds sources) := by
  constructor
  intro i
  by_cases hi : i < sources.length
  · exact cycleAmong_eq_none hlt (fun i hi => List.mem_range.mp hi) (by simp) h i
      (List.mem_range.mpr hi)
  · constructor
    intro k hk
    exact absurd (lt_of_sourceAt hk) hi

end Distill

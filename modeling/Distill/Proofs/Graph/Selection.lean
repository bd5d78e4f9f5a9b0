import Distill.Proofs.Graph.LeastOrder
import Distill.Proofs.Graph.Validation
import Distill.Service.Basic

/-!
# Selections by names

A run can be restricted to some nodes. It needs what they depend on as well, so that from each of
them a walk goes along the sources and selects what it comes to. A walk stops where something is
selected already: what lies behind was selected by an earlier walk, which came to an end.

## Main definitions

* `Graph.Walk` — a walk that nothing bounds.

## Main statements

* `Graph.walk_selectFrom` — every walk ends, before the number of the nodes is used up.
* `Graph.getD_closure_iff` — the closure of nodes is what walks from them can come to.
* `Graph.select_eq_error_iff`, `Graph.exists_select` — what names select.
* `Service.selects_named_with_sources` — the nodes that a run with a filter evaluates.
-/

namespace Distill

open Definition (NodeSet)

namespace Graph

/-! ## Walks -/

/-- A walk from a node along the sources to a root, or to a node that is selected already, with the
selection before and after it. -/
inductive Walk (g : Graph) : Nat → List Bool → List Bool → Prop
  | stop {i selected} (known : selected[i]? = some true) : Walk g i selected selected
  | root {i selected} (fresh : selected[i]? = some false) (root : g.source i = none) :
      Walk g i selected (selected.set i true)
  | next {i k selected selected'} (fresh : selected[i]? = some false) (source : g.source i = some k)
      (more : Walk g k (selected.set i true) selected') : Walk g i selected selected'

/-- One node is reached from the other along the sources. -/
def Reaches (g : Graph) : Nat → Nat → Prop := Relation.ReflTransGen fun i k => g.source i = some k

variable {g : Graph} {i k n : Nat} {selected selected' : List Bool} {roots : List Nat}

/-- **Walks end,** wherever they start and whatever is selected: each node on the way is one that
was not selected before. -/
theorem walk_selectFrom (hg : g.Sound) {fuel : Nat} (hlen : selected.length = g.size)
    (hi : i < g.size) (hfuel : selected.count false ≤ fuel) :
    g.Walk i selected (selectFrom g fuel i selected) := by
  induction fuel generalizing i selected with
  | zero =>
      have hi' : i < selected.length := by omega
      refine .stop (List.getElem?_eq_some_iff.mpr ⟨hi', ?_⟩)
      by_contra hfalse
      rw [Bool.not_eq_true] at hfalse
      have := List.count_pos_iff.mpr (hfalse ▸ List.getElem_mem hi')
      omega
  | succ fuel ih =>
      have hi' : i < selected.length := by omega
      rw [selectFrom, List.getD_eq_getElem _ _ hi']
      cases hsel : selected[i] with
      | true => exact .stop (List.getElem?_eq_some_iff.mpr ⟨hi', hsel⟩)
      | false =>
          have hcount := count_set_true hi' hsel
          have hfresh : selected[i]? = some false := List.getElem?_eq_some_iff.mpr ⟨hi', hsel⟩
          rw [if_neg Bool.false_ne_true]
          split
          · next hroot => exact .root hfresh hroot
          · next k hk =>
            exact .next hfresh hk (ih (by rw [List.length_set, hlen]) (hg.source_lt hk) (by omega))

theorem lt_of_getElem? {b : Bool} (h : selected[i]? = some b) : i < selected.length :=
  (List.getElem?_eq_some_iff.mp h).1

theorem Walk.length_eq (h : g.Walk i selected selected') : selected'.length = selected.length := by
  induction h with
  | stop => rfl
  | root => exact List.length_set
  | next _ _ _ ih => exact ih.trans List.length_set

/-- What is selected stays so. -/
theorem Walk.keeps (h : g.Walk i selected selected') (hn : selected.getD n false = true) :
    selected'.getD n false = true := by
  induction h with
  | stop => exact hn
  | root fresh => exact (getD_set_true (lt_of_getElem? fresh)).mpr (.inr hn)
  | next fresh _ _ ih => exact ih ((getD_set_true (lt_of_getElem? fresh)).mpr (.inr hn))

/-- A walk selects its start. -/
theorem Walk.selects_start (h : g.Walk i selected selected') : selected'.getD i false = true := by
  cases h with
  | stop known => rw [List.getD_eq_getElem?_getD, known, Option.getD_some]
  | root fresh => exact (getD_set_true (lt_of_getElem? fresh)).mpr (.inl rfl)
  | next fresh _ more => exact more.keeps ((getD_set_true (lt_of_getElem? fresh)).mpr (.inl rfl))

/-- What a walk selects is reached from its start. -/
theorem Walk.reaches (h : g.Walk i selected selected') (hn : selected'.getD n false = true) :
    selected.getD n false = true ∨ g.Reaches i n := by
  induction h with
  | stop => exact .inl hn
  | root fresh =>
      rcases (getD_set_true (lt_of_getElem? fresh)).mp hn with rfl | hn
      · exact .inr .refl
      · exact .inl hn
  | next fresh source _ ih =>
      rcases ih hn with hn | hreach
      · rcases (getD_set_true (lt_of_getElem? fresh)).mp hn with rfl | hn
        · exact .inr .refl
        · exact .inl hn
      · exact .inr (.head source hreach)

/-! ## Closures -/

/-- One walk after another. -/
private theorem selects_foldl (hg : g.Sound) (hroots : ∀ i ∈ roots, i < g.size)
    (hlen : selected.length = g.size) :
    let result := roots.foldl (fun selected i => selectFrom g g.size i selected) selected
    (∀ n, selected.getD n false = true → result.getD n false = true) ∧
      (∀ root ∈ roots, result.getD root false = true) ∧
      ∀ n, result.getD n false = true →
        selected.getD n false = true ∨ ∃ root ∈ roots, g.Reaches root n := by
  induction roots generalizing selected with
  | nil => exact ⟨fun _ hn => hn, by simp, fun _ hn => .inl hn⟩
  | cons i rest ih =>
      have hfuel : selected.count false ≤ g.size := hlen ▸ List.count_le_length
      have hwalk := walk_selectFrom hg hlen (hroots i List.mem_cons_self) hfuel
      obtain ⟨hkeeps, hrest, hreaches⟩ :=
        ih (fun k hk => hroots k (List.mem_cons_of_mem i hk)) (hwalk.length_eq.trans hlen)
      refine ⟨fun n hn => hkeeps n (hwalk.keeps hn),
        List.forall_mem_cons.mpr ⟨hkeeps i hwalk.selects_start, hrest⟩, fun n hn => ?_⟩
      rcases hreaches n hn with hn | ⟨root, hroot, hreach⟩
      · rcases hwalk.reaches hn with hn | hreach
        · exact .inl hn
        · exact .inr ⟨i, List.mem_cons_self, hreach⟩
      · exact .inr ⟨root, List.mem_cons_of_mem i hroot, hreach⟩

/-- **The closure of nodes is what is reached from them.** -/
theorem getD_closure_iff (hg : g.Sound) (hroots : ∀ i ∈ roots, i < g.size) :
    (g.closure roots).getD n false = true ↔ ∃ root ∈ roots, g.Reaches root n := by
  have hnone : (List.replicate g.size false).length = g.size := List.length_replicate
  obtain ⟨-, hstart, hreaches⟩ := selects_foldl hg hroots hnone
  constructor
  · intro hn
    refine (hreaches n hn).resolve_left ?_
    rw [List.getD_eq_getElem?_getD, List.getElem?_replicate]
    split <;> exact Bool.false_ne_true
  · rintro ⟨root, hroot, hreach⟩
    induction hreach with
    | refl => exact hstart root hroot
    | tail _ hsource ih => exact (closed_closure hg hroots).1 _ _ ih hsource

/-! ## Names -/

section Names

open Definition.NodeSet (indexOf?_eq_some_iff exists_indexOf? indexOf?_eq_none_iff)

variable {s : NodeSet} {names : List String} {name a b : String}

/-- The search for a name and the table of the set lead to the same place. -/
theorem indexOf?_ofSet (h : ofSet s = .ok g) (name : String) :
    g.indexOf? name = s.indexOf? name := by
  refine Option.ext fun i => ?_
  rw [indexOf?, (ofSet_eq_ok h).2.2.1, indexOf?_eq_some_iff, List.findIdx?_eq_some_iff_getElem]
  constructor
  · rintro ⟨hi, hname, -⟩
    exact List.getElem?_eq_some_iff.mpr ⟨hi, eq_of_beq hname⟩
  · intro hname
    obtain ⟨hi, hname⟩ := List.getElem?_eq_some_iff.mp hname
    refine ⟨hi, beq_iff_eq.mpr hname, fun k hk heq => ?_⟩
    have hplace := (List.Nodup.getElem_inj_iff s.distinct).mp ((eq_of_beq heq).trans hname.symm)
    omega

theorem getElem?_names {n : Definition.Node} (h : s.nodes[i]? = some n) :
    s.names[i]? = some n.name := by
  rw [NodeSet.names, List.getElem?_map, h]
  rfl

/-- A name has one place. -/
theorem place_unique (hi : s.names[i]? = some a) (hk : s.names[k]? = some a) : i = k :=
  Option.some.inj ((indexOf?_eq_some_iff.mpr hi).symm.trans (indexOf?_eq_some_iff.mpr hk))

/-- Nodes are reached by their places as they are by their names. -/
theorem reaches_iff (h : ofSet s = .ok g) (hi : s.names[i]? = some a) (hk : s.names[k]? = some b) :
    g.Reaches i k ↔ Relation.ReflTransGen s.Reads a b := by
  constructor
  · intro hreach
    induction hreach generalizing b with
    | refl =>
        obtain rfl : a = b := Option.some.inj (hi.symm.trans hk)
        exact .refl
    | tail _ hsource ih =>
        obtain ⟨n, hn, source, hread, hname⟩ := (source_eq_some_iff h).mp hsource
        obtain rfl : source = b := Option.some.inj (hname.symm.trans hk)
        exact (ih (getElem?_names hn)).tail ⟨n, List.mem_of_getElem? hn, rfl, hread⟩
  · intro hreach
    induction hreach generalizing k with
    | refl =>
        obtain rfl := place_unique hi hk
        exact .refl
    | tail _ hread ih =>
        obtain ⟨n, hn, rfl, hsource⟩ := hread
        obtain ⟨m, hm⟩ := List.mem_iff_getElem?.mp hn
        exact (ih (getElem?_names hm)).tail ((source_eq_some_iff h).mpr ⟨n, hm, _, hsource, hk⟩)

/-- The place of a name, or the name. -/
def placeOf (g : Graph) (name : String) : Except String Nat :=
  match g.indexOf? name with
  | some i => .ok i
  | none => .error name

theorem select_eq (g : Graph) (names : List String) :
    g.select names = (names.mapM g.placeOf).map g.closure := by
  change (names.mapM g.placeOf >>= fun roots => pure (g.closure roots)) = _
  cases names.mapM g.placeOf <;> rfl

theorem placeOf_eq_ok_iff (h : ofSet s = .ok g) :
    g.placeOf name = .ok i ↔ s.names[i]? = some name := by
  rw [placeOf, indexOf?_ofSet h, ← indexOf?_eq_some_iff]
  cases s.indexOf? name <;> simp

theorem placeOf_eq_error_iff (h : ofSet s = .ok g) :
    g.placeOf a = .error b ↔ a ∉ s.names ∧ a = b := by
  by_cases ha : a ∈ s.names
  · obtain ⟨i, hi⟩ := exists_indexOf? ha
    simp [placeOf, indexOf?_ofSet h, hi, ha]
  · simp [placeOf, indexOf?_ofSet h, indexOf?_eq_none_iff.mpr ha, ha]

theorem exists_placeOf_iff (h : ofSet s = .ok g) :
    (∃ i, g.placeOf name = .ok i) ↔ name ∈ s.names := by
  simp only [placeOf_eq_ok_iff h, List.mem_iff_getElem?]

/-- **The error of a selection is the first name of no node.** -/
theorem select_eq_error_iff (h : ofSet s = .ok g) :
    g.select names = .error name ↔ ∃ before after,
      names = before ++ name :: after ∧ (∀ n ∈ before, n ∈ s.names) ∧ name ∉ s.names := by
  rw [select_eq, map_eq_error_iff, mapM_eq_error_iff]
  simp only [exists_placeOf_iff h, placeOf_eq_error_iff h]
  constructor
  · rintro ⟨before, _, after, hsplit, hbefore, hunknown, rfl⟩
    exact ⟨before, after, hsplit, hbefore, hunknown⟩
  · rintro ⟨before, after, hsplit, hbefore, hunknown⟩
    exact ⟨before, name, after, hsplit, hbefore, hunknown, rfl⟩

/-- The places of names. -/
theorem mem_places_iff (h : ofSet s = .ok g) (hplaces : names.mapM g.placeOf = .ok roots) :
    i ∈ roots ↔ ∃ name ∈ names, s.names[i]? = some name := by
  simp only [← placeOf_eq_ok_iff h]
  rw [← List.mem_map, mapM_eq_ok_iff.mp hplaces]
  simp

/-- **Names of nodes select what is reached from them.** -/
theorem exists_select (h : ofSet s = .ok g) (hknown : ∀ name ∈ names, name ∈ s.names) :
    ∃ selected, g.select names = .ok selected ∧ selected.length = s.size ∧
      ∀ i a, s.names[i]? = some a →
        (selected.getD i false = true ↔ ∃ name ∈ names, Relation.ReflTransGen s.Reads name a) := by
  have hg := sound_ofSet h
  cases hplaces : names.mapM g.placeOf with
  | error e =>
      have herror : g.select names = .error e := by rw [select_eq, hplaces]; rfl
      obtain ⟨before, after, rfl, -, hunknown⟩ := (select_eq_error_iff h).mp herror
      exact absurd (hknown e (by simp)) hunknown
  | ok roots =>
      have hroots := fun root => mem_places_iff (i := root) h hplaces
      have hlt : ∀ i ∈ roots, i < g.size := by
        intro i hi
        obtain ⟨name, -, hat⟩ := (hroots i).mp hi
        rw [size, (ofSet_eq_ok h).2.2.1]
        exact (List.getElem?_eq_some_iff.mp hat).1
      refine ⟨g.closure roots, by rw [select_eq, hplaces]; rfl,
        (closed_closure hg hlt).2.trans (size_ofSet h), fun i a hi => ?_⟩
      rw [getD_closure_iff hg hlt]
      constructor
      · rintro ⟨root, hroot, hreach⟩
        obtain ⟨name, hname, hat⟩ := (hroots root).mp hroot
        exact ⟨name, hname, (reaches_iff h hat hi).mp hreach⟩
      · rintro ⟨name, hname, hreach⟩
        obtain ⟨root, hat⟩ := List.mem_iff_getElem?.mp (hknown name hname)
        exact ⟨root, (hroots root).mpr ⟨name, hname, hat⟩, (reaches_iff h hat hi).mpr hreach⟩

/-- A selection is what it says of the nodes. -/
theorem eq_of_getD_iff (hlen : selected.length = s.size) (hlen' : selected'.length = s.size)
    (h : ∀ i a, s.names[i]? = some a →
      (selected.getD i false = true ↔ selected'.getD i false = true)) : selected = selected' := by
  refine List.ext_getElem (hlen.trans hlen'.symm) fun i hi hi' => ?_
  have hlt : i < s.names.length := by
    rw [NodeSet.names, List.length_map, ← NodeSet.size]
    omega
  have hiff := h i _ (List.getElem?_eq_getElem hlt)
  rw [List.getD_eq_getElem _ _ hi, List.getD_eq_getElem _ _ hi'] at hiff
  exact Bool.eq_iff_iff.mpr hiff

end Names

end Graph

namespace Service

open Relation (ReflTransGen)

variable {s : Service} {options : RunOptions} {names : List String}

theorem selection_eq (hnames : options.nodes = some names) :
    s.selection options = (s.graph.select names).mapError .unknownNode := by
  rw [selection, hnames]

/-- **Names select nodes with everything they depend on.** The first name of no node is the error.
Otherwise a node is selected exactly if it is reached from a named one along the sources, so that
only the names count and neither their order nor their repetitions. Every walk along the sources
comes to its end. -/
theorem selects_named_with_sources (hs : Graph.ofSet s.set = .ok s.graph)
    (hnames : options.nodes = some names) :
    (∀ e, s.selection options = .error e ↔ ∃ before name after, names = before ++ name :: after ∧
        (∀ n ∈ before, n ∈ s.set.names) ∧ name ∉ s.set.names ∧ e = .unknownNode name) ∧
      ((∀ name ∈ names, name ∈ s.set.names) →
        ∃ selected, s.selection options = .ok selected ∧ selected.length = s.set.size ∧
          ∀ i a, s.set.names[i]? = some a →
            (selected.getD i false = true ↔ ∃ name ∈ names, ReflTransGen s.set.Reads name a)) ∧
      (∀ (options' : RunOptions) (names' : List String), options'.nodes = some names' →
        (∀ name, name ∈ names' ↔ name ∈ names) → (∀ name ∈ names, name ∈ s.set.names) →
          s.selection options' = s.selection options) ∧
      ∀ i selected, i < s.graph.size → selected.length = s.graph.size →
        s.graph.Walk i selected (s.graph.selectFrom s.graph.size i selected) := by
  refine ⟨fun e => ?_, fun hknown => ?_, fun options' names' hnames' hsame hknown => ?_,
    fun i selected hi hlen => ?_⟩
  · rw [selection_eq hnames, mapError_eq_error_iff]
    simp only [Graph.select_eq_error_iff hs]
    constructor
    · rintro ⟨name, ⟨before, after, hsplit, hbefore, hunknown⟩, rfl⟩
      exact ⟨before, name, after, hsplit, hbefore, hunknown, rfl⟩
    · rintro ⟨before, name, after, hsplit, hbefore, hunknown, rfl⟩
      exact ⟨name, ⟨before, after, hsplit, hbefore, hunknown⟩, rfl⟩
  · obtain ⟨selected, hselect, hlen, hreach⟩ := Graph.exists_select hs hknown
    exact ⟨selected, by rw [selection_eq hnames, hselect]; rfl, hlen, hreach⟩
  · obtain ⟨selected, hselect, hlen, hreach⟩ := Graph.exists_select hs hknown
    obtain ⟨selected', hselect', hlen', hreach'⟩ :=
      Graph.exists_select hs fun name hname => hknown name ((hsame name).mp hname)
    have heq : selected' = selected := Graph.eq_of_getD_iff hlen' hlen fun i a hi => by
      simp only [hreach' i a hi, hreach i a hi, hsame]
    rw [selection_eq hnames, selection_eq hnames', hselect, hselect', heq]
  · exact Graph.walk_selectFrom (Graph.sound_ofSet hs) hlen hi (hlen ▸ List.count_le_length)

/-- The lines and the words with the log that they come from, and without the kernel. -/
theorem backwards_selects_named_with_sources :
    let s : Service := { set := .backwards, graph := .backwards }
    let options : RunOptions := { nodes := some ["lines", "words", "lines"] }
    Graph.ofSet s.set = .ok s.graph ∧
      (∀ name ∈ ["lines", "words", "lines"], name ∈ s.set.names) ∧
      s.selection options = .ok [true, true, false, true] ∧
      (∃ name ∈ ["lines", "words", "lines"], ReflTransGen s.set.Reads name "log") ∧
      (¬ ∃ name ∈ ["lines", "words", "lines"], ReflTransGen s.set.Reads name "kernel") ∧
      s.selection { nodes := some ["words", "lines"] } = s.selection options ∧
      s.selection { nodes := some ["lines", "hosts", "words", "mounts"] } =
        .error (.unknownNode "hosts") := by
  intro s options
  have hs : Graph.ofSet s.set = .ok s.graph := rfl
  have hknown : ∀ name ∈ ["lines", "words", "lines"], name ∈ s.set.names := by decide
  have hselection : s.selection options = .ok [true, true, false, true] := by decide +kernel
  let unknown : RunOptions := { nodes := some ["lines", "hosts", "words", "mounts"] }
  obtain ⟨-, hselect, hsame, -⟩ := @selects_named_with_sources s options _ hs rfl
  obtain ⟨herror, -⟩ := @selects_named_with_sources s unknown _ hs rfl
  obtain ⟨selected, hok, -, hreach⟩ := hselect hknown
  obtain rfl := Except.ok.inj (hselection.symm.trans hok)
  refine ⟨hs, hknown, hselection, (hreach 3 "log" rfl).mp rfl, ?_,
    hsame _ _ rfl (by simp [or_comm]) hknown, ?_⟩
  · exact fun h => Bool.false_ne_true ((hreach 2 "kernel" rfl).mpr h)
  · exact (herror _).mpr ⟨["lines"], "hosts", ["words", "mounts"], rfl, by decide, by decide, rfl⟩

end Service

end Distill

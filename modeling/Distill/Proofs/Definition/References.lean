import Distill.Proofs.Definition.Declared
import Mathlib.Data.List.DropRight

/-!
# Sources as records name them

A node has the name of its record without the white space at its ends, but the source of its record
with it. A record that gives as its source what another record gives as its name therefore reads
the node of this record if there is no white space at the ends, and otherwise it reads no node.

## Main definitions

* `Definition.Record.Padded` — records whose source has white space at its ends.

## Main statements

* `trimBlank_trimBlank` — a trimmed text has nothing at its ends to trim.
* `Definition.NodeSet.indexOf?_of_written` — what the name of a record leads to as it is written.
* `Graph.ofSet_eq_unknownSource_iff` — when a set has an unknown source, and which one.
* `Definition.NodeSet.resolves_unless_padded` — sources written like names.
-/

namespace Distill

/-! ## Trimmed texts -/

/-- **A text is trimmed once.** What stands at the start when the end is trimmed stood there
before, so that there is still no white space. -/
theorem trimBlank_trimBlank (s : String) : trimBlank (trimBlank s) = trimBlank s := by
  have hstart : ∀ xs : List Char, ((xs.dropWhile isBlank).rdropWhile isBlank).dropWhile isBlank =
      (xs.dropWhile isBlank).rdropWhile isBlank := by
    intro xs
    rw [List.dropWhile_eq_self_iff]
    intro hlength
    rw [(List.rdropWhile_prefix isBlank _).getElem]
    exact List.dropWhile_get_zero_not isBlank xs _
  simp only [trimBlank, String.toList_ofList]
  change String.ofList ((_ : List Char).rdropWhile isBlank) = _
  exact congrArg String.ofList ((congrArg _ (hstart _)).trans (List.rdropWhile_idempotent _ _))

namespace Graph

open Definition.NodeSet

variable {s : Definition.NodeSet} {node source : String}

/-- **The first source that is no node is the error,** and there is none without one. -/
theorem ofSet_eq_unknownSource_iff : ofSet s = .error (.unknownSource node source) ↔
    ∃ before n after, s.nodes = before ++ n :: after ∧ (∀ m ∈ before, s.Known m) ∧
      n.name = node ∧ n.source = some source ∧ source ∉ s.names := by
  refine ⟨exists_of_unknownSource, ?_⟩
  rintro ⟨before, n, after, hsplit, hbefore, rfl, hsource, hunknown⟩
  refine ofSet_of_unknown ?_
  rw [hsplit]
  exact sourcesOf_of_unknown hbefore hsource hunknown

/-- The source of a node in the graph of a set. -/
theorem source_eq_some_of_names {g : Graph} (h : ofSet s = .ok g) {i k : Nat}
    {n : Definition.Node} (hn : s.nodes[i]? = some n) (hsource : n.source = some source)
    (hname : s.names[k]? = some source) : g.source i = some k :=
  (source_eq_some_iff h).mpr ⟨n, hn, source, hsource, hname⟩

end Graph

namespace Definition

/-- The source is written with white space at its ends, and is not blank. -/
def Record.Padded (r : Record) : Prop :=
  ∃ source, r.writtenSource = some source ∧ trimBlank source ≠ source

namespace NodeSet

variable {rs : List SourcedRecord} {s : NodeSet} {i j : Nat} {r : SourcedRecord} {text : String}

/-! ## Names as they are written -/

/-- The node of the record at a place. -/
theorem exists_node_of_ofRecords (h : ofRecords rs = .ok s) (hr : rs[i]? = some r) :
    ∃ n, s.nodes[i]? = some n ∧ nodeOf r.record = .ok n := by
  have hnodes := congrArg (·[i]?) (ofRecords_eq_ok_iff.mp h)
  simp only [List.getElem?_map, hr, Option.map_some] at hnodes
  obtain ⟨n, hn, hnode⟩ := Option.map_eq_some_iff.mp hnodes.symm
  exact ⟨n, hn, hnode.symm⟩

/-- The names of a set are trimmed. -/
theorem trimBlank_of_mem_names (h : ofRecords rs = .ok s) (hmem : text ∈ s.names) :
    trimBlank text = text := by
  rw [names_of_ofRecords h] at hmem
  obtain ⟨r, -, rfl⟩ := List.mem_map.mp hmem
  exact trimBlank_trimBlank _

/-- A name as it is written is the one of its node just if it is trimmed. -/
theorem names_getElem?_of_written (h : ofRecords rs = .ok s) (hr : rs[j]? = some r)
    (hname : r.record.name = some text) (htrim : trimBlank text = text) :
    s.names[j]? = some text := by
  rw [names_of_ofRecords h, List.getElem?_map, hr, Option.map_some, Record.trimmedName, hname,
    Option.getD_some, htrim]

/-- **A name as it is written leads to its node if it is trimmed,** and otherwise nowhere. -/
theorem indexOf?_of_written (h : ofRecords rs = .ok s) (hr : rs[j]? = some r)
    (hname : r.record.name = some text) :
    s.indexOf? text = if trimBlank text = text then some j else none := by
  split
  next htrim => exact indexOf?_eq_some_iff.mpr (names_getElem?_of_written h hr hname htrim)
  next hpadded => exact indexOf?_eq_none_iff.mpr (mt (trimBlank_of_mem_names h) hpadded)

/-! ## Sources as they are written -/

/-- The name of a record as it is written is the name of a node just if it is trimmed. -/
theorem mem_names_iff_of_written (h : ofRecords rs = .ok s)
    (hwritten : ∃ q ∈ rs, q.record.name = some text) :
    text ∈ s.names ↔ trimBlank text = text := by
  obtain ⟨q, hq, hname⟩ := hwritten
  obtain ⟨j, hj⟩ := List.mem_iff_getElem?.mp hq
  exact ⟨trimBlank_of_mem_names h,
    fun htrim => List.mem_of_getElem? (names_getElem?_of_written h hj hname htrim)⟩

/-- The source of a node is a node unless it is padded. -/
theorem known_iff_of_written (h : ofRecords rs = .ok s) {n : Node} (hn : nodeOf r.record = .ok n)
    (hwritten : ∀ t, r.record.writtenSource = some t → ∃ q ∈ rs, q.record.name = some t) :
    s.Known n ↔ ¬ r.record.Padded := by
  rw [Known, (eq_of_nodeOf hn).2.2, Record.Padded]
  push Not
  exact forall₂_congr fun t ht => mem_names_iff_of_written h (hwritten t ht)

/-- The sources of nodes are nodes unless one of them is padded. -/
theorem forall_known_iff_of_written (h : ofRecords rs = .ok s) {qs : List SourcedRecord}
    {ns : List Node} (hnodes : qs.map (nodeOf ·.record) = ns.map .ok)
    (hwritten : ∀ q ∈ qs, ∀ t, q.record.writtenSource = some t →
      ∃ r ∈ rs, r.record.name = some t) :
    (∀ n ∈ ns, s.Known n) ↔ ∀ q ∈ qs, ¬ q.record.Padded := by
  constructor
  · intro hknown q hq
    obtain ⟨n, hn, hnode⟩ := List.mem_map.mp (hnodes ▸ List.mem_map_of_mem hq)
    exact (known_iff_of_written h hnode.symm (hwritten q hq)).mp (hknown n hn)
  · intro hplain n hn
    obtain ⟨q, hq, hnode⟩ := List.mem_map.mp (hnodes ▸ List.mem_map_of_mem hn)
    exact (known_iff_of_written h hnode (hwritten q hq)).mpr (hplain q hq)

/-- **The first padded source is the one that is unknown.** -/
theorem unknownSource_iff_of_written (h : ofRecords rs = .ok s)
    (hwritten : ∀ r ∈ rs, ∀ t, r.record.writtenSource = some t →
      ∃ q ∈ rs, q.record.name = some t) {node source : String} :
    Graph.ofSet s = .error (.unknownSource node source) ↔
      ∃ before r after, rs = before ++ r :: after ∧ (∀ q ∈ before, ¬ q.record.Padded) ∧
        r.record.Padded ∧ r.record.trimmedName = node ∧
        r.record.writtenSource = some source := by
  have hnodes := ofRecords_eq_ok_iff.mp h
  rw [Graph.ofSet_eq_unknownSource_iff]
  constructor
  · rintro ⟨ns, n, ns', hsplit, hbefore, rfl, hsource, hunknown⟩
    rw [hsplit, List.map_append, List.map_cons] at hnodes
    obtain ⟨before, r, after, rfl, hns, hn, -⟩ := exists_of_map_eq_append_cons hnodes
    have hwritten' := fun q hq => hwritten q (List.mem_append_left _ hq)
    rw [(eq_of_nodeOf hn).2.2] at hsource
    rw [mem_names_iff_of_written h (hwritten r (by simp) source hsource)] at hunknown
    exact ⟨before, r, after, rfl, (forall_known_iff_of_written h hns hwritten').mp hbefore,
      ⟨source, hsource, hunknown⟩, (eq_of_nodeOf hn).1.symm, hsource⟩
  · rintro ⟨before, r, after, rfl, hbefore, ⟨source', hsource', hpadded⟩, rfl, hsource⟩
    obtain rfl : source' = source := Option.some.inj (hsource'.symm.trans hsource)
    rw [List.map_append, List.map_cons] at hnodes
    obtain ⟨ns, n, ns', hsplit, hns, hn, -⟩ := exists_of_map_eq_append_cons hnodes.symm
    have hwritten' := fun q hq => hwritten q (List.mem_append_left _ hq)
    refine ⟨ns, n, ns', hsplit, (forall_known_iff_of_written h hns.symm hwritten').mpr hbefore,
      (eq_of_nodeOf hn.symm).1, (eq_of_nodeOf hn.symm).2.2.trans hsource, ?_⟩
    rwa [mem_names_iff_of_written h (hwritten r (by simp) _ hsource)]

/-- **Sources written like names resolve unless they are padded.** When each source of a set is the
name of a record, character for character, the name leads to the node of this record if there is no
white space at its ends, and otherwise nowhere. A source is unknown exactly if it is padded, and the
error is that of the first such record. Where there is a graph, each source is the node of the
record whose name it is. -/
theorem resolves_unless_padded (h : ofRecords rs = .ok s)
    (hwritten : ∀ r ∈ rs, ∀ t, r.record.writtenSource = some t →
      ∃ q ∈ rs, q.record.name = some t) :
    (∀ j q t, rs[j]? = some q → q.record.name = some t →
      s.indexOf? t = if trimBlank t = t then some j else none) ∧
    ((∃ node source, Graph.ofSet s = .error (.unknownSource node source)) ↔
      ∃ r ∈ rs, r.record.Padded) ∧
    (∀ node source, Graph.ofSet s = .error (.unknownSource node source) ↔
      ∃ before r after, rs = before ++ r :: after ∧ (∀ q ∈ before, ¬ q.record.Padded) ∧
        r.record.Padded ∧ r.record.trimmedName = node ∧ r.record.writtenSource = some source) ∧
    ∀ g, Graph.ofSet s = .ok g → ∀ i j r q t, rs[i]? = some r → rs[j]? = some q →
      r.record.writtenSource = some t → q.record.name = some t → g.source i = some j := by
  refine ⟨fun j q t => indexOf?_of_written h, ⟨?_, ?_⟩,
    fun node source => unknownSource_iff_of_written h hwritten, ?_⟩
  · rintro ⟨node, source, herror⟩
    obtain ⟨before, r, after, rfl, -, hpadded, -⟩ :=
      (unknownSource_iff_of_written h hwritten).mp herror
    exact ⟨r, by simp, hpadded⟩
  · rintro ⟨r, hr, hpadded⟩
    rcases Graph.ofSet_cases s with ⟨-, n, -, source, -, -, -, -, herror⟩ | ⟨hknown, -⟩
    · exact ⟨n.name, source, herror⟩
    · have hplain := forall_known_iff_of_written h (ofRecords_eq_ok_iff.mp h) hwritten
      exact absurd hpadded (hplain.mp hknown r hr)
  · intro g hg i j r q t hr hq hsource hname
    obtain ⟨n, hn, hnode⟩ := exists_node_of_ofRecords h hr
    rw [← (eq_of_nodeOf hnode).2.2] at hsource
    have hmem : t ∈ s.names :=
      (Graph.ends_of_ofSet hg).1 n (List.mem_of_getElem? hn) t hsource
    exact Graph.source_eq_some_of_names hg hn hsource
      (names_getElem?_of_written h hq hname (trimBlank_of_mem_names h hmem))

/-- A command, and the lines of what it prints; the source is the name as it is written. -/
def linesOf (name : String) : List SourcedRecord :=
  [{ record := { name := some name, type := some "exec", fields := [("exec", .string "cat log")] } },
    { record := { name := some " lines ", type := some "splitlines", source := some name } }]

theorem linesOf_written {name : String} : ∀ r ∈ linesOf name, ∀ t,
    r.record.writtenSource = some t → ∃ q ∈ linesOf name, q.record.name = some t := by
  intro r hr t ht
  rw [Record.writtenSource, Option.filter_eq_some_iff] at ht
  simp only [linesOf, List.mem_cons, List.not_mem_nil, or_false] at hr
  rcases hr with rfl | rfl
  · simp at ht
  · exact ⟨_, List.mem_cons_self, ht.1⟩

/-- White space inside a name does not matter. -/
theorem linesOf_kernelLog_resolve : ∃ s g, ofRecords (linesOf "kernel log") = .ok s ∧
    s.names = ["kernel log", "lines"] ∧ Graph.ofSet s = .ok g ∧ g.source 1 = some 0 := by
  have hread : ((ofRecords (linesOf "kernel log")).toOption.bind fun s =>
      (Graph.ofSet s).toOption.map fun _ => s.names) = some ["kernel log", "lines"] := by
    decide +kernel
  obtain ⟨s, hs, hgraph⟩ := Option.bind_eq_some_iff.mp hread
  obtain ⟨g, hg, hnames⟩ := Option.map_eq_some_iff.mp hgraph
  rw [toOption_eq_some_iff] at hs hg
  obtain ⟨-, -, -, hsources⟩ := resolves_unless_padded hs linesOf_written
  exact ⟨s, g, hs, hnames, hg, hsources g hg 1 0 _ _ _ rfl rfl (by decide) rfl⟩

/-- A source that is written like the name " log " is unknown. -/
theorem linesOf_paddedLog_unresolved : ∃ s, ofRecords (linesOf " log ") = .ok s ∧
    (∀ r ∈ linesOf " log ", ∀ t, r.record.writtenSource = some t →
      ∃ q ∈ linesOf " log ", q.record.name = some t) ∧
    s.indexOf? " log " = none ∧ Graph.ofSet s = .error (.unknownSource "lines" " log ") := by
  have hread : ((ofRecords (linesOf " log ")).toOption.map fun s => s.names) =
      some ["log", "lines"] := by decide +kernel
  obtain ⟨s, hs, -⟩ := Option.map_eq_some_iff.mp hread
  rw [toOption_eq_some_iff] at hs
  have hlog : (linesOf " log ")[0]? = some (linesOf " log ")[0] := rfl
  refine ⟨s, hs, linesOf_written, indexOf?_of_written hs hlog rfl,
    (unknownSource_iff_of_written hs linesOf_written).mpr
      ⟨[(linesOf " log ")[0]], (linesOf " log ")[1], [], rfl, ?_, ?_, by decide, by decide⟩⟩
  · simp [linesOf, Record.Padded, Record.writtenSource]
  · exact ⟨" log ", by decide, by decide⟩

end NodeSet

end Definition

end Distill

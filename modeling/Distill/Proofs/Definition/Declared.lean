import Distill.Proofs.Definition.Checked
import Distill.Proofs.Graph.Validation

/-!
# Sets as declared

The documents of a text are lists in lists, and what stands in them counts in the order in which it
stands, wherever it stands. The nodes of a set are those of its records, one for each and in this
order, and each of them is found by its name and no other name. There is no set exactly if some
record is no node or has the name of one before it; then the first such record is to blame.

## Main definitions

* `Definition.leaves` — what stands in lists, at any depth.
* `Definition.Declares` — texts made of lists, nulls and records.
* `Definition.Record.trimmedName` — the name that the node of a record has.
* `Definition.NodeSet.Refused` — what is wrong with a record behind others.

## Main statements

* `Definition.recordsOfValue_eq`, `Definition.Declares.records_eq` — the records of a text.
* `Definition.eq_of_nodeOf` — a node has the name and the source of its record.
* `Definition.NodeSet.ofRecords_eq_ok_iff`, `exists_ofRecords_iff` — when records are the nodes of
  a set.
* `Definition.NodeSet.ofRecords_eq_error_iff` — why they are not.
* `Definition.NodeSet.declared_in_order` — both for the records of a text.
-/

namespace Distill.Definition

open Yaml (Value)

/-! ## Records of texts -/

mutual

/-- What stands in lists, at any depth and in its order; null is nothing. -/
def leaves : Value → List Value
  | .sequence items => leavesOfItems items
  | .null => []
  | v => [v]

/-- What stands in the items of a list. -/
def leavesOfItems : List Value → List Value
  | [] => []
  | v :: rest => leaves v ++ leavesOfItems rest

end

/-- The record that a value is which stands in no list. -/
def recordOfLeaf : Value → Except Error Record
  | .mapping entries =>
    (Record.ofValue (.mapping entries)).mapError fun c => .of (.malformedRecord c)
  | v => .error (.of (.unknownFormat v))

mutual

/-- **The records of a value are those of what stands in it,** and its error is the first one. -/
theorem recordsOfValue_eq (v : Value) : recordsOfValue v = (leaves v).mapM recordOfLeaf := by
  match v with
  | .sequence items =>
      rw [recordsOfValue, leaves]
      exact recordsOfItems_eq items
  | .null => rfl
  | .mapping entries =>
      have hleaves : leaves (.mapping entries) = [.mapping entries] := rfl
      rw [recordsOfValue, hleaves, List.mapM_cons, recordOfLeaf]
      cases Record.ofValue (.mapping entries) <;> rfl
  | .bool _ | .int _ | .real _ | .string _ | .tagged .. => rfl

theorem recordsOfItems_eq (items : List Value) :
    recordsOfItems items = (leavesOfItems items).mapM recordOfLeaf := by
  match items with
  | [] => rfl
  | v :: rest =>
      rw [recordsOfItems, leavesOfItems, List.mapM_append, recordsOfValue_eq v,
        recordsOfItems_eq rest]

end

/-- The documents of a text are made of lists, nulls and records, at any depth; these are its
records in the order in which they stand. -/
def Declares (source : String) (rs : List Record) : Prop :=
  ∃ vs : List Value, (Yaml.documents source).map (·.decode Yaml.valueForm) = vs.map .ok ∧
    List.Forall₂ (fun v r => ∃ entries, v = .mapping entries ∧ Record.ofValue v = .ok r)
      (vs.flatMap leaves) rs

theorem mapM_recordsOfValue_eq (vs : List Value) :
    (return (← vs.mapM recordsOfValue).flatten) = (vs.flatMap leaves).mapM recordOfLeaf := by
  induction vs with
  | nil => rfl
  | cons v rest ih =>
      rw [List.flatMap_cons, List.mapM_append, ← ih, List.mapM_cons, recordsOfValue_eq]
      simp

theorem recordOfLeaf_eq_ok_iff {v : Value} {r : Record} :
    recordOfLeaf v = .ok r ↔ ∃ entries, v = .mapping entries ∧ Record.ofValue v = .ok r := by
  cases v with
  | mapping entries => simp [recordOfLeaf, mapError_eq_ok_iff]
  | null | bool | int | real | string | sequence | tagged => simp [recordOfLeaf]

/-- What a text declares can be computed. -/
theorem declares_iff {source : String} {rs : List Record} : Declares source rs ↔
    ∃ vs, (Yaml.documents source).mapM (·.decode Yaml.valueForm) = .ok vs ∧
      (vs.flatMap leaves).mapM recordOfLeaf = .ok rs := by
  simp only [Declares, mapM_eq_ok_iff, ← recordOfLeaf_eq_ok_iff, ← List.forall₂_eq_eq_eq,
    List.forall₂_map_left_iff, List.forall₂_map_right_iff]

/-- **The records of a text are what stands in its documents.** -/
theorem Declares.records_eq {source : String} {rs : List Record} (h : Declares source rs) :
    records source = .ok rs := by
  obtain ⟨vs, hdocuments, hleaves⟩ := declares_iff.mp h
  rw [mapM_eq_ok_iff] at hdocuments
  rw [← hleaves, ← mapM_recordsOfValue_eq]
  refine congrArg (· >>= fun lists => pure lists.flatten) (mapM_eq_of_map_eq hdocuments ?_)
  intro d v hd
  simp only [hd]

/-! ## Nodes of records -/

/-- The name of a record without the white space at its ends. -/
def Record.trimmedName (r : Record) : String := trimBlank (r.name.getD "")

/-- The source of a record, if it is not blank; it is as it is written. -/
def Record.writtenSource (r : Record) : Option String :=
  r.source.filter fun s => !(trimBlank s).isEmpty

/-- **A node has the name and the source of its record.** -/
theorem eq_of_nodeOf {r : Record} {n : Node} (h : nodeOf r = .ok n) :
    n.name = r.trimmedName ∧ n.name ≠ "" ∧ n.source = r.writtenSource := by
  simp only [nodeOf] at h
  split at h
  · cases h
  next hname =>
  have hne : trimBlank (r.name.getD "") ≠ "" := by simpa using hname
  split at h
  · cases h
  obtain ⟨step, -, h⟩ := bind_eq_ok_iff.mp h
  -- However the step goes with the source, what is left is the node with both, or nothing.
  have hn : n = ⟨r.trimmedName, r.writtenSource, step⟩ := by
    split at h
    · cases h
    · split at h
      · cases h
      · exact (Except.ok.inj h).symm
    · split at h
      · cases h
      · exact (Except.ok.inj h).symm
    · exact (Except.ok.inj h).symm
  exact hn ▸ ⟨rfl, hne, rfl⟩

namespace NodeSet

variable {s s' : NodeSet} {n : Node} {r : SourcedRecord} {rs : List SourcedRecord} {e : Error}

/-! ## Adding nodes -/

/-- **A node is added at the end if its name is free.** -/
theorem insert?_eq_some_iff :
    s.insert? n = some s' ↔ n.name ∉ s.names ∧ s'.nodes = s.nodes ++ [n] := by
  constructor
  · intro h
    refine ⟨fun hmem => ?_, nodes_of_insert? h⟩
    rw [insert?, dif_pos (contains_iff.mpr hmem)] at h
    cases h
  · rintro ⟨hfree, hnodes⟩
    rw [insert?, dif_neg (mt contains_iff.mp hfree)]
    exact congrArg some (eq_of_nodes hnodes.symm)

theorem insert?_eq_none_iff : s.insert? n = none ↔ n.name ∈ s.names := by
  rw [insert?, ← contains_iff]
  split <;> simp [*]

/-- What is wrong with a record behind others, of which the names are given: it is no node, or its
name is taken. -/
inductive Refused (names : List String) (r : SourcedRecord) : Error → Prop
  | invalid {e : Error} (node : nodeOf r.record = .error e) : Refused names r (e.orFile r.file)
  | taken {n : Node} (node : nodeOf r.record = .ok n) (name : n.name ∈ names) :
      Refused names r (((Error.of (.duplicateName n.name)).withNode n.name).orFile r.file)

/-- The error of a record is that of its node, with the file of the record. -/
theorem addRecord_of_invalid (h : nodeOf r.record = .error e) :
    s.addRecord r = .error (e.orFile r.file) := by
  rw [addRecord, h]
  rfl

/-- The node of a record is added. -/
theorem addRecord_of_node (h : nodeOf r.record = .ok n) :
    s.addRecord r = match s.insert? n with
      | some s => .ok s
      | none => .error (((Error.of (.duplicateName n.name)).withNode n.name).orFile r.file) := by
  rw [addRecord, h]
  rfl

theorem addRecord_eq_ok_iff : s.addRecord r = .ok s' ↔
    ∃ n, nodeOf r.record = .ok n ∧ n.name ∉ s.names ∧ s'.nodes = s.nodes ++ [n] := by
  cases hnode : nodeOf r.record with
  | error e => simp [addRecord_of_invalid hnode]
  | ok n =>
      rw [addRecord_of_node hnode]
      simp only [Except.ok.injEq, exists_eq_left', ← insert?_eq_some_iff]
      cases s.insert? n <;> simp

/-- **A record is refused if it is no node or its name is taken.** -/
theorem addRecord_eq_error_iff : s.addRecord r = .error e ↔ Refused s.names r e := by
  constructor
  · intro h
    cases hnode : nodeOf r.record with
    | error e' =>
        rw [addRecord_of_invalid hnode] at h
        rw [← Except.error.inj h]
        exact .invalid hnode
    | ok n =>
        rw [addRecord_of_node hnode] at h
        split at h
        · cases h
        · next htaken =>
          rw [← Except.error.inj h]
          exact .taken hnode (insert?_eq_none_iff.mp htaken)
  · rintro (hnode | ⟨hnode, hname⟩)
    · exact addRecord_of_invalid hnode
    · rw [addRecord_of_node hnode, insert?_eq_none_iff.mpr hname]

/-! ## Sets of records -/

/-- The nodes of records behind those that are there. -/
theorem foldlM_addRecord_eq_ok_iff : rs.foldlM addRecord s = .ok s' ↔
    ∃ ns : List Node, rs.map (nodeOf ·.record) = ns.map .ok ∧ s'.nodes = s.nodes ++ ns := by
  induction rs generalizing s with
  | nil =>
      rw [List.foldlM_nil]
      constructor
      · intro h
        exact ⟨[], rfl, by rw [Except.ok.inj h, List.append_nil]⟩
      · rintro ⟨ns, hns, hnodes⟩
        obtain rfl : ns = [] := by simpa using hns.symm
        rw [List.append_nil] at hnodes
        exact congrArg Except.ok (eq_of_nodes hnodes.symm)
  | cons r rest ih =>
      rw [List.foldlM_cons, bind_eq_ok_iff]
      constructor
      · rintro ⟨t, hadd, hrest⟩
        obtain ⟨n, hn, -, hnodes⟩ := addRecord_eq_ok_iff.mp hadd
        obtain ⟨ns, hns, hnodes'⟩ := ih.mp hrest
        refine ⟨n :: ns, by rw [List.map_cons, List.map_cons, hn, hns], ?_⟩
        rw [hnodes', hnodes, List.append_assoc, List.singleton_append]
      · rintro ⟨ns, hns, hnodes⟩
        cases ns with
        | nil => simp at hns
        | cons n ns =>
            rw [List.map_cons, List.map_cons, List.cons.injEq] at hns
            -- The names of the whole set are different, so that this one is free.
            have hdistinct := s'.distinct
            rw [hnodes, List.map_append, List.nodup_append, List.map_cons] at hdistinct
            have hfree : n.name ∉ s.names := fun hmem =>
              hdistinct.2.2 _ hmem _ List.mem_cons_self rfl
            obtain ⟨t, ht⟩ : ∃ t, s.insert? n = some t :=
              Option.ne_none_iff_exists'.mp (mt insert?_eq_none_iff.mp hfree)
            have hnodes' := nodes_of_insert? ht
            refine ⟨t, addRecord_eq_ok_iff.mpr ⟨n, hns.1, hfree, hnodes'⟩, ih.mpr ⟨ns, hns.2, ?_⟩⟩
            rw [hnodes, hnodes', List.append_assoc, List.singleton_append]

/-- **Records make a set exactly if its nodes are theirs,** one for each and in their order. -/
theorem ofRecords_eq_ok_iff :
    ofRecords rs = .ok s ↔ rs.map (nodeOf ·.record) = s.nodes.map .ok := by
  rw [ofRecords, foldlM_addRecord_eq_ok_iff]
  constructor
  · rintro ⟨ns, hns, hnodes⟩
    rw [hns, hnodes]
    rfl
  · exact fun h => ⟨s.nodes, h, rfl⟩

/-- The names of nodes are those of their records. -/
theorem map_name_of_map_nodeOf {ns : List Node}
    (h : rs.map (nodeOf ·.record) = ns.map .ok) :
    ns.map Node.name = rs.map (·.record.trimmedName) := by
  induction rs generalizing ns with
  | nil =>
      obtain rfl : ns = [] := by simpa using h.symm
      rfl
  | cons r rest ih =>
      cases ns with
      | nil => simp at h
      | cons n ns =>
          rw [List.map_cons, List.map_cons, List.cons.injEq] at h
          rw [List.map_cons, List.map_cons, ih h.2, (eq_of_nodeOf h.1).1]

theorem names_of_ofRecords (h : ofRecords rs = .ok s) :
    s.names = rs.map (·.record.trimmedName) :=
  map_name_of_map_nodeOf (ofRecords_eq_ok_iff.mp h)

/-- **Records make a set if each is a node and no two have one name,** and only then. -/
theorem exists_ofRecords_iff : (∃ s, ofRecords rs = .ok s) ↔
    (∀ r ∈ rs, ∃ n, nodeOf r.record = .ok n) ∧ (rs.map (·.record.trimmedName)).Nodup := by
  constructor
  · rintro ⟨s, hs⟩
    have hnodes := exists_map_eq_map_ok_iff.mp ⟨s.nodes, ofRecords_eq_ok_iff.mp hs⟩
    exact ⟨hnodes, names_of_ofRecords hs ▸ s.distinct⟩
  · rintro ⟨hvalid, hdistinct⟩
    obtain ⟨ns, hns⟩ := exists_map_eq_map_ok_iff.mpr hvalid
    have hnames : (ns.map Node.name).Nodup := map_name_of_map_nodeOf hns ▸ hdistinct
    exact ⟨ofDistinct ns hnames, ofRecords_eq_ok_iff.mpr hns⟩

/-- **The first record that is refused is the error.** -/
theorem ofRecords_eq_error_iff : ofRecords rs = .error e ↔ ∃ before r after,
    rs = before ++ r :: after ∧ (∃ s, ofRecords before = .ok s) ∧
      Refused (before.map (·.record.trimmedName)) r e := by
  rw [ofRecords, foldlM_eq_error_iff]
  constructor
  · rintro ⟨before, r, after, s, hsplit, hs, herror⟩
    refine ⟨before, r, after, hsplit, ⟨s, hs⟩, ?_⟩
    rw [← names_of_ofRecords hs]
    exact addRecord_eq_error_iff.mp herror
  · rintro ⟨before, r, after, hsplit, ⟨s, hs⟩, hrefused⟩
    refine ⟨before, r, after, s, hsplit, hs, addRecord_eq_error_iff.mpr ?_⟩
    rwa [names_of_ofRecords hs]

/-! ## Nodes by name -/

variable {name : String} {i : Nat}

/-- The place of a node is that of its name. -/
theorem indexOf?_of_nodes (h : s.nodes[i]? = some n) : s.indexOf? n.name = some i := by
  rw [indexOf?_eq_some_iff, names, List.getElem?_map, h]
  rfl

/-! ## Sets of texts -/

/-- Nothing is known of a file. -/
theorem orFile_none (e : Error) : e.orFile none = e := by
  rw [Error.orFile, Option.or_none]

/-- What is wrong with a record that stands in no file. -/
theorem refused_iff {names : List String} {r : Record} : Refused names { record := r } e ↔
    nodeOf r = .error e ∨ (∃ n, nodeOf r = .ok n) ∧ r.trimmedName ∈ names ∧
      e = (Error.of (.duplicateName r.trimmedName)).withNode r.trimmedName := by
  constructor
  · rintro (hnode | ⟨hnode, hname⟩)
    · rw [orFile_none]
      exact Or.inl hnode
    · rw [orFile_none]
      rw [(eq_of_nodeOf hnode).1] at hname ⊢
      exact Or.inr ⟨⟨_, hnode⟩, hname, rfl⟩
  · rintro (hnode | ⟨⟨n, hnode⟩, hname, rfl⟩)
    · exact orFile_none e ▸ .invalid hnode
    · rw [← (eq_of_nodeOf hnode).1] at hname ⊢
      have htaken := Refused.taken (r := { record := r }) hnode hname
      rwa [orFile_none] at htaken

theorem ofText_eq_of_declares {source : String} {rs : List Record} (h : Declares source rs) :
    ofText source = ofRecords (rs.map fun r => { record := r }) := by
  rw [ofText, h.records_eq]
  rfl

/-- **A text declares its records in their order.** There is a set exactly if each record is a
node and no two names are equal, the white space at their ends apart. Its nodes are those of the
records, one for each and in their order; their names are different and not empty. The table of the
set, which every node that is added is entered in, leads from each of these names to the place of
its node, and so to this node, and no other name leads anywhere. There is an error exactly if some
record is no node or has the name of a record before it, and it is the error of the first such
record. -/
theorem declared_in_order {source : String} {rs : List Record} (h : Declares source rs) :
    ((∃ s, ofText source = .ok s) ↔
      (∀ r ∈ rs, ∃ n, nodeOf r = .ok n) ∧ (rs.map Record.trimmedName).Nodup) ∧
    (∀ s, ofText source = .ok s →
      s.nodes.map .ok = rs.map nodeOf ∧ s.names = rs.map Record.trimmedName ∧ s.names.Nodup ∧
      "" ∉ s.names ∧
      (∀ i n, s.nodes[i]? = some n → s.indexOf? n.name = some i ∧ s.get? n.name = some n) ∧
      ∀ name, name ∉ s.names → s.indexOf? name = none ∧ s.get? name = none) ∧
    ∀ e, ofText source = .error e ↔ ∃ before r after, rs = before ++ r :: after ∧
      (∀ q ∈ before, ∃ n, nodeOf q = .ok n) ∧ (before.map Record.trimmedName).Nodup ∧
      (nodeOf r = .error e ∨ (∃ n, nodeOf r = .ok n) ∧
        r.trimmedName ∈ before.map Record.trimmedName ∧
        e = (Error.of (.duplicateName r.trimmedName)).withNode r.trimmedName) := by
  rw [ofText_eq_of_declares h]
  have hexists : ∀ rs : List Record, (∃ s, ofRecords (rs.map fun r => { record := r }) = .ok s) ↔
      (∀ r ∈ rs, ∃ n, nodeOf r = .ok n) ∧ (rs.map Record.trimmedName).Nodup := by
    intro rs
    rw [exists_ofRecords_iff, List.forall_mem_map, List.map_map]
    rfl
  refine ⟨hexists rs, fun s hs => ?_, fun e => ?_⟩
  · have hnodes : rs.map nodeOf = s.nodes.map .ok := by
      simpa only [List.map_map, Function.comp_def] using ofRecords_eq_ok_iff.mp hs
    have hnames : s.names = rs.map Record.trimmedName := by
      simpa only [List.map_map, Function.comp_def] using names_of_ofRecords hs
    refine ⟨hnodes.symm, hnames, s.distinct, fun hempty => ?_, fun i n hn => ?_,
      fun name hname => ?_⟩
    · obtain ⟨n, hn, hempty⟩ := List.mem_map.mp hempty
      have hmem : Except.ok n ∈ rs.map nodeOf := by
        rw [hnodes]
        exact List.mem_map_of_mem hn
      obtain ⟨r, -, hr⟩ := List.mem_map.mp hmem
      exact (eq_of_nodeOf hr).2.1 hempty
    · have hindex := indexOf?_of_nodes hn
      exact ⟨hindex, by rw [get?, hindex, Option.bind_some, hn]⟩
    · have hindex := indexOf?_eq_none_iff.mpr hname
      exact ⟨hindex, by rw [get?, hindex, Option.bind_none]⟩
  · rw [ofRecords_eq_error_iff]
    constructor
    · rintro ⟨before', r', after', hsplit, hbefore, hrefused⟩
      obtain ⟨before, r, after, rfl, rfl, rfl, rfl⟩ := exists_of_map_eq_append_cons hsplit
      rw [hexists] at hbefore
      rw [List.map_map] at hrefused
      exact ⟨before, r, after, rfl, hbefore.1, hbefore.2, refused_iff.mp hrefused⟩
    · rintro ⟨before, r, after, rfl, hvalid, hdistinct, hrefused⟩
      refine ⟨before.map fun r => { record := r }, { record := r },
        after.map fun r => { record := r }, by rw [List.map_append, List.map_cons],
        (hexists before).mpr ⟨hvalid, hdistinct⟩, ?_⟩
      rw [List.map_map]
      exact refused_iff.mpr hrefused

/-- A command in a list in a list with nothing behind it, and in a document of its own what is made
of it, with white space around the name. -/
def nestedLog : String := "- - name: log
    type: exec
    exec: cat log
- null
---
name: ' lines '
type: splitlines
source: log
"

/-- The nodes stand in the order of the documents, and the name without white space is found. -/
theorem nestedLog_declared_in_order : ∃ rs s, Declares nestedLog rs ∧
    rs.map (·.name) = [some "log", some " lines "] ∧ ofText nestedLog = .ok s ∧
    s.names = ["log", "lines"] ∧ (∀ r ∈ rs, ∃ n, nodeOf r = .ok n) ∧
    s.indexOf? "lines" = some 1 ∧ s.indexOf? " lines " = none := by
  have hread : (((Yaml.documents nestedLog).mapM fun d : Yaml.Document =>
      d.decode Yaml.valueForm).toOption.bind fun vs =>
        ((vs.flatMap leaves).mapM recordOfLeaf).toOption.bind fun rs =>
          (ofRecords (rs.map fun r => { record := r })).toOption.map fun s =>
            (rs.map (·.name), s.names)) =
      some ([some "log", some " lines "], ["log", "lines"]) := by decide +kernel
  obtain ⟨vs, hvs, hread⟩ := Option.bind_eq_some_iff.mp hread
  obtain ⟨rs, hrs, hread⟩ := Option.bind_eq_some_iff.mp hread
  obtain ⟨s, hs, hread⟩ := Option.map_eq_some_iff.mp hread
  obtain ⟨hnames, hset⟩ := Prod.mk.inj hread
  rw [toOption_eq_some_iff] at hvs hrs hs
  have hdeclares : Declares nestedLog rs := declares_iff.mpr ⟨vs, hvs, hrs⟩
  rw [← ofText_eq_of_declares hdeclares] at hs
  obtain ⟨hexists, hfound, -⟩ := declared_in_order hdeclares
  obtain ⟨-, -, -, -, hplaces, hnone⟩ := hfound s hs
  refine ⟨rs, s, hdeclares, hnames, hs, hset, (hexists.mp ⟨s, hs⟩).1, ?_, ?_⟩
  · have hlines : s.names[1]? = some "lines" := by rw [hset]; rfl
    rw [names, List.getElem?_map, Option.map_eq_some_iff] at hlines
    obtain ⟨n, hn, hname⟩ := hlines
    exact hname ▸ (hplaces 1 n hn).1
  · exact (hnone " lines " (by rw [hset]; decide)).1

end NodeSet

end Distill.Definition

import Distill.Proofs.Definition.Declared

/-!
# Where errors come from

An error says what it concerns: a node, a file, both or neither. What is wrong with a field or with
an entry of a chain is found where neither is known, so that it concerns nothing; the record adds
its name, and the file in which it stands adds its path. As nothing is there before, nothing is
lost by what is added.

## Main definitions

* `Definition.Concerns` — whatever goes wrong concerns a node and a file.
* `Definition.NodeSet.FirstRefused` — what is wrong with the first record that is refused.
* `Definition.NodeSet.FirstFault` — what is wrong with files that are read one after the other, and
  in which of them it is.

## Main statements

* `Definition.concerns_stepWithin` — what is wrong with a step concerns nothing, at any depth.
* `Definition.concerns_nodeOf` — what is wrong with a record concerns its name.
* `Definition.NodeSet.ofText_eq_error_iff`, `ofFile_eq_error_iff` — the errors of a text and a file.
* `Definition.NodeSet.exists_firstFault`, `FirstFault.eq_error` — the errors of many files.
* `Definition.NodeSet.errors_name_their_origin` — all errors have the file and the name.
-/

namespace Distill.Definition

open Yaml (Value Complaint)

/-! ## What goes wrong -/

section Concerns

variable {α β : Type} {node file : Option String} {x : Except Error α}

/-- Whatever goes wrong concerns this node and this file, or none. -/
def Concerns (node file : Option String) (x : Except Error α) : Prop :=
  ∀ e, x = .error e → e.node = node ∧ e.file = file

theorem concerns_ok (a : α) : Concerns node file (.ok a) := by
  intro e h
  cases h

theorem concerns_error {e : Error} (hnode : e.node = node) (hfile : e.file = file) :
    Concerns node file (.error e : Except Error α) := by
  intro e' h
  rw [← Except.error.inj h]
  exact ⟨hnode, hfile⟩

/-- A problem alone concerns nothing. -/
theorem concerns_of (p : Problem) : Concerns none none (.error (.of p) : Except Error α) :=
  concerns_error rfl rfl

theorem Concerns.bind (hx : Concerns node file x) {f : α → Except Error β}
    (hf : ∀ a, Concerns node file (f a)) : Concerns node file (x >>= f) := by
  intro e h
  rcases bind_eq_error_iff.mp h with he | ⟨a, -, he⟩
  · exact hx e he
  · exact hf a e he

theorem Concerns.mapM {f : β → Except Error α} (hf : ∀ b, Concerns node file (f b)) (l : List β) :
    Concerns node file (l.mapM f) := by
  intro e h
  obtain ⟨_, b, _, -, -, hb⟩ := mapM_eq_error_iff.mp h
  exact hf b e hb

theorem Concerns.forM {f : β → Except Error Unit} (hf : ∀ b, Concerns node file (f b))
    (l : List β) : Concerns node file (l.forM f) := by
  induction l with
  | nil => exact concerns_ok ()
  | cons b rest ih => exact (hf b).bind fun _ => ih

/-- A name is given to what concerns no node. -/
theorem Concerns.orNode (hx : Concerns none file x) (name : String) :
    Concerns (some name) file (x.mapError (·.orNode name)) := by
  intro e h
  obtain ⟨e', he', rfl⟩ := mapError_eq_error_iff.mp h
  obtain ⟨hnode, hfile⟩ := hx e' he'
  exact ⟨by rw [Error.orNode, hnode, Option.none_or], hfile⟩

end Concerns

/-! ## Fields -/

section Fields

variable {α : Type} {decode : Value → Except Complaint α} {fields : List (String × Value)}

theorem concerns_optional (field : String) : Concerns none none (optional decode fields field) := by
  unfold optional
  split
  · exact concerns_ok none
  · exact concerns_ok none
  · split
    · exact concerns_ok _
    · exact concerns_of _

theorem concerns_required (field : String) : Concerns none none (required decode fields field) := by
  refine (concerns_optional field).bind fun a => ?_
  cases a with
  | none => exact concerns_of (.missingField field)
  | some a => exact concerns_ok a

theorem concerns_checkTemplate (field text : String) :
    Concerns none none (checkTemplate field text) := by
  unfold checkTemplate
  split
  · exact concerns_of _
  · split
    · exact concerns_of _
    · exact concerns_ok ()

theorem concerns_execOf : Concerns none none (execOf fields) := by
  refine (concerns_required "exec").bind fun command => ?_
  refine (concerns_checkTemplate "exec" command).bind fun _ => ?_
  refine (concerns_optional "params").bind fun params => ?_
  refine (Concerns.forM (concerns_checkTemplate "params") _).bind fun _ => ?_
  have htimeout : ∀ seconds : Option Nat, Concerns none none (.ok (Step.exec ⟨command,
      params.getD [], seconds.map (1000 * ·)⟩)) := fun _ => concerns_ok _
  dsimp only
  split
  · split
    · exact concerns_of _
    · exact (concerns_optional "timeout").bind htimeout
  · exact (concerns_optional "timeout").bind htimeout

theorem concerns_filterOf : Concerns none none (filterOf fields) := by
  refine (concerns_required "jq").bind fun expression => ?_
  split
  · exact concerns_ok _
  · exact concerns_of _

theorem concerns_analysisOf : Concerns none none (analysisOf fields) := by
  refine (concerns_optional "level").bind fun given => ?_
  dsimp only
  split
  on_goal 2 => split
  -- However the level is found, what follows is the same.
  all_goals
    refine Concerns.bind (by first | exact concerns_ok _ | exact concerns_of _) fun level => ?_
    refine (concerns_optional "summary").bind fun summary => ?_
    refine (concerns_optional "description").bind fun description => ?_
    split
    · exact concerns_of _
    · exact concerns_ok _

theorem concerns_checkFields (type : String) (inChain : Bool) :
    Concerns none none (checkFields type fields inChain) := by
  unfold checkFields
  split
  · exact concerns_of _
  · split
    · exact concerns_of _
    · split
      · exact concerns_of _
      · exact concerns_ok ()

end Fields

/-! ## Steps -/

theorem concerns_entryType (r : Record) : Concerns none none (entryType r) := by
  unfold entryType
  dsimp only
  split
  · exact concerns_of _
  · split
    · exact concerns_of _
    · split
      · exact concerns_ok _
      · exact concerns_of _

/-- **What is wrong with a step concerns nothing yet,** at any depth of chains in chains. -/
theorem concerns_stepWithin (depth : Nat) (type : String) (fields : List (String × Value))
    (inChain : Bool) : Concerns none none (stepWithin depth type fields inChain) := by
  induction depth using Nat.strongRecOn generalizing type fields inChain with
  | ind depth ih =>
  unfold stepWithin
  refine (concerns_checkFields type inChain).bind fun _ => ?_
  split
  · exact concerns_execOf
  · exact concerns_ok _
  · exact concerns_ok _
  · exact concerns_filterOf
  · refine (concerns_required "chain").bind fun entries => ?_
    dsimp only
    split
    · exact concerns_of _
    · cases depth with
      | zero => exact concerns_of _
      | succ depth =>
          -- An entry goes wrong by itself or as a step one level further down.
          refine (Concerns.mapM (fun r => ?_) entries).bind fun steps => concerns_ok _
          exact (concerns_entryType r).bind fun type =>
            ih depth (Nat.lt_succ_self depth) type r.fields true
  · exact concerns_analysisOf
  · exact concerns_of _

/-! ## Records -/

/-- The name that errors of a record give; a blank one is not given. -/
def Record.givenName (r : Record) : Option String :=
  if r.trimmedName = "" then none else some r.trimmedName

/-- What is wrong with a record without a name is that it has none. -/
theorem nodeOf_of_blank {r : Record} (h : r.trimmedName = "") :
    nodeOf r = .error (.of (.missingField "name")) := by
  rw [Record.trimmedName] at h
  simp only [nodeOf, h]
  rfl

/-- **What is wrong with a record concerns the node of its name.** -/
theorem concerns_nodeOf (r : Record) : Concerns r.givenName none (nodeOf r) := by
  by_cases h : r.trimmedName = ""
  · rw [nodeOf_of_blank h, Record.givenName, if_pos h]
    exact concerns_of _
  · rw [Record.givenName, if_neg h]
    have hname : (trimBlank (r.name.getD "")).isEmpty = false := by
      simpa [Record.trimmedName] using h
    simp only [nodeOf, hname, Bool.false_eq_true, if_false]
    cases r.type with
    | none => exact concerns_error rfl rfl
    | some type =>
        refine ((concerns_stepWithin _ _ _ _).orNode r.trimmedName).bind fun step => ?_
        -- The step may want a source that is not there, or leave one that is there unread.
        split
        · exact concerns_error rfl rfl
        · split
          · exact concerns_error rfl rfl
          · exact concerns_ok _
        · split
          · exact concerns_error rfl rfl
          · exact concerns_ok _
        · exact concerns_ok _

theorem concerns_recordOfLeaf (v : Value) : Concerns none none (recordOfLeaf v) := by
  cases v with
  | mapping entries =>
      intro e h
      obtain ⟨c, -, rfl⟩ := mapError_eq_error_iff.mp h
      exact ⟨rfl, rfl⟩
  | null | bool | int | real | string | sequence | tagged => exact concerns_of _

/-- **What is wrong with the form of a text concerns nothing yet.** -/
theorem concerns_records (source : String) : Concerns none none (records source) := by
  refine (Concerns.mapM (fun d => ?_) _).bind fun lists => concerns_ok _
  split
  · rw [recordsOfValue_eq]
    exact Concerns.mapM concerns_recordOfLeaf _
  · exact concerns_error rfl rfl

/-! ## Files -/

section Files

variable {t : FileTree} {file : List String} {shown : String}

/-- The records that a file holds, or what is wrong with reading them. -/
def recordsIn (t : FileTree) (file : List String) : Except Error (List Record) :=
  match t.readText file with
  | .error e => .error (.of (.unreadable e))
  | .ok source => records source

/-- Messages show a path with what is wrong with reading a file, and with its records. -/
theorem recordsOfFile_eq : recordsOfFile t file shown =
    ((recordsIn t file).mapError (·.withFile shown)).map
      (·.map (SourcedRecord.mk · (some shown))) := by
  unfold recordsOfFile recordsIn
  cases t.readText file with
  | error e => rfl
  | ok source => rfl

theorem recordsOfFile_eq_ok_iff {rs : List SourcedRecord} : recordsOfFile t file shown = .ok rs ↔
    ∃ held, recordsIn t file = .ok held ∧ held.map (SourcedRecord.mk · (some shown)) = rs := by
  rw [recordsOfFile_eq, map_eq_ok_iff]
  simp only [mapError_eq_ok_iff]

theorem recordsOfFile_eq_error_iff {e : Error} : recordsOfFile t file shown = .error e ↔
    ∃ e', recordsIn t file = .error e' ∧ e'.withFile shown = e := by
  rw [recordsOfFile_eq, map_eq_error_iff, mapError_eq_error_iff]

end Files

namespace NodeSet

/-! ## Records that are refused -/

section Refused

variable {before : List Record} {e : Error}

/-- Behind records that are the nodes of a set, another is refused. -/
def FirstRefused (before : List Record) (r : Record) (e : Error) : Prop :=
  (∀ q ∈ before, ∃ n, nodeOf q = .ok n) ∧ (before.map Record.trimmedName).Nodup ∧
    Refused (before.map Record.trimmedName) { record := r } e

/-- **A record is refused under its name and its file,** also if another one has taken the name. -/
theorem Refused.concerns {names : List String} {r : SourcedRecord} (h : Refused names r e) :
    e.node = r.record.givenName ∧ e.file = r.file := by
  cases h with
  | invalid hnode =>
      obtain ⟨hname, hfile⟩ := concerns_nodeOf r.record _ hnode
      exact ⟨hname, by rw [Error.orFile, hfile, Option.none_or]⟩
  | taken hnode _ =>
      obtain ⟨hname, hne, -⟩ := eq_of_nodeOf hnode
      rw [hname] at hne ⊢
      exact ⟨by rw [Record.givenName, if_neg hne]; rfl, rfl⟩

/-- A file is added to what concerns none. -/
theorem FirstRefused.orFile {r : Record} (h : FirstRefused before r e) (shown : String) :
    e.orFile (some shown) = e.withFile shown := by
  rw [Error.orFile, h.2.2.concerns.2, Option.none_or, Error.withFile]

/-- What is wrong with a record that is refused does not hang on its file. -/
theorem refused_iff_orFile {names : List String} {r : SourcedRecord} :
    Refused names r e ↔ ∃ e', Refused names { record := r.record } e' ∧ e'.orFile r.file = e := by
  constructor
  · rintro (hnode | ⟨hnode, hname⟩)
    · exact ⟨_, .invalid hnode, by rw [orFile_none]⟩
    · exact ⟨_, .taken hnode hname, by rw [orFile_none]⟩
  · rintro ⟨e', hnode | ⟨hnode, hname⟩, rfl⟩
    · rw [orFile_none]
      exact .invalid hnode
    · rw [orFile_none]
      exact .taken hnode hname

/-- **The error of records is that of the first one that is refused,** with its file. -/
theorem ofRecords_eq_error_iff_firstRefused {rs : List SourcedRecord} :
    ofRecords rs = .error e ↔ ∃ before r after e', rs = before ++ r :: after ∧
      FirstRefused (before.map (·.record)) r.record e' ∧ e'.orFile r.file = e := by
  simp only [ofRecords_eq_error_iff, exists_ofRecords_iff, FirstRefused, List.forall_mem_map,
    List.map_map]
  constructor
  · rintro ⟨before, r, after, hsplit, ⟨hvalid, hdistinct⟩, hrefused⟩
    obtain ⟨e', hrefused, he⟩ := refused_iff_orFile.mp hrefused
    exact ⟨before, r, after, e', hsplit, ⟨hvalid, hdistinct, hrefused⟩, he⟩
  · rintro ⟨before, r, after, e', hsplit, ⟨hvalid, hdistinct, hrefused⟩, he⟩
    exact ⟨before, r, after, hsplit, ⟨hvalid, hdistinct⟩, refused_iff_orFile.mpr ⟨e', hrefused, he⟩⟩

/-- Records that all stand in one file, or in none. -/
theorem ofRecords_map_eq_error_iff {rs : List Record} {file : Option String} :
    ofRecords (rs.map (SourcedRecord.mk · file)) = .error e ↔
      ∃ before r after e', rs = before ++ r :: after ∧ FirstRefused before r e' ∧
        e'.orFile file = e := by
  have hrecords : ∀ rs : List Record, (rs.map (SourcedRecord.mk · file)).map (·.record) = rs := by
    intro rs
    simp [Function.comp_def]
  rw [ofRecords_eq_error_iff_firstRefused]
  constructor
  · rintro ⟨_, _, _, e', hsplit, hfirst, he⟩
    obtain ⟨before, r, after, rfl, rfl, rfl, -⟩ := exists_of_map_eq_append_cons hsplit
    rw [hrecords] at hfirst
    exact ⟨before, r, after, e', rfl, hfirst, he⟩
  · rintro ⟨before, r, after, e', rfl, hfirst, he⟩
    refine ⟨_, _, _, e', by rw [List.map_append, List.map_cons], ?_, he⟩
    rw [hrecords]
    exact hfirst

end Refused

/-! ## A text and a file -/

/-- **The error of a text is that of its form, or that of the first record that is refused.** -/
theorem ofText_eq_error_iff {source : String} {e : Error} : ofText source = .error e ↔
    records source = .error e ∨ ∃ before r after,
      records source = .ok (before ++ r :: after) ∧ FirstRefused before r e := by
  rw [ofText, bind_eq_error_iff]
  refine or_congr_right ⟨?_, ?_⟩
  · rintro ⟨rs, hrecords, he⟩
    obtain ⟨before, r, after, e', rfl, hfirst, rfl⟩ := ofRecords_map_eq_error_iff.mp he
    rw [orFile_none]
    exact ⟨before, r, after, hrecords, hfirst⟩
  · rintro ⟨before, r, after, hrecords, hfirst⟩
    exact ⟨_, hrecords, ofRecords_map_eq_error_iff.mpr
      ⟨before, r, after, e, rfl, hfirst, orFile_none e⟩⟩

/-- What is wrong with a text concerns no file. -/
theorem file_of_ofText {source : String} {e : Error} (h : ofText source = .error e) :
    e.file = none := by
  rcases ofText_eq_error_iff.mp h with hrecords | ⟨before, r, after, -, -, -, hrefused⟩
  · exact (concerns_records source e hrecords).2
  · exact hrefused.concerns.2

/-- The path of what another path leads to in a tree at a location, as messages show it. -/
def shownPath (location path : String) : String :=
  if path.isEmpty then location else location ++ "/" ++ path

variable {t : FileTree} {location path : String}

/-- **A file has the errors of its text,** with the file. -/
theorem ofFile_eq_error_iff {e : Error} : ofFile location t path = .error e ↔ ∃ e',
    ((∃ fe, t.readText (pathComponents path) = .error fe ∧ e' = .of (.unreadable fe)) ∨
      ∃ source, t.readText (pathComponents path) = .ok source ∧ ofText source = .error e') ∧
    e = e'.withFile (shownPath location path) := by
  have hfile : ofFile location t path =
      recordsOfFile t (pathComponents path) (shownPath location path) >>= ofRecords := rfl
  rw [hfile, bind_eq_error_iff, recordsOfFile_eq_error_iff]
  simp only [recordsOfFile_eq_ok_iff, ofText_eq_error_iff]
  cases hread : t.readText (pathComponents path) with
  | error fe =>
      have hunread : recordsIn t (pathComponents path) = .error (.of (.unreadable fe)) := by
        rw [recordsIn, hread]
      simp [hunread, eq_comm]
  | ok source =>
      have hrecords : recordsIn t (pathComponents path) = records source := by
        rw [recordsIn, hread]
      rw [hrecords]
      constructor
      · rintro (⟨e', hrecords, rfl⟩ | ⟨_, ⟨held, hrecords, rfl⟩, he⟩)
        · exact ⟨e', .inr ⟨source, rfl, .inl hrecords⟩, rfl⟩
        · obtain ⟨before, r, after, e', rfl, hfirst, rfl⟩ := ofRecords_map_eq_error_iff.mp he
          exact ⟨e', .inr ⟨source, rfl, .inr ⟨before, r, after, hrecords, hfirst⟩⟩,
            hfirst.orFile _⟩
      · rintro ⟨e', ⟨fe, hfe, -⟩ | ⟨_, hsource, he⟩, rfl⟩
        · cases hfe
        · obtain rfl := Except.ok.inj hsource
          rcases he with hrecords | ⟨before, r, after, hrecords, hfirst⟩
          · exact .inl ⟨e', hrecords, rfl⟩
          · exact .inr ⟨_, ⟨_, hrecords, rfl⟩, ofRecords_map_eq_error_iff.mpr
              ⟨before, r, after, e', rfl, hfirst, hfirst.orFile _⟩⟩

/-! ## Many files -/

/-- The nodes of files that are read one after the other. -/
def ofFiles (t : FileTree) (files : List (List String)) (shown : List String → String) :
    Except Error NodeSet := do
  ofRecords (← files.mapM fun file => recordsOfFile t file (shown file)).flatten

/-- What is wrong with files that are read one after the other, and in which of them it is. -/
inductive FirstFault (t : FileTree) (files : List (List String)) (file : List String) :
    Error → Prop
  /-- The files before it are read, and this one is not. -/
  | unread {before after : List (List String)} {e : Error}
      (split : files = before ++ file :: after)
      (above : ∀ f ∈ before, ∃ rs, recordsIn t f = .ok rs)
      (here : recordsIn t file = .error e) : FirstFault t files file e
  /-- All files are read, and a record of this one is the first that is refused. -/
  | refused {before after : List (List String)} {lists : List (List Record)}
      {xs ys : List Record} {r : Record} {e : Error}
      (split : files = before ++ file :: after)
      (above : before.map (recordsIn t) = lists.map .ok)
      (here : recordsIn t file = .ok (xs ++ r :: ys))
      (below : ∀ f ∈ after, ∃ rs, recordsIn t f = .ok rs)
      (first : FirstRefused (lists.flatten ++ xs) r e) : FirstFault t files file e

variable {files : List (List String)} {shown : List String → String}

/-- What is read of files are the records that they hold. -/
theorem map_recordsIn {lists : List (List SourcedRecord)}
    (h : files.map (fun file => recordsOfFile t file (shown file)) = lists.map .ok) :
    files.map (recordsIn t) = (lists.map (·.map (·.record))).map .ok := by
  rw [← List.forall₂_eq_eq_eq, List.forall₂_map_left_iff, List.forall₂_map_right_iff] at h ⊢
  rw [List.forall₂_map_right_iff]
  refine h.imp fun file rs hrs => ?_
  obtain ⟨held, hheld, rfl⟩ := recordsOfFile_eq_ok_iff.mp hrs
  simp [hheld, Function.comp_def]

/-- Files that hold records are read. -/
theorem exists_map_recordsOfFile (shown : List String → String)
    (h : ∀ f ∈ files, ∃ rs, recordsIn t f = .ok rs) : ∃ lists : List (List SourcedRecord),
      files.map (fun file => recordsOfFile t file (shown file)) = lists.map .ok := by
  refine exists_map_eq_map_ok_iff.mpr fun f hf => ?_
  obtain ⟨rs, hrs⟩ := h f hf
  exact ⟨_, recordsOfFile_eq_ok_iff.mpr ⟨rs, hrs, rfl⟩⟩

/-- **What goes wrong with files is wrong with one of them,** and the error has this file. -/
theorem exists_firstFault {e : Error} (h : ofFiles t files shown = .error e) :
    ∃ file e', FirstFault t files file e' ∧ e = e'.withFile (shown file) := by
  rcases bind_eq_error_iff.mp h with hread | ⟨lists, hread, he⟩
  · obtain ⟨before, file, after, rfl, habove, hfile⟩ := mapM_eq_error_iff.mp hread
    obtain ⟨e', hhere, rfl⟩ := recordsOfFile_eq_error_iff.mp hfile
    refine ⟨file, e', .unread rfl (fun f hf => ?_) hhere, rfl⟩
    obtain ⟨rs, hrs⟩ := habove f hf
    obtain ⟨held, hheld, -⟩ := recordsOfFile_eq_ok_iff.mp hrs
    exact ⟨held, hheld⟩
  · obtain ⟨_, sr, _, e', hsplit, hfirst, rfl⟩ := ofRecords_eq_error_iff_firstRefused.mp he
    -- The record stands in one of the lists, which is what one of the files holds.
    obtain ⟨above, sxs, sys, below, rfl, rfl, -⟩ := exists_of_flatten_eq_append_cons hsplit
    rw [mapM_eq_ok_iff, List.map_append, List.map_cons] at hread
    obtain ⟨before, file, after, rfl, habove, hfile, hbelow⟩ := exists_of_map_eq_append_cons hread
    obtain ⟨held, hhere, hrecords⟩ := recordsOfFile_eq_ok_iff.mp hfile
    obtain ⟨xs, r, ys, rfl, rfl, rfl, rfl⟩ := exists_of_map_eq_append_cons hrecords
    have hrest := exists_map_eq_map_ok_iff.mp ⟨_, map_recordsIn hbelow⟩
    refine ⟨file, e', .refused rfl (map_recordsIn habove) hhere hrest ?_, hfirst.orFile _⟩
    simpa [List.map_flatten, Function.comp_def] using hfirst

/-- **What is wrong with one of the files goes wrong,** and the error has this file. -/
theorem FirstFault.eq_error {file : List String} {e : Error} (h : FirstFault t files file e) :
    ofFiles t files shown = .error (e.withFile (shown file)) := by
  rw [ofFiles, bind_eq_error_iff]
  cases h with
  | unread hsplit habove hhere =>
      refine .inl (mapM_eq_error_iff.mpr ⟨_, file, _, hsplit, fun f hf => ?_, ?_⟩)
      · obtain ⟨rs, hrs⟩ := habove f hf
        exact ⟨_, recordsOfFile_eq_ok_iff.mpr ⟨rs, hrs, rfl⟩⟩
      · exact recordsOfFile_eq_error_iff.mpr ⟨e, hhere, rfl⟩
  | @refused before after lists xs ys r _ hsplit habove hhere hbelow hfirst =>
      obtain ⟨above, hread⟩ :=
        exists_map_recordsOfFile shown (exists_map_eq_map_ok_iff.mp ⟨lists, habove⟩)
      obtain ⟨below, hrest⟩ := exists_map_recordsOfFile shown hbelow
      have hlists : above.map (·.map (·.record)) = lists :=
        List.map_injective_iff.mpr (fun _ _ => Except.ok.inj)
          ((map_recordsIn hread).symm.trans habove)
      let held := (xs ++ r :: ys).map (SourcedRecord.mk · (some (shown file)))
      have hfile : recordsOfFile t file (shown file) = .ok held :=
        recordsOfFile_eq_ok_iff.mpr ⟨_, hhere, rfl⟩
      refine .inr ⟨above ++ held :: below, ?_, ?_⟩
      · rw [mapM_eq_ok_iff, hsplit, List.map_append, List.map_cons, hread, hrest, hfile]
        simp [held]
      · refine ofRecords_eq_error_iff_firstRefused.mpr
          ⟨above.flatten ++ xs.map (SourcedRecord.mk · (some (shown file))), ⟨r, some (shown file)⟩,
            ys.map (SourcedRecord.mk · (some (shown file))) ++ below.flatten, e, by simp [held], ?_,
            hfirst.orFile _⟩
        rw [← hlists] at hfirst
        simpa [List.map_flatten, Function.comp_def] using hfirst

/-- A directory comes to the files with definitions below it. -/
theorem ofDirectory_eq {root : List String} (hroot : t.resolve (pathComponents path) = .ok root)
    (hdirectory : t.isDirectory root = true) :
    ofDirectory location t path = ofFiles t (definitionFiles t root) (locate location) := by
  rw [ofDirectory, hroot]
  simp [hdirectory, Except.mapError, bind, Except.bind, ofFiles]

/-! ## Origins -/

/-- **Errors name their origin.** What is wrong with a text, be it its form or the first of its
records that is refused, concerns no file. A file that cannot be read or the text of which is wrong
gives the same error with its path. Of the files of a directory the first that cannot be read or has
the wrong form gives its error with its path. If there is none, the first record that is refused
behind all records before it, in its file and in the files above, gives its error with the path of
its own file, also when the name of the record is taken by one in another file. And a record that is
refused and has a name gives this name without the white space at its ends, whatever field the error
is in and however deep in chains. -/
theorem errors_name_their_origin (location : String) (t : FileTree) (path : String) :
    (∀ source e, ofText source = .error e → e.file = none) ∧
    (∀ source e, ofText source = .error e ↔ records source = .error e ∨ ∃ before r after,
      records source = .ok (before ++ r :: after) ∧ FirstRefused before r e) ∧
    (∀ e, ofFile location t path = .error e ↔ ∃ e',
      ((∃ fe, t.readText (pathComponents path) = .error fe ∧ e' = .of (.unreadable fe)) ∨
        ∃ source, t.readText (pathComponents path) = .ok source ∧ ofText source = .error e') ∧
      e = e'.withFile (shownPath location path)) ∧
    (∀ root, t.resolve (pathComponents path) = .ok root → t.isDirectory root = true →
      ∀ e, ofDirectory location t path = .error e ↔ ∃ file e',
        FirstFault t (definitionFiles t root) file e' ∧ e = e'.withFile (locate location file)) ∧
    (∀ s r e, addRecord s r = .error e →
      e.file = r.file ∧ (r.record.trimmedName ≠ "" → e.node = some r.record.trimmedName)) ∧
    ∀ before r e, FirstRefused before r e → r.trimmedName ≠ "" → e.node = some r.trimmedName := by
  refine ⟨fun source e => file_of_ofText, fun source e => ofText_eq_error_iff,
    fun e => ofFile_eq_error_iff, fun root hroot hdirectory e => ?_, fun s r e he => ?_,
    fun before r e hfirst hname => ?_⟩
  · rw [ofDirectory_eq hroot hdirectory]
    constructor
    · exact exists_firstFault
    · rintro ⟨file, e', hfault, rfl⟩
      exact hfault.eq_error
  · obtain ⟨hnode, hfile⟩ := (addRecord_eq_error_iff.mp he).concerns
    exact ⟨hfile, fun hname => by rw [hnode, Record.givenName, if_neg hname]⟩
  · rw [hfirst.2.2.concerns.1, Record.givenName, if_neg hname]

/-- A name that is taken in the first of two files. -/
def takenName : FileTree :=
  [("a.yaml", .file (Bytes.ofString "name: log
type: exec
exec: cat log")),
   ("z.yaml", .file (Bytes.ofString "name: ' log '
type: exec
exec: cat log"))]

/-- A filter without its text in a chain in a chain. -/
def deepFilter : String := "name: ' sum '
type: chain
source: log
chain:
- type: splitlines
- type: chain
  chain:
  - type: jq
"

/-- The later file is to blame for the name, and the whole chain for the filter. -/
theorem takenName_errors_name_their_origin :
    takenName.resolve (pathComponents "") = .ok [] ∧ takenName.isDirectory [] = true ∧
    (∃ e, ofDirectory "defs" takenName "" = .error e ∧
      e.message = "duplicate definition with name 'log'" ∧ e.node = some "log" ∧
      e.file = some "defs/z.yaml" ∧ ∃ file e',
        FirstFault takenName [["a.yaml"], ["z.yaml"]] file e' ∧
          e = e'.withFile (locate "defs" file)) ∧
    ∃ r e, records deepFilter = .ok [r] ∧ FirstRefused [] r e ∧ ofText deepFilter = .error e ∧
      e.message = "missing required field 'jq'" ∧ e.node = some "sum" ∧ e.file = none := by
  have hroot : takenName.resolve (pathComponents "") = .ok [] := by
    rw [pathComponents, String.splitOn, String.splitOnAux]
    decide +kernel
  have hdirectory : takenName.isDirectory [] = true := by decide +kernel
  have hbelow : filesBelow takenName [] ((FileTree.maxLinks + 1) * (treeHeight takenName + 2)) [] =
      [["a.yaml"], ["z.yaml"]] := by decide +kernel
  have hfiles : definitionFiles takenName [] = [["a.yaml"], ["z.yaml"]] := by
    rw [definitionFiles, hbelow]
    exact List.mergeSort_of_pairwise (by decide +kernel)
  have htaken : (errorOf? (ofFiles takenName [["a.yaml"], ["z.yaml"]] (locate "defs"))).map
      (fun e => (e.message, e.node, e.file)) =
      some ("duplicate definition with name 'log'", some "log", some "defs/z.yaml") := by
    decide +kernel
  have hdeep : (records deepFilter).toOption.map (fun rs => rs.map fun r =>
      (r.trimmedName, (errorOf? (nodeOf r)).map (·.message))) =
      some [("sum", some "missing required field 'jq'")] := by decide +kernel
  obtain ⟨hfile, htext, -, hdefs, -, hnode⟩ := errors_name_their_origin "defs" takenName ""
  refine ⟨hroot, hdirectory, ?_, ?_⟩
  · obtain ⟨e, he, hconcerns⟩ := Option.map_eq_some_iff.mp htaken
    rw [errorOf?_eq_some_iff, ← hfiles, ← ofDirectory_eq hroot hdirectory] at he
    simp only [Prod.mk.injEq] at hconcerns
    have hfault := (hdefs [] hroot hdirectory e).mp he
    rw [hfiles] at hfault
    exact ⟨e, he, hconcerns.1, hconcerns.2.1, hconcerns.2.2, hfault⟩
  · obtain ⟨rs, hrecords, hrs⟩ := Option.map_eq_some_iff.mp hdeep
    obtain ⟨r, rfl, hr⟩ := List.map_eq_singleton_iff.mp hrs
    obtain ⟨hname, hmessage⟩ := Prod.mk.inj hr
    obtain ⟨e, he, hmessage⟩ := Option.map_eq_some_iff.mp hmessage
    rw [toOption_eq_some_iff] at hrecords
    rw [errorOf?_eq_some_iff] at he
    have hfirst : FirstRefused [] r e := ⟨by simp, List.nodup_nil, refused_iff.mpr (.inl he)⟩
    have herror : ofText deepFilter = .error e :=
      (htext deepFilter e).mpr (.inr ⟨[], r, [], hrecords, hfirst⟩)
    have hsum : e.node = some r.trimmedName := hnode [] r e hfirst (by rw [hname]; decide)
    exact ⟨r, e, hrecords, hfirst, herror, hmessage, hname ▸ hsum, hfile deepFilter e herror⟩

end NodeSet

end Distill.Definition

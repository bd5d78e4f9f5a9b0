import Distill.Definition.Loading
import Distill.Proofs.Results
import Distill.Proofs.Step.Checked

/-!
# Nodes are checked

Every node of a set that is read from records keeps what is promised: its step is checked, and
it has a source exactly if its step reads an input.

## Main definitions

* `Definition.Node.Checked` — the promise.

## Main statements

* `Definition.checked_of_stepWithin` — a step that is accepted is checked, at any depth.
* `Definition.checked_of_nodeOf` — a record that is accepted gives a node that is checked.
* `Definition.NodeSet.checked_of_ofText` — all nodes of a text are checked.
-/

namespace Distill.Definition

open Yaml (Value)

/-! ## Commands -/

/-- A text that passes the check is fillable. -/
theorem fillable_of_checkTemplate {field text : String} (h : checkTemplate field text = .ok ()) :
    Command.Fillable text := by
  simp only [checkTemplate] at h
  split at h
  · simp at h
  · next t ht =>
    split at h
    · simp at h
    · next hfind =>
      refine ⟨t, ht, fun token hmem => ?_⟩
      have hplaceholder := Template.mem_placeholders.mpr (Template.mem_tokens.mpr hmem)
      simpa using List.find?_eq_none.mp hfind token hplaceholder

variable {fields : List (String × Value)} {s : Step}

/-- A command that is accepted has fillable texts only. -/
theorem exists_of_execOf (h : execOf fields = .ok s) :
    ∃ e, s = .exec e ∧ ∀ text ∈ e.command :: e.params, Command.Fillable text := by
  obtain ⟨command, -, h⟩ := bind_eq_ok_iff.mp h
  obtain ⟨⟨⟩, hcommand, h⟩ := bind_eq_ok_iff.mp h
  obtain ⟨params, -, h⟩ := bind_eq_ok_iff.mp h
  obtain ⟨⟨⟩, hparams, h⟩ := bind_eq_ok_iff.mp h
  have hrest : ∃ timeout, s = .exec ⟨command, params.getD [], timeout⟩ := by
    dsimp only at h
    split at h
    · split at h
      · cases h
      · obtain ⟨seconds, -, h⟩ := bind_eq_ok_iff.mp h
        exact ⟨_, (Except.ok.inj h).symm⟩
    · obtain ⟨seconds, -, h⟩ := bind_eq_ok_iff.mp h
      exact ⟨_, (Except.ok.inj h).symm⟩
  obtain ⟨timeout, rfl⟩ := hrest
  refine ⟨_, rfl, List.forall_mem_cons.mpr ⟨fillable_of_checkTemplate hcommand, ?_⟩⟩
  exact fun text htext => fillable_of_checkTemplate (forM_eq_ok_iff.mp hparams text htext)

theorem exists_of_filterOf (h : filterOf fields = .ok s) : ∃ f, s = .filter f := by
  obtain ⟨expression, -, h⟩ := bind_eq_ok_iff.mp h
  split at h
  · next f _ => exact ⟨f, (Except.ok.inj h).symm⟩
  · cases h

theorem exists_of_analysisOf (h : analysisOf fields = .ok s) : ∃ a, s = .analysis a := by
  obtain ⟨given, -, h⟩ := bind_eq_ok_iff.mp h
  dsimp only at h
  split at h
  on_goal 2 => split at h
  -- However the level is found, what follows it gives an analysis or nothing.
  all_goals
    obtain ⟨level, -, h⟩ := bind_eq_ok_iff.mp h
    obtain ⟨summary, -, h⟩ := bind_eq_ok_iff.mp h
    obtain ⟨description, -, h⟩ := bind_eq_ok_iff.mp h
    split at h
    · cases h
    · exact ⟨_, (Except.ok.inj h).symm⟩

/-! ## Steps -/

variable {depth : Nat} {type : String} {inChain : Bool}

/-- No analysis passes the check of a chain. -/
theorem checkFields_analysis_in_chain : checkFields "analysis" fields true ≠ .ok () := by
  simp [checkFields, allowedFields]

/-- **A step that is accepted is checked,** and in a chain there is no analysis in it. -/
theorem checked_of_stepWithin (h : stepWithin depth type fields inChain = .ok s) :
    s.Checked ∧ (inChain = true → ∀ a, .analysis a ∉ s.parts) := by
  induction depth using Nat.strongRecOn generalizing type fields inChain s with
  | ind depth ih =>
  unfold stepWithin at h
  obtain ⟨⟨⟩, hcheck, h⟩ := bind_eq_ok_iff.mp h
  split at h
  · obtain ⟨e, rfl, he⟩ := exists_of_execOf h
    exact ⟨.exec he, by simp⟩
  · rw [← Except.ok.inj h]
    exact ⟨.of_leaf (by simp) (by simp), by simp [Step.parts]⟩
  · rw [← Except.ok.inj h]
    exact ⟨.of_leaf (by simp) (by simp), by simp [Step.parts]⟩
  · obtain ⟨f, rfl⟩ := exists_of_filterOf h
    exact ⟨.of_leaf (by simp) (by simp), by simp [Step.parts]⟩
  · obtain ⟨entries, -, h⟩ := bind_eq_ok_iff.mp h
    dsimp only at h
    split at h
    · cases h
    · next hentries =>
      cases depth with
      | zero => cases h
      | succ depth =>
          obtain ⟨steps, hsteps, h⟩ := bind_eq_ok_iff.mp h
          rw [← Except.ok.inj h]
          -- Each step comes from an entry, which is accepted one level further down.
          have heach : ∀ s ∈ steps, s.Checked ∧ ∀ a, .analysis a ∉ s.parts := by
            intro s hs
            obtain ⟨r, -, hr⟩ := exists_of_mem_mapM hsteps hs
            obtain ⟨type, -, hr⟩ := bind_eq_ok_iff.mp hr
            exact (ih depth (Nat.lt_succ_self depth) hr).imp_right fun himp => himp rfl
          have hne : steps ≠ [] := by
            rw [← List.length_pos_iff, length_of_mapM hsteps, List.length_pos_iff]
            simpa using hentries
          refine ⟨.chain hne (fun s hs => (heach s hs).1) fun s hs => (heach s hs).2,
            fun _ a ha => ?_⟩
          rw [Step.parts_chain, List.mem_cons, Step.mem_partsOf] at ha
          rcases ha with ha | ⟨s, hs, ha⟩
          · simp at ha
          · exact (heach s hs).2 a ha
  · obtain ⟨a, rfl⟩ := exists_of_analysisOf h
    refine ⟨.of_leaf (by simp) (by simp), ?_⟩
    rintro rfl
    exact absurd hcheck checkFields_analysis_in_chain
  · cases h

/-! ## Nodes -/

/-- What is promised of a node. -/
structure Node.Checked (n : Node) : Prop where
  step : n.step.Checked
  /-- There is a source exactly if the step reads an input. -/
  source : n.source.isSome = n.step.takesInput

theorem checked_of_nodeOf {r : Record} {n : Node} (h : nodeOf r = .ok n) : n.Checked := by
  simp only [nodeOf] at h
  split at h
  · cases h
  split at h
  · cases h
  · next type htype =>
    obtain ⟨step, hstep, h⟩ := bind_eq_ok_iff.mp h
    have hchecked := (checked_of_stepWithin (mapError_eq_ok_iff.mp hstep)).1
    generalize Option.filter _ _ = source at h
    split at h
    · cases h
    · split at h
      · cases h
      · next hhead =>
        rw [← Except.ok.inj h]
        exact ⟨hchecked, by simpa [Step.takesInput] using hhead⟩
    · split at h
      · cases h
      · next htakes =>
        rw [← Except.ok.inj h]
        exact ⟨hchecked, by simpa using htakes⟩
    · next hsome hexec hchain =>
      obtain ⟨name, rfl⟩ := Option.ne_none_iff_exists'.mp hsome
      rw [← Except.ok.inj h]
      refine ⟨hchecked, ?_⟩
      cases step with
      | exec e => exact (hexec e name rfl rfl).elim
      | chain steps => exact (hchain steps name rfl rfl).elim
      | _ => simp [Step.takesInput]

/-! ## Sets -/

namespace NodeSet

variable {s s' : NodeSet} {n : Node}

/-- A node that is added stands at the end. -/
theorem nodes_of_insert? (h : s.insert? n = some s') : s'.nodes = s.nodes ++ [n] := by
  rw [insert?] at h
  split at h
  · simp at h
  · rw [← Option.some.inj h]

/-- The node of a record that is added is accepted. -/
theorem exists_of_addRecord {r : SourcedRecord} (h : s.addRecord r = .ok s') :
    ∃ n, nodeOf r.record = .ok n ∧ s'.nodes = s.nodes ++ [n] := by
  obtain ⟨n, hn, h⟩ := bind_eq_ok_iff.mp h
  split at h
  · next hinsert =>
    rw [← Except.ok.inj h]
    exact ⟨n, mapError_eq_ok_iff.mp hn, nodes_of_insert? hinsert⟩
  · cases h

/-- Every node of records is that of one of them. -/
theorem exists_of_mem_ofRecords {rs : List SourcedRecord} (h : ofRecords rs = .ok s)
    (hn : n ∈ s.nodes) : ∃ r ∈ rs, nodeOf r.record = .ok n := by
  have hfold : ∀ (rs : List SourcedRecord) (s₀ : NodeSet), rs.foldlM addRecord s₀ = .ok s →
      n ∈ s₀.nodes ∨ ∃ r ∈ rs, nodeOf r.record = .ok n := by
    intro rs
    induction rs with
    | nil =>
        intro s₀ h
        rw [List.foldlM_nil] at h
        exact Or.inl (Except.ok.inj h ▸ hn)
    | cons r rest ih =>
        intro s₀ h
        rw [List.foldlM_cons] at h
        obtain ⟨s₁, hadd, h⟩ := bind_eq_ok_iff.mp h
        obtain ⟨m, hm, hnodes⟩ := exists_of_addRecord hadd
        rcases ih s₁ h with hmem | ⟨r', hr', hn'⟩
        · rw [hnodes, List.mem_append, List.mem_singleton] at hmem
          rcases hmem with hmem | rfl
          · exact Or.inl hmem
          · exact Or.inr ⟨r, List.mem_cons_self, hm⟩
        · exact Or.inr ⟨r', List.mem_cons_of_mem _ hr', hn'⟩
  rcases hfold rs empty h with hmem | hmem
  · simp [empty] at hmem
  · exact hmem

/-- **All nodes of a text are checked.** -/
theorem checked_of_ofText {source : String} (h : ofText source = .ok s) :
    ∀ n ∈ s.nodes, n.Checked := by
  intro n hn
  obtain ⟨rs, -, h⟩ := bind_eq_ok_iff.mp h
  obtain ⟨r, -, hr⟩ := exists_of_mem_ofRecords h hn
  exact checked_of_nodeOf hr

end NodeSet

end Distill.Definition

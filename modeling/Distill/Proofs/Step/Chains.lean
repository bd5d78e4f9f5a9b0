import Distill.Proofs.Step.Running

/-!
# Chains

A chain runs its steps one after another, and a chain among them runs as its own steps in its
place. So every chain runs as the leaves of the tree that nested chains form: each leaf reads what
the one before it gave, and the first one that fails ends the run. Commands may change what they
act on, so that equations of actions also tell which commands are run and which are not.

## Main definitions

* `Step.leaves`, `Step.leavesOf` — the steps that are not opened any further.
* `Step.Passes` — steps that succeed one after another.

## Main statements

* `Step.runChain_append` — a chain in two parts.
* `Step.runChain_nested` — a chain among the steps of a chain.
* `Step.runChain_leavesOf` — a chain runs as its leaves.
* `Step.chains_compose` — all of this, with the one leaf that fails.
-/

namespace Distill.Step

/-! ## Leaves -/

mutual

/-- The leaves of a step, in order: a chain is opened as long as there is something in it. -/
def leaves : Step → List Step
  | chain (s :: rest) => leaves s ++ leavesOf rest
  | s => [s]

/-- The leaves of some steps, in order. -/
def leavesOf : List Step → List Step
  | [] => []
  | s :: rest => leaves s ++ leavesOf rest

end

/-- A step that is not opened any further. -/
def IsLeaf (s : Step) : Prop := ∀ t rest, s ≠ chain (t :: rest)

theorem leaves_chain_cons (s : Step) (rest : List Step) :
    leaves (chain (s :: rest)) = leavesOf (s :: rest) := by
  rw [leaves, leavesOf]

theorem leaves_ne_nil (s : Step) : s.leaves ≠ [] := by
  match s with
  | chain (s :: rest) =>
      rw [leaves]
      exact List.append_ne_nil_of_left_ne_nil (leaves_ne_nil s) _
  | chain [] | exec _ | decodeYaml | filter _ | splitLines | analysis _ =>
      rw [leaves]
      all_goals simp

theorem leavesOf_ne_nil {steps : List Step} (h : steps ≠ []) : leavesOf steps ≠ [] := by
  obtain ⟨s, rest, rfl⟩ := List.exists_cons_of_ne_nil h
  rw [leavesOf]
  exact List.append_ne_nil_of_left_ne_nil (leaves_ne_nil s) _

mutual

theorem isLeaf_of_mem_leaves (s : Step) : ∀ t ∈ s.leaves, t.IsLeaf := by
  match s with
  | chain (s :: rest) =>
      rw [leaves_chain_cons]
      exact isLeaf_of_mem_leavesOf (s :: rest)
  | chain [] | exec _ | decodeYaml | filter _ | splitLines | analysis _ =>
      intro t ht
      rw [leaves, List.mem_singleton] at ht
      rw [ht]
      all_goals nofun

theorem isLeaf_of_mem_leavesOf (steps : List Step) : ∀ t ∈ leavesOf steps, t.IsLeaf := by
  match steps with
  | [] => simp [leavesOf]
  | s :: rest =>
      intro t ht
      rw [leavesOf, List.mem_append] at ht
      exact ht.elim (isLeaf_of_mem_leaves s t) (isLeaf_of_mem_leavesOf rest t)

end

/-! ## Chains of chains -/

section

variable {σ : Type} {command : ExecStep → Doing σ ArtifactValue} {clock : StateM σ Elapsed}
  {node : String}

theorem run_chain (steps : List Step) (input : Option ArtifactValue) :
    run command clock node (chain steps) input = runChain command clock node steps input := by
  rw [run]

theorem runChain_cons_eq (s : Step) (rest : List Step) (input : Option ArtifactValue) :
    runChain command clock node (s :: rest) input =
      run command clock node s input >>= fun v => runChain command clock node rest (some v) := by
  rw [runChain]

theorem runChain_append_some (xs ys : List Step) (u : ArtifactValue) :
    runChain command clock node (xs ++ ys) (some u) =
      runChain command clock node xs (some u) >>=
        fun v => runChain command clock node ys (some v) := by
  induction xs generalizing u with
  | nil =>
      have hnil : runChain command clock node [] (some u) = pure u := by rw [runChain.eq_def]
      rw [hnil, pure_bind, List.nil_append]
  | cons s xs ih => simp only [List.cons_append, runChain_cons_eq, bind_assoc, ih]

/-- **A chain in two parts** is the first part and then the second one. -/
theorem runChain_append {xs : List Step} (hxs : xs ≠ []) (ys : List Step)
    (input : Option ArtifactValue) :
    runChain command clock node (xs ++ ys) input =
      runChain command clock node xs input >>=
        fun v => runChain command clock node ys (some v) := by
  obtain ⟨s, xs, rfl⟩ := List.exists_cons_of_ne_nil hxs
  simp only [List.cons_append, runChain_cons_eq, bind_assoc, runChain_append_some]

/-- **A chain among the steps of a chain** runs as its own steps in its place. -/
theorem runChain_nested (zs : List Step) {ys : List Step} (hys : ys ≠ []) (ws : List Step)
    (input : Option ArtifactValue) :
    runChain command clock node (zs ++ chain ys :: ws) input =
      runChain command clock node (zs ++ (ys ++ ws)) input := by
  induction zs generalizing input with
  | nil => rw [List.nil_append, List.nil_append, runChain_append hys, runChain_cons_eq, run_chain]
  | cons z zs ih => simp only [List.cons_append, runChain_cons_eq, ih]

mutual

theorem runChain_leaves_append (s : Step) (tail : List Step) (input : Option ArtifactValue) :
    runChain command clock node (s.leaves ++ tail) input =
      runChain command clock node (s :: tail) input := by
  match s with
  | chain (s :: rest) =>
      rw [leaves_chain_cons, runChain_leavesOf_append]
      exact (runChain_nested [] (List.cons_ne_nil s rest) tail input).symm
  | chain [] | exec _ | decodeYaml | filter _ | splitLines | analysis _ =>
      rw [leaves, List.singleton_append]
      all_goals nofun

theorem runChain_leavesOf_append (steps tail : List Step) (input : Option ArtifactValue) :
    runChain command clock node (leavesOf steps ++ tail) input =
      runChain command clock node (steps ++ tail) input := by
  match steps with
  | [] => rfl
  | s :: rest =>
      rw [leavesOf, List.append_assoc, runChain_leaves_append s, List.cons_append,
        runChain_cons_eq, runChain_cons_eq]
      congr 1
      funext v
      exact runChain_leavesOf_append rest tail (some v)

end

/-- **A chain runs as its leaves.** -/
theorem runChain_leavesOf (steps : List Step) (input : Option ArtifactValue) :
    runChain command clock node (leavesOf steps) input =
      runChain command clock node steps input := by
  simpa using runChain_leavesOf_append steps [] input

/-! ## The first failure -/

variable (command clock node) in
/-- Steps that succeed one after another, each with the output of the one before it: from an input
and a state to the last output and the state that is left. -/
inductive Passes : List Step → Option ArtifactValue → σ → Option ArtifactValue → σ → Prop
  | nil (input : Option ArtifactValue) (w : σ) : Passes [] input w input w
  | cons {s : Step} {rest : List Step} {input output : Option ArtifactValue} {w w₁ w' : σ}
      {v : ArtifactValue} (run_eq : run command clock node s input w = (.ok v, w₁))
      (rest_passes : Passes rest (some v) w₁ output w') : Passes (s :: rest) input w output w'

variable {input output : Option ArtifactValue} {w w' : σ}

/-- What comes behind steps that succeed goes on with their output. -/
theorem Passes.runChain_append {before : List Step}
    (h : Passes command clock node before input w output w') (after : List Step) :
    runChain command clock node (before ++ after) input w =
      runChain command clock node after output w' := by
  induction h with
  | nil => rfl
  | cons run_eq _ ih =>
      rw [List.cons_append, runChain_cons, run_eq]
      exact ih

theorem Passes.exists_output {steps : List Step}
    (h : Passes command clock node steps input w output w')
    (hne : steps ≠ []) : ∃ v, output = some v := by
  induction h with
  | nil => exact absurd rfl hne
  | @cons s rest _ _ _ _ _ v _ hrest ih =>
      cases rest with
      | nil => cases hrest; exact ⟨v, rfl⟩
      | cons t rest => exact ih (List.cons_ne_nil t rest)

variable (command clock node) in
/-- Steps succeed all, or one of them fails behind others that succeed. -/
theorem passes_or_exists_failure (steps : List Step) (input : Option ArtifactValue) (w : σ) :
    (∃ output w', Passes command clock node steps input w output w') ∨
      ∃ before s after mid w₁ e w', steps = before ++ s :: after ∧
        Passes command clock node before input w mid w₁ ∧
        run command clock node s mid w₁ = (.error e, w') := by
  induction steps generalizing input w with
  | nil => exact .inl ⟨input, w, .nil input w⟩
  | cons s rest ih =>
      rcases hrun : run command clock node s input w with ⟨e | v, w₁⟩
      · exact .inr ⟨[], s, rest, input, w, e, w₁, rfl, .nil input w, hrun⟩
      · rcases ih (some v) w₁ with ⟨output, w', hrest⟩ | ⟨before, t, after, mid, w₂, e, w', h⟩
        · exact .inl ⟨output, w', .cons hrun hrest⟩
        · obtain ⟨rfl, hbefore, hfails⟩ := h
          exact .inr ⟨s :: before, t, after, mid, w₂, e, w', rfl, .cons hrun hbefore, hfails⟩

/-- A step that fails ends a chain, whatever comes behind it. -/
theorem runChain_cons_of_error {s : Step} {e : Failure}
    (h : run command clock node s input w = (.error e, w')) (rest : List Step) :
    runChain command clock node (s :: rest) input w = (.error e, w') := by
  rw [runChain_cons, h]

end

/-- **Chains compose.** A chain among the steps of a chain may be replaced by its own steps, and a
chain in two parts is the first part and then the second one. A chain succeeds if all its leaves do,
one after another; otherwise it fails as the first of its leaves that fails, and leaves the state
that this leaf leaves, whatever stands behind it. -/
theorem chains_compose {σ : Type} (command : ExecStep → Doing σ ArtifactValue)
    (clock : StateM σ Elapsed) (node : String) (input : Option ArtifactValue) :
    (∀ zs ys ws, ys ≠ [] → run command clock node (chain (zs ++ [chain ys] ++ ws)) input =
        run command clock node (chain (zs ++ ys ++ ws)) input) ∧
      (∀ xs ys, xs ≠ [] → run command clock node (chain (xs ++ ys)) input =
        run command clock node (chain xs) input >>=
          fun v => run command clock node (chain ys) (some v)) ∧
      ∀ steps w, steps ≠ [] → (∀ s ∈ leavesOf steps, s.IsLeaf) ∧
        ((∃ v w', Passes command clock node (leavesOf steps) input w (some v) w' ∧
            run command clock node (chain steps) input w = (.ok v, w')) ∨
          ∃ before s after mid w₁ e w', leavesOf steps = before ++ s :: after ∧
            Passes command clock node before input w mid w₁ ∧
            run command clock node s mid w₁ = (.error e, w') ∧
            run command clock node (chain steps) input w = (.error e, w') ∧
            ∀ later, run command clock node (chain (before ++ s :: later)) input w =
              (.error e, w')) := by
  refine ⟨fun zs ys ws hys => ?_, fun xs ys hxs => ?_, fun steps w hsteps =>
    ⟨isLeaf_of_mem_leavesOf steps, ?_⟩⟩
  · rw [run_chain, run_chain, List.append_assoc, List.append_assoc]
    exact runChain_nested zs hys ws input
  · simp only [run_chain]
    exact runChain_append hxs ys input
  · rcases passes_or_exists_failure command clock node (leavesOf steps) input w with
      ⟨output, w', hpasses⟩ | ⟨before, s, after, mid, w₁, e, w', hleaves, hbefore, hfails⟩
    · obtain ⟨v, rfl⟩ := hpasses.exists_output (leavesOf_ne_nil hsteps)
      have hrun := hpasses.runChain_append []
      rw [List.append_nil, runChain_leavesOf, runChain_nil] at hrun
      exact .inl ⟨v, w', hpasses, by rw [run_chain, hrun]⟩
    · have hlater : ∀ later, run command clock node (chain (before ++ s :: later)) input w =
          (.error e, w') := by
        intro later
        rw [run_chain, hbefore.runChain_append, runChain_cons_of_error hfails]
      refine .inr ⟨before, s, after, mid, w₁, e, w', hleaves, hbefore, hfails, ?_, hlater⟩
      rw [run_chain, ← runChain_leavesOf, hleaves, ← run_chain, hlater]

/-- Commands that print their own text and are put on record. -/
def recording (e : ExecStep) : Doing (List String) ArtifactValue :=
  fun record => (.ok (.bytes (Bytes.ofString e.command)), record ++ [e.command])

/-- The field of a name, which no line of text has. -/
def nameFilter : Filter := ⟨".name", .field "name"⟩

/-- A chain with a chain in it that fails: the first command is run, and the last one is not. -/
theorem nested_chains_compose :
    let cat : Step := exec ⟨"cat log", [], none⟩
    let uname : Step := exec ⟨"uname", [], none⟩
    let inner : List Step := [splitLines, filter nameFilter]
    let failure : Failure := filterFailure nameFilter (.noField .string "name")
    run recording stopped "log" (chain [cat, chain inner, uname]) none =
        run recording stopped "log" (chain ([cat] ++ inner ++ [uname])) none ∧
      (run recording stopped "log" (chain ([cat] ++ inner)) none =
        run recording stopped "log" (chain [cat]) none >>=
          fun v => run recording stopped "log" (chain inner) (some v)) ∧
      ∃ before s after mid w, leavesOf [cat, chain inner, uname] = before ++ s :: after ∧
        Passes recording stopped "log" before none [] mid w ∧
        run recording stopped "log" s mid w = (.error failure, ["cat log"]) ∧
        ∀ later, run recording stopped "log" (chain (before ++ s :: later)) none [] =
          (.error failure, ["cat log"]) := by
  intro cat uname inner failure
  obtain ⟨hnested, happend, hleaves⟩ := chains_compose recording stopped "log" none
  have hrun : run recording stopped "log" (chain [cat, chain inner, uname]) none [] =
      (.error failure, ["cat log"]) := rfl
  refine ⟨hnested [cat] inner [uname] (List.cons_ne_nil _ _),
    happend [cat] inner (List.cons_ne_nil _ _), ?_⟩
  rcases (hleaves [cat, chain inner, uname] [] (List.cons_ne_nil _ _)).2 with
    ⟨v, w, -, hok⟩ | ⟨before, s, after, mid, w, e, w', heq, hbefore, hfails, herror, hlater⟩
  · rw [hrun] at hok
    cases hok
  · rw [hrun, Prod.mk.injEq, Except.error.injEq] at herror
    obtain ⟨rfl, rfl⟩ := herror
    exact ⟨before, s, after, mid, w, heq, hbefore, hfails, hlater⟩

end Distill.Step

import Distill.Proofs.Filter.Equivalence
import Distill.Proofs.Filter.Parentheses
import Distill.Proofs.Filter.RoundTrip
import Distill.Proofs.Step.Running

/-!
# Pipes inside a filter and chains of filters

Two filters can be joined by a pipe in one text, or be two steps of a chain. The outputs are the
same; only the error that is reported may be another one, because a chain applies the second
filter when the first has been applied to all documents.

## Main statements

* `Filter.Expr.parse_piped` — two accepted texts in parentheses with a pipe between them.
* `Filter.piped_runs_as_chain` — the joined text runs as the chain of the two filters.
-/

namespace Distill

namespace Filter

/-- The text of two filters in parentheses with a pipe between them. -/
def pipedText (s t : String) : String := "(" ++ s ++ ") | (" ++ t ++ ")"

variable {s t : String}

theorem toList_pipedText (s t : String) :
    (pipedText s t).toList =
      parenthesised s ++ (' ' :: (['|'] ++ ' ' :: (parenthesised t ++ []))) := by
  simp [pipedText, parenthesised, String.toList_append]

/-- **The text of two accepted texts is accepted**, as the pipe of their expressions. -/
theorem Expr.parse_piped {a b : Expr} (ha : Expr.parse s = .ok a) (hb : Expr.parse t = .ok b) :
    Expr.parse (pipedText s t) = .ok (.pipe a b) := by
  obtain ⟨us, hus⟩ := Expr.exists_reads_parenthesised ha
  obtain ⟨vs, hvs⟩ := Expr.exists_reads_parenthesised hb
  obtain ⟨hlexes, hright⟩ := hvs .finish
  obtain ⟨hlexes, hleft⟩ := hus (hlexes.spaced (.symbol (c := '|') rfl []))
  have hleft : Starts .comma (us ++ .pipe :: (vs ++ [.finish])) a (.pipe :: (vs ++ [.finish])) :=
    (Starts.of_primary fun _ => hleft).lower (by decide)
  have hright : Starts .pipe (vs ++ [.finish]) b [.finish] :=
    (Starts.of_primary fun _ => hright).lower (by decide)
  exact (hleft.pipe hright).parse (by rwa [toList_pipedText])

end Filter

namespace Step

variable {f g h : Filter}

/-- A pipe has the outputs of the second filter for the outputs of the first. -/
theorem agree_eachOutput_pipe (hexpr : h.expr = .pipe f.expr g.expr) (vs : List Json) :
    Filter.Agree (Filter.eachOutput f.apply vs >>= Filter.eachOutput g.apply)
      (Filter.eachOutput h.apply vs) := by
  have happly : h.apply = fun v => f.apply v >>= Filter.eachOutput g.apply := by
    funext v
    rw [Filter.apply, hexpr]
    rfl
  rw [happly]
  exact Filter.eachOutput_bind vs

/-- What a filter makes of its outputs. -/
def reported (f : Filter) : Filter.Outputs → Except Failure ArtifactValue
  | .ok vs => .ok (.sequence vs)
  | .error e => .error (filterFailure f e)

theorem applyFilter_eq (f : Filter) (input : ArtifactValue) :
    applyFilter f input = reported f (Filter.eachOutput f.apply (documents input)) := rfl

/-- Two filters one after the other; the one that fails reports. -/
theorem exists_reported_bind (f g : Filter) (input : ArtifactValue) :
    ∃ k, applyFilter f input >>= applyFilter g =
      reported k (Filter.eachOutput f.apply (documents input) >>= Filter.eachOutput g.apply) := by
  rw [applyFilter_eq]
  cases Filter.eachOutput f.apply (documents input) with
  | error e => exact ⟨f, rfl⟩
  | ok vs => exact ⟨g, rfl⟩

/-- The same sequence, or two failures of filters. -/
def SameOutputs (r r' : Except Failure ArtifactValue) : Prop :=
  (∃ vs, r = .ok (.sequence vs) ∧ r' = .ok (.sequence vs)) ∨
    ∃ e e', r = .error e ∧ r' = .error e' ∧ e.kind = .filter ∧ e'.kind = .filter

theorem sameOutputs_of_agree {x y : Filter.Outputs} (hxy : Filter.Agree x y) (f g : Filter) :
    SameOutputs (reported f x) (reported g y) := by
  cases x <;> cases y
  · exact .inr ⟨_, _, rfl, rfl, rfl, rfl⟩
  · exact hxy.elim
  · exact hxy.elim
  · obtain rfl : _ = _ := hxy
    exact .inl ⟨_, rfl, rfl⟩

/-- A pipe reports what the two filters report one after the other. -/
theorem sameOutputs_applyFilter (hexpr : h.expr = .pipe f.expr g.expr) (input : ArtifactValue) :
    SameOutputs (applyFilter h input) (applyFilter f input >>= applyFilter g) := by
  obtain ⟨k, hk⟩ := exists_reported_bind f g input
  rw [hk, applyFilter_eq h]
  exact sameOutputs_of_agree (agree_eachOutput_pipe hexpr (documents input)).symm h k

variable {σ : Type} (command : ExecStep → Doing σ ArtifactValue) (clock : StateM σ Elapsed)
  (node : String)

/-- A chain of two filters applies the second one to the outputs of the first. -/
theorem run_chain_filters (f g : Filter) (input : ArtifactValue) (w : σ) :
    run command clock node (.chain [.filter f, .filter g]) (some input) w =
      (applyFilter f input >>= applyFilter g, w) := by
  rw [run, runChain_cons, run_filter]
  cases applyFilter f input with
  | error e => rfl
  | ok output =>
      simp only [runChain_cons, run_filter]
      cases hg : applyFilter g output with
      | error e => simp [bind, Except.bind, hg]
      | ok output' => simp [bind, Except.bind, hg, runChain_nil]

end Step

namespace Filter

/-- **A pipe inside a filter is a chain of two filters.** The text that joins two accepted texts
is accepted, and for every input it runs as the chain of the two filters: to the same sequence, or
both fail as filters. -/
theorem piped_runs_as_chain {f g : Filter} {s t : String} (hf : parse s = .ok f)
    (hg : parse t = .ok g) :
    ∃ h, parse (pipedText s t) = .ok h ∧
      ∀ {σ : Type} (command : ExecStep → Step.Doing σ ArtifactValue) (clock : StateM σ Elapsed)
        (node : String) (input : ArtifactValue) (w : σ), ∃ r r' : Except Failure ArtifactValue,
        Step.run command clock node (.filter h) (some input) w = (r, w) ∧
        Step.run command clock node (.chain [.filter f, .filter g]) (some input) w = (r', w) ∧
        Step.SameOutputs r r' := by
  obtain ⟨a, ha, rfl⟩ := map_eq_ok_iff.mp hf
  obtain ⟨b, hb, rfl⟩ := map_eq_ok_iff.mp hg
  refine ⟨⟨pipedText s t, .pipe a b⟩, map_eq_ok_iff.mpr ⟨_, Expr.parse_piped ha hb, rfl⟩, ?_⟩
  intro σ command clock node input w
  exact ⟨_, _, Step.run_filter command clock node _ input w,
    Step.run_chain_filters command clock node _ _ input w, Step.sameOutputs_applyFilter rfl input⟩

/-- The truthy items of an array, and then their names. -/
theorem items_runs_as_chain :
    ∃ f g h, parse ".items | .[]" = .ok f ∧ parse "select(.ok) | .name" = .ok g ∧
      parse "(.items | .[]) | (select(.ok) | .name)" = .ok h ∧
      ∀ {σ : Type} (command : ExecStep → Step.Doing σ ArtifactValue) (clock : StateM σ Elapsed)
        (node : String) (input : ArtifactValue) (w : σ), ∃ r r' : Except Failure ArtifactValue,
        Step.run command clock node (.filter h) (some input) w = (r, w) ∧
        Step.run command clock node (.chain [.filter f, .filter g]) (some input) w = (r', w) ∧
        Step.SameOutputs r r' := by
  let a : Expr := .pipe (.field "items") .iterate
  let b : Expr := .pipe (.apply .select (.field "ok")) (.field "name")
  have ha : Expr.parse ".items | .[]" = .ok a :=
    (Expr.written (e := a) ⟨trivial, trivial⟩ .pipe).parse
  have hb : Expr.parse "select(.ok) | .name" = .ok b :=
    (Expr.written (e := b) ⟨trivial, trivial⟩ .pipe).parse
  have hf : parse ".items | .[]" = .ok ⟨_, a⟩ := map_eq_ok_iff.mpr ⟨a, ha, rfl⟩
  have hg : parse "select(.ok) | .name" = .ok ⟨_, b⟩ := map_eq_ok_iff.mpr ⟨b, hb, rfl⟩
  obtain ⟨h, hh, hruns⟩ := piped_runs_as_chain hf hg
  exact ⟨_, _, h, hf, hg, hh, hruns⟩

end Filter

end Distill

import Distill.Service.Basic

/-!
# Evaluating several archives

The runs of a batch of archives take turns, in an order that is chosen from outside.
Archives enter in order, and never more runs are active than there are slots.

## Main definitions

* `Batch` — how far a batch has come.
* `BatchMove`, `Service.moveBatch?` — what can happen, and its effect.
* `Service.runMany` — evaluate archives.
-/

namespace Distill

/-- A run of a batch that has entered. -/
structure ActiveRun where
  /-- The place of the archive in the batch. -/
  place : Nat
  job : Job
  progress : Progress

/-- How far a batch has come. -/
structure Batch where
  /-- The archives that wait, with their places. -/
  waiting : List (String × Nat)
  /-- The active runs, the latest last. -/
  active : List ActiveRun := []
  /-- The results of the archives, by place. -/
  results : List (Option (Except ServiceError Run))

/-- What can happen next. -/
inductive BatchMove where
  /-- The first archive that waits starts its run. -/
  | enter
  /-- Something happens in the run at a place. -/
  | within (place : Nat) (m : Move)
  /-- A run with nothing left to do ends. -/
  | close (place : Nat)
  deriving Repr, Inhabited

namespace Batch

/-- Nothing has been done. -/
def start (archives : List String) : Batch where
  waiting := archives.zipIdx
  results := archives.map fun _ => none

/-- The active run at a place. -/
def run? (b : Batch) (place : Nat) : Option ActiveRun := b.active.find? (·.place == place)

/-- The result at a place is known. -/
def settle (b : Batch) (place : Nat) (r : Except ServiceError Run) : Batch :=
  { b with
    active := b.active.filter (·.place != place)
    results := b.results.set place (some r) }

/-- The run at a place has come further. -/
def setProgress (b : Batch) (place : Nat) (p : Progress) : Batch :=
  { b with active := b.active.map fun r => if r.place = place then { r with progress := p } else r }

/-- The results with their archives, in the order of the archives. -/
def answers (b : Batch) (archives : List String) : List (String × Except ServiceError Run) :=
  (archives.zip b.results).filterMap fun (archive, r) => r.map (archive, ·)

end Batch

namespace Service

variable (s : Service) (o : RunOptions)

/-- How many runs may be active. -/
def batchSlots : Nat := max (s.limit o) 1

/-- The first archive that waits starts its run, if there is a slot. A run that cannot
start has ended. -/
def enter? (b : Batch) : Option Batch :=
  match b.waiting with
  | [] => none
  | (archive, place) :: waiting =>
    if s.batchSlots o ≤ b.active.length then none
    else
      let b := { b with waiting }
      match s.job o archive with
      | .error e => some (b.settle place (.error e))
      | .ok job => some { b with active := b.active ++ [⟨place, job, job.start false⟩] }

/-- The effect of a move, if it can be made. -/
def moveBatch? (b : Batch) (c : Cache) : BatchMove → Option (Batch × Cache)
  | .enter => (s.enter? o b).map (·, c)
  | .within place m => do
    let r ← b.run? place
    let (p, c) ← r.job.move? r.progress c m
    return (b.setProgress place p, c)
  | .close place => do
    let r ← b.run? place
    if r.progress.isOver then
      let (run, c) := close o r.job r.progress c
      return (b.settle place (.ok run), c)
    else none

/-- Make moves one after another; one that cannot be made is left out. -/
def makeBatchMoves (b : Batch) (c : Cache) (ms : List BatchMove) : Batch × Cache :=
  ms.foldl (fun (b, c) m => (s.moveBatch? o b c m).getD (b, c)) (b, c)

variable {σ : Type} (env : Environment σ)

/-- The moves that are made next: let an archive enter, or else go on with the oldest run. -/
def nextBatchMoves (b : Batch) : StateM σ (List BatchMove) :=
  if (s.enter? o b).isSome then pure [.enter]
  else match b.active with
    | [] => pure []
    | r :: _ =>
      if r.progress.isOver then pure [.close r.place]
      else do return (← env.nextMoves r.job r.progress).map (.within r.place)

/-- Make the next moves so many times. -/
def advanceBatch : Nat → Batch × Cache → StateM σ (Batch × Cache)
  | 0, b => pure b
  | n + 1, (b, c) => do
    advanceBatch n (makeBatchMoves s o b c (← s.nextBatchMoves o env b))

/-- Evaluate archives. Each enters, goes on until it is over, and ends. -/
def runMany (archives : List String) (c : Cache) :
    StateM σ (List (String × Except ServiceError Run) × Cache) := do
  let moves := archives.length * (4 * s.graph.size + 2)
  let (b, c) ← s.advanceBatch o env moves (.start archives, c)
  return (b.answers archives, c)

end Service

end Distill

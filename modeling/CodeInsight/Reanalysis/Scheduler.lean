/-
# Scheduling of analyses

Every request starts a pass of its own. A new pass supersedes the one before it,
which is cancelled but need not stop at once: any number of passes may be alive,
each at a stage of its own. Passes are counted by generations, and a pass may
publish only while its generation is the current one and it is not cancelled.

The functions below are the steps that happen without interruption. A pass that
is not at the right stage for a step has no outcome of it. Publishing takes two
steps, first the snapshot and then its generation; the pass holds the lock from
the one to the other, and meanwhile there is no scheduling, no cancelling and no
finishing of other passes. Readers never need the lock, and the order of the two
steps is what lets them wait for a generation.
-/

import CodeInsight.Reanalysis.Publication
import CodeInsight.Reanalysis.Request

namespace CodeInsight

/-- How a pass came to its end. -/
inductive PassEnd where
  /-- It was cancelled before the analysis was done. -/
  | abandoned
  /-- The analysis failed. -/
  | failed
  /-- The analysis succeeded, too late to be published. -/
  | discarded
  | published
  deriving DecidableEq, Repr

/-- How far a pass has come. -/
inductive Stage (σ : Type) where
  /-- The delay before the analysis is not over. -/
  | waiting
  | analyzing
  /-- The analysis is done; without a snapshot, it failed. -/
  | returned (result : Option σ)
  /-- The snapshot is published and its generation is not; the pass holds the lock. -/
  | publishing
  | ended (how : PassEnd)
  deriving DecidableEq, Repr

/-- One run of the analysis. -/
structure Pass (σ : Type) where
  generation : UInt64
  request : Request
  /-- Whether the pass was told to stop. -/
  cancelled : Bool
  stage : Stage σ
  /-- When the delay that the pass is in is over, once the delay has begun. -/
  due : Option Nat
  deriving DecidableEq

/-- The passes of one document and what they have published. Passes go by their number in the order
of their scheduling. -/
structure Scheduler (σ : Type) where
  /-- The milliseconds that a pass waits before its analysis. -/
  debounce : Nat
  generation : UInt64
  /-- The pass that may still publish. -/
  live : Option Nat
  passes : Array (Pass σ)
  published : Publication σ
  /-- The generation of the newest published snapshot, zero before the first. -/
  publishedGeneration : UInt64

namespace Scheduler

variable {σ : Type}

/-- A scheduler without passes. -/
def create (debounce : Nat) : Scheduler σ := ⟨debounce, 0, none, #[], .empty, 0⟩

/-- Whether a pass may still publish. -/
def isPending (s : Scheduler σ) : Bool := s.live.isSome

/-- The newest published snapshot. -/
def latest? (s : Scheduler σ) : Option σ := s.published.value

/-- Whether some pass is between its two publishing steps. -/
def isLocked (s : Scheduler σ) : Bool :=
  s.passes.toList.any fun pass => match pass.stage with
    | .publishing => true
    | _ => false

/-- The scheduler with one pass changed. -/
def modifyPass (s : Scheduler σ) (i : Nat) (change : Pass σ → Pass σ) : Scheduler σ :=
  { s with passes := s.passes.modify i change }

/-- The pass moves on to another stage, in which no delay has begun. -/
def enter (s : Scheduler σ) (i : Nat) (stage : Stage σ) : Scheduler σ :=
  s.modifyPass i fun pass => { pass with stage, due := none }

/-! ## Steps of the host -/

/-- Cancels the pass in flight, if there is one. What is published stays. -/
def cancel (s : Scheduler σ) : Scheduler σ :=
  match s.live with
  | none => s
  | some i => { s.modifyPass i fun pass => { pass with cancelled := true } with live := none }

/-- What a scheduler is when its host lets go of it: the pass in flight is cancelled. Passes that
have begun may still be running then. -/
def dispose (s : Scheduler σ) : Scheduler σ := s.cancel

/-- Starts a pass, which supersedes the one in flight, and answers with its generation. -/
def schedule (s : Scheduler σ) (request : Request) : Scheduler σ × UInt64 :=
  let generation := s.generation + 1
  let superseded := s.cancel
  ({ superseded with
      generation
      live := some superseded.passes.size
      passes := superseded.passes.push ⟨generation, request, false, .waiting, none⟩ },
    generation)

/-! ## Steps of a pass -/

/-- The delay of a pass is over, and its analysis begins. -/
def start? (s : Scheduler σ) (i : Nat) : Option (Scheduler σ) := do
  match (← s.passes[i]?).stage with
  | .waiting => some (s.enter i .analyzing)
  | _ => none

/-- A cancelled pass stops before its analysis is done. -/
def abandon? (s : Scheduler σ) (i : Nat) : Option (Scheduler σ) := do
  let pass ← s.passes[i]?
  match pass.cancelled, pass.stage with
  | true, .waiting | true, .analyzing => some (s.enter i (.ended .abandoned))
  | _, _ => none

/-- The analysis of a pass ends, with a snapshot or without. -/
def answer? (s : Scheduler σ) (i : Nat) (result : Option σ) : Option (Scheduler σ) := do
  match (← s.passes[i]?).stage with
  | .analyzing => some (s.enter i (.returned result))
  | _ => none

/-- A pass whose analysis is done learns whether it may publish, and puts its snapshot in place if
it may. A failed pass is no longer in flight if its generation is still the current one. -/
def finish? (s : Scheduler σ) (i : Nat) : Option (Scheduler σ) := do
  let pass ← s.passes[i]?
  match pass.stage with
  | .returned none =>
    let failed := s.enter i (.ended .failed)
    some (if s.generation = pass.generation then { failed with live := none } else failed)
  | .returned (some snapshot) =>
    if s.generation ≠ pass.generation || pass.cancelled then
      some (s.enter i (.ended .discarded))
    else
      some { s.enter i .publishing with
        live := none
        published := s.published.publish snapshot }
  | _ => none

/-- A publishing pass makes its generation known and gives the lock back. -/
def complete? (s : Scheduler σ) (i : Nat) : Option (Scheduler σ) := do
  let pass ← s.passes[i]?
  match pass.stage with
  | .publishing =>
    some { s.enter i (.ended .published) with publishedGeneration := pass.generation }
  | _ => none

/-! ## Waiting -/

/-- Waits until a pass of this generation or a later one has published. -/
def waitForGeneration (s : Scheduler σ) (generation : UInt64) : Wait σ :=
  if generation ≤ s.publishedGeneration then .over s.latest? else .pending

/-- Waits until a snapshot of at least this version is published. -/
def waitForVersion (s : Scheduler σ) (versionOf : σ → Version) (version : Version) : Wait σ :=
  match s.latest?.filter (version ≤ versionOf ·) with
  | some snapshot => .over (some snapshot)
  | none => .pending

end Scheduler

end CodeInsight

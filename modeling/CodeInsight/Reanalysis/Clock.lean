/-
# Passes under a clock

An analysis whose behaviour is known beforehand can be run under a clock that
moves only when it is told to. Each reply states whether the analysis first waits
at a gate, how long it then takes, and what it comes to. Gates go by versions and
stay open once they are opened.

A pass does as much as it can whenever it is polled and then waits for the clock,
for its gate or for nothing. A delay counts from the poll in which it begins, and
no delay takes longer than thirty years. A cancelled pass stops when it is polled,
and does not start at all if it has not been polled before.
-/

import CodeInsight.Reanalysis.Scheduler

namespace CodeInsight

/-- The reading of the clock in milliseconds, and the gates that are open. -/
structure Clock where
  now : Nat
  opened : List Version
  deriving DecidableEq, Repr

namespace Clock

/-- The clock before anything has happened. -/
def start : Clock := ⟨0, []⟩

/-- The milliseconds of thirty years of 365 days, which are the longest delay. -/
def longestDelay : Nat := 30 * 365 * 24 * 60 * 60 * 1000

/-- When a delay that begins now is over. -/
def deadline (c : Clock) (delay : Nat) : Nat := c.now + min delay longestDelay

/-- Opens the gate of a version for good. -/
def release (c : Clock) (version : Version) : Clock := { c with opened := version :: c.opened }

/-- Moves the clock in one jump. -/
def jump (c : Clock) (milliseconds : Nat) : Clock := { c with now := c.now + milliseconds }

/-- Lets everything settle, moves the clock in one jump, and lets everything settle again. The
requests of the analyses that begin are gathered from both times. -/
def advance {α : Type} (c : Clock) (milliseconds : Nat) (settle : Clock → α → α × List Request)
    (state : α) : Clock × α × List Request :=
  let (state, before) := settle c state
  let c := c.jump milliseconds
  let (state, after) := settle c state
  (c, state, before ++ after)

end Clock

/-- What an analysis will do. -/
structure Reply (σ : Type) where
  /-- Whether it waits until the gate of its version is open. -/
  gated : Bool
  /-- The milliseconds that it takes from then on. -/
  delay : Nat
  /-- What it comes to when that time is over: a snapshot, none if it fails, or nothing ever. -/
  result : Wait σ

/-- An analysis whose behaviour on every request is known. -/
abbrev Analyzer (σ : Type) := Request → Reply σ

namespace Scheduler

variable {σ : Type}

/-- Whether the delay that a pass is in is over. A delay that has not begun is over if it is
zero. -/
def isDue (clock : Clock) (delay : Nat) (pass : Pass σ) : Bool :=
  pass.due.getD (clock.deadline delay) ≤ clock.now

/-- Lets the delay of a pass begin, unless it has begun before. -/
def await (s : Scheduler σ) (clock : Clock) (i : Nat) (delay : Nat) : Scheduler σ :=
  s.modifyPass i fun pass => { pass with due := some (pass.due.getD (clock.deadline delay)) }

/-- What a waiting pass does when polled, with the request of the analysis that begins. -/
def pollWaiting (s : Scheduler σ) (clock : Clock) (i : Nat) : Scheduler σ × Option Request :=
  match s.passes[i]? with
  | some pass@⟨_, request, cancelled, .waiting, _⟩ =>
    if cancelled then ((s.abandon? i).getD s, none)
    else if isDue clock s.debounce pass then ((s.start? i).getD s, some request)
    else (s.await clock i s.debounce, none)
  | _ => (s, none)

/-- What an analysing pass does when polled. -/
def pollAnalyzing (s : Scheduler σ) (clock : Clock) (analyze : Analyzer σ) (i : Nat) :
    Scheduler σ :=
  match s.passes[i]? with
  | some pass@⟨_, request, cancelled, .analyzing, _⟩ =>
    let reply := analyze request
    if cancelled then (s.abandon? i).getD s
    else if reply.gated && !clock.opened.contains request.version then s
    else if isDue clock reply.delay pass then
      match reply.result with
      | .over result => (s.answer? i result).getD s
      | .pending => s
    else s.await clock i reply.delay
  | _ => s

/-- What a pass whose analysis is done does when polled. -/
def pollReturned (s : Scheduler σ) (i : Nat) : Scheduler σ :=
  let finished := (s.finish? i).getD s
  (finished.complete? i).getD finished

/-- Polls one pass, with the request of the analysis that begins. -/
def poll (s : Scheduler σ) (clock : Clock) (analyze : Analyzer σ) (i : Nat) :
    Scheduler σ × Option Request :=
  let (s, started) := s.pollWaiting clock i
  ((s.pollAnalyzing clock analyze i).pollReturned i, started)

/-- Polls passes in order, with the requests of the analyses that begin. -/
def pollAll (clock : Clock) (analyze : Analyzer σ) (s : Scheduler σ) :
    List Nat → Scheduler σ × List Request
  | [] => (s, [])
  | i :: rest =>
    let (s, started) := s.poll clock analyze i
    let (s, others) := pollAll clock analyze s rest
    (s, started.toList ++ others)

/-- Every pass does as much as it can. No pass waits for another, so polling each once is enough. -/
def settle (s : Scheduler σ) (clock : Clock) (analyze : Analyzer σ) :
    Scheduler σ × List Request :=
  pollAll clock analyze s (List.range s.passes.size)

end Scheduler

end CodeInsight

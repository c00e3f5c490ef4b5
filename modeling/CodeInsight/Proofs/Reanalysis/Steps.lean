/-
# The steps of a scheduler

Scheduling, cancelling and the progress of passes happen in any order and on any
thread, and the lock keeps some of them apart: while a pass is between its two
publishing steps nothing is scheduled or cancelled, and no other pass finishes.
`Scheduler.step?` puts the operations of the scheduler together under this rule.

`Scheduler.Step` says case by case what a step does, and `step?_eq_some_iff` that
it says so exactly. Facts about steps are proved from its cases, so that the
operations need not be opened again.
-/

import CodeInsight.Proofs.Run
import CodeInsight.Reanalysis.Scheduler

namespace CodeInsight

namespace Scheduler

variable {σ : Type}

/-- What can happen to a scheduler without interruption. Passes go by their numbers. -/
inductive Event (σ : Type) where
  /-- The host starts a pass. -/
  | schedule (request : Request)
  /-- The host cancels the pass in flight. -/
  | cancel
  /-- The analysis of a pass, which was handed the means to, cancels its own pass. -/
  | revoke (i : Nat)
  /-- The delay that a pass is in begins. -/
  | delay (i : Nat) (due : Nat)
  /-- The analysis of a pass begins. -/
  | start (i : Nat)
  /-- A cancelled pass stops early. -/
  | abandon (i : Nat)
  /-- The analysis of a pass ends, with a snapshot or without, whether or not it was cancelled. -/
  | answer (i : Nat) (result : Option σ)
  /-- A pass whose analysis is done takes the lock and publishes, if it may. -/
  | finish (i : Nat)
  /-- A publishing pass makes its generation known and gives the lock back. -/
  | complete (i : Nat)

namespace Event

/-- Whether a pass is started. -/
def isSchedule : Event σ → Bool
  | schedule _ => true
  | _ => false

/-- The pass that makes the step, if a pass makes it. -/
def pass? : Event σ → Option Nat
  | schedule _ | cancel => none
  | revoke i | delay i _ | start i | abandon i | answer i _ | finish i | complete i => some i

end Event

/-- What an event makes of a scheduler. The lock is taken by scheduling, by cancelling and by the
finishing of passes, and none of these happens while a pass is publishing. -/
def step? (s : Scheduler σ) : Event σ → Option (Scheduler σ)
  | .schedule request => if s.isLocked then none else some (s.schedule request).1
  | .cancel => if s.isLocked then none else some s.cancel
  | .revoke i => some (s.modifyPass i fun pass => { pass with cancelled := true })
  | .delay i due => some (s.modifyPass i fun pass => { pass with due := some due })
  | .start i => s.start? i
  | .abandon i => s.abandon? i
  | .answer i result => s.answer? i result
  | .finish i => if s.isLocked then none else s.finish? i
  | .complete i => s.complete? i

/-- A step case by case, with what had to be the case for it. -/
inductive Step (s : Scheduler σ) : Event σ → Scheduler σ → Prop
  | schedule (request : Request) (free : s.isLocked = false) :
      Step s (.schedule request) (s.schedule request).1
  | cancel (free : s.isLocked = false) : Step s .cancel s.cancel
  | revoke (i : Nat) :
      Step s (.revoke i) (s.modifyPass i fun pass => { pass with cancelled := true })
  | delay (i due : Nat) :
      Step s (.delay i due) (s.modifyPass i fun pass => { pass with due := some due })
  | start {i : Nat} {pass : Pass σ} (found : s.passes[i]? = some pass)
      (stage : pass.stage = .waiting) : Step s (.start i) (s.enter i .analyzing)
  | abandon {i : Nat} {pass : Pass σ} (found : s.passes[i]? = some pass)
      (cancelled : pass.cancelled = true)
      (stage : pass.stage = .waiting ∨ pass.stage = .analyzing) :
      Step s (.abandon i) (s.enter i (.ended .abandoned))
  | answer {i : Nat} {pass : Pass σ} (result : Option σ) (found : s.passes[i]? = some pass)
      (stage : pass.stage = .analyzing) : Step s (.answer i result) (s.enter i (.returned result))
  | fail {i : Nat} {pass : Pass σ} (free : s.isLocked = false) (found : s.passes[i]? = some pass)
      (stage : pass.stage = .returned none) (current : s.generation = pass.generation) :
      Step s (.finish i) { s.enter i (.ended .failed) with live := none }
  | failLate {i : Nat} {pass : Pass σ} (free : s.isLocked = false)
      (found : s.passes[i]? = some pass) (stage : pass.stage = .returned none)
      (superseded : s.generation ≠ pass.generation) :
      Step s (.finish i) (s.enter i (.ended .failed))
  | discard {i : Nat} {pass : Pass σ} {snapshot : σ} (free : s.isLocked = false)
      (found : s.passes[i]? = some pass) (stage : pass.stage = .returned (some snapshot))
      (late : s.generation ≠ pass.generation ∨ pass.cancelled = true) :
      Step s (.finish i) (s.enter i (.ended .discarded))
  | publish {i : Nat} {pass : Pass σ} {snapshot : σ} (free : s.isLocked = false)
      (found : s.passes[i]? = some pass) (stage : pass.stage = .returned (some snapshot))
      (current : s.generation = pass.generation) (kept : pass.cancelled = false) :
      Step s (.finish i)
        { s.enter i .publishing with
          live := none
          published := s.published.publish snapshot }
  | complete {i : Nat} {pass : Pass σ} (found : s.passes[i]? = some pass)
      (stage : pass.stage = .publishing) :
      Step s (.complete i)
        { s.enter i (.ended .published) with publishedGeneration := pass.generation }

theorem Step.of_start? {s t : Scheduler σ} {i : Nat} (happens : s.start? i = some t) :
    Step s (.start i) t := by
  obtain ⟨pass, hfound, happens⟩ := Option.bind_eq_some_iff.mp happens
  split at happens
  · cases happens
    exact .start hfound ‹_›
  · cases happens

theorem Step.of_abandon? {s t : Scheduler σ} {i : Nat} (happens : s.abandon? i = some t) :
    Step s (.abandon i) t := by
  obtain ⟨pass, hfound, happens⟩ := Option.bind_eq_some_iff.mp happens
  split at happens
  · cases happens
    exact .abandon hfound ‹_› (.inl ‹_›)
  · cases happens
    exact .abandon hfound ‹_› (.inr ‹_›)
  · cases happens

theorem Step.of_answer? {s t : Scheduler σ} {i : Nat} {result : Option σ}
    (happens : s.answer? i result = some t) : Step s (.answer i result) t := by
  obtain ⟨pass, hfound, happens⟩ := Option.bind_eq_some_iff.mp happens
  split at happens
  · cases happens
    exact .answer result hfound ‹_›
  · cases happens

theorem Step.of_finish? {s t : Scheduler σ} {i : Nat} (free : s.isLocked = false)
    (happens : s.finish? i = some t) : Step s (.finish i) t := by
  obtain ⟨pass, hfound, happens⟩ := Option.bind_eq_some_iff.mp happens
  split at happens
  · rename_i hstage
    dsimp only at happens
    by_cases hcurrent : s.generation = pass.generation
    · rw [if_pos hcurrent] at happens
      cases happens
      exact .fail free hfound hstage hcurrent
    · rw [if_neg hcurrent] at happens
      cases happens
      exact .failLate free hfound hstage hcurrent
  · rename_i snapshot hstage
    split at happens
    · rename_i hlate
      cases happens
      exact .discard free hfound hstage (by simpa using hlate)
    · rename_i hcurrent
      cases happens
      simp only [Bool.or_eq_true, decide_eq_true_eq, not_or, ne_eq, Decidable.not_not,
        Bool.not_eq_true] at hcurrent
      exact .publish free hfound hstage hcurrent.1 hcurrent.2
  · cases happens

theorem Step.of_complete? {s t : Scheduler σ} {i : Nat} (happens : s.complete? i = some t) :
    Step s (.complete i) t := by
  obtain ⟨pass, hfound, happens⟩ := Option.bind_eq_some_iff.mp happens
  split at happens
  · cases happens
    exact .complete hfound ‹_›
  · cases happens

/-- What takes the lock happens only while it is free. -/
theorem of_unlocked {s t u : Scheduler σ}
    (happens : (if s.isLocked then none else some u) = some t) :
    s.isLocked = false ∧ u = t := by
  obtain ⟨hfree, happens⟩ := Option.ite_none_left_eq_some.mp happens
  exact ⟨eq_false_of_ne_true hfree, Option.some.inj happens⟩

/-- The operations of a scheduler do what the cases of `Step` say, and nothing else. -/
theorem step?_eq_some_iff {s t : Scheduler σ} {event : Event σ} :
    s.step? event = some t ↔ Step s event t := by
  constructor
  · intro happens
    cases event with
    | schedule request =>
        obtain ⟨hfree, rfl⟩ := of_unlocked happens
        exact .schedule request hfree
    | cancel =>
        obtain ⟨hfree, rfl⟩ := of_unlocked happens
        exact .cancel hfree
    | revoke i =>
        cases happens
        exact .revoke i
    | delay i due =>
        cases happens
        exact .delay i due
    | start i => exact .of_start? happens
    | abandon i => exact .of_abandon? happens
    | answer i result => exact .of_answer? happens
    | finish i =>
        obtain ⟨hfree, happens⟩ := Option.ite_none_left_eq_some.mp happens
        exact .of_finish? (eq_false_of_ne_true hfree) happens
    | complete i => exact .of_complete? happens
  · intro step
    cases step with
    | schedule request free => simp [step?, free]
    | cancel free => simp [step?, free]
    | revoke i => rfl
    | delay i due => rfl
    | start found stage => simp [step?, start?, found, stage]
    | abandon found cancelled stage =>
        rcases stage with stage | stage <;> simp [step?, abandon?, found, cancelled, stage]
    | answer result found stage => simp [step?, answer?, found, stage]
    | fail free found stage current => simp [step?, finish?, free, found, stage, current]
    | failLate free found stage superseded =>
        simp [step?, finish?, free, found, stage, superseded]
    | discard free found stage late =>
        rcases late with late | late <;> simp [step?, finish?, free, found, stage, late]
    | publish free found stage current kept =>
        simp [step?, finish?, free, found, stage, current, kept]
    | complete found stage => simp [step?, complete?, found, stage]

end Scheduler

end CodeInsight

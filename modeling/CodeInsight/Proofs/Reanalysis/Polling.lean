/-
# Polling

Under a clock, every pass that is polled does all that it can at once. Whatever
the clock shows and the analysis replies, this is a run of the steps of passes,
and it ends with the lock given back. What holds in all runs of a scheduler
therefore holds when it is settled under a clock, between any operations.
-/

import CodeInsight.Proofs.Reanalysis.Passes
import CodeInsight.Reanalysis.Clock

namespace CodeInsight

namespace Scheduler

variable {σ : Type} {s t u : Scheduler σ} {event : Event σ}

/-! ## The lock -/

theorem isLocked_eq_false_iff :
    s.isLocked = false ↔
      ∀ (i : Nat) (p : Pass σ), s.passes[i]? = some p → p.stage ≠ .publishing := by
  rw [isLocked, List.any_eq_false]
  constructor
  · intro free i p found hstage
    have hp := free p (Array.mem_toList_iff.mpr (Array.mem_of_getElem? found))
    simp [hstage] at hp
  · intro free p hp
    obtain ⟨i, hi⟩ := Array.mem_iff_getElem?.mp (Array.mem_toList_iff.mp hp)
    have hstage := free i p hi
    split
    · exact absurd ‹_› hstage
    · simp

/-- Nothing holds the lock once one pass is changed to be without it, if no other pass has it. -/
theorem isLocked_modifyPass {i : Nat} {change : Pass σ → Pass σ}
    (without : ∀ p, s.passes[i]? = some p → (change p).stage ≠ .publishing)
    (others : ∀ (j : Nat) (p : Pass σ), i ≠ j → s.passes[j]? = some p → p.stage ≠ .publishing) :
    (s.modifyPass i change).isLocked = false := by
  rw [isLocked_eq_false_iff]
  intro j q found
  rw [getElem?_modifyPass] at found
  by_cases hij : i = j
  · subst hij
    rw [if_pos rfl] at found
    obtain ⟨p, hp, rfl⟩ := Option.map_eq_some_iff.mp found
    exact without p hp
  · rw [if_neg hij] at found
    exact others j q hij found

theorem isLocked_enter {i : Nat} {stage : Stage σ} (without : stage ≠ .publishing)
    (free : s.isLocked = false) : (s.enter i stage).isLocked = false :=
  isLocked_modifyPass (fun _ _ => without) fun j p _ found => isLocked_eq_false_iff.mp free j p found

/-- Without the lock there is nothing to complete. -/
theorem complete?_eq_none {i : Nat} (free : s.isLocked = false) : s.complete? i = none := by
  cases hcomplete : s.complete? i with
  | none => rfl
  | some t =>
      cases Step.of_complete? hcomplete with
      | complete found stage => exact absurd stage (isLocked_eq_false_iff.mp free i _ found)

/-! ## Steps of passes alone -/

/-- Steps of passes, and nothing else, lead from `s` to `t`. -/
def PassesLead (s t : Scheduler σ) : Prop :=
  ∃ log, Run step? s log t ∧ ∀ m ∈ log, m.event.pass?.isSome = true

namespace PassesLead

theorem refl (s : Scheduler σ) : s.PassesLead s := ⟨[], .start, List.forall_mem_nil _⟩

theorem trans (leads : s.PassesLead t) (goesOn : t.PassesLead u) : s.PassesLead u := by
  obtain ⟨log, hrun, hpasses⟩ := leads
  obtain ⟨later, hlater, hlaterPasses⟩ := goesOn
  refine ⟨log ++ later, hrun.append hlater, ?_⟩
  intro m hm
  rcases List.mem_append.mp hm with hm | hm
  · exact hpasses m hm
  · exact hlaterPasses m hm

theorem of_step (step : Step s event t) (byPass : event.pass?.isSome = true) :
    s.PassesLead t := by
  refine ⟨[⟨s, event, t⟩], Run.extend .start (step?_eq_some_iff.mpr step), ?_⟩
  intro m hm
  rw [List.mem_singleton.mp hm]
  exact byPass

end PassesLead

/-- Passes alone lead from `s` to `t`, and nothing holds the lock in the end. -/
structure SettlesTo (s t : Scheduler σ) : Prop where
  leads : s.PassesLead t
  free : t.isLocked = false

theorem SettlesTo.trans (settles : s.SettlesTo t) (goesOn : t.SettlesTo u) : s.SettlesTo u :=
  ⟨settles.leads.trans goesOn.leads, goesOn.free⟩

/-! ## Polls -/

theorem modifyPass_congr {i : Nat} {change other : Pass σ → Pass σ}
    (agree : ∀ p, s.passes[i]? = some p → change p = other p) :
    s.modifyPass i change = s.modifyPass i other := by
  have hpasses : s.passes.modify i change = s.passes.modify i other := by
    apply Array.ext_getElem?
    intro j
    rw [Array.getElem?_modify, Array.getElem?_modify]
    by_cases hij : i = j
    · subst hij
      rw [if_pos rfl, if_pos rfl]
      exact Option.map_congr agree
    · rw [if_neg hij, if_neg hij]
  rw [modifyPass, hpasses, modifyPass]

/-- A pass that enters a stage without the lock leaves the lock free. -/
theorem enter_settlesTo {i : Nat} {stage : Stage σ} (free : s.isLocked = false)
    (step : Step s event (s.enter i stage)) (without : stage ≠ .publishing)
    (byPass : event.pass?.isSome = true) : s.SettlesTo ((s.step? event).getD s) := by
  rw [step?_eq_some_iff.mpr step]
  exact ⟨.of_step step byPass, isLocked_enter without free⟩

theorem await_settlesTo (free : s.isLocked = false) (clock : Clock) (i delay : Nat) :
    s.SettlesTo (s.await clock i delay) := by
  have hdelay : s.await clock i delay = s.modifyPass i fun pass =>
      { pass with due := some ((s.passes[i]?.bind (·.due)).getD (clock.deadline delay)) } := by
    apply modifyPass_congr
    intro p found
    rw [found, Option.bind_some]
  refine ⟨?_, ?_⟩
  · rw [hdelay]
    exact .of_step (.delay i _) rfl
  · exact isLocked_modifyPass (isLocked_eq_false_iff.mp free i) fun j p _ found =>
      isLocked_eq_false_iff.mp free j p found

theorem pollWaiting_settlesTo (free : s.isLocked = false) (clock : Clock) (i : Nat) :
    s.SettlesTo (s.pollWaiting clock i).1 := by
  unfold pollWaiting
  split
  · rename_i request cancelled due found
    split
    · rename_i hcancelled
      show s.SettlesTo ((s.step? (.abandon i)).getD s)
      exact enter_settlesTo free (.abandon found hcancelled (.inl rfl)) nofun rfl
    · split
      · show s.SettlesTo ((s.step? (.start i)).getD s)
        exact enter_settlesTo free (.start found rfl) nofun rfl
      · exact await_settlesTo free clock i s.debounce
  · exact ⟨.refl s, free⟩

theorem pollAnalyzing_settlesTo (free : s.isLocked = false) (clock : Clock)
    (analyze : Analyzer σ) (i : Nat) : s.SettlesTo (s.pollAnalyzing clock analyze i) := by
  unfold pollAnalyzing
  split
  · rename_i request cancelled due found
    dsimp only
    split
    · rename_i hcancelled
      show s.SettlesTo ((s.step? (.abandon i)).getD s)
      exact enter_settlesTo free (.abandon found hcancelled (.inr rfl)) nofun rfl
    · split
      · exact ⟨.refl s, free⟩
      · split
        · split
          · rename_i result _
            show s.SettlesTo ((s.step? (.answer i result)).getD s)
            exact enter_settlesTo free (.answer result found rfl) nofun rfl
          · exact ⟨.refl s, free⟩
        · exact await_settlesTo free clock i _
  · exact ⟨.refl s, free⟩

/-- Completing gives the lock back, if nothing else holds it. -/
theorem complete_settlesTo {i : Nat} {p : Pass σ} (leads : s.PassesLead t)
    (found : t.passes[i]? = some p) (stage : p.stage = .publishing)
    (others : ∀ (j : Nat) (q : Pass σ), i ≠ j → t.passes[j]? = some q → q.stage ≠ .publishing) :
    s.SettlesTo ((t.complete? i).getD t) := by
  have hstep := Step.complete found stage
  have hcomplete := step?_eq_some_iff.mpr hstep
  simp only [step?] at hcomplete
  rw [hcomplete]
  exact ⟨leads.trans (.of_step hstep rfl), isLocked_modifyPass (fun _ _ h => by cases h) others⟩

/-- A pass that publishes when polled gives the lock back in the same poll. -/
theorem pollReturned_settlesTo (free : s.isLocked = false) (i : Nat) :
    s.SettlesTo (s.pollReturned i) := by
  have hquiet : ∀ t, Step s (.finish i) t → t.isLocked = false →
      s.SettlesTo ((t.complete? i).getD t) := by
    intro t step hfree
    rw [complete?_eq_none hfree]
    exact ⟨.of_step step rfl, hfree⟩
  unfold pollReturned
  cases hfinish : s.finish? i with
  | none =>
      show s.SettlesTo ((s.complete? i).getD s)
      rw [complete?_eq_none free]
      exact ⟨.refl s, free⟩
  | some t =>
      show s.SettlesTo ((t.complete? i).getD t)
      cases Step.of_finish? free hfinish with
      | fail _ found stage current =>
          exact hquiet _ (.of_finish? free hfinish) (isLocked_enter nofun free)
      | failLate _ found stage superseded =>
          exact hquiet _ (.of_finish? free hfinish) (isLocked_enter nofun free)
      | discard _ found stage late =>
          exact hquiet _ (.of_finish? free hfinish) (isLocked_enter nofun free)
      | @publish _ p snapshot _ found stage current kept =>
          refine complete_settlesTo (.of_step (.publish free found stage current kept) rfl)
            (getElem?_enter_self .publishing found) rfl ?_
          intro j q hij hq
          exact isLocked_eq_false_iff.mp free j q ((getElem?_enter_of_ne _ hij).symm.trans hq)

theorem poll_settlesTo (free : s.isLocked = false) (clock : Clock) (analyze : Analyzer σ)
    (i : Nat) : s.SettlesTo (s.poll clock analyze i).1 := by
  have hwaiting := pollWaiting_settlesTo free clock i
  have hanalyzing := pollAnalyzing_settlesTo hwaiting.free clock analyze i
  rw [poll]
  exact (hwaiting.trans hanalyzing).trans (pollReturned_settlesTo hanalyzing.free i)

theorem pollAll_settlesTo (free : s.isLocked = false) (clock : Clock) (analyze : Analyzer σ)
    (polled : List Nat) : s.SettlesTo (pollAll clock analyze s polled).1 := by
  induction polled generalizing s with
  | nil => exact ⟨.refl s, free⟩
  | cons i rest ih =>
      have hpoll := poll_settlesTo free clock analyze i
      rw [pollAll]
      exact hpoll.trans (ih hpoll.free)

/-- Settling under a clock is a run of the steps of passes, whatever the clock shows and the
analysis replies, and at its end the lock is free. -/
theorem settle_settlesTo (free : s.isLocked = false) (clock : Clock) (analyze : Analyzer σ) :
    s.SettlesTo (s.settle clock analyze).1 :=
  pollAll_settlesTo free clock analyze (List.range s.passes.size)

end Scheduler

end CodeInsight

/-
# How passes move on

Whatever happens to a scheduler, a pass keeps its request and its generation,
stays cancelled once it is cancelled, and its stage only moves forward. No pass
is ever forgotten, and only scheduling adds one.

Passes are numbered in the order of their scheduling, and generations count them.
As long as the count has not come around, a generation therefore names one pass.
-/

import CodeInsight.Proofs.Reanalysis.Steps
import Mathlib.Algebra.Group.Nat.Defs

namespace CodeInsight

variable {σ : Type}

/-- How far along a stage is. -/
@[simp]
def Stage.rank : Stage σ → Nat
  | .waiting => 0
  | .analyzing => 1
  | .returned _ => 2
  | .publishing => 3
  | .ended _ => 4

/-- `p.Leads q` says that a pass may go from `p` to `q`. -/
structure Pass.Leads (p q : Pass σ) : Prop where
  generation : q.generation = p.generation
  request : q.request = p.request
  cancelled : p.cancelled = true → q.cancelled = true
  stage : q.stage = p.stage ∨ p.stage.rank < q.stage.rank

namespace Pass.Leads

theorem refl (p : Pass σ) : p.Leads p := ⟨rfl, rfl, id, .inl rfl⟩

theorem rank_le {p q : Pass σ} (leads : p.Leads q) : p.stage.rank ≤ q.stage.rank := by
  rcases leads.stage with hstage | hstage
  · exact Nat.le_of_eq (by rw [hstage])
  · exact Nat.le_of_lt hstage

theorem trans {p q r : Pass σ} (leads : p.Leads q) (goesOn : q.Leads r) : p.Leads r where
  generation := goesOn.generation.trans leads.generation
  request := goesOn.request.trans leads.request
  cancelled := fun hcancelled => goesOn.cancelled (leads.cancelled hcancelled)
  stage := by
    rcases goesOn.stage with hsame | hlater
    · rw [hsame]
      exact leads.stage
    · exact .inr (Nat.lt_of_le_of_lt leads.rank_le hlater)

end Pass.Leads

namespace Scheduler

variable {s t : Scheduler σ} {event : Event σ}

/-! ## One pass changed -/

theorem getElem?_modifyPass (s : Scheduler σ) (i j : Nat) (change : Pass σ → Pass σ) :
    (s.modifyPass i change).passes[j]? =
      if i = j then s.passes[j]?.map change else s.passes[j]? :=
  Array.getElem?_modify

theorem getElem?_enter_self {i : Nat} {p : Pass σ} (stage : Stage σ)
    (found : s.passes[i]? = some p) :
    (s.enter i stage).passes[i]? = some { p with stage, due := none } := by
  rw [enter, getElem?_modifyPass, if_pos rfl, found, Option.map_some]

theorem getElem?_enter_of_ne {i j : Nat} (stage : Stage σ) (hij : i ≠ j) :
    (s.enter i stage).passes[j]? = s.passes[j]? := by
  rw [enter, getElem?_modifyPass, if_neg hij]

/-- A pass either is the one that entered a stage, or is as it was. -/
theorem of_getElem?_enter {i j : Nat} {stage : Stage σ} {q : Pass σ}
    (found : (s.enter i stage).passes[j]? = some q) :
    i = j ∧ q.stage = stage ∨ s.passes[j]? = some q := by
  by_cases hij : i = j
  · left
    rw [enter, getElem?_modifyPass, if_pos hij] at found
    obtain ⟨p, -, rfl⟩ := Option.map_eq_some_iff.mp found
    exact ⟨hij, rfl⟩
  · right
    rwa [getElem?_enter_of_ne stage hij] at found

/-- A change that leaves the stage of a pass alone leaves all stages alone. -/
theorem stage_of_getElem?_modifyPass {i j : Nat} {change : Pass σ → Pass σ} {q : Pass σ}
    (found : (s.modifyPass i change).passes[j]? = some q)
    (alone : ∀ p, (change p).stage = p.stage) :
    ∃ p, s.passes[j]? = some p ∧ p.stage = q.stage := by
  rw [getElem?_modifyPass] at found
  split at found
  · obtain ⟨p, hp, rfl⟩ := Option.map_eq_some_iff.mp found
    exact ⟨p, hp, (alone p).symm⟩
  · exact ⟨q, found, rfl⟩

@[simp]
theorem size_modifyPass (s : Scheduler σ) (i : Nat) (change : Pass σ → Pass σ) :
    (s.modifyPass i change).passes.size = s.passes.size :=
  Array.size_modify

@[simp]
theorem size_enter (s : Scheduler σ) (i : Nat) (stage : Stage σ) :
    (s.enter i stage).passes.size = s.passes.size :=
  Array.size_modify

@[simp]
theorem size_cancel (s : Scheduler σ) : s.cancel.passes.size = s.passes.size := by
  unfold cancel
  split
  · rfl
  · exact size_modifyPass s _ _

@[simp]
theorem generation_cancel (s : Scheduler σ) : s.cancel.generation = s.generation := by
  unfold cancel
  split <;> rfl

@[simp]
theorem published_cancel (s : Scheduler σ) : s.cancel.published = s.published := by
  unfold cancel
  split <;> rfl

theorem passes_schedule (s : Scheduler σ) (request : Request) :
    (s.schedule request).1.passes =
      s.cancel.passes.push ⟨s.generation + 1, request, false, .waiting, none⟩ := rfl

/-- Changing one pass moves every pass on, if it moves that one on. -/
theorem modifyPass_leads {i j : Nat} {p : Pass σ} {change : Pass σ → Pass σ}
    (changed : ∀ q, s.passes[i]? = some q → q.Leads (change q)) (found : s.passes[j]? = some p) :
    ∃ q, (s.modifyPass i change).passes[j]? = some q ∧ p.Leads q := by
  rw [getElem?_modifyPass, found]
  by_cases hij : i = j
  · subst hij
    exact ⟨change p, by simp, changed p found⟩
  · exact ⟨p, by simp [hij], .refl p⟩

/-- Entering a later stage moves every pass on. -/
theorem enter_leads {i j : Nat} {p pass : Pass σ} {stage : Stage σ}
    (entering : s.passes[i]? = some pass) (later : pass.stage.rank < stage.rank)
    (found : s.passes[j]? = some p) :
    ∃ q, (s.enter i stage).passes[j]? = some q ∧ p.Leads q := by
  refine modifyPass_leads ?_ found
  intro q hq
  cases entering.symm.trans hq
  exact ⟨rfl, rfl, id, .inr later⟩

theorem cancel_leads {j : Nat} {p : Pass σ} (found : s.passes[j]? = some p) :
    ∃ q, s.cancel.passes[j]? = some q ∧ p.Leads q := by
  unfold cancel
  split
  · exact ⟨p, found, .refl p⟩
  · exact modifyPass_leads (fun q _ => ⟨rfl, rfl, fun _ => rfl, .inl rfl⟩) found

theorem stage_of_getElem?_cancel {j : Nat} {q : Pass σ} (found : s.cancel.passes[j]? = some q) :
    ∃ p, s.passes[j]? = some p ∧ p.stage = q.stage := by
  cases hlive : s.live with
  | none =>
      simp only [cancel, hlive] at found
      exact ⟨q, found, rfl⟩
  | some i =>
      simp only [cancel, hlive] at found
      exact stage_of_getElem?_modifyPass found fun _ => rfl

/-! ## All passes in one step -/

/-- No step loses a pass, and every pass moves on. -/
theorem Step.leads (step : Step s event t) {j : Nat} {p : Pass σ}
    (found : s.passes[j]? = some p) : ∃ q, t.passes[j]? = some q ∧ p.Leads q := by
  cases step with
  | schedule request free =>
      obtain ⟨q, hq, hleads⟩ := cancel_leads found
      have hlt : j < s.cancel.passes.size := (Array.getElem?_eq_some_iff.mp hq).1
      refine ⟨q, ?_, hleads⟩
      rw [passes_schedule, Array.getElem?_push, if_neg (Nat.ne_of_lt hlt), hq]
  | cancel free => exact cancel_leads found
  | revoke i => exact modifyPass_leads (fun q _ => ⟨rfl, rfl, fun _ => rfl, .inl rfl⟩) found
  | delay i due => exact modifyPass_leads (fun q _ => ⟨rfl, rfl, id, .inl rfl⟩) found
  | start hfound stage => exact enter_leads hfound (by simp [stage]) found
  | abandon hfound cancelled stage =>
      refine enter_leads hfound ?_ found
      rcases stage with stage | stage <;> simp [stage]
  | answer result hfound stage => exact enter_leads hfound (by simp [stage]) found
  | fail free hfound stage current => exact enter_leads hfound (by simp [stage]) found
  | failLate free hfound stage superseded => exact enter_leads hfound (by simp [stage]) found
  | discard free hfound stage late => exact enter_leads hfound (by simp [stage]) found
  | publish free hfound stage current kept => exact enter_leads hfound (by simp [stage]) found
  | complete hfound stage => exact enter_leads hfound (by simp [stage]) found

/-- Only scheduling adds a pass, and it adds one. -/
theorem Step.size_passes (step : Step s event t) :
    t.passes.size = s.passes.size + if event.isSchedule then 1 else 0 := by
  cases step with
  | schedule request free => simp [passes_schedule, Event.isSchedule]
  | cancel free => simp [Event.isSchedule]
  | revoke i | delay i due => exact size_modifyPass s _ _
  | _ => exact size_enter s _ _

/-- Only scheduling starts a generation. -/
theorem Step.generation (step : Step s event t) :
    t.generation = s.generation + if event.isSchedule then 1 else 0 := by
  cases step with
  | schedule request free => rfl
  | cancel free => simp [Event.isSchedule]
  | _ => exact (UInt64.add_zero _).symm

/-- Every pass was there before the step, or the step has just scheduled it. -/
theorem Step.origin (step : Step s event t) {j : Nat} {q : Pass σ}
    (found : t.passes[j]? = some q) :
    (∃ p, s.passes[j]? = some p ∧ p.Leads q) ∨
      ∃ request, event = .schedule request ∧ j = s.passes.size ∧
        q = ⟨s.generation + 1, request, false, .waiting, none⟩ := by
  by_cases hj : j < s.passes.size
  · left
    obtain ⟨q', hq', hleads⟩ := step.leads (Array.getElem?_eq_getElem hj)
    cases found.symm.trans hq'
    exact ⟨s.passes[j], Array.getElem?_eq_getElem hj, hleads⟩
  · right
    have hlt : j < t.passes.size := (Array.getElem?_eq_some_iff.mp found).1
    rw [step.size_passes] at hlt
    cases step with
    | schedule request free =>
        have hlast : j = s.passes.size := by
          simp only [Event.isSchedule, if_true] at hlt
          omega
        refine ⟨request, rfl, hlast, ?_⟩
        rw [passes_schedule, Array.getElem?_push, size_cancel, if_pos hlast] at found
        exact (Option.some.inj found).symm
    | _ => exact absurd hlt hj

/-- Whether an event can bring the pass with number `j` to a stage. -/
def Event.BringsTo (j : Nat) : Event σ → Stage σ → Prop
  | .schedule _, .waiting => True
  | .start i, .analyzing => i = j
  | .answer i result, .returned result' => i = j ∧ result = result'
  | .finish i, .publishing => i = j
  | .abandon i, .ended _ => i = j
  | .finish i, .ended _ => i = j
  | .complete i, .ended _ => i = j
  | _, _ => False

/-- A pass is at the stage it was at, or the event has brought it to the one it is at. -/
theorem Step.stage_cases (step : Step s event t) {j : Nat} {q : Pass σ}
    (found : t.passes[j]? = some q) :
    (∃ p, s.passes[j]? = some p ∧ p.stage = q.stage) ∨ event.BringsTo j q.stage := by
  have entered {i : Nat} {stage : Stage σ} (hq : (s.enter i stage).passes[j]? = some q)
      (brings : i = j → event.BringsTo j stage) :
      (∃ p, s.passes[j]? = some p ∧ p.stage = q.stage) ∨ event.BringsTo j q.stage := by
    rcases of_getElem?_enter hq with ⟨hij, hstage⟩ | hsame
    · exact .inr (hstage ▸ brings hij)
    · exact .inl ⟨q, hsame, rfl⟩
  cases step with
  | schedule request free =>
      rw [passes_schedule, Array.getElem?_push] at found
      split at found
      · cases found
        exact .inr trivial
      · exact .inl (stage_of_getElem?_cancel found)
  | cancel free => exact .inl (stage_of_getElem?_cancel found)
  | revoke i => exact .inl (stage_of_getElem?_modifyPass found fun _ => rfl)
  | delay i due => exact .inl (stage_of_getElem?_modifyPass found fun _ => rfl)
  | answer result hfound stage => exact entered found fun hij => ⟨hij, rfl⟩
  | _ => exact entered found id

/-! ## Requests -/

/-- The requests that were handed to a scheduler, in order. Each has started a pass. -/
def requests (s : Scheduler σ) : List Request := s.passes.toList.map (·.request)

@[simp]
theorem length_requests (s : Scheduler σ) : s.requests.length = s.passes.size := by
  rw [requests, List.length_map, Array.length_toList]

/-- Passes that move on keep their requests. -/
theorem requests_of_leads (size : t.passes.size = s.passes.size)
    (leads : ∀ (j : Nat) (p : Pass σ), s.passes[j]? = some p →
      ∃ q, t.passes[j]? = some q ∧ p.Leads q) : t.requests = s.requests := by
  apply List.ext_getElem?
  intro j
  simp only [requests, List.getElem?_map, Array.getElem?_toList]
  cases hfound : s.passes[j]? with
  | none =>
      have hj : t.passes.size ≤ j := size ▸ Array.getElem?_eq_none_iff.mp hfound
      rw [Array.getElem?_eq_none hj]
  | some p =>
      obtain ⟨q, hq, hleads⟩ := leads j p hfound
      rw [hq, Option.map_some, Option.map_some, hleads.request]

@[simp]
theorem requests_schedule (s : Scheduler σ) (request : Request) :
    (s.schedule request).1.requests = s.requests ++ [request] := by
  have hcancel : s.cancel.requests = s.requests :=
    requests_of_leads (size_cancel s) fun _ _ found => cancel_leads found
  rw [← hcancel, requests, passes_schedule, Array.toList_push, List.map_append]
  rfl

/-- Nothing but scheduling hands over a request. -/
theorem Step.requests (step : Step s event t) (quiet : event.isSchedule = false) :
    t.requests = s.requests :=
  requests_of_leads (by rw [step.size_passes, quiet]; rfl) fun _ _ found => step.leads found

/-! ## Numbering -/

/-- Generations count the passes. -/
structure Numbered (s : Scheduler σ) : Prop where
  generation : s.generation = .ofNat s.passes.size
  passes : ∀ (i : Nat) (p : Pass σ), s.passes[i]? = some p → p.generation = .ofNat (i + 1)

theorem numbered_create (debounce : Nat) : (create debounce : Scheduler σ).Numbered :=
  ⟨rfl, fun i p found => by simp [create] at found⟩

theorem Step.numbered (step : Step s event t) (numbered : s.Numbered) : t.Numbered where
  generation := by
    rw [step.generation, step.size_passes, numbered.generation]
    split
    · rw [UInt64.ofNat_add]
      rfl
    · exact UInt64.add_zero _
  passes i q found := by
    rcases step.origin found with ⟨p, hp, hleads⟩ | ⟨request, -, hi, hq⟩
    · rw [hleads.generation, numbered.passes i p hp]
    · rw [hq, hi, numbered.generation, UInt64.ofNat_add]
      rfl

/-- The generation of a pass is one more than its number, until the count has come around. -/
theorem Numbered.toNat_generation (numbered : s.Numbered) (few : s.passes.size < 2 ^ 64)
    {i : Nat} {p : Pass σ} (found : s.passes[i]? = some p) : p.generation.toNat = i + 1 := by
  have hlt : i < s.passes.size := (Array.getElem?_eq_some_iff.mp found).1
  rw [numbered.passes i p found, UInt64.toNat_ofNat', Nat.mod_eq_of_lt]
  exact Nat.lt_of_le_of_lt hlt few

/-- The current generation is the number of passes, until the count has come around. -/
theorem Numbered.toNat_current (numbered : s.Numbered) (few : s.passes.size < 2 ^ 64) :
    s.generation.toNat = s.passes.size := by
  rw [numbered.generation, UInt64.toNat_ofNat', Nat.mod_eq_of_lt few]

end Scheduler

end CodeInsight

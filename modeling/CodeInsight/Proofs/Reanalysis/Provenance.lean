/-
# Where the newest snapshot comes from

The newest snapshot is that of the last pass that has published, its producer. A
pass puts its snapshot in place before it makes its generation known, so at every
moment the generation that is known as published is no later than that of the
producer. Both only grow.

When every answer of an analysis agrees with its request in some way, so does the
newest snapshot with the request of its producer. In particular, if analyses answer
with a function of the request, it is the value of that function there.
-/

import CodeInsight.Proofs.Reanalysis.Supersession

namespace CodeInsight

variable {σ : Type}

/-- The snapshot that a pass has got and not published yet. -/
def Pass.snapshot? (p : Pass σ) : Option σ :=
  match p.stage with
  | .returned result => result
  | _ => none

theorem Pass.snapshot?_of_returned (p : Pass σ) {result : Option σ}
    (stage : p.stage = .returned result) : p.snapshot? = result := by
  rw [snapshot?, stage]

namespace Scheduler

variable {s t : Scheduler σ} {event : Event σ} {debounce : Nat}
  {log later : List (Moment (Scheduler σ) (Event σ))}

/-- The pass that brought the newest snapshot, as it was just before. -/
def producer? (log : List (Moment (Scheduler σ) (Event σ))) : Option (Pass σ) :=
  (publications log).getLast?

/-- The generation of the newest snapshot, zero before the first. -/
def producedGeneration (log : List (Moment (Scheduler σ) (Event σ))) : UInt64 :=
  ((producer? log).map (·.generation)).getD 0

theorem mem_publications_of_producer? {p : Pass σ} (produced : producer? log = some p) :
    p ∈ publications log :=
  List.mem_of_getLast? produced

theorem producer?_append (log later : List (Moment (Scheduler σ) (Event σ))) :
    producer? (log ++ later) = (producer? later).or (producer? log) := by
  rw [producer?, publications_append, List.getLast?_append]
  rfl

theorem producer?_concat (log : List (Moment (Scheduler σ) (Event σ)))
    (m : Moment (Scheduler σ) (Event σ)) :
    producer? (log ++ [m]) = (publisher? m).or (producer? log) := by
  rw [producer?_append]
  cases h : publisher? m <;> simp [producer?, publications, h]

theorem latest?_of_run (run : Run step? (create debounce) log s) :
    s.latest? = (producer? log).bind Pass.snapshot? := by
  induction run with
  | start => rfl
  | extend prior happens ih =>
      rw [producer?_concat]
      rcases (step?_eq_some_iff.mp happens).published_cases with
        ⟨hsame, hnone⟩ | ⟨i, p, snapshot, hsome, -, -, hstage, -, -, hpublished, -⟩
      · rw [hnone, Option.none_or, ← ih, latest?, hsame]
        rfl
      · rw [hsome, Option.some_or, Option.bind_some, latest?, hpublished,
          p.snapshot?_of_returned hstage]
        rfl

/-- A pass that publishes in a step has got its snapshot before. -/
theorem Step.returned_of_publisher? (step : Step s event t) {p : Pass σ}
    (publishes : publisher? ⟨s, event, t⟩ = some p) :
    ∃ (i : Nat) (snapshot : σ), s.passes[i]? = some p ∧ p.stage = .returned (some snapshot) := by
  rcases step.published_cases with
    ⟨-, hnone⟩ | ⟨i, q, snapshot, hsome, -, hfound, hstage, -, -, -, -⟩
  · cases hnone.symm.trans publishes
  · cases hsome.symm.trans publishes
    exact ⟨i, snapshot, hfound, hstage⟩

/-- A pass publishes only when it has got a snapshot. -/
theorem exists_snapshot?_of_mem_publications (run : Run step? s log t) {p : Pass σ}
    (hp : p ∈ publications log) : ∃ snapshot, p.snapshot? = some snapshot := by
  obtain ⟨m, hm, hpublisher⟩ := List.mem_filterMap.mp hp
  obtain ⟨-, snapshot, -, hstage⟩ :=
    (step?_eq_some_iff.mp (run.happens_of_mem hm)).returned_of_publisher? hpublisher
  exact ⟨snapshot, p.snapshot?_of_returned hstage⟩

/-! ## What is known as published -/

@[simp]
theorem publishedGeneration_cancel (s : Scheduler σ) :
    s.cancel.publishedGeneration = s.publishedGeneration := by
  unfold cancel
  split <;> rfl

/-- The generation known as published stays, unless a publishing pass makes its own known. -/
theorem Step.publishedGeneration_cases (step : Step s event t) :
    t.publishedGeneration = s.publishedGeneration ∨
      ∃ (i : Nat) (p : Pass σ), s.passes[i]? = some p ∧ p.stage = .publishing ∧
        t.publishedGeneration = p.generation := by
  cases step with
  | complete found stage => exact .inr ⟨_, _, found, stage, rfl⟩
  | schedule request free => exact .inl (publishedGeneration_cancel s)
  | cancel free => exact .inl (publishedGeneration_cancel s)
  | _ => exact .inl rfl

/-- A publishing pass was publishing before, or it is the one that publishes in the step. -/
theorem Step.publishing_cases (step : Step s event t) {j : Nat} {q : Pass σ}
    (found : t.passes[j]? = some q) (stage : q.stage = .publishing) :
    (∃ p, s.passes[j]? = some p ∧ p.stage = .publishing ∧ p.generation = q.generation) ∨
      ∃ p, publisher? ⟨s, event, t⟩ = some p ∧ p.generation = q.generation := by
  rcases step.stage_cases found with ⟨p, hp, hsame⟩ | hbrings
  · left
    obtain ⟨q', hq', hleads⟩ := step.leads hp
    cases found.symm.trans hq'
    exact ⟨p, hp, hsame.trans stage, hleads.generation.symm⟩
  · right
    rw [stage] at hbrings
    cases event with
    | finish i =>
        obtain rfl : i = j := hbrings
        rcases step.published_cases with
          ⟨hsame, -⟩ | ⟨i', p, snapshot, hsome, hfinish, hfound, -, -, -, -, -⟩
        · -- Only publishing brings a pass to this stage, and it counts one publication more.
          cases step with
          | publish free hfound hstage current kept =>
              exact absurd (congrArg Publication.revision hsame) (Nat.succ_ne_self _)
          | fail free hfound | failLate free hfound | discard free hfound =>
              cases (getElem?_enter_self _ hfound).symm.trans found
              cases stage
        · cases hfinish
          obtain ⟨q', hq', hleads⟩ := step.leads hfound
          cases found.symm.trans hq'
          exact ⟨p, hsome, hleads.generation.symm⟩
    | _ => exact hbrings.elim

/-! ## Growth -/

/-- Later on, the newest snapshot is by the same pass or by one of a later generation. -/
theorem exists_producer_of_append
    (ordered : (publications (log ++ later)).Pairwise (·.generation < ·.generation)) {p : Pass σ}
    (produced : producer? log = some p) :
    ∃ q, producer? (log ++ later) = some q ∧ p.generation ≤ q.generation := by
  rw [producer?_append, produced]
  cases hlater : producer? later with
  | none => exact ⟨p, rfl, UInt64.le_refl _⟩
  | some q =>
      rw [publications_append] at ordered
      have hlt := (List.pairwise_append.mp ordered).2.2 p (mem_publications_of_producer? produced) q
        (mem_publications_of_producer? hlater)
      exact ⟨q, rfl, UInt64.le_of_lt hlt⟩

/-- The generation of the newest snapshot only grows. -/
theorem producedGeneration_le_append
    (ordered : (publications (log ++ later)).Pairwise (·.generation < ·.generation)) :
    producedGeneration log ≤ producedGeneration (log ++ later) := by
  cases hlog : producer? log with
  | none =>
      rw [producedGeneration, hlog]
      exact UInt64.le_iff_toNat_le.mpr (Nat.zero_le _)
  | some p =>
      obtain ⟨q, hq, hle⟩ := exists_producer_of_append ordered hlog
      rw [producedGeneration, producedGeneration, hlog, hq]
      exact hle

/-- What is known as published, or is about to be, is no later than the newest snapshot. -/
theorem publishedGeneration_le_of_run (run : Run step? (create debounce) log s)
    (few : s.passes.size < 2 ^ 64) :
    s.publishedGeneration ≤ producedGeneration log ∧
      ∀ (j : Nat) (q : Pass σ), s.passes[j]? = some q → q.stage = .publishing →
        q.generation ≤ producedGeneration log := by
  induction run with
  | start => exact ⟨UInt64.le_refl _, fun j q found => by simp [create] at found⟩
  | @extend log s t event prior happens ih =>
      have step := step?_eq_some_iff.mp happens
      obtain ⟨hknown, hpublishing⟩ :=
        ih (Nat.lt_of_le_of_lt (step.size_passes ▸ Nat.le_add_right _ _) few)
      have hgrows : producedGeneration log ≤ producedGeneration (log ++ [⟨s, event, t⟩]) :=
        producedGeneration_le_append
          (publications_pairwise (prior.extend happens) (numbered_create debounce) few)
      refine ⟨?_, ?_⟩
      · rcases step.publishedGeneration_cases with hsame | ⟨i, p, hp, hstage, hgeneration⟩
        · rw [hsame]
          exact UInt64.le_trans hknown hgrows
        · rw [hgeneration]
          exact UInt64.le_trans (hpublishing i p hp hstage) hgrows
      · intro j q found stage
        rcases step.publishing_cases found stage with
          ⟨p, hp, hstage, hgeneration⟩ | ⟨p, hpublisher, hgeneration⟩
        · rw [← hgeneration]
          exact UInt64.le_trans (hpublishing j p hp hstage) hgrows
        · rw [producedGeneration, producer?_concat, hpublisher, ← hgeneration]
          exact UInt64.le_refl _

/-! ## Analyses that agree with their requests -/

/-- The pass and the snapshot of an analysis that ends with one. -/
def Event.answer? : Event σ → Option (Nat × σ)
  | .answer i (some snapshot) => some (i, snapshot)
  | _ => none

/-- Every analysis that comes to a snapshot comes to one that agrees with its request. -/
def AnswersAgree (agrees : Request → σ → Prop) (log : List (Moment (Scheduler σ) (Event σ))) :
    Prop :=
  ∀ m ∈ log, ∀ answer ∈ m.event.answer?, ∀ p ∈ m.before.passes[answer.1]?,
    agrees p.request answer.2

instance (agrees : Request → σ → Prop) [∀ request snapshot, Decidable (agrees request snapshot)]
    (log : List (Moment (Scheduler σ) (Event σ))) : Decidable (AnswersAgree agrees log) :=
  inferInstanceAs (Decidable (∀ m ∈ log, ∀ answer ∈ m.event.answer?,
    ∀ p ∈ m.before.passes[answer.1]?, agrees p.request answer.2))

/-- Every analysis that comes to a snapshot comes to that of its request. -/
def AnswersFollow (analyze : Request → σ) (log : List (Moment (Scheduler σ) (Event σ))) : Prop :=
  ∀ m ∈ log, ∀ answer ∈ m.event.answer?, ∀ p ∈ m.before.passes[answer.1]?,
    answer.2 = analyze p.request

instance [DecidableEq σ] (analyze : Request → σ) (log : List (Moment (Scheduler σ) (Event σ))) :
    Decidable (AnswersFollow analyze log) :=
  inferInstanceAs (Decidable (∀ m ∈ log, ∀ answer ∈ m.event.answer?,
    ∀ p ∈ m.before.passes[answer.1]?, answer.2 = analyze p.request))

variable {agrees : Request → σ → Prop} {analyze : Request → σ}

theorem answersAgree_append :
    AnswersAgree agrees (log ++ later) ↔ AnswersAgree agrees log ∧ AnswersAgree agrees later :=
  List.forall_mem_append

theorem returned_agrees (run : Run step? (create debounce) log s)
    (agree : AnswersAgree agrees log) {j : Nat} {q : Pass σ} {snapshot : σ}
    (found : s.passes[j]? = some q) (stage : q.stage = .returned (some snapshot)) :
    agrees q.request snapshot := by
  induction run generalizing q with
  | start => simp [create] at found
  | @extend log s t event prior happens ih =>
      have step := step?_eq_some_iff.mp happens
      obtain ⟨hprior, hlast⟩ := answersAgree_append.mp agree
      rcases step.stage_cases found with ⟨p, hp, hsame⟩ | hbrings
      · obtain ⟨q', hq', hleads⟩ := step.leads hp
        cases found.symm.trans hq'
        rw [hleads.request]
        exact ih hprior hp (hsame.trans stage)
      · rw [stage] at hbrings
        cases event with
        | answer i result =>
            obtain ⟨rfl, rfl⟩ := hbrings
            rcases step.origin found with ⟨p, hp, hleads⟩ | ⟨request, hschedule, -⟩
            · rw [hleads.request]
              exact hlast _ (List.mem_singleton_self _) (i, snapshot) rfl p hp
            · cases hschedule
        | _ => exact hbrings.elim

/-- A pass that publishes has a snapshot that agrees with its request. -/
theorem agrees_of_mem_publications (run : Run step? (create debounce) log s)
    (agree : AnswersAgree agrees log) {p : Pass σ} (hp : p ∈ publications log) :
    ∃ snapshot, p.snapshot? = some snapshot ∧ agrees p.request snapshot := by
  induction run with
  | start => cases hp
  | extend prior happens ih =>
      obtain ⟨hprior, -⟩ := answersAgree_append.mp agree
      rw [publications_concat, List.mem_append, Option.mem_toList] at hp
      rcases hp with hp | hp
      · exact ih hprior hp
      · obtain ⟨i, snapshot, hfound, hstage⟩ :=
          (step?_eq_some_iff.mp happens).returned_of_publisher? hp
        exact ⟨snapshot, p.snapshot?_of_returned hstage,
          returned_agrees prior hprior hfound hstage⟩

/-- The pass that published last brought the newest snapshot, which agrees with its request. -/
theorem exists_latest?_of_producer? (run : Run step? (create debounce) log s)
    (agree : AnswersAgree agrees log) {p : Pass σ} (produced : producer? log = some p) :
    ∃ snapshot, s.latest? = some snapshot ∧ agrees p.request snapshot := by
  rw [latest?_of_run run, produced]
  exact agrees_of_mem_publications run agree (mem_publications_of_producer? produced)

/-- Some pass brought the newest snapshot, which agrees with its request. -/
theorem exists_producer?_of_latest? (run : Run step? (create debounce) log s)
    (agree : AnswersAgree agrees log) {snapshot : σ} (newest : s.latest? = some snapshot) :
    ∃ p, producer? log = some p ∧ agrees p.request snapshot := by
  cases hproduced : producer? log with
  | none => simp [latest?_of_run run, hproduced] at newest
  | some p =>
      obtain ⟨found, hfound, hagrees⟩ := exists_latest?_of_producer? run agree hproduced
      cases hfound.symm.trans newest
      exact ⟨p, rfl, hagrees⟩

/-- A pass that publishes has the snapshot of its request. -/
theorem snapshot?_of_mem_publications (run : Run step? (create debounce) log s)
    (follows : AnswersFollow analyze log) {p : Pass σ} (hp : p ∈ publications log) :
    p.snapshot? = some (analyze p.request) := by
  have hagree : AnswersAgree (fun request snapshot => snapshot = analyze request) log := follows
  obtain ⟨snapshot, hsnapshot, rfl⟩ := agrees_of_mem_publications run hagree hp
  exact hsnapshot

/-! ## Places among the requests -/

/-- A pass that has published stands among the requests at the place that its generation tells. -/
theorem getElem?_requests_of_published (run : Run step? (create debounce) log s)
    (few : s.passes.size < 2 ^ 64) {p : Pass σ} (hp : p ∈ publications log) :
    ∃ i, p.generation.toNat = i + 1 ∧ s.requests[i]? = some p.request := by
  obtain ⟨i, q, hq, hleads, -⟩ := rank_of_published run hp
  refine ⟨i, ?_, ?_⟩
  · rw [← hleads.generation,
      (numbered_of_run run (numbered_create debounce)).toNat_generation few hq]
  · rw [requests, List.getElem?_map, Array.getElem?_toList, hq, Option.map_some, hleads.request]

end Scheduler

end CodeInsight

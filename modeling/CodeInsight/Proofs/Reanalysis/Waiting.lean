/-
# Waiting for a generation

A reader that waits for a generation first finds that it is known as published and
then reads the newest snapshot. It takes no lock, so passes may publish between the
two, and may be in the middle of publishing at either. What it reads is the snapshot
of the generation it waited for or of a later one all the same, since the newest
snapshot is never older than what is known as published.

When no pass has been scheduled after the one waited for, there is only one pass
that can have answered.
-/

import CodeInsight.Proofs.Reanalysis.Provenance

namespace CodeInsight

namespace Scheduler

variable {σ : Type} {s t : Scheduler σ} {debounce : Nat} {generation : UInt64} {found : Option σ}
  {log later : List (Moment (Scheduler σ) (Event σ))}

/-- A wait is over as soon as its generation is known as published. -/
theorem waitForGeneration_eq_over_iff :
    s.waitForGeneration generation = .over found ↔
      generation ≤ s.publishedGeneration ∧ s.latest? = found := by
  rw [waitForGeneration]
  split <;> simp [*]

/-- Once the generation waited for is known as published, the newest snapshot is by a pass of that
generation or of a later one, from then on. -/
theorem exists_producer_of_le (run : Run step? (create debounce) log s)
    (goesOn : Run step? s later t) (few : t.passes.size < 2 ^ 64) (pass : 1 ≤ generation)
    (known : generation ≤ s.publishedGeneration) :
    ∃ p, producer? (log ++ later) = some p ∧ generation ≤ p.generation := by
  have hwhole := run.append goesOn
  have hfew : s.passes.size < 2 ^ 64 :=
    Nat.lt_of_le_of_lt (size_passes_of_run goesOn ▸ Nat.le_add_right _ _) few
  have hproduced : generation ≤ producedGeneration (log ++ later) :=
    UInt64.le_trans known (UInt64.le_trans (publishedGeneration_le_of_run run hfew).1
      (producedGeneration_le_append
        (publications_pairwise hwhole (numbered_create debounce) few)))
  rw [producedGeneration] at hproduced
  cases hproducer : producer? (log ++ later) with
  | none =>
      rw [hproducer] at hproduced
      have hzero : ¬ (1 : UInt64) ≤ 0 := by decide
      exact absurd (UInt64.le_trans pass hproduced) hzero
  | some p =>
      rw [hproducer] at hproduced
      exact ⟨p, rfl, hproduced⟩

/-- A pass that has published and is no older than the current generation is the last one. -/
theorem getLast?_requests_of_published (run : Run step? (create debounce) log s)
    (few : s.passes.size < 2 ^ 64) {p : Pass σ} (hp : p ∈ publications log)
    (newest : s.generation ≤ p.generation) : s.requests.getLast? = some p.request := by
  obtain ⟨i, hi, hrequest⟩ := getElem?_requests_of_published run few hp
  have hplace : i < s.requests.length := (List.getElem?_eq_some_iff.mp hrequest).1
  have hlast : s.requests.length - 1 = i := by
    rw [UInt64.le_iff_toNat_le, hi,
      (numbered_of_run run (numbered_create debounce)).toNat_current few, ← length_requests]
      at newest
    omega
  rw [List.getLast?_eq_getElem?, hlast, hrequest]

/-- Once the current generation is known as published, and as long as nothing more is scheduled, the
newest snapshot is the analysis of the last request. -/
theorem latest?_of_current {analyze : Request → σ} (run : Run step? (create debounce) log s)
    (goesOn : Run step? s later t) (few : t.passes.size < 2 ^ 64)
    (started : 0 < s.passes.size) (quiet : t.passes.size = s.passes.size)
    (follows : AnswersFollow analyze (log ++ later))
    (known : s.generation ≤ s.publishedGeneration) :
    t.latest? = t.requests.getLast?.map analyze := by
  have hwhole := run.append goesOn
  have hcurrent := (numbered_of_run run (numbered_create debounce)).toNat_current (quiet ▸ few)
  have pass : 1 ≤ s.generation := by
    rw [UInt64.le_iff_toNat_le, hcurrent]
    exact started
  obtain ⟨p, hproducer, hgeneration⟩ := exists_producer_of_le run goesOn few pass known
  have hp := mem_publications_of_producer? hproducer
  have hsame : t.generation = s.generation := by
    rw [← UInt64.toNat_inj, hcurrent, ← quiet,
      (numbered_of_run hwhole (numbered_create debounce)).toNat_current few]
  rw [latest?_of_run hwhole, hproducer, Option.bind_some,
    snapshot?_of_mem_publications hwhole follows hp,
    getLast?_requests_of_published hwhole few hp (hsame ▸ hgeneration), Option.map_some]

/-- **A wait for a generation is never answered with an older pass.** Whatever happens before, between
and during the two steps of the reader, the newest snapshot is at every moment that of a generation
no earlier than the one known as published. A reader that finds its generation published at one
moment and reads at the same or a later one gets a snapshot, by a pass of that generation or of a
later one. -/
theorem wait_never_answers_older (run : Run step? (create debounce) log s)
    (goesOn : Run step? s later t)
    (few : (log ++ later).countP (·.event.isSchedule) < 2 ^ 64) :
    s.latest? = (producer? log).bind Pass.snapshot? ∧
    s.publishedGeneration ≤ producedGeneration log ∧
    ∀ (generation : UInt64) (found : Option σ), 1 ≤ generation →
      s.waitForGeneration generation = .over found →
        ∃ (p : Pass σ) (snapshot : σ), producer? (log ++ later) = some p ∧
          generation ≤ p.generation ∧ p.snapshot? = some snapshot ∧ t.latest? = some snapshot := by
  have hsize : t.passes.size = (log ++ later).countP (·.event.isSchedule) := by
    simpa [create] using size_passes_of_run (run.append goesOn)
  have hfew : s.passes.size < 2 ^ 64 := by
    rw [List.countP_append] at few
    have hearlier := size_passes_of_run run
    simp only [create, List.size_toArray, List.length_nil] at hearlier
    omega
  refine ⟨latest?_of_run run, (publishedGeneration_le_of_run run hfew).1, ?_⟩
  intro generation found pass ended
  obtain ⟨p, hproducer, hgeneration⟩ := exists_producer_of_le run goesOn (hsize ▸ few) pass
    (waitForGeneration_eq_over_iff.mp ended).1
  obtain ⟨snapshot, hsnapshot⟩ := exists_snapshot?_of_mem_publications (run.append goesOn)
    (mem_publications_of_producer? hproducer)
  refine ⟨p, snapshot, hproducer, hgeneration, hsnapshot, ?_⟩
  rw [latest?_of_run (run.append goesOn), hproducer, Option.bind_some, hsnapshot]

/-- The first pass is known as published when the wait for it finds that out, and the second has put
its snapshot in place, and not made its generation known, when the wait reads. -/
theorem wait_overtaken_by_publication :
    ∃ (log later : List (Moment (Scheduler Nat) (Event Nat))) (s t : Scheduler Nat),
      Run step? (create 0) log s ∧ Run step? s later t ∧
        (log ++ later).countP (·.event.isSchedule) < 2 ^ 64 ∧
        s.waitForGeneration 1 = .over (some 10) ∧ t.publishedGeneration = 1 ∧
        t.latest? = some 20 ∧
        ∃ (p : Pass Nat) (snapshot : Nat), producer? (log ++ later) = some p ∧
          1 ≤ p.generation ∧ p.snapshot? = some snapshot ∧ t.latest? = some snapshot := by
  have hplayed : ∃ log later s t,
      Run.play? step? (create 0 : Scheduler Nat)
        [.schedule ⟨"a", 5, []⟩, .start 0, .answer 0 (some 10), .finish 0, .complete 0] =
          some (log, s) ∧
      Run.play? step? s [.schedule ⟨"a", 1, []⟩, .start 1, .answer 1 (some 20), .finish 1] =
        some (later, t) ∧
      (log ++ later).countP (·.event.isSchedule) = 2 ∧
      s.waitForGeneration 1 = .over (some 10) ∧ t.publishedGeneration = 1 ∧
      t.latest? = some 20 := by
    refine ⟨_, _, _, _, rfl, rfl, ?_, ?_, ?_, ?_⟩ <;> rfl
  obtain ⟨log, later, s, t, hlog, hlater, hcount, hended, hknown, hlatest⟩ := hplayed
  have run := Run.of_play? hlog
  have goesOn := Run.of_play? hlater
  have few : (log ++ later).countP (·.event.isSchedule) < 2 ^ 64 := by rw [hcount]; decide
  exact ⟨log, later, s, t, run, goesOn, few, hended, hknown, hlatest,
    (wait_never_answers_older run goesOn few).2.2 1 (some 10) (UInt64.le_refl 1) hended⟩

end Scheduler

end CodeInsight

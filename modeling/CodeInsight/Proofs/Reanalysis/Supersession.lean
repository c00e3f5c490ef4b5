/-
# Supersession

A pass that another one has superseded never publishes, no matter how late it
finishes and whether its analysis took notice of being cancelled. Every
publication is by the pass of the current generation, and so the generations of
publications only grow.

What carries the argument is that a pass that has published is past its finishing
step for good, while a pass that is about to publish is the newest one.
-/

import CodeInsight.Proofs.Reanalysis.Passes

namespace CodeInsight

namespace Scheduler

variable {σ : Type} {s t : Scheduler σ} {event : Event σ}

/-- The pass whose snapshot takes the place of the published one at a moment, as it is just before,
if there is one. -/
def publisher? (m : Moment (Scheduler σ) (Event σ)) : Option (Pass σ) :=
  if m.after.published.revision = m.before.published.revision then none
  else m.event.pass?.bind (m.before.passes[·]?)

/-- The passes that publish in the course of a run, in order. -/
def publications (log : List (Moment (Scheduler σ) (Event σ))) : List (Pass σ) :=
  log.filterMap publisher?

theorem publications_append (log later : List (Moment (Scheduler σ) (Event σ))) :
    publications (log ++ later) = publications log ++ publications later :=
  List.filterMap_append

theorem publications_concat (log : List (Moment (Scheduler σ) (Event σ)))
    (m : Moment (Scheduler σ) (Event σ)) :
    publications (log ++ [m]) = publications log ++ (publisher? m).toList := by
  rw [publications_append]
  cases h : publisher? m <;> simp [publications, h]

/-- The published snapshot stays in a step, unless a pass of the current generation that is not
cancelled puts its own in place. -/
theorem Step.published_cases (step : Step s event t) :
    t.published = s.published ∧ publisher? ⟨s, event, t⟩ = none ∨
      ∃ (i : Nat) (p : Pass σ) (snapshot : σ),
        publisher? ⟨s, event, t⟩ = some p ∧ event = .finish i ∧ s.passes[i]? = some p ∧
          p.stage = .returned (some snapshot) ∧ p.generation = s.generation ∧
          p.cancelled = false ∧ t.published = s.published.publish snapshot ∧
          ∃ q, t.passes[i]? = some q ∧ q.generation = p.generation ∧ q.stage = .publishing := by
  have stays (same : t.published = s.published) :
      t.published = s.published ∧ publisher? ⟨s, event, t⟩ = none :=
    ⟨same, by rw [publisher?, if_pos (by rw [same])]⟩
  cases step with
  | @publish i p snapshot free found stage current kept =>
      refine .inr ⟨i, p, snapshot, ?_, rfl, found, stage, current.symm, kept, rfl,
        { p with stage := .publishing, due := none }, getElem?_enter_self .publishing found, rfl,
        rfl⟩
      exact (if_neg (Nat.succ_ne_self s.published.revision)).trans found
  | cancel free => exact .inl (stays (published_cancel s))
  | schedule request free => exact .inl (stays (published_cancel s))
  | _ => exact .inl (stays rfl)

/-! ## Runs -/

/-- As many passes are there as were scheduled. -/
theorem size_passes_of_run {log : List (Moment (Scheduler σ) (Event σ))}
    (run : Run step? s log t) :
    t.passes.size = s.passes.size + log.countP (·.event.isSchedule) := by
  induction run with
  | start => rfl
  | extend prior happens ih =>
      rw [(step?_eq_some_iff.mp happens).size_passes, ih, List.countP_append,
        List.countP_singleton, Nat.add_assoc]

theorem numbered_of_run {log : List (Moment (Scheduler σ) (Event σ))}
    (run : Run step? s log t) (numbered : s.Numbered) : t.Numbered :=
  (run.invariant (fun _ _ _ happens => (step?_eq_some_iff.mp happens).numbered) numbered).1

/-- Every publication of a run is counted. -/
theorem revision_of_run {log : List (Moment (Scheduler σ) (Event σ))}
    (run : Run step? s log t) :
    t.published.revision = s.published.revision + (publications log).length := by
  induction run with
  | start => rfl
  | extend prior happens ih =>
      rw [publications_concat, List.length_append, ← Nat.add_assoc, ← ih]
      rcases (step?_eq_some_iff.mp happens).published_cases with
        ⟨hsame, hnone⟩ | ⟨i, p, snapshot, hsome, -, -, -, -, -, hpublished, -⟩
      · rw [hnone, hsame]
        rfl
      · rw [hsome, hpublished]
        rfl

/-- A pass that has published is past its finishing step for good. -/
theorem rank_of_published {log : List (Moment (Scheduler σ) (Event σ))}
    (run : Run step? s log t) {p : Pass σ} (hp : p ∈ publications log) :
    ∃ (i : Nat) (q : Pass σ), t.passes[i]? = some q ∧ p.Leads q ∧
      Stage.rank (.publishing : Stage σ) ≤ q.stage.rank := by
  induction run with
  | start => cases hp
  | extend prior happens ih =>
      have step := step?_eq_some_iff.mp happens
      rw [publications_concat, List.mem_append, Option.mem_toList] at hp
      rcases hp with hp | hp
      · obtain ⟨i, q, hq, hleads, hrank⟩ := ih hp
        obtain ⟨r, hr, hnext⟩ := step.leads hq
        exact ⟨i, r, hr, hleads.trans hnext, Nat.le_trans hrank hnext.rank_le⟩
      · rcases step.published_cases with
          ⟨-, hnone⟩ | ⟨i, p', snapshot, hsome, -, hfound, -, -, -, -, q, hq, -, hstage⟩
        · rw [hnone] at hp
          cases hp
        · cases hsome.symm.trans hp
          obtain ⟨q', hq', hleads⟩ := step.leads hfound
          cases hq.symm.trans hq'
          exact ⟨i, q, hq, hleads, Nat.le_of_eq (by rw [hstage])⟩

/-- A pass that is about to publish is younger than every pass that has. -/
theorem generation_lt_of_publishes {i j : Nat} {p q : Pass σ} {snapshot : σ}
    (numbered : s.Numbered) (few : s.passes.size < 2 ^ 64) (found : s.passes[i]? = some p)
    (stage : p.stage = .returned (some snapshot)) (current : p.generation = s.generation)
    (other : s.passes[j]? = some q)
    (past : Stage.rank (.publishing : Stage σ) ≤ q.stage.rank) :
    q.generation < p.generation := by
  have hp := numbered.toNat_generation few found
  have hq := numbered.toNat_generation few other
  have hcurrent := numbered.toNat_current few
  have hj : j < s.passes.size := (Array.getElem?_eq_some_iff.mp other).1
  have hij : i ≠ j := by
    rintro rfl
    cases found.symm.trans other
    simp [stage] at past
  rw [UInt64.lt_iff_toNat_lt]
  rw [← current] at hcurrent
  omega

/-- Publications are in the order of their generations. -/
theorem publications_pairwise {log : List (Moment (Scheduler σ) (Event σ))}
    (run : Run step? s log t) (numbered : s.Numbered) (few : t.passes.size < 2 ^ 64) :
    (publications log).Pairwise (·.generation < ·.generation) := by
  induction run with
  | start => exact .nil
  | extend prior happens ih =>
      have step := step?_eq_some_iff.mp happens
      have hfew := Nat.lt_of_le_of_lt (step.size_passes ▸ Nat.le_add_right _ _) few
      rw [publications_concat, List.pairwise_append]
      rcases step.published_cases with
        ⟨-, hnone⟩ | ⟨i, p, snapshot, hsome, -, hfound, hstage, hcurrent, -⟩
      · rw [hnone]
        exact ⟨ih hfew, .nil, fun q _ p hp => nomatch hp⟩
      · rw [hsome]
        refine ⟨ih hfew, List.pairwise_singleton _ p, ?_⟩
        -- Whoever has published is past its finishing step, and so is not the current pass.
        intro q hq p' hp
        cases List.mem_singleton.mp hp
        obtain ⟨j, r, hr, hleads, hrank⟩ := rank_of_published prior hq
        rw [← hleads.generation]
        exact generation_lt_of_publishes (numbered_of_run prior numbered) hfew hfound hstage
          hcurrent hr hrank

/-- **Superseded analyses never publish.** However the steps of the host and of the passes fall, the
published snapshot is replaced only by a pass whose generation is the current one and which is not
cancelled. Generations of successive publications therefore increase, and none publishes twice. -/
theorem superseded_never_publishes {debounce : Nat}
    {log : List (Moment (Scheduler σ) (Event σ))} {s : Scheduler σ}
    (run : Run step? (create debounce) log s)
    (few : log.countP (·.event.isSchedule) < 2 ^ 64) :
    (∀ m ∈ log, m.after.published ≠ m.before.published →
      ∃ (i : Nat) (p : Pass σ) (snapshot : σ), m.event = .finish i ∧
        m.before.passes[i]? = some p ∧ p.stage = .returned (some snapshot) ∧
        m.after.published = m.before.published.publish snapshot ∧
        p.generation = m.before.generation ∧ p.cancelled = false) ∧
    s.published.revision = (publications log).length ∧
    ((publications log).map (·.generation)).Pairwise (· < ·) ∧
    ((publications log).map (·.generation)).Nodup := by
  have hsize : s.passes.size = log.countP (·.event.isSchedule) := by
    simpa [create] using size_passes_of_run run
  have hordered : ((publications log).map (·.generation)).Pairwise (· < ·) :=
    List.pairwise_map.mpr
      (publications_pairwise run (numbered_create debounce) (hsize.symm ▸ few))
  refine ⟨?_, ?_, hordered, hordered.imp fun hlt => UInt64.ne_of_lt hlt⟩
  · intro m hm hreplaced
    rcases (step?_eq_some_iff.mp (run.happens_of_mem hm)).published_cases with
      ⟨hsame, -⟩ | ⟨i, p, snapshot, -, hfinish, hfound, hstage, hcurrent, hkept, hpublished, -⟩
    · exact absurd hsame hreplaced
    · exact ⟨i, p, snapshot, hfinish, hfound, hstage, hpublished, hcurrent, hkept⟩
  · simpa [create, Publication.empty] using revision_of_run run

/-- A pass is overtaken while its analysis is under way, and its late answer is discarded. -/
theorem overtaken_pass_discarded :
    ∃ (log : List (Moment (Scheduler Nat) (Event Nat))) (s : Scheduler Nat),
      Run step? (create 0) log s ∧ log.countP (·.event.isSchedule) < 2 ^ 64 ∧
        log.map (·.after.latest?) =
          [none, none, none, none, none, none, none, some 20, some 20] ∧
        (publications log).map (·.generation) = [2] ∧
        ((publications log).map (·.generation)).Pairwise (· < ·) := by
  have hplayed : ∃ log s, Run.play? step? (create 0 : Scheduler Nat)
      [.schedule ⟨"a", 1, []⟩, .start 0, .schedule ⟨"a", 2, []⟩, .start 1, .answer 0 (some 10),
        .answer 1 (some 20), .finish 0, .finish 1, .complete 1] = some (log, s) ∧
      log.countP (·.event.isSchedule) = 2 ∧
      log.map (·.after.latest?) = [none, none, none, none, none, none, none, some 20, some 20] ∧
      (publications log).map (·.generation) = [2] := by
    refine ⟨_, _, rfl, ?_, ?_, ?_⟩ <;> rfl
  obtain ⟨log, s, hlog, hcount, hlatest, hgenerations⟩ := hplayed
  have run := Run.of_play? hlog
  have few : log.countP (·.event.isSchedule) < 2 ^ 64 := by rw [hcount]; decide
  exact ⟨log, s, run, few, hlatest, hgenerations, (superseded_never_publishes run few).2.2.1⟩

end Scheduler

end CodeInsight

/-
# Versions and baselines

From the first version that counts on, the version of a buffer falls only when the whole
text is replaced: every batch of spans that is applied moves it forward, and whatever is
not applied leaves it where it is.

A buffer at a negative version has no baseline, and takes a batch of spans from any
version there is. Then the version may fall as well, though only to another one that
does not count.
-/

import CodeInsight.Proofs.Edit.Versions
import CodeInsight.Proofs.Run

namespace CodeInsight

namespace Buffer

variable {b after : Buffer} {caller : ThreadId} {batch : Batch}

/-! ## Single batches -/

/-- A batch of spans that is let in moves forward, whether or not there is a baseline. -/
theorem forward_of_admitted (spans : batch.hasWhole = false)
    (admitted : b.admission batch = .accepted) : batch.fromVersion < batch.toVersion := by
  cases hbaseline : b.hasBaseline with
  | true =>
      obtain ⟨hcurrent, hforward⟩ := forward_of_accepted spans hbaseline admitted
      rwa [hcurrent]
  | false =>
      refine Int32.not_le.mp fun hstill => ?_
      simp [admission, spans, hbaseline, hstill] at admitted

/-- An applied batch of spans leaves the version that it leads to, and it starts from the baseline if
there is one. -/
theorem Applying.version_applied {version : Version}
    (applying : b.Applying caller batch after (.ok (.applied version)))
    (spans : batch.hasWhole = false) :
    version = batch.toVersion ∧ after.version = batch.toVersion ∧
      batch.fromVersion < batch.toVersion ∧
      (b.hasBaseline = true → batch.fromVersion = b.version) := by
  cases applying with
  | applied own admitted changes =>
      exact ⟨rfl, rfl, forward_of_admitted spans admitted,
        fun baseline => (forward_of_accepted spans baseline admitted).1⟩

/-- A batch that is not applied leaves the version alone, even if some of its changes are kept. -/
theorem Applying.version_unapplied {answer : Except EditError BatchOutcome}
    (applying : b.Applying caller batch after answer)
    (unapplied : ∀ version, answer ≠ .ok (.applied version)) : after.version = b.version := by
  cases applying with
  | applied => exact absurd rfl (unapplied _)
  | foreign | stale | missing | standing | outOfOrder => rfl

/-! ## Calls -/

/-- What a thread asks of a buffer. -/
inductive Call where
  | reset (caller : ThreadId) (version : Version) (text : List Char)
  | apply (caller : ThreadId) (batch : Batch)

/-- The buffer after a call. -/
def step? (b : Buffer) : Call → Option Buffer
  | .reset caller version text =>
    match b.reset caller version text with
    | .ok after => some after
    | .error _ => some b
  | .apply caller batch => some (b.apply caller batch).1

/-- Whether a call replaces the whole text: the owner resets the buffer, or a batch that holds a
replacement of the whole text is applied. -/
def replacesWhole (b : Buffer) : Call → Bool
  | .reset caller _ _ => caller = b.owner
  | .apply caller batch =>
    batch.hasWhole && (b.apply caller batch).2.toOption.any BatchOutcome.isApplied

/-- At a baseline, a call that does not replace the whole text does not move the version back. -/
theorem version_le_of_step? {call : Call} (happens : b.step? call = some after)
    (baseline : b.hasBaseline = true) (partly : b.replacesWhole call = false) :
    b.version ≤ after.version := by
  cases call with
  | reset caller version text =>
      have hforeign : caller ≠ b.owner := of_decide_eq_false partly
      simp only [step?, reset, checkCaller, if_neg hforeign] at happens
      cases happens
      exact Int32.le_refl _
  | apply caller batch =>
      cases happens
      have happlying := b.applying_apply caller batch
      cases hspans : batch.hasWhole with
      | false => exact happlying.version_le hspans baseline
      | true =>
          rw [replacesWhole, hspans, Bool.true_and] at partly
          refine Int32.le_of_eq (happlying.version_unapplied fun version happlied => ?_).symm
          rw [happlied] at partly
          cases partly

/-- From a baseline on the version does not fall as long as the whole text is not replaced. -/
theorem version_le_of_run {log : List (Moment Buffer Call)} (run : Run step? b log after)
    (baseline : b.hasBaseline = true)
    (partly : ∀ m ∈ log, m.before.replacesWhole m.event = false) : b.version ≤ after.version := by
  induction run with
  | start => exact Int32.le_refl _
  | extend prior happens ih =>
      obtain ⟨hearlier, hlast⟩ := List.forall_mem_append.mp partly
      have hle := ih hearlier
      exact Int32.le_trans hle (version_le_of_step? happens (hasBaseline_of_le baseline hle)
        (hlast _ (List.mem_singleton_self _)))

/-- A call that moves the version back replaces the whole text, or there was no baseline and is none
afterwards. -/
theorem replacesWhole_of_version_lt {call : Call} (happens : b.step? call = some after)
    (back : after.version < b.version) :
    b.replacesWhole call = true ∨ b.hasBaseline = false ∧ after.hasBaseline = false := by
  cases hbaseline : b.hasBaseline with
  | true =>
      left
      by_contra hpartly
      have hle := version_le_of_step? happens hbaseline (eq_false_of_ne_true hpartly)
      exact Int32.not_lt.mpr hle back
  | false =>
      refine .inr ⟨rfl, ?_⟩
      rw [hasBaseline, decide_eq_false_iff_not, Int32.not_le] at hbaseline ⊢
      exact Int32.lt_trans back hbaseline

/-- **At a baseline the version falls only when the whole text is replaced.** Whatever resets and
batches with whatever versions came before: a batch of spans that is applied leaves the version that
it leads to, which is later than the one that it starts from, and later than that of the buffer if
the buffer has a baseline or the batch leads to one. Whatever else becomes of a batch of spans, the
version stays. So a call that moves the version back replaces the whole text, or there is no baseline
before or after it; and from a baseline on, the version does not fall until the whole text is
replaced. -/
theorem version_falls_only_by_replacement {owner : ThreadId} {encoding : ColumnEncoding}
    {log : List (Moment Buffer Call)} (run : Run step? (create owner encoding) log b) :
    (∀ (caller : ThreadId) (batch : Batch), batch.hasWhole = false →
      (∀ version, (b.apply caller batch).2 = .ok (.applied version) →
        version = batch.toVersion ∧ (b.apply caller batch).1.version = batch.toVersion ∧
          batch.fromVersion < batch.toVersion ∧
          (b.hasBaseline = true → batch.fromVersion = b.version) ∧
          (b.hasBaseline = true ∨ 0 ≤ batch.toVersion → b.version < batch.toVersion)) ∧
      ((∀ version, (b.apply caller batch).2 ≠ .ok (.applied version)) →
        (b.apply caller batch).1.version = b.version)) ∧
    (∀ m ∈ log, m.after.version < m.before.version → m.before.replacesWhole m.event = true ∨
      m.before.hasBaseline = false ∧ m.after.hasBaseline = false) ∧
    ∀ later c, Run step? b later c → b.hasBaseline = true →
      (∀ m ∈ later, m.before.replacesWhole m.event = false) → b.version ≤ c.version := by
  refine ⟨?_, ?_, ?_⟩
  · intro caller batch spans
    refine ⟨fun version happlied => ?_, (b.applying_apply caller batch).version_unapplied⟩
    have happlying := b.applying_apply caller batch
    rw [happlied] at happlying
    obtain ⟨hversion, hafter, hforward, hcurrent⟩ := happlying.version_applied spans
    refine ⟨hversion, hafter, hforward, hcurrent, fun hcounts => ?_⟩
    cases hbaseline : b.hasBaseline with
    | true => rwa [← hcurrent hbaseline]
    | false =>
        rcases hcounts with hcounts | hcounts
        · cases hbaseline.symm.trans hcounts
        · rw [hasBaseline, decide_eq_false_iff_not, Int32.not_le] at hbaseline
          exact Int32.lt_of_lt_of_le hbaseline hcounts
  · intro m hm hback
    exact replacesWhole_of_version_lt (run.happens_of_mem hm) hback
  · intro later c goesOn baseline partly
    exact version_le_of_run goesOn baseline partly

/-- A batch leads from a version that does not count to one that does. From there another batch moves
on, while an old one is dropped and calls of another thread are refused. -/
theorem version_moves_on_from_baseline :
    ∃ (log later : List (Moment Buffer Call)) (b c : Buffer),
      Run step? (create ⟨0⟩ .utf16) log b ∧ Run step? b later c ∧ b.hasBaseline = true ∧
        (∀ m ∈ later, m.before.replacesWhole m.event = false) ∧
        log.map (·.after.version) = [-7, 2] ∧ later.map (·.after.version) = [5, 5, 5] ∧
        (b.apply ⟨0⟩ ⟨2, 5, []⟩).2 = .ok (.applied 5) ∧ b.version < 5 ∧ b.version ≤ c.version := by
  have hplayed : ∃ log later b c,
      Run.play? step? (create ⟨0⟩ .utf16)
        [.reset ⟨0⟩ (-7) ['a'], .apply ⟨0⟩ ⟨-9, 2, [.insert ⟨0, 0⟩ ['b']]⟩] = some (log, b) ∧
      Run.play? step? b
        [.apply ⟨0⟩ ⟨2, 5, []⟩, .apply ⟨0⟩ ⟨2, 6, []⟩, .reset ⟨1⟩ 0 []] = some (later, c) ∧
      b.hasBaseline = true ∧
      (later.all fun m => !m.before.replacesWhole m.event) = true ∧
      log.map (·.after.version) = [-7, 2] ∧ later.map (·.after.version) = [5, 5, 5] ∧
      (b.apply ⟨0⟩ ⟨2, 5, []⟩).2 = .ok (.applied 5) :=
    ⟨_, _, _, _, rfl, rfl, rfl, rfl, rfl, rfl, rfl⟩
  obtain ⟨log, later, b, c, hlog, hlater, hbaseline, hcalls, hversions, hlaterVersions, happlied⟩ :=
    hplayed
  have run := Run.of_play? hlog
  have goesOn := Run.of_play? hlater
  have partly : ∀ m ∈ later, m.before.replacesWhole m.event = false := by simpa using hcalls
  obtain ⟨hbatches, -, hmovesOn⟩ := version_falls_only_by_replacement run
  obtain ⟨-, -, -, -, hlt⟩ := (hbatches ⟨0⟩ ⟨2, 5, []⟩ rfl).1 5 happlied
  exact ⟨log, later, b, c, run, goesOn, hbaseline, partly, hversions, hlaterVersions, happlied,
    hlt (.inl hbaseline), hmovesOn later c goesOn hbaseline partly⟩

/-- Without a baseline, a batch of spans that is applied can move the version back. -/
theorem version_falls_without_baseline :
    let b := create ⟨0⟩ .utf16
    let batch : Batch := ⟨-5, -3, [.insert ⟨0, 0⟩ ['x']]⟩
    batch.hasWhole = false ∧ b.apply ⟨0⟩ batch = (⟨['x'], -3, ⟨0⟩, .utf16⟩, .ok (.applied (-3))) ∧
      ¬ b.version < (b.apply ⟨0⟩ batch).1.version :=
  ⟨rfl, rfl, by decide⟩

end Buffer

end CodeInsight

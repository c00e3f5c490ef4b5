/-
# What becomes of a batch

A buffer answers a batch in one of six ways, and the versions of the batch alone
decide between most of them. `Buffer.Applying` lists the six with what is the case
in each and what they leave of the buffer, so that other proofs need not open the
operation itself.
-/

import CodeInsight.Edit.Buffer

namespace CodeInsight

namespace Buffer

variable {b after : Buffer} {caller : ThreadId} {batch : Batch}

/-! ## Admission -/

theorem admission_eq_stale (spans : batch.hasWhole = false) (baseline : b.hasBaseline = true)
    (behind : batch.fromVersion < b.version) : b.admission batch = .stale := by
  simp [admission, spans, baseline, behind]

theorem admission_eq_missing (spans : batch.hasWhole = false) (baseline : b.hasBaseline = true)
    (ahead : b.version < batch.fromVersion) :
    b.admission batch = .refused (.missingVersions b.version batch.fromVersion) := by
  simp [admission, spans, baseline, ahead, Int32.lt_asymm ahead]

/-- A batch of spans is let in when it starts from the baseline, if there is one, and moves on. -/
theorem admission_eq_accepted (spans : batch.hasWhole = false)
    (current : b.hasBaseline = true → batch.fromVersion = b.version)
    (forward : batch.fromVersion < batch.toVersion) : b.admission batch = .accepted := by
  have hforward : ¬ batch.toVersion ≤ batch.fromVersion := Int32.not_le.mpr forward
  cases hbaseline : b.hasBaseline with
  | false => simp [admission, spans, hbaseline, hforward]
  | true =>
      have hcurrent : batch.fromVersion = b.version := current hbaseline
      rw [hcurrent] at hforward
      simp [admission, spans, hbaseline, hcurrent, hforward]

/-- Two versions neither of which is before the other are the same. -/
theorem fromVersion_eq_of_not_lt (notBehind : ¬ batch.fromVersion < b.version)
    (notAhead : ¬ b.version < batch.fromVersion) : batch.fromVersion = b.version :=
  Int32.le_antisymm (Int32.not_lt.mp notAhead) (Int32.not_lt.mp notBehind)

/-! ## The six answers -/

/-- The only refusal that the changes of a batch can meet is that of their order. -/
theorem applyChanges_refusal {table : LineTable} {bound : Option Nat} {text rest : List Char}
    {changes : List Change} {e : EditError}
    (refused : applyChanges table bound text changes = (rest, some e)) :
    ∃ previous start, e = .outOfOrder previous start := by
  fun_induction applyChanges table bound text changes with
  | case1 => simp at refused
  | case2 bound text replacement changes ih => exact ih refused
  | case3 bound text span inserted changes splice previous hbound =>
      cases refused
      exact ⟨previous, _, rfl⟩
  | case4 bound text span inserted changes splice hbound ih => exact ih refused

/-- `b.Applying caller batch after answer` says that applying a batch leaves `after` and is answered
with `answer`, and why. -/
inductive Applying (b : Buffer) (caller : ThreadId) (batch : Batch) :
    Buffer → Except EditError BatchOutcome → Prop
  | foreign (other : caller ≠ b.owner) : Applying b caller batch b (.error .foreignThread)
  | stale (own : caller = b.owner) (spans : batch.hasWhole = false)
      (baseline : b.hasBaseline = true) (behind : batch.fromVersion < b.version) :
      Applying b caller batch b (.ok (.stale b.version batch.fromVersion))
  | missing (own : caller = b.owner) (spans : batch.hasWhole = false)
      (baseline : b.hasBaseline = true) (ahead : b.version < batch.fromVersion) :
      Applying b caller batch b (.error (.missingVersions b.version batch.fromVersion))
  | standing (own : caller = b.owner) (spans : batch.hasWhole = false)
      (current : b.hasBaseline = true → batch.fromVersion = b.version)
      (still : batch.toVersion ≤ batch.fromVersion) :
      Applying b caller batch b
        (.error (.nonMonotonicVersion batch.fromVersion batch.toVersion))
  | outOfOrder (own : caller = b.owner) (admitted : b.admission batch = .accepted)
      {text : List Char} {previous start : Nat}
      (changes : applyChanges b.lineTable none b.text batch.changes =
        (text, some (.outOfOrder previous start))) :
      Applying b caller batch { b with text } (.error (.outOfOrder previous start))
  | applied (own : caller = b.owner) (admitted : b.admission batch = .accepted)
      {text : List Char}
      (changes : applyChanges b.lineTable none b.text batch.changes = (text, none)) :
      Applying b caller batch { b with text, version := batch.toVersion }
        (.ok (.applied batch.toVersion))

/-- Every refusal by the versions is one of the three. -/
theorem admission_cases (b : Buffer) (batch : Batch) :
    b.admission batch = .accepted ∨
      batch.hasWhole = false ∧
        (b.hasBaseline = true ∧ batch.fromVersion < b.version ∧ b.admission batch = .stale ∨
          b.hasBaseline = true ∧ b.version < batch.fromVersion ∧
            b.admission batch = .refused (.missingVersions b.version batch.fromVersion) ∨
          (b.hasBaseline = true → batch.fromVersion = b.version) ∧
            batch.toVersion ≤ batch.fromVersion ∧
            b.admission batch =
              .refused (.nonMonotonicVersion batch.fromVersion batch.toVersion)) := by
  unfold admission
  cases hspans : batch.hasWhole with
  | true => simp
  | false =>
      cases hbaseline : b.hasBaseline with
      | false =>
          by_cases hstill : batch.toVersion ≤ batch.fromVersion <;> simp [hstill]
      | true =>
          by_cases hbehind : batch.fromVersion < b.version
          · simp [hbehind]
          · by_cases hahead : b.version < batch.fromVersion
            · simp [hahead, hbehind]
            · have hcurrent := fromVersion_eq_of_not_lt hbehind hahead
              by_cases hstill : batch.toVersion ≤ b.version <;> simp [hcurrent, hstill]

theorem applying_apply (b : Buffer) (caller : ThreadId) (batch : Batch) :
    b.Applying caller batch (b.apply caller batch).1 (b.apply caller batch).2 := by
  unfold apply checkCaller
  by_cases hown : caller = b.owner
  · rw [if_pos hown]
    rcases b.admission_cases batch with
      hadmitted | ⟨hspans, ⟨hbaseline, hbehind, hstale⟩ | ⟨hbaseline, hahead, hmissing⟩ |
        ⟨hcurrent, hstill, hstanding⟩⟩
    · simp only [hadmitted]
      split
      · exact .applied hown hadmitted ‹_›
      · rename_i text e hchanges
        obtain ⟨previous, start, rfl⟩ := applyChanges_refusal hchanges
        exact .outOfOrder hown hadmitted hchanges
    · simp only [hstale]
      exact .stale hown hspans hbaseline hbehind
    · simp only [hmissing]
      exact .missing hown hspans hbaseline hahead
    · simp only [hstanding]
      exact .standing hown hspans hcurrent hstill
  · rw [if_neg hown]
    exact .foreign hown

theorem applying_of_apply {answer : Except EditError BatchOutcome}
    (applied : b.apply caller batch = (after, answer)) : b.Applying caller batch after answer := by
  have happlying := b.applying_apply caller batch
  rwa [applied] at happlying

/-! ## The version moves on -/

/-- A batch of spans that is let in at a baseline starts from there and moves forward. -/
theorem forward_of_accepted (spans : batch.hasWhole = false) (baseline : b.hasBaseline = true)
    (admitted : b.admission batch = .accepted) :
    batch.fromVersion = b.version ∧ b.version < batch.toVersion := by
  by_cases hbehind : batch.fromVersion < b.version
  · rw [admission_eq_stale spans baseline hbehind] at admitted
    cases admitted
  · by_cases hahead : b.version < batch.fromVersion
    · rw [admission_eq_missing spans baseline hahead] at admitted
      cases admitted
    · have hcurrent := fromVersion_eq_of_not_lt hbehind hahead
      refine ⟨hcurrent, Int32.not_le.mp ?_⟩
      intro hstill
      simp [admission, spans, baseline, hcurrent, hstill] at admitted

/-- At a baseline, a batch of spans that is applied moves the version forward. -/
theorem Applying.version_lt {outcome : BatchOutcome}
    (applying : b.Applying caller batch after (.ok outcome)) (spans : batch.hasWhole = false)
    (baseline : b.hasBaseline = true) (applied : outcome.isApplied = true) :
    b.version < after.version := by
  cases applying with
  | stale => cases applied
  | applied own admitted changes => exact (forward_of_accepted spans baseline admitted).2

/-- At a baseline, a batch of spans never moves the version back. -/
theorem Applying.version_le {answer : Except EditError BatchOutcome}
    (applying : b.Applying caller batch after answer) (spans : batch.hasWhole = false)
    (baseline : b.hasBaseline = true) : b.version ≤ after.version := by
  cases applying with
  | applied own admitted changes =>
      exact Int32.le_of_lt (forward_of_accepted spans baseline admitted).2
  | _ => exact Int32.le_refl _

theorem hasBaseline_of_le (baseline : b.hasBaseline = true) (later : b.version ≤ after.version) :
    after.hasBaseline = true := by
  rw [hasBaseline, decide_eq_true_eq] at baseline ⊢
  exact Int32.le_trans baseline later

/-! ## Batches in order -/

theorem applyAll_cons_of_ok {outcome : BatchOutcome} {rest : List Batch}
    (applied : b.apply caller batch = (after, .ok outcome)) :
    b.applyAll caller (batch :: rest) =
      ((after.applyAll caller rest).1, (after.applyAll caller rest).2.map (outcome :: ·)) := by
  rw [applyAll, applied]
  rcases hrest : after.applyAll caller rest with ⟨last, e | outcomes⟩ <;> simp [hrest, Except.map]

theorem applyAll_cons_of_error {e : EditError} {rest : List Batch}
    (refused : b.apply caller batch = (after, .error e)) :
    b.applyAll caller (batch :: rest) = (after, .error e) := by
  rw [applyAll, refused]

end Buffer

end CodeInsight

/-
# Unreliable delivery

A host may lose batches, send them again or send them out of order. As long as
they come from one linear history, the buffer takes each of them at most once and
only in its turn: what it holds in the end is what the first few batches of the
history make of it. All others are reported as stale or as coming too early, and
change nothing.

The invariant splits the history where the buffer stands. Everything before that
point starts from an earlier version, and everything behind the next batch from a
later one, so that the versions alone decide what becomes of a delivery.
-/

import CodeInsight.Proofs.Edit.Versions

namespace CodeInsight

/-- Batches of spans, each of which starts from the version that the one before it leads to. -/
def LinearHistory (start : Version) : List Batch → Prop
  | [] => True
  | batch :: rest =>
    batch.hasWhole = false ∧ batch.fromVersion = start ∧ batch.fromVersion < batch.toVersion ∧
      LinearHistory batch.toVersion rest

instance (start : Version) (history : List Batch) : Decidable (LinearHistory start history) :=
  match history with
  | [] => .isTrue trivial
  | batch :: rest =>
    have := instDecidableLinearHistory batch.toVersion rest
    inferInstanceAs (Decidable (_ ∧ _ ∧ _ ∧ LinearHistory batch.toVersion rest))

theorem LinearHistory.of_mem {start : Version} {history : List Batch}
    (linear : LinearHistory start history) {batch : Batch} (hbatch : batch ∈ history) :
    batch.hasWhole = false ∧ start ≤ batch.fromVersion := by
  induction history generalizing start with
  | nil => cases hbatch
  | cons first rest ih =>
      obtain ⟨hspans, hstart, hforward, hrest⟩ := linear
      rcases List.mem_cons.mp hbatch with rfl | hbatch
      · exact ⟨hspans, hstart ▸ Int32.le_refl _⟩
      · obtain ⟨hspans', hle⟩ := ih hrest hbatch
        exact ⟨hspans', Int32.le_of_lt (hstart ▸ Int32.lt_of_lt_of_le hforward hle)⟩

/-- One delivery of a batch: the buffer before and after it, and the answer. -/
structure Delivery where
  before : Buffer
  batch : Batch
  after : Buffer
  answer : Except EditError BatchOutcome

/-- Whether the batch was reported as applied. -/
def Delivery.isApplied (d : Delivery) : Bool :=
  match d.answer with
  | .ok outcome => outcome.isApplied
  | .error _ => false

namespace Buffer

/-- The buffer after batches were delivered one by one, whatever the answers. -/
def deliver (b : Buffer) (caller : ThreadId) (delivered : List Batch) : Buffer :=
  delivered.foldl (fun b batch => (b.apply caller batch).1) b

/-- The single deliveries in order. -/
def deliveries (b : Buffer) (caller : ThreadId) : List Batch → List Delivery
  | [] => []
  | batch :: rest =>
    let (after, answer) := b.apply caller batch
    ⟨b, batch, after, answer⟩ :: after.deliveries caller rest

/-- What is left of a history when it is delivered unreliably: its first `k` batches. -/
structure DeliversPrefix (b : Buffer) (caller : ThreadId) (history delivered : List Batch)
    (k : Nat) : Prop where
  within : k ≤ history.length
  /-- These are reported as applied, each once and in order, and no others. -/
  applied : ((b.deliveries caller delivered).filter (·.isApplied)).map (·.batch) = history.take k
  /-- All other deliveries change nothing, and are reported as stale or as leaving a gap. -/
  others : ∀ d ∈ b.deliveries caller delivered, d.isApplied = false →
    d.after = d.before ∧
      (d.answer = .ok (.stale d.before.version d.batch.fromVersion) ∨
        d.answer = .error (.missingVersions d.before.version d.batch.fromVersion))
  /-- The buffer is left as if these alone had been applied. -/
  final : b.deliver caller delivered = (b.applyAll caller (history.take k)).1

variable {b after : Buffer} {caller : ThreadId} {batch : Batch} {history delivered : List Batch}
  {k : Nat}

/-- A delivery that changes nothing and says so makes no difference. -/
theorem DeliversPrefix.cons_dropped {answer : Except EditError BatchOutcome}
    (dropped : b.apply caller batch = (b, answer))
    (reported : answer = .ok (.stale b.version batch.fromVersion) ∨
      answer = .error (.missingVersions b.version batch.fromVersion))
    (rest : b.DeliversPrefix caller history delivered k) :
    b.DeliversPrefix caller history (batch :: delivered) k := by
  have hdeliveries : b.deliveries caller (batch :: delivered) =
      ⟨b, batch, b, answer⟩ :: b.deliveries caller delivered := by
    rw [deliveries, dropped]
  have hnot : Delivery.isApplied ⟨b, batch, b, answer⟩ = false := by
    rcases reported with rfl | rfl <;> rfl
  refine ⟨rest.within, ?_, ?_, ?_⟩
  · rw [hdeliveries, List.filter_cons_of_neg (by rw [hnot]; decide), rest.applied]
  · intro d hd happlied
    rw [hdeliveries] at hd
    rcases List.mem_cons.mp hd with rfl | hd
    · exact ⟨rfl, reported⟩
    · exact rest.others d hd happlied
  · show (b.apply caller batch).1.deliver caller delivered = _
    rw [dropped, rest.final]

/-- The delivery of the next batch of the history moves on to the rest of it. -/
theorem DeliversPrefix.cons_applied {version : Version}
    (applied : b.apply caller batch = (after, .ok (.applied version)))
    (rest : after.DeliversPrefix caller history delivered k) :
    b.DeliversPrefix caller (batch :: history) (batch :: delivered) (k + 1) := by
  have hdeliveries : b.deliveries caller (batch :: delivered) =
      ⟨b, batch, after, .ok (.applied version)⟩ :: after.deliveries caller delivered := by
    rw [deliveries, applied]
  refine ⟨Nat.succ_le_succ rest.within, ?_, ?_, ?_⟩
  · rw [hdeliveries, List.filter_cons_of_pos rfl, List.map_cons, rest.applied,
      List.take_succ_cons]
  · intro d hd hnot
    rw [hdeliveries] at hd
    rcases List.mem_cons.mp hd with rfl | hd
    · cases hnot
    · exact rest.others d hd hnot
  · show (b.apply caller batch).1.deliver caller delivered = _
    rw [applied, rest.final, List.take_succ_cons, applyAll_cons_of_ok applied]

/-! ## Where a buffer stands in a history -/

/-- The buffer stands between the two parts of a history: it is past everything in `past`, and
`future` goes on from its version and would all be accepted. -/
structure StandsBetween (b : Buffer) (caller : ThreadId) (past future : List Batch) : Prop where
  own : caller = b.owner
  baseline : b.hasBaseline = true
  behind : ∀ batch ∈ past, batch.hasWhole = false ∧ batch.fromVersion < b.version
  linear : LinearHistory b.version future
  accepted : ∃ outcomes, (b.applyAll caller future).2 = .ok outcomes

namespace StandsBetween

variable {past future : List Batch} {next : Batch}

theorem apply_past (stands : b.StandsBetween caller past future) (hbatch : batch ∈ past) :
    b.apply caller batch = (b, .ok (.stale b.version batch.fromVersion)) := by
  obtain ⟨hspans, hbehind⟩ := stands.behind batch hbatch
  simp [apply, checkCaller, stands.own, admission_eq_stale hspans stands.baseline hbehind]

theorem apply_later (stands : b.StandsBetween caller past (next :: future))
    (hbatch : batch ∈ future) :
    b.apply caller batch = (b, .error (.missingVersions b.version batch.fromVersion)) := by
  obtain ⟨-, hstart, hforward, hrest⟩ := stands.linear
  obtain ⟨hspans, hle⟩ := hrest.of_mem hbatch
  have hahead : b.version < batch.fromVersion := Int32.lt_of_lt_of_le (hstart ▸ hforward) hle
  simp [apply, checkCaller, stands.own, admission_eq_missing hspans stands.baseline hahead]

/-- The next batch is applied, and the buffer then stands behind it. -/
theorem apply_next (stands : b.StandsBetween caller past (next :: future)) :
    ∃ after, b.apply caller next = (after, .ok (.applied next.toVersion)) ∧
      after.StandsBetween caller (next :: past) future := by
  obtain ⟨hspans, hstart, hforward, hrest⟩ := stands.linear
  obtain ⟨outcomes, accepted⟩ := stands.accepted
  rcases happly : b.apply caller next with ⟨after, e | outcome⟩
  · rw [applyAll_cons_of_error happly] at accepted
    cases accepted
  · rw [applyAll_cons_of_ok happly] at accepted
    have haccepted : ∃ outcomes, (after.applyAll caller future).2 = .ok outcomes := by
      cases hall : (after.applyAll caller future).2 with
      | error e =>
          rw [hall] at accepted
          cases accepted
      | ok outcomes => exact ⟨outcomes, rfl⟩
    cases applying_of_apply happly with
    | stale own spans baseline behind => exact absurd (hstart ▸ behind) Int32.lt_irrefl
    | applied own admitted changes =>
        have hahead : b.version < next.toVersion := hstart ▸ hforward
        refine ⟨_, rfl, own, ?_, ?_, hrest, haccepted⟩
        · have hbaseline := stands.baseline
          simp only [hasBaseline, decide_eq_true_eq] at hbaseline ⊢
          exact Int32.le_of_lt (Int32.lt_of_le_of_lt hbaseline hahead)
        · intro other hother
          rcases List.mem_cons.mp hother with rfl | hother
          · exact ⟨hspans, hforward⟩
          · obtain ⟨hspans', hbehind⟩ := stands.behind other hother
            exact ⟨hspans', Int32.lt_trans hbehind hahead⟩

/-- From wherever it stands, a buffer takes a first part of what is still to come. -/
theorem exists_deliversPrefix (stands : b.StandsBetween caller past future)
    (known : ∀ batch ∈ delivered, batch ∈ past ∨ batch ∈ future) :
    ∃ k, b.DeliversPrefix caller future delivered k := by
  -- The next batch moves from the future to the past, and any other changes nothing.
  induction delivered generalizing b past future with
  | nil => exact ⟨0, Nat.zero_le _, rfl, nofun, rfl⟩
  | cons batch delivered ih =>
      obtain ⟨hbatch, hknown⟩ := List.forall_mem_cons.mp known
      rcases hbatch with hpast | hfuture
      · obtain ⟨k, hk⟩ := ih stands hknown
        exact ⟨k, hk.cons_dropped (stands.apply_past hpast) (.inl rfl)⟩
      · cases future with
        | nil => cases hfuture
        | cons next future =>
            by_cases hnext : batch = next
            · subst hnext
              obtain ⟨after, happly, hstands⟩ := stands.apply_next
              have hknown' : ∀ other ∈ delivered, other ∈ batch :: past ∨ other ∈ future := by
                intro other hother
                rcases hknown other hother with hother | hother
                · exact .inl (List.mem_cons_of_mem _ hother)
                · rcases List.mem_cons.mp hother with rfl | hother
                  · exact .inl List.mem_cons_self
                  · exact .inr hother
              obtain ⟨k, hk⟩ := ih hstands hknown'
              exact ⟨k + 1, hk.cons_applied happly⟩
            · have hlater := (List.mem_cons.mp hfuture).resolve_left hnext
              obtain ⟨k, hk⟩ := ih stands hknown
              exact ⟨k, hk.cons_dropped (stands.apply_later hlater) (.inr rfl)⟩

end StandsBetween

/-- **Unreliable delivery of a linear history is applied once and without gaps.** Whatever batches
of the history arrive, how often and in which order, the buffer takes a first part of the history
in its order and reports just that as applied. -/
theorem unreliable_delivery_applies_prefix {b : Buffer} {history delivered : List Batch}
    {outcomes : List BatchOutcome} (baseline : b.hasBaseline = true)
    (linear : LinearHistory b.version history)
    (accepted : (b.applyAll b.owner history).2 = .ok outcomes)
    (known : ∀ batch ∈ delivered, batch ∈ history) :
    ∃ k, b.DeliversPrefix b.owner history delivered k := by
  have stands : b.StandsBetween b.owner [] history :=
    ⟨rfl, baseline, nofun, linear, outcomes, accepted⟩
  exact stands.exists_deliversPrefix fun batch hbatch => .inr (known batch hbatch)

/-- A text of one letter at the first version. -/
def letter : Buffer := ⟨['a'], 0, ⟨0⟩, .utf8⟩

/-- Three batches for it: two more letters, one after the other, and the first one removed. -/
def letterHistory : List Batch :=
  [⟨0, 1, [.replace ⟨⟨0, 1⟩, ⟨0, 1⟩⟩ ['b']]⟩,
    ⟨1, 2, [.replace ⟨⟨0, 2⟩, ⟨0, 2⟩⟩ ['c']]⟩,
    ⟨2, 5, [.replace ⟨⟨0, 0⟩, ⟨0, 1⟩⟩ []]⟩]

/-- The second batch arrives early and again, and the third only too early. -/
def letterDeliveries : List Batch := [1, 0, 0, 2, 1, 0].filterMap (letterHistory[·]?)

theorem unreliable_delivery_of_letters :
    letter.hasBaseline = true ∧ LinearHistory letter.version letterHistory ∧
      (letter.applyAll letter.owner letterHistory).2 = .ok [.applied 1, .applied 2, .applied 5] ∧
      (∀ batch ∈ letterDeliveries, batch ∈ letterHistory) ∧
      (∃ k, letter.DeliversPrefix letter.owner letterHistory letterDeliveries k) ∧
      letter.deliver letter.owner letterDeliveries = ⟨['a', 'b', 'c'], 2, ⟨0⟩, .utf8⟩ := by
  have hbaseline : letter.hasBaseline = true := rfl
  have hlinear : LinearHistory letter.version letterHistory := by decide
  have haccepted : (letter.applyAll letter.owner letterHistory).2 =
      .ok [.applied 1, .applied 2, .applied 5] := rfl
  have hknown : ∀ batch ∈ letterDeliveries, batch ∈ letterHistory := by decide
  have hfinal : letter.deliver letter.owner letterDeliveries =
      ⟨['a', 'b', 'c'], 2, ⟨0⟩, .utf8⟩ := rfl
  exact ⟨hbaseline, hlinear, haccepted, hknown,
    unreliable_delivery_applies_prefix hbaseline hlinear haccepted hknown, hfinal⟩

end Buffer

end CodeInsight

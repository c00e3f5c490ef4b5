/-
# Runs

Schedulers and documents move by events: a function says what an event makes of
a state, or that the event cannot happen there. A run is any chain of such steps.
Its log keeps every event with the states on either side of it, so that a
property of a whole run can speak about what was the case when something
happened, and not only about the end.
-/

import Mathlib.Data.List.Induction

namespace CodeInsight

/-- One step of a run: what happened, and the states before and after it. -/
structure Moment (α ε : Type) where
  before : α
  event : ε
  after : α

/-- `Run step? s log t` says that the events of `log`, one after the other, lead from `s` to `t`. -/
inductive Run {α ε : Type} (step? : α → ε → Option α) (s : α) : List (Moment α ε) → α → Prop
  | /-- Nothing has happened yet. -/
    start : Run step? s [] s
  | /-- One more event happens. -/
    extend {log : List (Moment α ε)} {t u : α} {event : ε} (prior : Run step? s log t)
      (happens : step? t event = some u) : Run step? s (log ++ [⟨t, event, u⟩]) u

namespace Run

variable {α ε : Type} {step? : α → ε → Option α} {s t : α} {log : List (Moment α ε)}

/-- What every step keeps, a run keeps, and the states in the log have it as well. -/
theorem invariant {P : α → Prop} (run : Run step? s log t)
    (kept : ∀ u event v, step? u event = some v → P u → P v) (initially : P s) :
    P t ∧ ∀ m ∈ log, P m.before := by
  induction run with
  | start => exact ⟨initially, by simp⟩
  | extend prior happens ih =>
      obtain ⟨hlast, hlog⟩ := ih
      refine ⟨kept _ _ _ happens hlast, ?_⟩
      intro m hm
      rcases List.mem_append.mp hm with hm | hm
      · exact hlog m hm
      · rw [List.mem_singleton.mp hm]
        exact hlast

/-- A run goes on from where another one ends. -/
theorem append {u : α} {later : List (Moment α ε)} (run : Run step? s log t)
    (goesOn : Run step? t later u) : Run step? s (log ++ later) u := by
  induction goesOn with
  | start => rwa [List.append_nil]
  | extend prior happens ih =>
      rw [← List.append_assoc]
      exact ih.extend happens

/-- A run goes through every moment of its log. -/
theorem upTo {earlier later : List (Moment α ε)} {m : Moment α ε}
    (run : Run step? s (earlier ++ m :: later) t) : Run step? s (earlier ++ [m]) m.after := by
  induction later using List.reverseRecOn generalizing t with
  | nil =>
      generalize hlog : earlier ++ [m] = log at run
      cases run with
      | start => simp at hlog
      | extend prior happens =>
          obtain ⟨rfl, hm⟩ := List.append_inj' hlog rfl
          cases hm
          exact prior.extend happens
  | append_singleton later n ih =>
      rw [← List.cons_append, ← List.append_assoc] at run
      generalize hlog : earlier ++ m :: later ++ [n] = log at run
      cases run with
      | start => simp at hlog
      | extend prior happens =>
          obtain ⟨rfl, -⟩ := List.append_inj' hlog rfl
          exact ih prior

/-- Every moment of a log is a step. -/
theorem happens_of_mem (run : Run step? s log t) {m : Moment α ε} (hm : m ∈ log) :
    step? m.before m.event = some m.after := by
  induction run with
  | start => simp at hm
  | extend prior happens ih =>
      rcases List.mem_append.mp hm with hm | hm
      · exact ih hm
      · rw [List.mem_singleton.mp hm]
        exact happens

/-- A part of a state runs as well, where each step makes the step of the part that `seen` tells, or
leaves the part alone where `seen` tells none. -/
theorem project {β ε' : Type} {part? : β → ε' → Option β} (part : α → β)
    (seen : Moment α ε → Option ε')
    (makes : ∀ u event v e, step? u event = some v → seen ⟨u, event, v⟩ = some e →
      part? (part u) e = some (part v))
    (alone : ∀ u event v, step? u event = some v → seen ⟨u, event, v⟩ = none →
      part v = part u)
    (run : Run step? s log t) :
    Run part? (part s)
      (log.filterMap fun m => (seen m).map fun e => ⟨part m.before, e, part m.after⟩) (part t) := by
  induction run with
  | start => exact .start
  | @extend log t u event prior happens ih =>
      rw [List.filterMap_append]
      cases hseen : seen ⟨t, event, u⟩ with
      | none =>
          rw [alone t event u happens hseen]
          simpa [hseen] using ih
      | some e =>
          have hlast := ih.extend (makes t event u e happens hseen)
          simpa [hseen] using hlast

/-- The events one after the other, with the log they leave, if each of them can happen. -/
def play? (step? : α → ε → Option α) (s : α) (events : List ε) :
    Option (List (Moment α ε) × α) :=
  events.foldlM
    (fun (log, t) event => (step? t event).map fun u => (log ++ [⟨t, event, u⟩], u)) ([], s)

/-- The last event of a play comes after a play of the others. -/
theorem play?_append_singleton {events : List ε} {event : ε}
    (played : play? step? s (events ++ [event]) = some (log, t)) :
    ∃ earlier u, play? step? s events = some (earlier, u) ∧ step? u event = some t ∧
      log = earlier ++ [⟨u, event, t⟩] := by
  rw [play?, List.foldlM_append] at played
  obtain ⟨⟨earlier, u⟩, hearlier, hlast⟩ := Option.bind_eq_some_iff.mp played
  simp only [List.foldlM_cons, List.foldlM_nil, bind_pure] at hlast
  obtain ⟨v, happens, hv⟩ := Option.map_eq_some_iff.mp hlast
  cases hv
  exact ⟨earlier, u, hearlier, happens, rfl⟩

/-- Playing events is a run. -/
theorem of_play? {events : List ε} (played : play? step? s events = some (log, t)) :
    Run step? s log t := by
  induction events using List.reverseRecOn generalizing log t with
  | nil =>
      cases played
      exact .start
  | append_singleton events event ih =>
      obtain ⟨earlier, u, hearlier, happens, rfl⟩ := play?_append_singleton played
      exact (ih hearlier).extend happens

/-- The log of a play is of the events that were played. -/
theorem events_of_play? {events : List ε} (played : play? step? s events = some (log, t)) :
    log.map (·.event) = events := by
  induction events using List.reverseRecOn generalizing log t with
  | nil =>
      cases played
      rfl
  | append_singleton events event ih =>
      obtain ⟨earlier, u, hearlier, -, rfl⟩ := play?_append_singleton played
      rw [List.map_append, ih hearlier, List.map_cons, List.map_nil]

end Run

end CodeInsight

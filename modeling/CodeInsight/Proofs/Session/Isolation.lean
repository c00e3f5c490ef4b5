/-
# Documents of a session do not interfere

`only` is the part of a session that belongs to one address. A step about this address is
the same step of the part, with the same answer, and any other step leaves the part alone;
so the part makes a run of its own, in which nothing happens to other documents.

Documents that were closed before a certain moment may be left out of the part as well. If
none is open at that moment, the part is a session without documents, and whatever happens
from there on happens as it would in a new session.
-/

import CodeInsight.Proofs.Session.Steps
import Mathlib.Data.List.Forall2

namespace CodeInsight

namespace Session

variable {σ : Type} {analyze : Request → Option σ} {s after : Session σ} {uri : DocumentUri}
  {d : OpenDocument σ} {old : Nat}

/-- The part of a session that belongs to one address, without the `old` documents that were closed
first. -/
def only (s : Session σ) (uri : DocumentUri) (old : Nat) : Session σ :=
  { s with
    documents := s.documents.filter (·.uri = uri)
    closed := (s.closedOf uri).take ((s.closedOf uri).length - old) }

@[simp]
theorem document?_only (s : Session σ) (uri : DocumentUri) (old : Nat) :
    (s.only uri old).document? uri = s.document? uri := by
  rw [document?, only, List.find?_filter]
  simp [document?]

theorem only_of_absent (absent : s.document? uri = none) :
    s.only uri (s.closedOf uri).length = create s.settings := by
  have hdocuments : s.documents.filter (·.uri = uri) = [] := by
    rw [List.filter_eq_nil_iff]
    simpa using List.find?_eq_none.mp absent
  rw [only, hdocuments, Nat.sub_self, List.take_zero]
  rfl

/-! ## Operations -/

theorem documents_put (s : Session σ) (changed : OpenDocument σ) (uri : DocumentUri) :
    (s.put changed).documents.filter (·.uri = uri) =
      (s.documents.filter (·.uri = uri)).map fun d =>
        if d.uri = changed.uri then changed else d := by
  rw [put, List.filter_map]
  congr 2
  funext d
  rw [Function.comp, uri_put]

theorem only_put (s : Session σ) (changed : OpenDocument σ) (uri : DocumentUri) (old : Nat) :
    (s.put changed).only uri old = (s.only uri old).put changed := by
  rw [only, documents_put]
  rfl

theorem only_put_of_ne {changed : OpenDocument σ} (other : changed.uri ≠ uri) :
    (s.put changed).only uri old = s.only uri old := by
  have hsame : ((s.documents.filter (·.uri = uri)).map fun d =>
      if d.uri = changed.uri then changed else d) = s.documents.filter (·.uri = uri) := by
    refine (List.map_congr_left fun d hd => if_neg ?_).trans (List.map_id _)
    have huri : d.uri = uri := by simpa using (List.mem_filter.mp hd).2
    rw [huri]
    exact Ne.symm other
  rw [only, documents_put, hsame]
  rfl

theorem onDocument_only {α : Type} {act : OpenDocument σ → OpenDocument σ × Except EditError α}
    (s : Session σ) (uri : DocumentUri) (old : Nat) :
    (s.only uri old).onDocument uri act =
      ((s.onDocument uri act).1.only uri old, (s.onDocument uri act).2) := by
  cases hfound : s.document? uri with
  | none =>
      rw [onDocument_of_none hfound, onDocument_of_none ((document?_only ..).trans hfound)]
  | some d =>
      rw [onDocument_of_some hfound, onDocument_of_some ((document?_only ..).trans hfound),
        only_put]

theorem openDocument_only (s : Session σ) (caller : ThreadId) (uri : DocumentUri)
    (version : Version) (text : List Char) (old : Nat) :
    (s.only uri old).openDocument caller uri version text =
      ((s.openDocument caller uri version text).1.only uri old,
        (s.openDocument caller uri version text).2) := by
  cases hfound : s.document? uri with
  | some d =>
      rw [openDocument_of_some hfound, openDocument_of_some ((document?_only ..).trans hfound)]
  | none =>
      have hopening : (s.opening caller uri version text).uri = uri := rfl
      have hdocuments : s.documents.filter (·.uri = uri) ++ [s.opening caller uri version text] =
          (s.documents ++ [s.opening caller uri version text]).filter (·.uri = uri) := by
        simp [hopening]
      rw [openDocument_of_none hfound, openDocument_of_none ((document?_only ..).trans hfound)]
      exact Prod.ext (congrArg₂ (Session.mk s.settings) hdocuments rfl) rfl

/-- What is left out when a document is closed is what was left out before. -/
theorem close_only (left_out : old ≤ (s.closedOf uri).length) :
    (s.only uri old).close uri = ((s.close uri).1.only uri old, (s.close uri).2) := by
  cases hfound : s.document? uri with
  | none => rw [close_of_none hfound, close_of_none ((document?_only ..).trans hfound)]
  | some d =>
      have hcancel : d.cancel.uri = uri := by
        rw [← uri_of_document? hfound]
        rfl
      have hdocuments : (s.documents.filter (·.uri = uri)).filter (·.uri ≠ uri) =
          (s.documents.filter (·.uri ≠ uri)).filter (·.uri = uri) := by
        simp [List.filter_filter, Bool.and_comm]
      have hclosed : (d.cancel :: s.closed).filter (·.uri = uri) = d.cancel :: s.closedOf uri :=
        List.filter_cons_of_pos (decide_eq_true hcancel)
      rw [close_of_some hfound, close_of_some ((document?_only ..).trans hfound)]
      refine Prod.ext (congrArg₂ (Session.mk s.settings) hdocuments ?_) rfl
      rw [closedOf, hclosed, List.length_cons, Nat.succ_sub left_out, List.take_succ_cons]
      rfl

/-- An operation about an address is the same in the part of the session that belongs to it, and is
answered alike. -/
theorem perform_only (s : Session σ) (operation : Operation)
    (left_out : old ≤ (s.closedOf operation.uri).length) :
    (s.only operation.uri old).perform operation =
      ((s.perform operation).1.only operation.uri old, (s.perform operation).2) := by
  cases operation with
  | openDocument caller uri version text =>
      exact congrArg (Prod.map id Answer.opened) (s.openDocument_only caller uri version text old)
  | change caller uri batches =>
      exact congrArg (Prod.map id Answer.changed) (s.onDocument_only uri old)
  | reset caller uri version text =>
      exact congrArg (Prod.map id Answer.replaced) (s.onDocument_only uri old)
  | close uri => exact congrArg (Prod.map id Answer.closed) (close_only left_out)
  | latest uri =>
      have hdocument : (s.only uri old).latest uri = s.latest uri := by
        rw [latest, latest, document, document, document?_only]
      exact congrArg (fun newest => (s.only uri old, Answer.newest newest)) hdocument

/-! ## Closed documents -/

section ActOnNth

variable {act : OpenDocument σ → Option (OpenDocument σ)} {k : Nat}
  {documents changed : List (OpenDocument σ)}

/-- Of the documents with the address, the one that goes by the number is changed. -/
theorem filter_of_actOnNth? (keeps : ∀ d d', act d = some d' → d'.uri = d.uri)
    (done : actOnNth? uri act k documents = some changed) :
    ∃ d d', (documents.filter (·.uri = uri))[k]? = some d ∧ act d = some d' ∧
      changed.filter (·.uri = uri) = (documents.filter (·.uri = uri)).set k d' := by
  obtain ⟨before, d, d', rest, rfl, rfl, huri, rfl, hact⟩ := actOnNth?_eq_some_iff.mp done
  have huri' : d'.uri = uri := (keeps d d' hact).trans huri
  refine ⟨d, d', ?_, hact, ?_⟩
  · simp [List.filter_append, huri]
  · simp [List.filter_append, huri, huri']

/-- Documents with other addresses are left alone. -/
theorem filter_of_actOnNth?_of_ne (keeps : ∀ d d', act d = some d' → d'.uri = d.uri)
    {other : DocumentUri} (different : other ≠ uri)
    (done : actOnNth? other act k documents = some changed) :
    changed.filter (·.uri = uri) = documents.filter (·.uri = uri) := by
  obtain ⟨before, d, d', rest, rfl, rfl, huri, -, hact⟩ := actOnNth?_eq_some_iff.mp done
  have huri' : d'.uri = other := (keeps d d' hact).trans huri
  simp [List.filter_append, huri, huri', different]

/-- Where all documents have the address, their numbers are their places. -/
theorem actOnNth?_of_forall (about : ∀ d ∈ documents, d.uri = uri) {d' : OpenDocument σ}
    (found : documents[k]? = some d) (acts : act d = some d') :
    actOnNth? uri act k documents = some (documents.set k d') := by
  induction documents generalizing k with
  | nil => cases found
  | cons e rest ih =>
      have he := about e List.mem_cons_self
      have hrest : ∀ d ∈ rest, d.uri = uri := fun d hd => about d (List.mem_cons_of_mem _ hd)
      rw [actOnNth?, if_neg (not_not.mpr he)]
      cases k with
      | zero =>
          cases found
          rw [if_pos rfl, acts]
          rfl
      | succ k =>
          rw [if_neg (Nat.succ_ne_zero k), Nat.succ_sub_one, ih hrest found]
          rfl

end ActOnNth

/-! ## Steps of a part -/

/-- Whether a moment is about an address, and not about a pass of one of the `old` documents with it
that were closed first. -/
def concerns (uri : DocumentUri) (old : Nat) (m : Moment (Session σ) Event) : Bool :=
  m.event.uri = uri && match m.event with
    | .late _ k .. => k + old < (m.before.closedOf uri).length
    | _ => true

variable {event : Event}

/-- Closed documents do not become fewer. -/
theorem length_closedOf_le (happens : s.step? analyze event = some after) (uri : DocumentUri) :
    (s.closedOf uri).length ≤ (after.closedOf uri).length := by
  cases stepped_of_step? happens with
  | unchanged => exact Nat.le_refl _
  | opened => exact Nat.le_refl _
  | operated => exact Nat.le_refl _
  | closed => exact ((List.sublist_cons_self ..).filter _).length_le
  | passed => exact Nat.le_refl _
  | @late other k i step closed acted =>
      by_cases huri : other = uri
      · subst uri
        obtain ⟨d, d', -, -, hclosed⟩ := filter_of_actOnNth? (fun _ _ => uri_of_passStep?) acted
        refine Nat.le_of_eq ?_
        rw [closedOf, closedOf, hclosed, List.length_set]
      · refine Nat.le_of_eq ?_
        rw [closedOf, closedOf, filter_of_actOnNth?_of_ne (fun _ _ => uri_of_passStep?) huri acted]

/-- A step about an address is the same step of the part. -/
theorem step?_only (happens : s.step? analyze event = some after)
    (left_out : old ≤ (s.closedOf uri).length)
    (about : concerns uri old ⟨s, event, after⟩ = true) :
    (s.only uri old).step? analyze event = some (after.only uri old) := by
  obtain ⟨huri, hrecent⟩ := Bool.and_eq_true_iff.mp about
  cases event with
  | host operation =>
      obtain rfl : operation.uri = uri := of_decide_eq_true huri
      obtain ⟨hfree, happens⟩ := Option.ite_none_left_eq_some.mp happens
      cases happens
      rw [step?, document?_only, if_neg hfree, perform_only s operation left_out]
  | pass other i step =>
      obtain rfl : other = uri := of_decide_eq_true huri
      cases stepped_of_step? happens with
      | passed found hstep =>
          rw [step?, document?_only, found, only_put]
          simp [hstep]
  | late other k i step =>
      obtain rfl : other = uri := of_decide_eq_true huri
      cases stepped_of_step? happens with
      | @late _ _ _ _ closed acted =>
          obtain ⟨d, d', hfound, hact, hclosed⟩ :=
            filter_of_actOnNth? (fun _ _ => uri_of_passStep?) acted
          have hk : k < (s.closedOf other).length - old :=
            Nat.lt_sub_of_add_lt (of_decide_eq_true hrecent)
          have habout : ∀ d ∈ (s.only other old).closed, d.uri = other := by
            intro d hd
            simpa using (List.mem_filter.mp (List.mem_of_mem_take hd)).2
          have hrecent : (s.only other old).closed[k]? = some d := by
            rw [only, List.getElem?_take_of_lt hk]
            exact hfound
          rw [step?, actOnNth?_of_forall habout hrecent hact]
          -- In the part all closed documents have the address, so the number is a place in the list.
          refine congrArg (fun closed => some (Session.mk s.settings _ closed)) ?_
          rw [only, ← List.take_set, closedOf, closedOf, hclosed, List.length_set]

/-- Any other step leaves the part alone. -/
theorem only_of_step? (happens : s.step? analyze event = some after)
    (unconcerned : concerns uri old ⟨s, event, after⟩ = false) :
    after.only uri old = s.only uri old := by
  cases stepped_of_step? happens with
  | unchanged => rfl
  | @opened caller other version text absent =>
      have hopening : (s.opening caller other version text).uri ≠ uri :=
        of_decide_eq_false ((Bool.and_true _).symm.trans unconcerned)
      refine congrArg₂ (Session.mk s.settings) ?_ rfl
      simp [hopening]
  | @operated operation d d' docEvent found event_of hstep =>
      refine only_put_of_ne ?_
      rw [OpenDocument.step?_uri hstep, uri_of_document? found]
      exact of_decide_eq_false ((Bool.and_true _).symm.trans unconcerned)
  | @closed other d found free =>
      have hother : other ≠ uri :=
        of_decide_eq_false ((Bool.and_true _).symm.trans unconcerned)
      have hcancel : d.cancel.uri ≠ uri := by
        rw [← uri_of_document? found] at hother
        exact hother
      have hdocuments : (s.documents.filter (·.uri ≠ other)).filter (·.uri = uri) =
          s.documents.filter (·.uri = uri) := by
        rw [List.filter_filter]
        refine List.filter_congr fun d _ => ?_
        by_cases huri : d.uri = uri <;> simp [huri, Ne.symm hother]
      have hclosed : (d.cancel :: s.closed).filter (·.uri = uri) = s.closedOf uri :=
        List.filter_cons_of_neg (by simpa using hcancel)
      refine congrArg₂ (Session.mk s.settings) hdocuments ?_
      rw [closedOf, hclosed]
  | @passed other d d' i step found hstep =>
      refine only_put_of_ne ?_
      rw [uri_of_passStep? hstep, uri_of_document? found]
      exact of_decide_eq_false ((Bool.and_true _).symm.trans unconcerned)
  | @late other k i step closed acted =>
      refine congrArg (Session.mk s.settings _) ?_
      by_cases huri : other = uri
      · subst uri
        obtain ⟨d, d', -, -, hclosed⟩ := filter_of_actOnNth? (fun _ _ => uri_of_passStep?) acted
        have hk : (s.closedOf other).length - old ≤ k := by
          simpa [concerns, Event.uri, Nat.sub_le_iff_le_add] using unconcerned
        rw [closedOf, hclosed, List.length_set]
        exact List.take_set_of_le hk
      · rw [closedOf, filter_of_actOnNth?_of_ne (fun _ _ => uri_of_passStep?) huri acted]
        rfl

/-! ## Runs of a part -/

/-- At two moments the same happens to the document with an address, with the same answer. -/
def SameAt (uri : DocumentUri) (m n : Moment (Session σ) Event) : Prop :=
  n.event = m.event ∧ answer? n = answer? m ∧ n.before.document? uri = m.before.document? uri ∧
    n.after.document? uri = m.after.document? uri

variable {t : Session σ} {log : List (Moment (Session σ) Event)}

theorem sameAt_only (left_out : old ≤ (s.closedOf uri).length)
    (about : concerns uri old ⟨s, event, after⟩ = true) :
    SameAt uri ⟨s, event, after⟩ ⟨s.only uri old, event, after.only uri old⟩ := by
  refine ⟨rfl, ?_, document?_only .., document?_only ..⟩
  cases event with
  | host operation =>
      obtain ⟨huri, -⟩ := Bool.and_eq_true_iff.mp about
      obtain rfl : operation.uri = uri := of_decide_eq_true huri
      exact congrArg (fun outcome => some outcome.2) (perform_only s operation left_out)
  | pass | late => rfl

/-- A part of a session makes a run of its own, by the events that concern it and in the same
way. -/
theorem run_only (run : Run (step? analyze) s log t) (left_out : old ≤ (s.closedOf uri).length) :
    ∃ alone, Run (step? analyze) (s.only uri old) alone (t.only uri old) ∧
      List.Forall₂ (SameAt uri) (log.filter (concerns uri old)) alone := by
  induction run with
  | start => exact ⟨[], .start, .nil⟩
  | @extend log t u event prior happens ih =>
      obtain ⟨alone, hrun, hsame⟩ := ih
      -- Closing puts documents in front, so those that are left out stay the last ones.
      have hclosed : old ≤ (t.closedOf uri).length :=
        (prior.invariant (P := fun t => old ≤ (t.closedOf uri).length)
          (fun _ _ _ hstep hold => Nat.le_trans hold (length_closedOf_le hstep uri)) left_out).1
      rw [List.filter_append]
      cases hconcerns : concerns uri old ⟨t, event, u⟩ with
      | true =>
          refine ⟨_, hrun.extend (step?_only happens hclosed hconcerns), ?_⟩
          rw [List.filter_cons_of_pos hconcerns]
          exact List.rel_append hsame (.cons (sameAt_only hclosed hconcerns) .nil)
      | false =>
          rw [only_of_step? happens hconcerns,
            List.filter_cons_of_neg (ne_true_of_eq_false hconcerns), List.filter_nil,
            List.append_nil]
          exact ⟨alone, hrun, hsame⟩

/-- With no closed documents left out, all moments about an address concern it. -/
theorem concerns_of_run (run : Run (step? analyze) s log t) {m : Moment (Session σ) Event}
    (hm : m ∈ log) : concerns uri 0 m = decide (m.event.uri = uri) := by
  obtain ⟨before, event, after⟩ := m
  have happens : before.step? analyze event = some after := run.happens_of_mem hm
  cases stepped_of_step? happens with
  | @late other k i step closed acted =>
      obtain ⟨d, -, hfound, -⟩ := filter_of_actOnNth? (fun _ _ => uri_of_passStep?) acted
      have hk := (List.getElem?_eq_some_iff.mp hfound).1
      by_cases huri : other = uri
      · subst uri
        simpa [concerns, Event.uri, closedOf] using hk
      · simp [concerns, Event.uri, huri]
  | unchanged | opened | operated | closed | passed => exact Bool.and_true _

end Session

end CodeInsight

/-
# Spans by tightness

Where several regions contain a position, the one with the tightest span is looked into.
Whether one span is tighter than another is decided by three comparisons, but there is
a linear order behind them: a later start is tighter, and of two spans with one start
the earlier end. So the tightest span of a list does not depend on how the list is gone
through, and where spans are equal the first of them counts.
-/

import CodeInsight.Proofs.Text.PositionOrder
import CodeInsight.Text.Span
import Mathlib.Data.List.MinMax
import Mathlib.Data.List.Nodup
import Mathlib.Data.Prod.Lex
import Mathlib.Order.OrderDual

namespace CodeInsight

namespace Span

open OrderDual

/-- The place of a span in the order of tightness, the tightest spans coming first. -/
def tightness (s : Span) : Positionᵒᵈ ×ₗ Position := toLex (toDual s.start, s.stop)

/-- A later start is tighter, and where two spans start together the earlier end is. -/
theorem tightness_lt_iff {s t : Span} :
    s.tightness < t.tightness ↔ t.start < s.start ∨ s.start = t.start ∧ s.stop < t.stop := by
  rw [tightness, tightness, Prod.Lex.toLex_lt_toLex]
  exact Iff.rfl

theorem tightness_injective : Function.Injective tightness := by
  intro s t hequal
  obtain ⟨hstart, hstop⟩ := Prod.mk.inj (toLex.injective hequal)
  cases s
  cases t
  cases toDual.injective hstart
  cases hstop
  rfl

theorem isTighterThan_iff {s t : Span} : s.isTighterThan t = true ↔ s.tightness < t.tightness := by
  rw [tightness_lt_iff, isTighterThan, encloses, encloses]
  rcases lt_trichotomy s.start t.start with hstart | hstart | hstart
  · simp [hstart.ne, hstart.not_gt, hstart.not_ge]
  · -- Of two spans that start together, the one that ends later encloses the other.
    have hne : s ≠ t ↔ s.stop ≠ t.stop := by
      cases s
      cases t
      cases hstart
      simp
    rcases lt_trichotomy s.stop t.stop with hstop | hstop | hstop
    · simp [hstart, hstop, hstop.le, hne, hstop.ne]
    · simp [hstart, hstop, hne]
    · simp [hstart, hstop.not_ge, hstop.le, hstop.not_gt]
  · have hne : s ≠ t := fun hsame => hstart.ne (congrArg start hsame).symm
    simp [hstart, hstart.not_ge, hne]

/-- The tightest of some spans is the least in the order of tightness, and of equal spans the
first. -/
theorem tightestBy?_eq_argmin {α : Type*} (spanOf : α → Span) (xs : List α) :
    tightestBy? spanOf xs = xs.argmin (tightness ∘ spanOf) := by
  cases xs with
  | nil => rfl
  | cons first rest =>
      show some _ = rest.foldl (List.argAux _) (some first)
      induction rest generalizing first with
      | nil => rfl
      | cons next rest ih =>
          rw [List.foldl_cons, List.foldl_cons, ih, List.argAux]
          simp only [isTighterThan_iff, Function.comp_apply, apply_ite some]

variable {α : Type*} {spanOf : α → Span} {xs : List α} {x : α}

theorem isTighterThan_irrefl (s : Span) : s.isTighterThan s = false := by
  rw [← Bool.not_eq_true, isTighterThan_iff]
  exact lt_irrefl _

theorem isTighterThan_trans {s t u : Span} (tighter : s.isTighterThan t = true)
    (tighter' : t.isTighterThan u = true) : s.isTighterThan u = true := by
  rw [isTighterThan_iff] at tighter tighter' ⊢
  exact tighter.trans tighter'

/-- Of two different spans, one is tighter than the other and not the other way round. -/
theorem isTighterThan_eq_not {s t : Span} (ne : s ≠ t) :
    t.isTighterThan s = !s.isTighterThan t := by
  rw [Bool.eq_not_iff, ne_eq, Bool.eq_iff_iff, isTighterThan_iff, isTighterThan_iff]
  rcases (tightness_injective.ne ne).lt_or_gt with hlt | hgt
  · simp [hlt, hlt.not_gt]
  · simp [hgt, hgt.not_gt]

/-- Where all spans are different, the tightest is the one that is tighter than all others. -/
theorem tightestBy?_eq_some_iff (distinct : (xs.map spanOf).Nodup) :
    tightestBy? spanOf xs = some x ↔
      x ∈ xs ∧ ∀ y ∈ xs, y ≠ x → (spanOf x).isTighterThan (spanOf y) = true := by
  have htightest : ∀ m, tightestBy? spanOf xs = some m →
      m ∈ xs ∧ ∀ y ∈ xs, y ≠ m → (spanOf m).isTighterThan (spanOf y) = true := by
    intro m hm
    rw [tightestBy?_eq_argmin] at hm
    have hmem : m ∈ xs := List.argmin_mem hm
    refine ⟨hmem, fun y hy hne => isTighterThan_iff.mpr ?_⟩
    refine (List.le_of_mem_argmin hy hm).lt_of_ne fun hsame => hne ?_
    exact List.inj_on_of_nodup_map distinct hy hmem (tightness_injective hsame.symm)
  refine ⟨htightest x, fun ⟨hx, htighter⟩ => ?_⟩
  cases hfound : tightestBy? spanOf xs with
  | none =>
      rw [tightestBy?_eq_argmin, List.argmin_eq_none] at hfound
      rw [hfound] at hx
      cases hx
  | some m =>
      obtain ⟨hm, htighter'⟩ := htightest m hfound
      by_contra hne
      have hxm : x ≠ m := fun hsame => hne (congrArg some hsame.symm)
      -- Each of the two would be tighter than the other.
      have hself := isTighterThan_trans (htighter m hm hxm.symm) (htighter' x hx hxm)
      rw [isTighterThan_irrefl] at hself
      cases hself

/-- **Spans are linearly ordered by tightness**, inverted ones included. One is tighter than another
just if it starts later, or starts together with it and ends earlier. No span is tighter than
itself, what is tighter than a tighter one is tighter, and of two different spans exactly one is
tighter than the other. So of elements with different spans one is tighter than all others, and it
is found in whatever order they are gone through. -/
theorem linearly_ordered_by_tightness :
    (∀ s t : Span, s.isTighterThan t = true ↔
      t.start < s.start ∨ s.start = t.start ∧ s.stop < t.stop) ∧
    (∀ s : Span, s.isTighterThan s = false) ∧
    (∀ s t u : Span, s.isTighterThan t = true → t.isTighterThan u = true →
      s.isTighterThan u = true) ∧
    (∀ s t : Span, s ≠ t → t.isTighterThan s = !s.isTighterThan t) ∧
    ∀ (α : Type*) (spanOf : α → Span) (xs : List α), xs ≠ [] → (xs.map spanOf).Nodup →
      ∃ x ∈ xs, (∀ y ∈ xs, y ≠ x → (spanOf x).isTighterThan (spanOf y) = true) ∧
        ∀ ys, ys.Perm xs → tightestBy? spanOf ys = some x := by
  refine ⟨fun s t => isTighterThan_iff.trans tightness_lt_iff, isTighterThan_irrefl,
    fun s t u => isTighterThan_trans, fun s t => isTighterThan_eq_not, ?_⟩
  intro α spanOf xs hne hdistinct
  obtain ⟨x, hfound⟩ : ∃ x, tightestBy? spanOf xs = some x := by
    cases xs with
    | nil => exact absurd rfl hne
    | cons first rest => exact ⟨_, rfl⟩
  obtain ⟨hx, htighter⟩ := (tightestBy?_eq_some_iff hdistinct).mp hfound
  refine ⟨x, hx, htighter, fun ys hperm => ?_⟩
  rw [tightestBy?_eq_some_iff ((hperm.map spanOf).nodup_iff.mpr hdistinct)]
  exact ⟨hperm.mem_iff.mpr hx, fun y hy => htighter y (hperm.mem_iff.mp hy)⟩

/-- A span, two parts of it that touch, and an inverted span, which one of the parts encloses and the
other does not. It is tighter than all three, and found in every order. -/
theorem linearly_ordered_with_inverted_span :
    let whole : Span := ⟨⟨0, 0⟩, ⟨9, 0⟩⟩
    let left : Span := ⟨⟨0, 0⟩, ⟨1, 0⟩⟩
    let right : Span := ⟨⟨1, 0⟩, ⟨9, 0⟩⟩
    let inverted : Span := ⟨⟨5, 0⟩, ⟨2, 0⟩⟩
    right.encloses inverted = true ∧ left.encloses inverted = false ∧
      inverted.isTighterThan right = true ∧ right.isTighterThan left = true ∧
      inverted.isTighterThan left = true ∧ left.isTighterThan inverted = false ∧
      ∀ ys, ys.Perm [whole, left, inverted, right] → tightestBy? id ys = some inverted := by
  intro whole left right inverted
  obtain ⟨-, -, htrans, hone, hfound⟩ := linearly_ordered_by_tightness
  have hinverted : inverted.isTighterThan right = true := by decide
  have hright : right.isTighterThan left = true := by decide
  have hboth := htrans inverted right left hinverted hright
  have hback := hone inverted left (by decide)
  rw [hboth] at hback
  obtain ⟨x, -, -, hx⟩ := hfound Span id [whole, left, inverted, right] (by decide) (by decide)
  have hfirst : tightestBy? id [whole, left, inverted, right] = some inverted := by decide
  cases Option.some.inj (hfirst.symm.trans (hx _ (.refl _)))
  exact ⟨by decide, by decide, hinverted, hright, hboth, hback, hx⟩

end Span

end CodeInsight

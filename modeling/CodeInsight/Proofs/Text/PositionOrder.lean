/-
# Positions in order

Positions are ordered by line first and by column within a line, and this is a linear
order: of any two positions, one comes first unless they are the same.
-/

import CodeInsight.Text.Position
import Mathlib.Order.Defs.LinearOrder

namespace CodeInsight

namespace Position

theorem le_iff {p q : Position} :
    p ≤ q ↔ p.line.toNat < q.line.toNat ∨
      p.line.toNat = q.line.toNat ∧ p.character.toNat ≤ q.character.toNat := by
  rw [← UInt32.lt_iff_toNat_lt, UInt32.toNat_inj, ← UInt32.le_iff_toNat_le]
  exact Iff.rfl

theorem lt_iff {p q : Position} :
    p < q ↔ p.line.toNat < q.line.toNat ∨
      p.line.toNat = q.line.toNat ∧ p.character.toNat < q.character.toNat := by
  rw [← UInt32.lt_iff_toNat_lt, UInt32.toNat_inj, ← UInt32.lt_iff_toNat_lt]
  exact Iff.rfl

theorem eq_iff {p q : Position} :
    p = q ↔ p.line.toNat = q.line.toNat ∧ p.character.toNat = q.character.toNat := by
  rw [UInt32.toNat_inj, UInt32.toNat_inj]
  cases p
  cases q
  simp

theorem le_refl (p : Position) : p ≤ p :=
  le_iff.mpr (.inr ⟨rfl, Nat.le_refl _⟩)

theorem le_trans {p q r : Position} (hpq : p ≤ q) (hqr : q ≤ r) : p ≤ r := by
  rw [le_iff] at hpq hqr ⊢
  omega

theorem compare_eq (p q : Position) : compare p q = compareOfLessAndEq p q := by
  show (compareOfLessAndEq p.line q.line).then (compareOfLessAndEq p.character q.character) = _
  simp only [compareOfLessAndEq, lt_iff, eq_iff, UInt32.lt_iff_toNat_lt, ← UInt32.toNat_inj]
  rcases Nat.lt_trichotomy p.line.toNat q.line.toNat with hline | hline | hline
  · simp [hline]
  · simp [hline]
  · simp [Nat.ne_of_gt hline, Nat.lt_asymm hline]

instance : LinearOrder Position where
  le_refl := le_refl
  le_trans _ _ _ := le_trans
  lt_iff_le_not_ge p q := by
    rw [lt_iff, le_iff, le_iff]
    omega
  le_antisymm p q hpq hqp := by
    rw [le_iff] at hpq hqp
    rw [eq_iff]
    omega
  le_total p q := by
    rw [le_iff, le_iff]
    omega
  toDecidableLE := inferInstance
  toDecidableLT := inferInstance
  toDecidableEq := inferInstance
  compare_eq_compareOfLessAndEq := compare_eq

end Position

end CodeInsight

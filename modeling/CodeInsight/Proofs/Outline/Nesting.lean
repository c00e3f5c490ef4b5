/-
# Outlines whose regions nest

Where every region encloses its children and no position is in two of them, the regions at a
position stand in one line from the inside out. The path inwards goes through all of them: a
region off the path would have to be below a sibling of one on it, and so the position would
be in two siblings.

Then there is nothing to choose between siblings, and it makes no difference in which order
they were added.
-/

import CodeInsight.Proofs.Outline.Descent
import Mathlib.Logic.Equiv.Basic

namespace CodeInsight

/-- Two spans share a position just if the later of their starts is not behind the earlier of their
ends. -/
theorem Span.exists_contains_both_iff {s t : Span} :
    (∃ pos, s.contains pos = true ∧ t.contains pos = true) ↔
      max s.start t.start ≤ min s.stop t.stop := by
  simp only [Span.contains, Bool.and_eq_true, decide_eq_true_eq, max_le_iff, le_min_iff]
  constructor
  · rintro ⟨pos, ⟨hs, hs'⟩, ht, ht'⟩
    exact ⟨⟨hs.trans hs', ht.trans hs'⟩, hs.trans ht', ht.trans ht'⟩
  · rintro ⟨⟨hs, hts⟩, hst, ht⟩
    rcases le_total s.start t.start with hle | hle
    · exact ⟨t.start, ⟨hle, hts⟩, le_rfl, ht⟩
    · exact ⟨s.start, ⟨le_rfl, hs⟩, hle, hst⟩

namespace Outline

variable {α : Type} {o other : Outline α} {pos : Position} {outer start last id : RegionId α}
  {path : List (RegionId α)}

/-- One region encloses another. -/
def Encloses (o : Outline α) (outer inner : RegionId α) : Prop :=
  ∃ s ∈ o.span? outer, ∃ t ∈ o.span? inner, s.encloses t = true

/-- From `outer` inwards, regions enclose their children, and siblings share no position. -/
structure NestedWithin (o : Outline α) (outer : RegionId α) : Prop where
  encloses : ∀ parent child, outer ∈ o.ancestors parent → o.parent? child = some parent →
    o.Encloses parent child
  disjoint : ∀ parent first second pos, outer ∈ o.ancestors parent →
    o.parent? first = some parent → o.parent? second = some parent →
    o.Contains first pos → o.Contains second pos → first = second

/-- From `start` inwards, `found` is the innermost region at a position: the regions that contain it
are those met on the way from `found` outwards to `start`. -/
def IsInnermost (o : Outline α) (start : RegionId α) (pos : Position) (found : RegionId α) : Prop :=
  ∃ inner around, o.ancestors found = inner ++ start :: around ∧
    ∀ id, (start ∈ o.ancestors id ∧ o.Contains id pos) ↔ id ∈ inner ++ [start]

/-- The regions of one outline are those of another, renumbered. Siblings may stand in a different
order. -/
structure Rearranges (place : RegionId α ≃ RegionId α) (o other : Outline α) : Prop where
  span : ∀ id, other.span? (place id) = o.span? id
  parent : ∀ id, other.parent? (place id) = (o.parent? id).map place

/-! ## Regions that enclose each other -/

theorem Encloses.refl {region : Region α} (found : o.region? id = some region) :
    o.Encloses id id := by
  have hspan : o.span? id = some region.span := by rw [span?, found]; rfl
  exact ⟨region.span, hspan, region.span, hspan, by simp [Span.encloses]⟩

theorem Encloses.trans {middle : RegionId α} (outside : o.Encloses outer middle)
    (inside : o.Encloses middle id) : o.Encloses outer id := by
  obtain ⟨s, hs, t, ht, hst⟩ := outside
  obtain ⟨t', ht', u, hu, htu⟩ := inside
  cases Option.some.inj (ht.symm.trans ht')
  refine ⟨s, hs, u, hu, ?_⟩
  simp only [Span.encloses, Bool.and_eq_true, decide_eq_true_eq] at hst htu ⊢
  exact ⟨hst.1.trans htu.1, htu.2.trans hst.2⟩

theorem Contains.of_encloses (contains : o.Contains id pos) (encloses : o.Encloses outer id) :
    o.Contains outer pos := by
  obtain ⟨t, ht, hpos⟩ := contains
  obtain ⟨s, hs, t', ht', hst⟩ := encloses
  cases Option.some.inj (ht.symm.trans ht')
  refine ⟨s, hs, ?_⟩
  simp only [Span.encloses, Span.contains, Bool.and_eq_true, decide_eq_true_eq] at hst hpos ⊢
  exact ⟨hst.1.trans hpos.1, hpos.2.trans hst.2⟩

namespace NestedWithin

/-- A region encloses all that is further inside. -/
theorem encloses_of_mem_ancestors (nested : o.NestedWithin outer) (linked : o.WellLinked)
    {middle : RegionId α} (within : outer ∈ o.ancestors middle)
    (inside : middle ∈ o.ancestors id) : o.Encloses middle id := by
  induction id using linked.outward_induction with
  | outermost id houtermost =>
      obtain ⟨region, hregion⟩ := linked.exists_region?_of_mem_ancestors inside
      cases linked.eq_of_mem_ancestors_of_outermost houtermost inside
      exact .refl hregion
  | inside id parent hparent ih =>
      obtain ⟨region, hregion⟩ := linked.exists_region?_of_mem_ancestors inside
      rw [linked.ancestors_of_parent? hparent, List.mem_cons] at inside
      rcases inside with rfl | hinside
      · exact .refl hregion
      · have hparentWithin := linked.mem_ancestors_trans within hinside
        exact (ih hinside).trans (nested.encloses parent id hparentWithin hparent)

/-- A region at a position that is further inside another one is inside a child of it at the
position. -/
theorem exists_child_at (nested : o.NestedWithin outer) (linked : o.WellLinked)
    (within : outer ∈ o.ancestors start) (inside : start ∈ o.ancestors id) (ne : id ≠ start)
    (contains : o.Contains id pos) :
    ∃ child, o.parent? child = some start ∧ outer ∈ o.ancestors child ∧
      child ∈ o.ancestors id ∧ o.Contains child pos := by
  obtain ⟨child, hparent, hinside⟩ := linked.exists_child_of_mem_ancestors inside ne
  have hwithin : outer ∈ o.ancestors child :=
    linked.mem_ancestors_trans within (linked.mem_ancestors_of_parent? hparent)
  have hencloses := nested.encloses_of_mem_ancestors linked hwithin hinside
  exact ⟨child, hparent, hwithin, hinside, contains.of_encloses hencloses⟩

end NestedWithin

/-! ## The regions on the path -/

namespace Descent

/-- The regions on a path contain the position and are inside its start. -/
theorem mem_ancestors_of_mem (linked : o.WellLinked) (descent : o.Descent pos start path last)
    (contains : o.Contains start pos) (met : id ∈ start :: path) :
    start ∈ o.ancestors id ∧ o.Contains id pos := by
  induction descent with
  | @stop start =>
      cases List.mem_singleton.mp met
      exact ⟨contains.mem_ancestors_self linked, contains⟩
  | @step start child last path leads onwards ih =>
      rcases List.mem_cons.mp met with rfl | hmet
      · exact ⟨contains.mem_ancestors_self linked, contains⟩
      · obtain ⟨hinside, hcontains⟩ := ih leads.contains hmet
        have hstart := linked.mem_ancestors_of_parent? leads.parent
        exact ⟨linked.mem_ancestors_trans hstart hinside, hcontains⟩

/-- Where regions nest, the path leaves out no region that contains the position. -/
theorem mem_of_mem_ancestors (linked : o.WellLinked) (nested : o.NestedWithin outer)
    (within : outer ∈ o.ancestors start) (descent : o.Descent pos start path last)
    (inside : start ∈ o.ancestors id) (contains : o.Contains id pos) : id ∈ start :: path := by
  induction descent with
  | @stop start innermost =>
      by_contra hmet
      have hne : id ≠ start := fun hsame => hmet (List.mem_singleton.mpr hsame)
      obtain ⟨child, hparent, -, -, hcontains⟩ :=
        nested.exists_child_at linked within inside hne contains
      exact innermost child hparent hcontains
  | @step start child last path leads onwards ih =>
      by_cases hsame : id = start
      · exact hsame ▸ List.mem_cons_self
      · obtain ⟨through, hparent, hwithin, hinside, hcontains⟩ :=
          nested.exists_child_at linked within inside hsame contains
        -- The position is in no other child than the one that the path goes on to.
        cases nested.disjoint start through child pos within hparent leads.parent hcontains
          leads.contains
        exact List.mem_cons_of_mem _ (ih hwithin hinside)

/-- From each of its regions onwards a path is a path. -/
theorem onwards_of_mem (descent : o.Descent pos start path last) (met : id ∈ start :: path) :
    ∃ rest, o.Descent pos id rest last := by
  induction descent with
  | stop innermost =>
      cases List.mem_singleton.mp met
      exact ⟨[], .stop innermost⟩
  | step leads onwards ih =>
      rcases List.mem_cons.mp met with rfl | hmet
      · exact ⟨_, .step leads onwards⟩
      · exact ih hmet

end Descent

/-! ## The innermost region -/

/-- The regions within `outer` at a position enclose the end of the path. -/
theorem NestedWithin.encloses_last (nested : o.NestedWithin outer) (linked : o.WellLinked)
    (inOrder : o.InOrder) (within : outer ∈ o.ancestors start) (contains : o.Contains start pos)
    (descent : o.Descent pos start path last) (idWithin : outer ∈ o.ancestors id)
    (idContains : o.Contains id pos) : o.Encloses id last := by
  obtain ⟨region, hregion⟩ := linked.exists_region?_of_mem_ancestors within
  have houter := linked.mem_ancestors_self hregion
  have houterContains : o.Contains outer pos :=
    contains.of_encloses (nested.encloses_of_mem_ancestors linked houter within)
  -- The path from `outer` goes through both regions, and from `start` on it is the given one.
  obtain ⟨whole, inmost, -, hwhole⟩ := exists_innermost? linked inOrder houterContains
  obtain ⟨rest, hrest⟩ := hwhole.onwards_of_mem
    (hwhole.mem_of_mem_ancestors linked nested houter within contains)
  obtain ⟨-, rfl⟩ := descent.unique hrest
  obtain ⟨onwards, honwards⟩ := hwhole.onwards_of_mem
    (hwhole.mem_of_mem_ancestors linked nested houter idWithin idContains)
  have hinside := honwards.descendsTo.mem_ancestors linked idContains
  exact nested.encloses_of_mem_ancestors linked idWithin hinside

/-- Where regions nest, the path ends at the innermost region. -/
theorem NestedWithin.isInnermost (nested : o.NestedWithin outer) (linked : o.WellLinked)
    (within : outer ∈ o.ancestors start) (contains : o.Contains start pos)
    (descent : o.Descent pos start path last) : o.IsInnermost start pos last := by
  obtain ⟨region, hregion⟩ := contains.exists_region?
  obtain ⟨around, haround⟩ := linked.ancestors_eq_cons hregion
  refine ⟨path.reverse, around, by rw [descent.ancestors_last linked, haround], fun id => ?_⟩
  have hmem : id ∈ path.reverse ++ [start] ↔ id ∈ start :: path := by
    rw [List.mem_append, List.mem_reverse, List.mem_singleton, List.mem_cons, or_comm]
  rw [hmem]
  constructor
  · rintro ⟨hinside, hcontains⟩
    exact descent.mem_of_mem_ancestors linked nested within hinside hcontains
  · exact descent.mem_ancestors_of_mem linked contains

/-! ## Siblings in a different order -/

namespace Rearranges

variable {place : RegionId α ≃ RegionId α}

theorem contains_iff (rearranges : Rearranges place o other) :
    other.Contains (place id) pos ↔ o.Contains id pos := by
  rw [Contains, Contains, rearranges.span]

theorem parent?_iff (rearranges : Rearranges place o other) {parent : RegionId α} :
    other.parent? (place id) = some (place parent) ↔ o.parent? id = some parent := by
  rw [rearranges.parent, Option.map_eq_some_iff]
  simp

/-- Where regions nest, the path goes through the same regions in whatever order siblings were
added. -/
theorem descent (rearranges : Rearranges place o other) (linked : o.WellLinked)
    (nested : o.NestedWithin outer) (within : outer ∈ o.ancestors start)
    (descent : o.Descent pos start path last) :
    other.Descent pos (place start) (path.map place) (place last) := by
  induction descent with
  | stop innermost =>
      refine .stop fun child hparent hcontains => ?_
      obtain ⟨child, rfl⟩ := place.surjective child
      exact innermost child (rearranges.parent?_iff.mp hparent)
        (rearranges.contains_iff.mp hcontains)
  | @step start child last path leads onwards ih =>
      have hwithin : outer ∈ o.ancestors child :=
        linked.mem_ancestors_trans within (linked.mem_ancestors_of_parent? leads.parent)
      refine .step ⟨?_, ?_, ?_⟩ (ih hwithin)
      · exact rearranges.parent?_iff.mpr leads.parent
      · exact rearranges.contains_iff.mpr leads.contains
      · intro sibling hparent hcontains hne
        obtain ⟨sibling, rfl⟩ := place.surjective sibling
        have hsame := nested.disjoint start sibling child pos within
          (rearranges.parent?_iff.mp hparent) leads.parent (rearranges.contains_iff.mp hcontains)
          leads.contains
        exact absurd (congrArg place hsame) hne

/-- Where regions nest, the search finds the same region in whatever order siblings were added. -/
theorem innermost?_eq (rearranges : Rearranges place o other) (linked : o.WellLinked)
    (nested : o.NestedWithin outer) (within : outer ∈ o.ancestors start)
    (contains : o.Contains start pos) (descent : o.Descent pos start path last)
    (otherLinked : other.WellLinked) (otherInOrder : other.InOrder) :
    other.innermost? (place start) pos = some (place last) := by
  obtain ⟨otherPath, found, hfound, hdescent⟩ :=
    exists_innermost? otherLinked otherInOrder (rearranges.contains_iff.mpr contains)
  obtain ⟨-, hlast⟩ := hdescent.unique (rearranges.descent linked nested within descent)
  rw [hfound, hlast]

end Rearranges

/-- Where regions nest, the search finds the innermost region. All regions within `outer` at the
position enclose it, and it is found in whatever order siblings were added. -/
theorem NestedWithin.exists_innermost? (nested : o.NestedWithin outer) (linked : o.WellLinked)
    (inOrder : o.InOrder) (within : outer ∈ o.ancestors start) (contains : o.Contains start pos) :
    ∃ found, o.innermost? start pos = some found ∧ o.IsInnermost start pos found ∧
      (∀ id, outer ∈ o.ancestors id → o.Contains id pos → o.Encloses id found) ∧
      ∀ (place : RegionId α ≃ RegionId α) (other : Outline α), Rearranges place o other →
        other.WellLinked → other.InOrder →
        other.innermost? (place start) pos = some (place found) := by
  obtain ⟨path, found, hfound, hdescent⟩ := Outline.exists_innermost? linked inOrder contains
  refine ⟨found, hfound, nested.isInnermost linked within contains hdescent, ?_, ?_⟩
  · intro id
    exact nested.encloses_last linked inOrder within contains hdescent
  · intro place other rearranges
    exact rearranges.innermost?_eq linked nested within contains hdescent

/-! ## Deciding whether regions nest -/

/-- Two regions share no position. -/
def Apart (o : Outline α) (first second : RegionId α) : Prop :=
  ∀ s ∈ o.span? first, ∀ t ∈ o.span? second, ¬ max s.start t.start ≤ min s.stop t.stop

theorem apart_iff {first second : RegionId α} :
    o.Apart first second ↔ ∀ pos, o.Contains first pos → ¬ o.Contains second pos := by
  constructor
  · rintro apart pos ⟨s, hs, hspos⟩ ⟨t, ht, htpos⟩
    exact apart s hs t ht (Span.exists_contains_both_iff.mp ⟨pos, hspos, htpos⟩)
  · intro apart s hs t ht hshared
    obtain ⟨pos, hspos, htpos⟩ := Span.exists_contains_both_iff.mpr hshared
    exact apart pos ⟨s, hs, hspos⟩ ⟨t, ht, htpos⟩

instance : Decidable (o.Encloses outer id) :=
  inferInstanceAs (Decidable (∃ s ∈ o.span? outer, ∃ t ∈ o.span? id, s.encloses t = true))

instance {first second : RegionId α} : Decidable (o.Apart first second) :=
  inferInstanceAs (Decidable (∀ s ∈ o.span? first, ∀ t ∈ o.span? second,
    ¬ max s.start t.start ≤ min s.stop t.stop))

/-- A region is enclosed by the one around it and shares no position with another one in it. -/
def FitsInto (o : Outline α) (id parent : RegionId α) : Prop :=
  o.Encloses parent id ∧
    ∀ i < o.size, o.parent? ⟨i⟩ = some parent → id ≠ ⟨i⟩ → o.Apart id ⟨i⟩

instance {parent : RegionId α} : Decidable (o.FitsInto id parent) :=
  inferInstanceAs (Decidable (_ ∧ ∀ i < o.size, _ → id ≠ ⟨i⟩ → o.Apart id ⟨i⟩))

/-- Whether regions nest is seen from each of them. -/
theorem nestedWithin_iff :
    o.NestedWithin outer ↔
      ∀ i < o.size, ∀ parent ∈ o.parent? ⟨i⟩, outer ∈ o.ancestors parent →
        o.FitsInto ⟨i⟩ parent := by
  constructor
  · intro nested i _ parent hparent hwithin
    refine ⟨nested.encloses parent ⟨i⟩ hwithin hparent, fun j _ hsibling hne => ?_⟩
    refine apart_iff.mpr fun pos hcontains hcontains' => hne ?_
    exact nested.disjoint parent ⟨i⟩ ⟨j⟩ pos hwithin hparent hsibling hcontains hcontains'
  · intro checked
    constructor
    · intro parent child hwithin hparent
      exact (checked child.index (lt_size_of_parent? hparent) parent hparent hwithin).1
    · intro parent first second pos hwithin hfirst hsecond hcontains hcontains'
      by_contra hne
      have hfits := checked first.index (lt_size_of_parent? hfirst) parent hfirst hwithin
      have hapart := hfits.2 second.index (lt_size_of_parent? hsecond) hsecond hne
      exact apart_iff.mp hapart pos hcontains hcontains'

instance : Decidable (o.NestedWithin outer) := decidable_of_iff _ nestedWithin_iff.symm

/-- Two regions exchange their numbers. -/
theorem Rearranges.swap {a b : RegionId α} (ha : a.index < o.size)
    (hb : b.index < o.size) (size : other.size = o.size)
    (span : ∀ i < o.size, other.span? (Equiv.swap a b ⟨i⟩) = o.span? ⟨i⟩)
    (parent : ∀ i < o.size,
      other.parent? (Equiv.swap a b ⟨i⟩) = (o.parent? ⟨i⟩).map (Equiv.swap a b)) :
    Rearranges (Equiv.swap a b) o other := by
  have hbeyond : ∀ id : RegionId α, ¬ id.index < o.size →
      Equiv.swap a b id = id ∧ o.region? id = none ∧ other.region? id = none := by
    intro id hid
    have hnone : o.region? id = none := Array.getElem?_eq_none (Nat.not_lt.mp hid)
    have hnone' : other.region? id = none := by
      refine Array.getElem?_eq_none (Nat.not_lt.mp ?_)
      rwa [size.symm] at hid
    refine ⟨Equiv.swap_apply_of_ne_of_ne ?_ ?_, hnone, hnone'⟩
    · rintro rfl
      exact hid ha
    · rintro rfl
      exact hid hb
  constructor
  · intro id
    by_cases hid : id.index < o.size
    · exact span id.index hid
    · obtain ⟨hplace, hnone, hnone'⟩ := hbeyond id hid
      rw [hplace, span?, span?, hnone, hnone']
  · intro id
    by_cases hid : id.index < o.size
    · exact parent id.index hid
    · obtain ⟨hplace, hnone, hnone'⟩ := hbeyond id hid
      rw [hplace, parent?, parent?, hnone, hnone']
      rfl

end Outline

end CodeInsight

/-
# The links of an outline

A region names the one around it, and it lists those directly inside it. The two are
kept apart, and every operation that changes an outline changes both. `WellLinked` says
that they agree, and that no region is around itself, however far out one goes.

The obvious measure for the latter, the number of a region, falls on the way outwards
only until a region is put above the root, since this one comes later than the root. So
a depth is asked for that need not be the number.
-/

import CodeInsight.Outline.Walk

namespace CodeInsight

theorem RegionId.eq_iff {α : Type} {a b : RegionId α} : a = b ↔ a.index = b.index := by
  cases a
  cases b
  simp

namespace Outline

variable {α : Type} {o after : Outline α} {id parent : RegionId α} {label : α} {span : Span}

/-- What a region is labelled with. -/
def label? (o : Outline α) (id : RegionId α) : Option α := (o.region? id).map (·.label)

/-! ## What the operations do to single regions -/

theorem region?_nextId (o : Outline α) : o.region? o.nextId = none :=
  Array.getElem?_eq_none (Nat.le_refl _)

theorem lt_size_of_region? {region : Region α} (found : o.region? id = some region) :
    id.index < o.size :=
  (Array.getElem?_eq_some_iff.mp found).1

/-- Regions after one of them was changed and another one was added behind them. -/
theorem region?_push_modify (o : Outline α) (changed : RegionId α)
    (change : Region α → Region α) (added : Region α) (id : RegionId α) :
    region? ⟨(o.regions.modify changed.index change).push added⟩ id =
      if id = o.nextId then some added
      else (o.region? id).map fun region => if id = changed then change region else region := by
  have hnext : id = o.nextId ↔ id.index = (o.regions.modify changed.index change).size := by
    rw [RegionId.eq_iff, Array.size_modify]
    rfl
  rw [region?, Array.getElem?_push, Array.getElem?_modify]
  by_cases hadded : id = o.nextId
  · rw [if_pos hadded, if_pos (hnext.mp hadded)]
  · rw [if_neg hadded, if_neg (mt hnext.mpr hadded)]
    by_cases hchanged : id = changed
    · simp [hchanged, region?]
    · have hindex : changed.index ≠ id.index := fun h => hchanged (RegionId.eq_iff.mpr h.symm)
      simp [hchanged, hindex, region?]

theorem region?_ofRoot (label : α) (span : Span) (id : RegionId α) :
    (ofRoot label span).region? id =
      if id = root then some ⟨root, label, span, none, []⟩ else none := by
  by_cases hid : id = root
  · rw [if_pos hid, hid]
    rfl
  · rw [if_neg hid]
    refine Array.getElem?_eq_none (Nat.one_le_iff_ne_zero.mpr ?_)
    exact fun hzero => hid (RegionId.eq_iff.mpr hzero)

/-- Adding a region asks for one to put it in, and gives it the next handle. -/
theorem insert?_eq_some_iff :
    o.insert? parent label span = some (after, id) ↔
      parent.index < o.size ∧ id = o.nextId ∧
        after = ⟨(o.regions.modify parent.index fun region =>
          { region with children := region.children ++ [o.nextId] }).push
            ⟨o.nextId, label, span, some parent, []⟩⟩ := by
  rw [insert?]
  by_cases hparent : parent.index < o.size
  · rw [if_pos hparent, Option.some.injEq, Prod.mk.injEq]
    exact ⟨fun ⟨hafter, hid⟩ => ⟨hparent, hid.symm, hafter.symm⟩,
      fun ⟨_, hid, hafter⟩ => ⟨hafter.symm, hid.symm⟩⟩
  · rw [if_neg hparent]
    exact iff_of_false nofun fun h => hparent h.1

/-- A region is not added just if there is none to put it in. -/
theorem insert?_eq_none_iff :
    o.insert? parent label span = none ↔ o.region? parent = none := by
  rw [insert?, region?, Array.getElem?_eq_none_iff, ← Nat.not_lt]
  split
  · exact iff_of_false nofun fun habsent => habsent ‹_›
  · exact iff_of_true rfl ‹_›

theorem region?_insert? (inserted : o.insert? parent label span = some (after, id))
    (other : RegionId α) :
    after.region? other =
      if other = o.nextId then some ⟨o.nextId, label, span, some parent, []⟩
      else (o.region? other).map fun region =>
        if other = parent then { region with children := region.children ++ [o.nextId] }
        else region := by
  obtain ⟨-, -, rfl⟩ := insert?_eq_some_iff.mp inserted
  exact region?_push_modify o parent _ _ other

theorem region?_enclose (o : Outline α) (label : α) (span : Span) (other : RegionId α) :
    (o.enclose label span).1.region? other =
      if other = o.nextId then some ⟨o.nextId, label, span, none, [root]⟩
      else (o.region? other).map fun region =>
        if other = root then { region with parent := some o.nextId } else region :=
  region?_push_modify o root _ _ other

theorem region?_relabel (o : Outline α) (id : RegionId α) (change : α → α)
    (other : RegionId α) :
    (o.relabel id change).region? other = (o.region? other).map fun region =>
      if other = id then { region with label := change region.label } else region := by
  rw [region?, relabel, Array.getElem?_modify]
  by_cases hother : other = id
  · simp [hother, region?]
  · have hindex : id.index ≠ other.index := fun h => hother (RegionId.eq_iff.mpr h.symm)
    simp [hother, hindex, region?]

/-! ## Labels, parents and children -/

theorem childrenOf_of_region? {region : Region α} (found : o.region? id = some region) :
    o.childrenOf id = region.children := by
  rw [childrenOf, found]

theorem childrenOf_of_region?_eq_none (absent : o.region? id = none) : o.childrenOf id = [] := by
  rw [childrenOf, absent]

theorem label?_ofRoot (label : α) (span : Span) (id : RegionId α) :
    (ofRoot label span).label? id = if id = root then some label else none := by
  rw [label?, region?_ofRoot]
  split <;> rfl

theorem parent?_ofRoot (label : α) (span : Span) (id : RegionId α) :
    (ofRoot label span).parent? id = none := by
  rw [parent?, region?_ofRoot]
  split <;> rfl

theorem childrenOf_ofRoot (label : α) (span : Span) (id : RegionId α) :
    (ofRoot label span).childrenOf id = [] := by
  have hregion := region?_ofRoot label span id
  split at hregion
  · exact childrenOf_of_region? hregion
  · exact childrenOf_of_region?_eq_none hregion

theorem label?_insert? (inserted : o.insert? parent label span = some (after, id))
    (other : RegionId α) :
    after.label? other = if other = o.nextId then some label else o.label? other := by
  rw [label?, region?_insert? inserted]
  split
  · rfl
  · by_cases hother : other = parent <;> simp [hother, label?, Function.comp_def]

theorem parent?_insert? (inserted : o.insert? parent label span = some (after, id))
    (other : RegionId α) :
    after.parent? other = if other = o.nextId then some parent else o.parent? other := by
  rw [parent?, region?_insert? inserted]
  split
  · rfl
  · rw [Option.bind_map]
    refine congrArg (o.region? other).bind (funext fun region => ?_)
    dsimp only [Function.comp]
    split <;> rfl

theorem childrenOf_insert? (inserted : o.insert? parent label span = some (after, id))
    (other : RegionId α) :
    after.childrenOf other =
      o.childrenOf other ++ if other = parent then [o.nextId] else [] := by
  obtain ⟨hparent, -, -⟩ := insert?_eq_some_iff.mp inserted
  have hregion := region?_insert? inserted other
  by_cases hnew : other = o.nextId
  · have hother : other ≠ parent := by
      rintro rfl
      rw [hnew] at hparent
      exact Nat.lt_irrefl _ hparent
    rw [if_pos hnew] at hregion
    rw [childrenOf_of_region? hregion, if_neg hother, hnew,
      childrenOf_of_region?_eq_none o.region?_nextId]
    rfl
  · rw [if_neg hnew] at hregion
    cases hfound : o.region? other with
    | none =>
        have hother : other ≠ parent := by
          rintro rfl
          exact Nat.not_le.mpr hparent (Array.getElem?_eq_none_iff.mp hfound)
        rw [hfound] at hregion
        rw [childrenOf_of_region?_eq_none hregion, childrenOf_of_region?_eq_none hfound,
          if_neg hother]
        rfl
    | some region =>
        rw [hfound] at hregion
        rw [childrenOf_of_region? hregion, childrenOf_of_region? hfound]
        split <;> simp

theorem label?_enclose (o : Outline α) (label : α) (span : Span) (other : RegionId α) :
    (o.enclose label span).1.label? other =
      if other = o.nextId then some label else o.label? other := by
  rw [label?, region?_enclose]
  split
  · rfl
  · by_cases hother : other = root <;> simp [hother, label?, Function.comp_def]

theorem parent?_enclose (nonempty : 0 < o.size) (label : α) (span : Span) (other : RegionId α) :
    (o.enclose label span).1.parent? other =
      if other = o.nextId then none else if other = root then some o.nextId
      else o.parent? other := by
  rw [parent?, region?_enclose]
  split
  · rfl
  · by_cases hother : other = root
    · subst hother
      have hfound : o.region? root = some o.regions[0] := Array.getElem?_eq_getElem nonempty
      simp [hfound]
    · simp [hother, parent?]

theorem childrenOf_enclose (o : Outline α) (label : α) (span : Span) (other : RegionId α) :
    (o.enclose label span).1.childrenOf other =
      if other = o.nextId then [root] else o.childrenOf other := by
  have hregion := o.region?_enclose label span other
  split at hregion
  · rw [childrenOf_of_region? hregion, if_pos ‹_›]
  · rw [if_neg ‹_›]
    cases hfound : o.region? other with
    | none =>
        rw [hfound] at hregion
        rw [childrenOf_of_region?_eq_none hregion, childrenOf_of_region?_eq_none hfound]
    | some region =>
        rw [hfound] at hregion
        rw [childrenOf_of_region? hregion, childrenOf_of_region? hfound]
        split <;> rfl

theorem label?_relabel (o : Outline α) (id : RegionId α) (change : α → α)
    (other : RegionId α) :
    (o.relabel id change).label? other =
      if other = id then (o.label? other).map change else o.label? other := by
  rw [label?, region?_relabel]
  by_cases hother : other = id <;> simp [hother, label?, Function.comp_def]

@[simp]
theorem parent?_relabel (o : Outline α) (id : RegionId α) (change : α → α)
    (other : RegionId α) : (o.relabel id change).parent? other = o.parent? other := by
  rw [parent?, region?_relabel, Option.bind_map]
  refine congrArg (o.region? other).bind (funext fun region => ?_)
  dsimp only [Function.comp]
  split <;> rfl

@[simp]
theorem childrenOf_relabel (o : Outline α) (id : RegionId α) (change : α → α)
    (other : RegionId α) : (o.relabel id change).childrenOf other = o.childrenOf other := by
  have hregion := o.region?_relabel id change other
  cases hfound : o.region? other with
  | none =>
      rw [hfound] at hregion
      rw [childrenOf_of_region?_eq_none hregion, childrenOf_of_region?_eq_none hfound]
  | some region =>
      rw [hfound] at hregion
      rw [childrenOf_of_region? hregion, childrenOf_of_region? hfound]
      split <;> rfl

@[simp]
theorem size_relabel (o : Outline α) (id : RegionId α) (change : α → α) :
    (o.relabel id change).size = o.size :=
  Array.size_modify

theorem parent?_nextId (o : Outline α) : o.parent? o.nextId = none := by
  rw [parent?, region?_nextId]
  rfl

theorem size_insert? (inserted : o.insert? parent label span = some (after, id)) :
    after.size = o.size + 1 := by
  obtain ⟨-, -, rfl⟩ := insert?_eq_some_iff.mp inserted
  simp [size]

theorem size_enclose (o : Outline α) (label : α) (span : Span) :
    (o.enclose label span).1.size = o.size + 1 := by
  simp [size, enclose]

/-! ## Links that agree -/

/-- The handles, parents and children of an outline fit together. -/
structure WellLinked (o : Outline α) : Prop where
  /-- A region knows the handle that it is found by. -/
  ids : ∀ id region, o.region? id = some region → region.id = id
  children_iff : ∀ parent child, child ∈ o.childrenOf parent ↔ o.parent? child = some parent
  children_nodup : ∀ parent, (o.childrenOf parent).Nodup
  /-- Regions have a depth that grows inwards, and there are fewer depths than regions. -/
  grounded : ∃ depth : RegionId α → Nat,
    (∀ child parent, o.parent? child = some parent → depth parent < depth child) ∧
      ∀ id, depth id < o.size

namespace WellLinked

/-- A region around another one is not the one that is still to come. -/
theorem ne_nextId (linked : o.WellLinked) {child : RegionId α}
    (around : o.parent? child = some parent) : parent ≠ o.nextId := by
  rintro rfl
  have hchild := (linked.children_iff o.nextId child).mpr around
  rw [childrenOf_of_region?_eq_none o.region?_nextId] at hchild
  cases hchild

theorem ofRoot (label : α) (span : Span) : (ofRoot label span).WellLinked where
  ids id region found := by
    rw [region?_ofRoot] at found
    split at found
    · cases found
      exact ‹id = root›.symm
    · cases found
  children_iff around child := by
    rw [childrenOf_ofRoot, parent?_ofRoot]
    exact iff_of_false List.not_mem_nil nofun
  children_nodup around := by
    rw [childrenOf_ofRoot]
    exact .nil
  grounded := ⟨fun _ => 0, fun child around hchild => by simp [parent?_ofRoot] at hchild,
    fun _ => Nat.one_pos⟩

theorem insert? (linked : o.WellLinked)
    (inserted : o.insert? parent label span = some (after, id)) : after.WellLinked where
  ids other region found := by
    rw [region?_insert? inserted] at found
    split at found
    · cases found
      exact ‹other = o.nextId›.symm
    · obtain ⟨old, hold, rfl⟩ := Option.map_eq_some_iff.mp found
      have hid := linked.ids other old hold
      split <;> exact hid
  children_iff around child := by
    rw [childrenOf_insert? inserted, parent?_insert? inserted, List.mem_append,
      linked.children_iff]
    by_cases hnew : child = o.nextId
    · subst hnew
      rw [if_pos rfl, parent?_nextId]
      by_cases haround : around = parent
      · simp [haround]
      · simp [haround, Ne.symm haround]
    · rw [if_neg hnew]
      by_cases haround : around = parent <;> simp [haround, hnew]
  children_nodup around := by
    rw [childrenOf_insert? inserted]
    by_cases haround : around = parent
    · rw [if_pos haround, List.nodup_append]
      refine ⟨linked.children_nodup around, List.pairwise_singleton _ _, ?_⟩
      intro child hchild new hnew
      rw [List.mem_singleton.mp hnew]
      rintro rfl
      rw [linked.children_iff, parent?_nextId] at hchild
      cases hchild
    · rw [if_neg haround, List.append_nil]
      exact linked.children_nodup around
  grounded := by
    obtain ⟨depth, hgrows, hbound⟩ := linked.grounded
    obtain ⟨hparent, -, -⟩ := insert?_eq_some_iff.mp inserted
    have hknown : parent ≠ o.nextId := by
      rintro rfl
      exact Nat.lt_irrefl _ hparent
    refine ⟨fun other => if other = o.nextId then depth parent + 1 else depth other, ?_, ?_⟩
    · intro child around hchild
      rw [parent?_insert? inserted] at hchild
      dsimp only
      split at hchild
      · cases hchild
        rw [if_neg hknown, if_pos ‹_›]
        exact Nat.lt_succ_self _
      · rw [if_neg (linked.ne_nextId hchild), if_neg ‹_›]
        exact hgrows child around hchild
    · intro other
      rw [size_insert? inserted]
      dsimp only
      split
      · exact Nat.succ_lt_succ (hbound parent)
      · exact Nat.lt_succ_of_lt (hbound other)

/-- A region may be put above the root if there is none yet. -/
theorem enclose (linked : o.WellLinked) (nonempty : 0 < o.size)
    (outermost : o.parent? root = none) (label : α) (span : Span) :
    (o.enclose label span).1.WellLinked where
  ids other region found := by
    rw [region?_enclose] at found
    split at found
    · cases found
      exact ‹other = o.nextId›.symm
    · obtain ⟨old, hold, rfl⟩ := Option.map_eq_some_iff.mp found
      have hid := linked.ids other old hold
      split <;> exact hid
  children_iff around child := by
    have hroot : root ≠ o.nextId := fun h => Nat.ne_of_lt nonempty (RegionId.eq_iff.mp h)
    rw [childrenOf_enclose, parent?_enclose nonempty]
    by_cases haround : around = o.nextId
    · rw [if_pos haround, haround, List.mem_singleton]
      by_cases hchild : child = root
      · simp [hchild, hroot]
      · rw [if_neg hchild]
        refine iff_of_false hchild ?_
        split
        · exact nofun
        · exact fun hparent => linked.ne_nextId hparent rfl
    · rw [if_neg haround, linked.children_iff]
      by_cases hnew : child = o.nextId
      · rw [if_pos hnew, hnew, parent?_nextId]
      · rw [if_neg hnew]
        by_cases hchild : child = root
        · rw [if_pos hchild, hchild, outermost, Option.some.injEq]
          exact iff_of_false nofun (Ne.symm haround)
        · rw [if_neg hchild]
  children_nodup around := by
    rw [childrenOf_enclose]
    split
    · exact List.pairwise_singleton _ _
    · exact linked.children_nodup around
  grounded := by
    obtain ⟨depth, hgrows, hbound⟩ := linked.grounded
    refine ⟨fun other => if other = o.nextId then 0 else depth other + 1, ?_, ?_⟩
    · intro child around hchild
      rw [parent?_enclose nonempty] at hchild
      dsimp only
      by_cases hnew : child = o.nextId
      · rw [if_pos hnew] at hchild
        cases hchild
      · rw [if_neg hnew] at hchild ⊢
        split at hchild
        · cases hchild
          rw [if_pos rfl]
          exact Nat.succ_pos _
        · rw [if_neg (linked.ne_nextId hchild)]
          exact Nat.succ_lt_succ (hgrows child around hchild)
    · intro other
      rw [size_enclose]
      dsimp only
      split
      · exact Nat.succ_pos _
      · exact Nat.succ_lt_succ (hbound other)

theorem relabel (linked : o.WellLinked) (id : RegionId α) (change : α → α) :
    (o.relabel id change).WellLinked where
  ids other region found := by
    rw [region?_relabel] at found
    obtain ⟨old, hold, rfl⟩ := Option.map_eq_some_iff.mp found
    have hid := linked.ids other old hold
    split <;> exact hid
  children_iff around child := by
    rw [childrenOf_relabel, parent?_relabel]
    exact linked.children_iff around child
  children_nodup around := by
    rw [childrenOf_relabel]
    exact linked.children_nodup around
  grounded := by
    simp only [parent?_relabel, size_relabel]
    exact linked.grounded

end WellLinked

end Outline

end CodeInsight

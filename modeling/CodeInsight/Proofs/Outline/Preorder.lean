/-
# The way inwards through an outline

The walk inwards keeps a stack of pending regions: it takes the first one and puts its
children in front of the others. What it should list is said by a recursion instead: a
region, and then what is listed from each of its children, child after child. In an outline
whose links agree there is exactly one such walk, and the stack produces it.

The stack counts its steps, and the count has to be shown to suffice. A walk meets a region
just where the way outwards from that region meets the start of the walk. As the way
outwards leads through one child only, nothing is met twice, and so a walk has no more steps
than there are regions.
-/

import CodeInsight.Proofs.Outline.Ancestors
import Mathlib.Data.List.Nodup
import Mathlib.Data.List.Perm.Subperm

namespace CodeInsight

namespace Outline

variable {α : Type} {o : Outline α} {id met : RegionId α} {region : Region α}
  {walk : RegionId α → List (RegionId α)}

/-! ## Preorder as a recursion -/

/-- A walk in preorder lists a region first, and behind it what it lists from the children of the
region, child after child. It lists nothing where there is no region. -/
def IsPreorder (o : Outline α) (walk : RegionId α → List (RegionId α)) : Prop :=
  ∀ id, walk id =
    match o.region? id with
    | some region => id :: region.children.flatMap walk
    | none => []

/-- A region and those inside it, each before its children, as far as they are less than `levels`
deeper. -/
def inwards (o : Outline α) : (levels : Nat) → (id : RegionId α) → List (RegionId α)
  | 0, _ => []
  | levels + 1, id =>
    match o.region? id with
    | some region => id :: region.children.flatMap (o.inwards levels)
    | none => []

theorem inwards_of_region? (found : o.region? id = some region) (levels : Nat) :
    o.inwards (levels + 1) id = id :: (o.childrenOf id).flatMap (o.inwards levels) := by
  rw [inwards, found, childrenOf_of_region? found]

theorem inwards_of_region?_eq_none (absent : o.region? id = none) (levels : Nat) :
    o.inwards levels id = [] := by
  cases levels with
  | zero => rfl
  | succ levels => rw [inwards, absent]

namespace WellLinked

/-- As many levels as there are depths left are enough. -/
theorem inwards_eq_inwards (linked : o.WellLinked) {depth : RegionId α → Nat}
    (grows : ∀ child parent, o.parent? child = some parent → depth parent < depth child)
    (bounded : ∀ id, depth id < o.size) {levels other : Nat} (enough : o.size ≤ levels + depth id)
    (enoughOther : o.size ≤ other + depth id) : o.inwards levels id = o.inwards other id := by
  induction levels generalizing id other with
  | zero =>
      have hid := bounded id
      omega
  | succ levels ih =>
      cases other with
      | zero =>
          have hid := bounded id
          omega
      | succ other =>
          cases hfound : o.region? id with
          | none =>
              rw [inwards_of_region?_eq_none hfound, inwards_of_region?_eq_none hfound]
          | some region =>
              rw [inwards_of_region? hfound, inwards_of_region? hfound]
              refine congrArg (id :: ·) (List.flatMap_congr fun child hchild => ?_)
              have hdeeper := grows child id ((linked.children_iff id child).mp hchild)
              exact ih (by omega) (by omega)

/-- There is a walk in preorder. -/
theorem isPreorder_inwards (linked : o.WellLinked) : o.IsPreorder (o.inwards o.size) := by
  obtain ⟨depth, hgrows, hbound⟩ := linked.grounded
  intro id
  have hmore : o.inwards o.size id = o.inwards (o.size + 1) id :=
    linked.inwards_eq_inwards hgrows hbound (by omega) (by omega)
  rw [hmore, inwards]

/-- The children of a region are regions. -/
theorem exists_region?_of_mem_childrenOf (linked : o.WellLinked) {child : RegionId α}
    (inside : child ∈ o.childrenOf id) : ∃ region, o.region? child = some region := by
  obtain ⟨region, hfound, -⟩ := Option.bind_eq_some_iff.mp ((linked.children_iff id child).mp inside)
  exact ⟨region, hfound⟩

/-- The children of a region, put in front of regions that wait, are regions like these. -/
theorem exists_region?_of_mem_append (linked : o.WellLinked) (id : RegionId α)
    {pending : List (RegionId α)}
    (known : ∀ next ∈ pending, ∃ region, o.region? next = some region) :
    ∀ next ∈ o.childrenOf id ++ pending, ∃ region, o.region? next = some region := by
  intro next hnext
  rcases List.mem_append.mp hnext with hchild | hpending
  · exact linked.exists_region?_of_mem_childrenOf hchild
  · exact known next hpending

end WellLinked

/-- There are no more different regions than the outline has. -/
theorem length_le_size {regions : List (RegionId α)} (distinct : regions.Nodup)
    (known : ∀ id ∈ regions, id.index < o.size) : regions.length ≤ o.size := by
  have hnodup : (regions.map RegionId.index).Nodup :=
    distinct.map_on fun a _ b _ => RegionId.eq_iff.mpr
  have hbelow : regions.map RegionId.index ⊆ List.range o.size := by
    intro index hindex
    obtain ⟨id, hid, rfl⟩ := List.mem_map.mp hindex
    exact List.mem_range.mpr (known id hid)
  simpa using (hnodup.subperm hbelow).length_le

/-! ## What a walk in preorder meets -/

namespace IsPreorder

theorem of_region? (recursive : o.IsPreorder walk) (found : o.region? id = some region) :
    walk id = id :: (o.childrenOf id).flatMap walk := by
  rw [recursive id, found, childrenOf_of_region? found]

theorem of_region?_eq_none (recursive : o.IsPreorder walk) (absent : o.region? id = none) :
    walk id = [] := by
  rw [recursive id, absent]

/-- A walk meets a region just if the way outwards from there meets the start of the walk. -/
theorem mem_iff (recursive : o.IsPreorder walk) (linked : o.WellLinked) :
    met ∈ walk id ↔ id ∈ o.ancestors met := by
  induction id using linked.inward_induction with
  | around id ih =>
      cases hfound : o.region? id with
      | none =>
          rw [recursive.of_region?_eq_none hfound]
          refine iff_of_false List.not_mem_nil fun hmem => ?_
          obtain ⟨region, hregion⟩ := linked.exists_region?_of_mem_ancestors hmem
          cases hfound.symm.trans hregion
      | some region =>
          rw [recursive.of_region? hfound, List.mem_cons, List.mem_flatMap]
          constructor
          · rintro (rfl | ⟨child, hchild, hmet⟩)
            · exact linked.mem_ancestors_self hfound
            · have hparent := (linked.children_iff id child).mp hchild
              exact linked.mem_ancestors_trans (linked.mem_ancestors_of_parent? hparent)
                ((ih child hparent).mp hmet)
          · intro hid
            by_cases hsame : met = id
            · exact .inl hsame
            · obtain ⟨child, hparent, hinside⟩ := linked.exists_child_of_mem_ancestors hid hsame
              exact .inr ⟨child, (linked.children_iff id child).mpr hparent,
                (ih child hparent).mpr hinside⟩

/-- No region is met twice, for what is inside a region is inside one of its children only. -/
theorem nodup (recursive : o.IsPreorder walk) (linked : o.WellLinked) (id : RegionId α) :
    (walk id).Nodup := by
  induction id using linked.inward_induction with
  | around id ih =>
      cases hfound : o.region? id with
      | none =>
          rw [recursive.of_region?_eq_none hfound]
          exact .nil
      | some region =>
          have hparent : ∀ child ∈ o.childrenOf id, o.parent? child = some id :=
            fun child => (linked.children_iff id child).mp
          rw [recursive.of_region? hfound, List.nodup_cons, List.nodup_flatMap]
          refine ⟨?_, fun child hchild => ih child (hparent child hchild), ?_⟩
          · intro hmem
            obtain ⟨child, hchild, hid⟩ := List.mem_flatMap.mp hmem
            exact linked.not_mem_ancestors_of_parent? (hparent child hchild)
              ((recursive.mem_iff linked).mp hid)
          · refine (linked.children_nodup id).imp_of_mem ?_
            intro first second hfirst hsecond hne met hmet hmet'
            exact hne (linked.eq_of_mem_ancestors_of_parent? ((recursive.mem_iff linked).mp hmet)
              ((recursive.mem_iff linked).mp hmet') (hparent first hfirst)
              (hparent second hsecond))

theorem lt_size_of_mem (recursive : o.IsPreorder walk) (linked : o.WellLinked)
    (walked : met ∈ walk id) : met.index < o.size := by
  obtain ⟨region, hregion⟩ := exists_region?_of_ancestors ((recursive.mem_iff linked).mp walked)
  exact lt_size_of_region? hregion

/-- A walk meets no more regions than there are. -/
theorem length_le (recursive : o.IsPreorder walk) (linked : o.WellLinked) (id : RegionId α) :
    (walk id).length ≤ o.size :=
  length_le_size (recursive.nodup linked id) fun _ => recursive.lt_size_of_mem linked

/-! ## The stack -/

/-- From pending regions, the stack produces what the recursion lists from one after the other, as
far as the budget goes. -/
theorem preorder_eq_take (recursive : o.IsPreorder walk) (linked : o.WellLinked) (budget : Nat)
    {pending : List (RegionId α)} (known : ∀ id ∈ pending, ∃ region, o.region? id = some region) :
    o.preorder budget pending = (pending.flatMap walk).take budget := by
  induction budget generalizing pending with
  | zero => rw [List.take_zero, preorder]
  | succ budget ih =>
      cases pending with
      | nil => rfl
      | cons id pending =>
          obtain ⟨region, hfound⟩ := known id List.mem_cons_self
          have hknown := linked.exists_region?_of_mem_append id fun next hnext =>
            known next (List.mem_cons_of_mem _ hnext)
          rw [preorder, ih hknown, List.flatMap_append, List.flatMap_cons,
            recursive.of_region? hfound, List.cons_append, List.take_succ_cons]

/-- The stack lists what the recursion does. -/
theorem descendants_eq (recursive : o.IsPreorder walk) (linked : o.WellLinked)
    (id : RegionId α) : o.descendants id = walk id := by
  cases hfound : o.region? id with
  | none => rw [descendants, hfound, recursive.of_region?_eq_none hfound]
  | some region =>
      have hknown : ∀ next ∈ [id], ∃ region, o.region? next = some region := by
        intro next hnext
        exact ⟨region, by rw [List.mem_singleton.mp hnext, hfound]⟩
      rw [descendants, hfound]
      dsimp only
      rw [linked.ids id region hfound, recursive.preorder_eq_take linked o.size hknown,
        List.flatMap_singleton, List.take_of_length_le (recursive.length_le linked id)]

end IsPreorder

namespace WellLinked

/-- There is one walk in preorder, and it is the one that the stack produces. -/
theorem isPreorder_iff (linked : o.WellLinked) : o.IsPreorder walk ↔ walk = o.descendants := by
  have honly : ∀ {other : RegionId α → List (RegionId α)}, o.IsPreorder other →
      other = o.descendants :=
    fun recursive => funext fun id => (recursive.descendants_eq linked id).symm
  constructor
  · exact honly
  · rintro rfl
    exact honly linked.isPreorder_inwards ▸ linked.isPreorder_inwards

theorem isPreorder_descendants (linked : o.WellLinked) : o.IsPreorder o.descendants :=
  linked.isPreorder_iff.mpr rfl

/-- The walks inwards and outwards say the same of what is around what. -/
theorem mem_descendants_iff (linked : o.WellLinked) :
    met ∈ o.descendants id ↔ id ∈ o.ancestors met :=
  linked.isPreorder_descendants.mem_iff linked

theorem descendants_nodup (linked : o.WellLinked) (id : RegionId α) :
    (o.descendants id).Nodup :=
  linked.isPreorder_descendants.nodup linked id

end WellLinked

end Outline

end CodeInsight

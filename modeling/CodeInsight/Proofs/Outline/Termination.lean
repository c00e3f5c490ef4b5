/-
# Walks that end

The walks through an outline count down a budget, and when it is used up they stop wherever
they are. Here they are told by single moves and without a budget: a walk is over when
there is nowhere to go on to, and it has gone astray when it looks at a region that is not
there. `Walks` holds of the walks that come to be over.

On outlines whose links agree, all three do. They meet no region twice, so none makes more
moves than there are regions, and what they meet is what the walks with a budget list: the
budget cuts none of them short.
-/

import CodeInsight.Proofs.Outline.Descent
import CodeInsight.Proofs.Outline.Preorder

namespace CodeInsight

/-- What a walk does next, from one of its states. -/
inductive Move (α σ : Type) where
  /-- It looks at a region that is not there. -/
  | astray
  /-- There is nowhere to go on to. -/
  | over
  | meet (id : RegionId α) (next : σ)

/-- `Walks move start met` says that the walk from `start` comes to be over, and that it meets the
regions of `met` before, in this order. -/
inductive Walks {α σ : Type} (move : σ → Move α σ) : (start : σ) → List (RegionId α) → Prop
  | over {start : σ} (ends : move start = .over) : Walks move start []
  | meet {start next : σ} {id : RegionId α} {met : List (RegionId α)}
      (moves : move start = .meet id next) (onwards : Walks move next met) :
      Walks move start (id :: met)

namespace Outline

variable {α : Type} {o : Outline α} {pos : Position} {id start last : RegionId α}
  {region : Region α} {path : List (RegionId α)}

/-! ## Moves -/

/-- A move outwards, from a region to the one around it. -/
def moveOutwards (o : Outline α) : Option (RegionId α) → Move α (Option (RegionId α))
  | none => .over
  | some id =>
    match o.region? id with
    | none => .astray
    | some region => .meet id region.parent

/-- A move inwards, with regions that wait to be met. The children of the one that is met are put in
front of the others. -/
def moveInwards (o : Outline α) : List (RegionId α) → Move α (List (RegionId α))
  | [] => .over
  | id :: pending =>
    match o.region? id with
    | none => .astray
    | some region => .meet id (region.children ++ pending)

/-- A move inwards at a position, from a region to its tightest child there. All children are looked
at for it. -/
def moveTowards (o : Outline α) (pos : Position) :
    Option (RegionId α) → Move α (Option (RegionId α))
  | none => .over
  | some id =>
    match o.region? id with
    | none => .astray
    | some region =>
      if region.children.all fun child => (o.region? child).isSome then
        .meet id (o.childAt? pos id)
      else .astray

/-- Where a walk starts that is to start at `id`: nowhere, if there is no such region. -/
def startAt? (o : Outline α) (id : RegionId α) : Option (RegionId α) :=
  (o.region? id).map (·.id)

/-- Where the search at a position starts that is to start at `id`: nowhere, if there is no such
region or it does not contain the position. -/
def searchAt? (o : Outline α) (pos : Position) (id : RegionId α) : Option (RegionId α) :=
  ((o.region? id).filter (·.span.contains pos)).map (·.id)

/-- The walk from `start` comes to be over. The regions that it meets are those of `met`; they are
there, none of them is met twice, and they are no more than the outline has. -/
structure Finishes (o : Outline α) {σ : Type} (move : σ → Move α σ) (start : σ)
    (met : List (RegionId α)) : Prop where
  walks : Walks move start met
  distinct : met.Nodup
  known : ∀ id ∈ met, id.index < o.size
  length_le : met.length ≤ o.size

theorem Finishes.of_walks {σ : Type} {move : σ → Move α σ} {start : σ} {met : List (RegionId α)}
    (walks : Walks move start met) (distinct : met.Nodup) (known : ∀ id ∈ met, id.index < o.size) :
    o.Finishes move start met :=
  ⟨walks, distinct, known, length_le_size distinct known⟩

theorem moveOutwards_of_region? (found : o.region? id = some region) :
    o.moveOutwards (some id) = .meet id (o.parent? id) := by
  rw [moveOutwards, parent?, found]
  rfl

theorem moveInwards_of_region? (found : o.region? id = some region)
    (pending : List (RegionId α)) :
    o.moveInwards (id :: pending) = .meet id (o.childrenOf id ++ pending) := by
  rw [moveInwards, childrenOf, found]

/-- Where links agree, the search finds all children that it looks at. -/
theorem WellLinked.moveTowards_of_region? (linked : o.WellLinked)
    (found : o.region? id = some region) (pos : Position) :
    o.moveTowards pos (some id) = .meet id (o.childAt? pos id) := by
  have hchildren : region.children.all (fun child => (o.region? child).isSome) = true := by
    rw [List.all_eq_true]
    intro child hchild
    rw [← childrenOf_of_region? found] at hchild
    exact Option.isSome_iff_exists.mpr (linked.exists_region?_of_mem_childrenOf hchild)
  rw [moveTowards, found]
  dsimp only
  rw [if_pos hchildren]

/-! ## The way outwards -/

namespace WellLinked

/-- From every region the way outwards is walked to its end. -/
theorem walks_outwards (linked : o.WellLinked) (found : o.region? id = some region) :
    Walks o.moveOutwards (some id) (o.ancestors id) := by
  induction id using linked.outward_induction generalizing region with
  | outermost id houtermost =>
      have hmove := moveOutwards_of_region? found
      rw [houtermost] at hmove
      rw [linked.ancestors_of_outermost found houtermost]
      exact .meet hmove (.over rfl)
  | inside id parent haround ih =>
      obtain ⟨outer, houter⟩ := linked.exists_region?_of_parent? haround
      have hmove := moveOutwards_of_region? found
      rw [haround] at hmove
      rw [linked.ancestors_of_parent? haround]
      exact .meet hmove (ih houter)

theorem finishes_outwards (linked : o.WellLinked) (id : RegionId α) :
    o.Finishes o.moveOutwards (o.startAt? id) (o.ancestors id) := by
  refine .of_walks ?_ (linked.ancestors_nodup id) fun outer => linked.lt_size_of_mem_ancestors
  cases hfound : o.region? id with
  | none =>
      rw [startAt?, ancestors, hfound]
      exact .over rfl
  | some region =>
      have hwalks := linked.walks_outwards hfound
      rwa [startAt?, hfound, Option.map_some, linked.ids id region hfound]

/-! ## The way inwards -/

/-- With any regions waiting, the walk inwards meets each of them with all that is inside it, one
after the other. The induction is on what is still to be met, of which every move takes the first. -/
theorem walks_inwards (linked : o.WellLinked) {pending : List (RegionId α)}
    (known : ∀ next ∈ pending, ∃ region, o.region? next = some region) :
    Walks o.moveInwards pending (pending.flatMap o.descendants) := by
  have hrecursive := linked.isPreorder_descendants
  induction hmet : pending.flatMap o.descendants generalizing pending with
  | nil =>
      cases pending with
      | nil => exact .over rfl
      | cons id pending =>
          obtain ⟨region, hfound⟩ := known id List.mem_cons_self
          rw [List.flatMap_cons, hrecursive.of_region? hfound] at hmet
          cases hmet
  | cons first met ih =>
      cases pending with
      | nil => cases hmet
      | cons id pending =>
          obtain ⟨region, hfound⟩ := known id List.mem_cons_self
          have hmove := moveInwards_of_region? hfound pending
          have hknown := linked.exists_region?_of_mem_append id fun next hnext =>
            known next (List.mem_cons_of_mem _ hnext)
          rw [List.flatMap_cons, hrecursive.of_region? hfound, List.cons_append,
            ← List.flatMap_append] at hmet
          cases hmet
          exact .meet hmove (ih hknown rfl)

theorem finishes_inwards (linked : o.WellLinked) (id : RegionId α) :
    o.Finishes o.moveInwards (o.startAt? id).toList (o.descendants id) := by
  refine .of_walks ?_ (linked.descendants_nodup id) fun inner =>
    linked.isPreorder_descendants.lt_size_of_mem linked
  cases hfound : o.region? id with
  | none =>
      rw [startAt?, descendants, hfound]
      exact .over rfl
  | some region =>
      have hknown : ∀ next ∈ [id], ∃ region, o.region? next = some region := fun next hnext =>
        ⟨region, by rw [List.mem_singleton.mp hnext, hfound]⟩
      have hwalks := linked.walks_inwards hknown
      rw [List.flatMap_singleton] at hwalks
      rwa [startAt?, hfound, Option.map_some, linked.ids id region hfound]

end WellLinked

/-! ## The way to the innermost region -/

/-- The search goes on to a child just if the path leads there. -/
theorem childAt?_of_leadsTo (linked : o.WellLinked) (inOrder : o.InOrder) {child : RegionId α}
    (leads : o.LeadsTo pos id child) : o.childAt? pos id = some child := by
  cases hfound : o.childAt? pos id with
  | none =>
      exact absurd leads.contains ((childAt?_eq_none_iff linked).mp hfound child leads.parent)
  | some other => rw [leads.unique (leadsTo_of_childAt? linked inOrder hfound)]

namespace Descent

/-- The search walks the path to its end. -/
theorem walks (linked : o.WellLinked) (inOrder : o.InOrder)
    (descent : o.Descent pos start path last) (found : o.region? start = some region) :
    Walks (o.moveTowards pos) (some start) (start :: path) := by
  induction descent generalizing region with
  | stop innermost =>
      have hmove := linked.moveTowards_of_region? found pos
      rw [(childAt?_eq_none_iff linked).mpr innermost] at hmove
      exact .meet hmove (.over rfl)
  | step leads onwards ih =>
      obtain ⟨child, hchild⟩ := leads.contains.exists_region?
      have hmove := linked.moveTowards_of_region? found pos
      rw [childAt?_of_leadsTo linked inOrder leads] at hmove
      exact .meet hmove (ih hchild)

theorem getLast?_eq (descent : o.Descent pos start path last) :
    (start :: path).getLast? = some last := by
  induction descent with
  | stop => rfl
  | step leads onwards ih => rwa [List.getLast?_cons_cons]

/-- The regions on a path are the first of those around its end. -/
theorem exists_ancestors_last (linked : o.WellLinked) (descent : o.Descent pos start path last)
    (found : o.region? start = some region) :
    ∃ around, o.ancestors last = (start :: path).reverse ++ around := by
  obtain ⟨around, haround⟩ := linked.ancestors_eq_cons found
  refine ⟨around, ?_⟩
  rw [descent.ancestors_last linked, haround, List.reverse_cons, List.append_assoc]
  rfl

theorem finishes (linked : o.WellLinked) (inOrder : o.InOrder)
    (descent : o.Descent pos start path last) (found : o.region? start = some region) :
    o.Finishes (o.moveTowards pos) (some start) (start :: path) := by
  -- Backwards, the path is the beginning of a way outwards, which meets nothing twice.
  obtain ⟨around, haround⟩ := descent.exists_ancestors_last linked found
  have hnodup := linked.ancestors_nodup last
  rw [haround, List.nodup_append, List.nodup_reverse] at hnodup
  refine .of_walks (descent.walks linked inOrder found) hnodup.1 fun id hid => ?_
  have hmem : id ∈ o.ancestors last := by
    rw [haround]
    exact List.mem_append_left _ (List.mem_reverse.mpr hid)
  exact linked.lt_size_of_mem_ancestors hmem

end Descent

/-- The search comes to be over, and its answer is what it met last. -/
theorem WellLinked.exists_finishes_search (linked : o.WellLinked) (inOrder : o.InOrder)
    (start : RegionId α) (pos : Position) :
    ∃ path, o.Finishes (o.moveTowards pos) (o.searchAt? pos start) path ∧
      o.innermost? start pos = path.getLast? := by
  by_cases hcontains : o.Contains start pos
  · obtain ⟨path, last, hinnermost, hdescent⟩ := exists_innermost? linked inOrder hcontains
    obtain ⟨span, hspan, hpos⟩ := hcontains
    obtain ⟨region, hfound, rfl⟩ := Option.map_eq_some_iff.mp hspan
    have hstart : o.searchAt? pos start = some start := by
      simp [searchAt?, hfound, hpos, linked.ids start region hfound]
    rw [hstart, hinnermost]
    exact ⟨start :: path, hdescent.finishes linked inOrder hfound, hdescent.getLast?_eq.symm⟩
  · have hstart : o.searchAt? pos start = none := by
      rw [searchAt?, Option.map_eq_none_iff, Option.filter_eq_none_iff]
      intro region hfound hpos
      exact hcontains ⟨region.span, congrArg (Option.map _) hfound, hpos⟩
    rw [hstart, (innermost?_eq_none_iff o start pos).mpr hcontains]
    exact ⟨[], .of_walks (.over rfl) .nil nofun, rfl⟩

end Outline

end CodeInsight

/-
# Outlines of a document

An outline divides a document into nested regions. It starts as one region, the
root, and grows by regions added below those already there; a single region may
also be put above the root afterwards. Regions are numbered in the order in which
they were added and never removed, so a handle stays good for good.

Both the syntax tree and the scopes of a module are outlines. They differ only
in what each region is labelled with.
-/

import CodeInsight.Text.Span

namespace CodeInsight

/-- The handle of a region in an outline with labels of type `α`: the number of regions added before
it. It is not bounded here. Kept in 32 bits, handles are the same numbers in every outline of fewer
than 2^32 regions. -/
structure RegionId (α : Type) where
  index : Nat
  deriving Repr

instance {α : Type} : DecidableEq (RegionId α) := fun a b =>
  decidable_of_iff (a.index = b.index) (by cases a; cases b; simp)

/-- One region: its handle, its label, what it covers, and its place among the others. Children
stand in the order in which they were added. -/
structure Region (α : Type) where
  id : RegionId α
  label : α
  span : Span
  parent : Option (RegionId α)
  children : List (RegionId α)
  deriving DecidableEq

/-- Nested regions of one document. -/
structure Outline (α : Type) where
  regions : Array (Region α)
  deriving DecidableEq

namespace Outline

variable {α : Type}

/-- The region that every outline starts with. -/
def root : RegionId α := ⟨0⟩

/-- An outline of one region. -/
def ofRoot (label : α) (span : Span) : Outline α := ⟨#[⟨root, label, span, none, []⟩]⟩

/-- The number of regions. -/
def size (o : Outline α) : Nat := o.regions.size

/-- The region of a handle, if the handle belongs to this outline. -/
def region? (o : Outline α) (id : RegionId α) : Option (Region α) := o.regions[id.index]?

/-- The handle that the next region will get. -/
def nextId (o : Outline α) : RegionId α := ⟨o.size⟩

/-- A new region below `parent`, behind the children it already has. There is none when `parent`
is no region of the outline. -/
def insert? (o : Outline α) (parent : RegionId α) (label : α) (span : Span) :
    Option (Outline α × RegionId α) :=
  if parent.index < o.size then
    let linked := o.regions.modify parent.index fun region =>
      { region with children := region.children ++ [o.nextId] }
    some (⟨linked.push ⟨o.nextId, label, span, some parent, []⟩⟩, o.nextId)
  else none

/-- A new region above the root. -/
def enclose (o : Outline α) (label : α) (span : Span) : Outline α × RegionId α :=
  let linked := o.regions.modify 0 fun region => { region with parent := some o.nextId }
  (⟨linked.push ⟨o.nextId, label, span, none, [root]⟩⟩, o.nextId)

/-- The outline with the label of one region changed. -/
def relabel (o : Outline α) (id : RegionId α) (change : α → α) : Outline α :=
  ⟨o.regions.modify id.index fun region => { region with label := change region.label }⟩

/-- The region around a region. -/
def parent? (o : Outline α) (id : RegionId α) : Option (RegionId α) :=
  (o.region? id).bind (·.parent)

/-- The regions directly inside a region, in the order in which they were added. -/
def childrenOf (o : Outline α) (id : RegionId α) : List (RegionId α) :=
  match o.region? id with
  | some region => region.children
  | none => []

end Outline

end CodeInsight

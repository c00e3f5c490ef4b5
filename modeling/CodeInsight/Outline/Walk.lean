/-
# Walks through an outline

Three walks lead through an outline: outwards along parents, inwards through all
regions in preorder, and inwards to the innermost region at a position. None of
them meets a region twice, so the number of regions bounds the length of each,
and that number is the budget which the recursions below count down.
-/

import CodeInsight.Outline.Basic

namespace CodeInsight.Outline

variable {α : Type}

/-- At most `budget` regions on the way outwards from `id`. -/
def chain (o : Outline α) : (budget : Nat) → (id : RegionId α) → List (RegionId α)
  | 0, _ => []
  | budget + 1, id =>
    id :: match o.parent? id with
      | some parent => o.chain budget parent
      | none => []

/-- A region and those around it, from the inside out. -/
def ancestors (o : Outline α) (id : RegionId α) : List (RegionId α) :=
  match o.region? id with
  | some region => o.chain o.size region.id
  | none => []

/-- At most `budget` regions met by taking the first pending one and putting its children in front
of the others. -/
def preorder (o : Outline α) : (budget : Nat) → (pending : List (RegionId α)) → List (RegionId α)
  | 0, _ => []
  | _ + 1, [] => []
  | budget + 1, id :: pending => id :: o.preorder budget (o.childrenOf id ++ pending)

/-- A region and those inside it, each before its children. -/
def descendants (o : Outline α) (id : RegionId α) : List (RegionId α) :=
  match o.region? id with
  | some region => o.preorder o.size [region.id]
  | none => []

/-- The tightest child at a position; of children with equal spans, the first. -/
def childAt? (o : Outline α) (pos : Position) (id : RegionId α) : Option (RegionId α) :=
  let covered := (o.childrenOf id).filterMap fun child =>
    (o.region? child).map fun region => (child, region.span)
  (Span.tightestBy? (·.2) (covered.filter (·.2.contains pos))).map (·.1)

/-- The region reached by at most `budget` steps to the tightest child at a position. -/
def descend (o : Outline α) (pos : Position) : (budget : Nat) → (id : RegionId α) → RegionId α
  | 0, id => id
  | budget + 1, id =>
    match o.childAt? pos id with
    | some child => o.descend pos budget child
    | none => id

/-- The innermost region at a position, looked for from `start` inwards. There is none when
`start` does not contain the position. -/
def innermost? (o : Outline α) (start : RegionId α) (pos : Position) : Option (RegionId α) := do
  let region ← o.region? start
  if region.span.contains pos then some (o.descend pos o.size start) else none

end CodeInsight.Outline

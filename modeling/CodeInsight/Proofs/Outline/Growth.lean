/-
# How outlines grow

Children are listed in the order in which they were added. As regions are numbered as
they are added and never moved, this is the order of their numbers, which no later
operation disturbs. A region that is put above the root starts with the root as its only
child, and any other child of it has a higher number. There is one region at a time with
nothing around it: the root, until another one is put above it.

Syntax trees grow from a module node by additions alone, which are a part of what
scope trees are built by.
-/

import CodeInsight.Outline.SyntaxTree
import CodeInsight.Proofs.Outline.Ancestors

namespace CodeInsight

namespace Outline

variable {α : Type} {o after : Outline α} {id parent : RegionId α} {label : α} {span : Span}

/-- Children are listed in the order in which they were added. -/
def InOrder (o : Outline α) : Prop :=
  ∀ parent, (o.childrenOf parent).Pairwise fun first later => first.index < later.index

theorem lt_size_of_parent? (around : o.parent? id = some parent) : id.index < o.size := by
  obtain ⟨region, hfound, -⟩ := Option.bind_eq_some_iff.mp around
  exact lt_size_of_region? hfound

namespace InOrder

theorem ofRoot (label : α) (span : Span) : (ofRoot label span).InOrder := by
  intro parent
  rw [childrenOf_ofRoot]
  exact .nil

/-- A new region has a higher number than its siblings. -/
theorem insert? (inOrder : o.InOrder) (linked : o.WellLinked)
    (inserted : o.insert? parent label span = some (after, id)) : after.InOrder := by
  intro other
  rw [childrenOf_insert? inserted, List.pairwise_append]
  refine ⟨inOrder other, ?_, ?_⟩
  · split
    · exact List.pairwise_singleton _ _
    · exact .nil
  · intro child hchild new hnew
    have hnext : new = o.nextId := by
      split at hnew
      · exact List.mem_singleton.mp hnew
      · cases hnew
    rw [hnext]
    exact lt_size_of_parent? ((linked.children_iff other child).mp hchild)

theorem enclose (inOrder : o.InOrder) (label : α) (span : Span) :
    (o.enclose label span).1.InOrder := by
  intro other
  rw [childrenOf_enclose]
  split
  · exact List.pairwise_singleton _ _
  · exact inOrder other

theorem relabel (inOrder : o.InOrder) (id : RegionId α) (change : α → α) :
    (o.relabel id change).InOrder := by
  intro other
  rw [childrenOf_relabel]
  exact inOrder other

end InOrder

/-- No two regions have nothing around them. -/
def OneOutermost (o : Outline α) : Prop :=
  ∀ a b : RegionId α, a.index < o.size → b.index < o.size → o.parent? a = none →
    o.parent? b = none → a = b

/-- A region of an outline with one more region is the new one or was there before. -/
theorem eq_nextId_or_lt_size (within : id.index < o.size + 1) :
    id = o.nextId ∨ id.index < o.size := by
  rcases Nat.lt_succ_iff_lt_or_eq.mp within with hbefore | hnew
  · exact .inr hbefore
  · exact .inl (RegionId.eq_iff.mpr hnew)

namespace OneOutermost

theorem ofRoot (label : α) (span : Span) : (ofRoot label span).OneOutermost := by
  intro a b ha hb _ _
  exact RegionId.eq_iff.mpr ((Nat.lt_one_iff.mp ha).trans (Nat.lt_one_iff.mp hb).symm)

theorem insert? (one : o.OneOutermost)
    (inserted : o.insert? parent label span = some (after, id)) : after.OneOutermost := by
  have hbefore : ∀ a : RegionId α, a.index < after.size → after.parent? a = none →
      a.index < o.size ∧ o.parent? a = none := by
    intro a ha houtermost
    rw [size_insert? inserted] at ha
    rw [parent?_insert? inserted] at houtermost
    split at houtermost
    · cases houtermost
    · exact ⟨(eq_nextId_or_lt_size ha).resolve_left ‹_›, houtermost⟩
  intro a b ha hb houtermost houtermost'
  obtain ⟨ha, houtermost⟩ := hbefore a ha houtermost
  obtain ⟨hb, houtermost'⟩ := hbefore b hb houtermost'
  exact one a b ha hb houtermost houtermost'

/-- Once a region is put above the root, the root is no longer an outermost region. -/
theorem enclose (one : o.OneOutermost) (nonempty : 0 < o.size)
    (outermost : o.parent? root = none) (label : α) (span : Span) :
    (o.enclose label span).1.OneOutermost := by
  have hnew : ∀ a : RegionId α, a.index < (o.enclose label span).1.size →
      (o.enclose label span).1.parent? a = none → a = o.nextId := by
    intro a ha houtermost
    rw [size_enclose] at ha
    rw [parent?_enclose nonempty] at houtermost
    split at houtermost
    · assumption
    · split at houtermost
      · cases houtermost
      · have hbefore := (eq_nextId_or_lt_size ha).resolve_left ‹_›
        exact absurd (one a root hbefore nonempty houtermost outermost) ‹_›
  intro a b ha hb houtermost houtermost'
  exact (hnew a ha houtermost).trans (hnew b hb houtermost').symm

theorem relabel (one : o.OneOutermost) (id : RegionId α) (change : α → α) :
    (o.relabel id change).OneOutermost := by
  intro a b ha hb
  rw [size_relabel] at ha hb
  rw [parent?_relabel, parent?_relabel]
  exact one a b ha hb

/-- Every way outwards ends at the outermost region. -/
theorem getLast?_ancestors (one : o.OneOutermost) (linked : o.WellLinked) {outer : RegionId α}
    {region around : Region α} (found : o.region? id = some region)
    (outerFound : o.region? outer = some around) (outermost : o.parent? outer = none) :
    (o.ancestors id).getLast? = some outer := by
  obtain ⟨last, hlast, hnone⟩ := linked.getLast?_ancestors found
  have hknown := linked.lt_size_of_mem_ancestors (List.mem_of_getLast? hlast)
  rw [hlast, one last outer hknown (lt_size_of_region? outerFound) hnone outermost]

/-- Every region is within the outermost one. -/
theorem mem_ancestors (one : o.OneOutermost) (linked : o.WellLinked) {outer : RegionId α}
    {region around : Region α} (found : o.region? id = some region)
    (outerFound : o.region? outer = some around) (outermost : o.parent? outer = none) :
    outer ∈ o.ancestors id :=
  List.mem_of_getLast? (one.getLast?_ancestors linked found outerFound outermost)

end OneOutermost

end Outline

namespace SyntaxTree

variable {t : SyntaxTree}

/-- The syntax trees that additions make of a module node. -/
inductive Built : SyntaxTree → Prop
  | ofModule (span : Span) : Built (ofModule span)
  | insert {t after : SyntaxTree} {parent id : NodeId} {kind : NodeKind} {span : Span}
      (built : Built t) (inserted : t.insert? parent kind span = some (after, id)) : Built after

/-- A node to add: what it goes below, what it is, and what it covers. -/
structure Addition where
  parent : NodeId
  kind : NodeKind
  span : Span

/-- The tree after an addition. One that is refused changes nothing. -/
def extend (t : SyntaxTree) (new : Addition) : SyntaxTree :=
  ((t.insert? new.parent new.kind new.span).map (·.1)).getD t

/-- The tree after additions in order. -/
def build (t : SyntaxTree) (additions : List Addition) : SyntaxTree := additions.foldl extend t

namespace Built

theorem linked (built : t.Built) : t.WellLinked := by
  induction built with
  | ofModule span => exact .ofRoot _ span
  | insert built inserted ih => exact ih.insert? inserted

theorem inOrder (built : t.Built) : t.InOrder := by
  induction built with
  | ofModule span => exact .ofRoot _ span
  | insert built inserted ih => exact ih.insert? built.linked inserted

theorem oneOutermost (built : t.Built) : t.OneOutermost := by
  induction built with
  | ofModule span => exact .ofRoot _ span
  | insert built inserted ih => exact ih.insert? inserted

theorem nonempty (built : t.Built) : 0 < t.size := by
  cases built with
  | ofModule span => exact Nat.one_pos
  | insert built inserted =>
      rw [Outline.size_insert? inserted]
      exact Nat.succ_pos _

theorem root_ne_nextId (built : t.Built) : Outline.root ≠ t.nextId := fun hsame =>
  Nat.ne_of_lt built.nonempty (congrArg RegionId.index hsame)

theorem parent?_root (built : t.Built) : t.parent? Outline.root = none := by
  induction built with
  | ofModule span => exact Outline.parent?_ofRoot ..
  | insert built inserted ih =>
      rw [Outline.parent?_insert? inserted, if_neg built.root_ne_nextId]
      exact ih

/-- The root is a module. -/
theorem kind?_root (built : t.Built) : t.kind? Outline.root = some .module := by
  induction built with
  | ofModule span => rfl
  | insert built inserted ih =>
      refine (Outline.label?_insert? inserted _).trans ?_
      rw [if_neg built.root_ne_nextId]
      exact ih

/-- The way outwards from every node ends at the root. -/
theorem getLast?_ancestors (built : t.Built) {id : NodeId} {region : Region NodeKind}
    (found : t.region? id = some region) : (t.ancestors id).getLast? = some Outline.root := by
  have hnonempty : 0 < t.regions.size := built.nonempty
  have hroot : t.region? Outline.root = some t.regions[0] := Array.getElem?_eq_getElem hnonempty
  exact built.oneOutermost.getLast?_ancestors built.linked found hroot built.parent?_root

/-- Every node is within the root. -/
theorem root_mem_ancestors (built : t.Built) {id : NodeId} {region : Region NodeKind}
    (found : t.region? id = some region) : Outline.root ∈ t.ancestors id :=
  List.mem_of_getLast? (built.getLast?_ancestors found)

theorem extend (built : t.Built) (new : Addition) : (t.extend new).Built := by
  rw [SyntaxTree.extend]
  cases hinserted : t.insert? new.parent new.kind new.span with
  | none => exact built
  | some inserted => exact built.insert hinserted

theorem build (built : t.Built) (additions : List Addition) : (t.build additions).Built := by
  induction additions generalizing t with
  | nil => exact built
  | cons new additions ih => exact ih (built.extend new)

end Built

end SyntaxTree

end CodeInsight

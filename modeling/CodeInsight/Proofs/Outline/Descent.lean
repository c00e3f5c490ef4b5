/-
# The way to the innermost region

From a region that contains a position one goes on to the child that contains it, and so
inwards until no child does. Where several children contain the position, one of them
`Precedes` all others: it starts last, of those that do it ends first, and of those that
cover the same it was added first.

The search compares children one after the other and counts its steps. Here each step is
said at once, for all children, and without a count: `Descent` is the path that is gone.
There is exactly one from every region of every outline, however its regions lie, and the
search ends where the path does.
-/

import CodeInsight.Proofs.Outline.Ancestors
import CodeInsight.Proofs.Outline.Growth
import CodeInsight.Proofs.Text.Tightness

namespace CodeInsight

namespace Outline

variable {α : Type} {o : Outline α} {pos : Position} {id child start last : RegionId α}

/-! ## What one step looks at -/

/-- What a region covers. -/
def span? (o : Outline α) (id : RegionId α) : Option Span := (o.region? id).map (·.span)

/-- A region contains a position. -/
def Contains (o : Outline α) (id : RegionId α) (pos : Position) : Prop :=
  ∃ span ∈ o.span? id, span.contains pos = true

/-- Of two regions, the first starts later; or they start together, and it ends earlier; or they
cover the same, and it was added earlier. -/
def Precedes (o : Outline α) (first other : RegionId α) : Prop :=
  ∃ s ∈ o.span? first, ∃ t ∈ o.span? other,
    t.start < s.start ∨
      s.start = t.start ∧ (s.stop < t.stop ∨ s.stop = t.stop ∧ first.index < other.index)

/-- At a position one goes on from a region to this child: it contains the position, and it precedes
all others that do. -/
structure LeadsTo (o : Outline α) (pos : Position) (id child : RegionId α) : Prop where
  parent : o.parent? child = some id
  contains : o.Contains child pos
  precedes : ∀ other, o.parent? other = some id → o.Contains other pos → other ≠ child →
    o.Precedes child other

theorem Contains.exists_region? (contains : o.Contains id pos) :
    ∃ region, o.region? id = some region := by
  obtain ⟨span, hspan, -⟩ := contains
  obtain ⟨region, hregion, -⟩ := Option.map_eq_some_iff.mp hspan
  exact ⟨region, hregion⟩

theorem Contains.mem_ancestors_self (contains : o.Contains id pos) (linked : o.WellLinked) :
    id ∈ o.ancestors id := by
  obtain ⟨region, hregion⟩ := contains.exists_region?
  exact linked.mem_ancestors_self hregion

theorem precedes_iff {s t : Span} {first other : RegionId α} (covers : o.span? first = some s)
    (otherCovers : o.span? other = some t) :
    o.Precedes first other ↔
      s.tightness < t.tightness ∨ s.tightness = t.tightness ∧ first.index < other.index := by
  have hequal : s.tightness = t.tightness ↔ s.start = t.start ∧ s.stop = t.stop := by
    rw [Span.tightness_injective.eq_iff]
    cases s
    cases t
    simp
  simp only [Precedes, covers, otherCovers, Option.mem_some_iff, exists_eq_left',
    Span.tightness_lt_iff, hequal]
  tauto

theorem Precedes.asymm {first other : RegionId α} (precedes : o.Precedes first other) :
    ¬ o.Precedes other first := by
  obtain ⟨s, hs, t, ht, -⟩ := id precedes
  rw [precedes_iff hs ht] at precedes
  rw [precedes_iff ht hs]
  rintro (hlt | ⟨hequal, hindex⟩)
  · exact precedes.elim (lt_asymm hlt) fun hsame => hlt.ne hsame.1.symm
  · exact precedes.elim (fun hlt => hlt.ne hequal.symm) fun hsame => Nat.lt_asymm hindex hsame.2

/-- There is at most one child to go on to. -/
theorem LeadsTo.unique {other : RegionId α} (leads : o.LeadsTo pos id child)
    (alsoLeads : o.LeadsTo pos id other) : other = child := by
  by_contra hne
  exact (leads.precedes other alsoLeads.parent alsoLeads.contains hne).asymm
    (alsoLeads.precedes child leads.parent leads.contains (Ne.symm hne))

/-! ## The search for the tightest child -/

/-- The children at a position with what they cover, in the order in which they were added. -/
def childrenAt (o : Outline α) (pos : Position) (id : RegionId α) : List (RegionId α × Span) :=
  ((o.childrenOf id).filterMap fun child => (o.span? child).map (child, ·)).filter
    (·.2.contains pos)

theorem childAt?_eq (o : Outline α) (pos : Position) (id : RegionId α) :
    o.childAt? pos id =
      ((o.childrenAt pos id).argmin (Span.tightness ∘ Prod.snd)).map Prod.fst := by
  rw [childAt?, Span.tightestBy?_eq_argmin, childrenAt]
  simp only [span?, Option.map_map]
  rfl

theorem mem_childrenAt (linked : o.WellLinked) {span : Span} :
    (child, span) ∈ o.childrenAt pos id ↔
      o.parent? child = some id ∧ o.span? child = some span ∧ span.contains pos = true := by
  simp [childrenAt, linked.children_iff, and_assoc]

theorem childrenAt_pairwise (inOrder : o.InOrder) :
    (o.childrenAt pos id).Pairwise fun first later => first.1.index < later.1.index := by
  refine List.Pairwise.filter _ (List.pairwise_filterMap.mpr ((inOrder id).imp ?_))
  intro first later hindex a ha b hb
  obtain ⟨s, -, rfl⟩ := Option.map_eq_some_iff.mp ha
  obtain ⟨t, -, rfl⟩ := Option.map_eq_some_iff.mp hb
  exact hindex

/-- In a list that is in order of some number, what has no later place has no higher number. -/
theorem le_of_idxOf_le {β : Type} [DecidableEq β] {number : β → Nat} {list : List β}
    (ordered : list.Pairwise fun first later => number first < number later) {a b : β}
    (ha : a ∈ list) (hb : b ∈ list) (notLater : list.idxOf a ≤ list.idxOf b) :
    number a ≤ number b := by
  rcases Nat.lt_or_eq_of_le notLater with hless | hequal
  · have hnumbers := List.pairwise_iff_getElem.mp ordered _ _ (List.idxOf_lt_length_of_mem ha)
      (List.idxOf_lt_length_of_mem hb) hless
    rw [List.getElem_idxOf, List.getElem_idxOf] at hnumbers
    exact Nat.le_of_lt hnumbers
  · exact Nat.le_of_eq (congrArg number ((List.idxOf_inj ha).mp hequal))

/-- The search goes on to the child that precedes all others at the position. -/
theorem leadsTo_of_childAt? (linked : o.WellLinked) (inOrder : o.InOrder)
    (found : o.childAt? pos id = some child) : o.LeadsTo pos id child := by
  rw [childAt?_eq] at found
  obtain ⟨⟨_, span⟩, hfound, rfl⟩ := Option.map_eq_some_iff.mp found
  obtain ⟨hmem, hleast, hfirst⟩ := List.argmin_eq_some_iff.mp hfound
  obtain ⟨hparent, hspan, hcontains⟩ := (mem_childrenAt linked).mp hmem
  refine ⟨hparent, ⟨span, hspan, hcontains⟩, ?_⟩
  rintro other hother ⟨otherSpan, hotherSpan, hotherContains⟩ hne
  have hotherMem : (other, otherSpan) ∈ o.childrenAt pos id :=
    (mem_childrenAt linked).mpr ⟨hother, hotherSpan, hotherContains⟩
  rw [precedes_iff hspan hotherSpan]
  rcases (hleast _ hotherMem).lt_or_eq with hlt | hequal
  · exact .inl hlt
  · have hindex := le_of_idxOf_le (childrenAt_pairwise inOrder) hmem hotherMem
      (hfirst _ hotherMem hequal.ge)
    refine .inr ⟨hequal, Nat.lt_of_le_of_ne hindex ?_⟩
    exact fun hsame => hne (RegionId.eq_iff.mpr hsame.symm)

/-- The search stops where no child contains the position. -/
theorem childAt?_eq_none_iff (linked : o.WellLinked) :
    o.childAt? pos id = none ↔ ∀ child, o.parent? child = some id → ¬ o.Contains child pos := by
  rw [childAt?_eq, Option.map_eq_none_iff, List.argmin_eq_none, List.eq_nil_iff_forall_not_mem]
  constructor
  · rintro hnone child hparent ⟨span, hspan, hcontains⟩
    exact hnone _ ((mem_childrenAt linked).mpr ⟨hparent, hspan, hcontains⟩)
  · rintro hnone ⟨child, span⟩ hmem
    obtain ⟨hparent, hspan, hcontains⟩ := (mem_childrenAt linked).mp hmem
    exact hnone child hparent ⟨span, hspan, hcontains⟩

/-! ## The path -/

/-- The path inwards from `start` at a position. It goes through the regions of `path`, `start` not
counted, and ends at `last`, where no child contains the position. -/
inductive Descent (o : Outline α) (pos : Position) :
    (start : RegionId α) → (path : List (RegionId α)) → (last : RegionId α) → Prop
  | stop {id : RegionId α}
      (innermost : ∀ child, o.parent? child = some id → ¬ o.Contains child pos) :
      Descent o pos id [] id
  | step {id child last : RegionId α} {path : List (RegionId α)} (leads : o.LeadsTo pos id child)
      (onwards : Descent o pos child path last) : Descent o pos id (child :: path) last

/-- There is one path inwards from `start`, and it ends at `last`. -/
def DescendsTo (o : Outline α) (pos : Position) (start last : RegionId α) : Prop :=
  ∃ path, o.Descent pos start path last ∧
    ∀ otherPath other, o.Descent pos start otherPath other → otherPath = path ∧ other = last

namespace Descent

variable {path : List (RegionId α)}

theorem unique (descent : o.Descent pos start path last) {otherPath : List (RegionId α)}
    {other : RegionId α} (also : o.Descent pos start otherPath other) :
    otherPath = path ∧ other = last := by
  induction descent generalizing otherPath other with
  | stop innermost =>
      cases also with
      | stop => exact ⟨rfl, rfl⟩
      | step leads => exact absurd leads.contains (innermost _ leads.parent)
  | step leads onwards ih =>
      cases also with
      | stop innermost => exact absurd leads.contains (innermost _ leads.parent)
      | step alsoLeads alsoOnwards =>
          cases leads.unique alsoLeads
          obtain ⟨rfl, rfl⟩ := ih alsoOnwards
          exact ⟨rfl, rfl⟩

theorem descendsTo (descent : o.Descent pos start path last) : o.DescendsTo pos start last :=
  ⟨path, descent, fun _ _ => descent.unique⟩

/-- If the start of a path contains the position, its end does. -/
theorem contains_last (descent : o.Descent pos start path last) (contains : o.Contains start pos) :
    o.Contains last pos := by
  induction descent with
  | stop => exact contains
  | step leads onwards ih => exact ih leads.contains

/-- Seen from its end, a path is a part of the way outwards. -/
theorem ancestors_last (linked : o.WellLinked) (descent : o.Descent pos start path last) :
    o.ancestors last = path.reverse ++ o.ancestors start := by
  induction descent with
  | stop => rfl
  | step leads onwards ih =>
      rw [ih, linked.ancestors_of_parent? leads.parent, List.reverse_cons, List.append_assoc]
      rfl

end Descent

namespace DescendsTo

variable {other : RegionId α}

theorem unique (descends : o.DescendsTo pos start last) (also : o.DescendsTo pos start other) :
    other = last := by
  obtain ⟨path, -, hunique⟩ := descends
  obtain ⟨otherPath, hother, -⟩ := also
  exact (hunique otherPath other hother).2

theorem contains (descends : o.DescendsTo pos start last) (contains : o.Contains start pos) :
    o.Contains last pos := by
  obtain ⟨path, hdescent, -⟩ := descends
  exact hdescent.contains_last contains

/-- The start of a path is around its end. -/
theorem mem_ancestors (linked : o.WellLinked) (descends : o.DescendsTo pos start last)
    (contains : o.Contains start pos) : start ∈ o.ancestors last := by
  obtain ⟨path, hdescent, -⟩ := descends
  rw [hdescent.ancestors_last linked]
  exact List.mem_append_right _ (contains.mem_ancestors_self linked)

end DescendsTo

/-- With enough budget, the search follows the path to its end. -/
theorem exists_descent {depth : RegionId α → Nat}
    (grows : ∀ child parent, o.parent? child = some parent → depth parent < depth child)
    (bounded : ∀ id, depth id < o.size) (linked : o.WellLinked) (inOrder : o.InOrder)
    {budget : Nat} (enough : o.size ≤ budget + depth start) :
    ∃ path, o.Descent pos start path (o.descend pos budget start) := by
  induction budget generalizing start with
  | zero =>
      have hstart := bounded start
      omega
  | succ budget ih =>
      rw [descend]
      cases hchild : o.childAt? pos start with
      | none => exact ⟨[], .stop ((childAt?_eq_none_iff linked).mp hchild)⟩
      | some child =>
          have hleads := leadsTo_of_childAt? linked inOrder hchild
          have hdeeper := grows child start hleads.parent
          have henough : o.size ≤ budget + depth child := by omega
          obtain ⟨path, hdescent⟩ := ih henough
          exact ⟨child :: path, .step hleads hdescent⟩

/-- From a region that contains a position, the search ends where the path does. -/
theorem exists_innermost? (linked : o.WellLinked) (inOrder : o.InOrder)
    (contains : o.Contains start pos) :
    ∃ path last, o.innermost? start pos = some last ∧ o.Descent pos start path last := by
  obtain ⟨depth, hgrows, hbound⟩ := linked.grounded
  obtain ⟨span, hspan, hcontains⟩ := contains
  obtain ⟨region, hregion, rfl⟩ := Option.map_eq_some_iff.mp hspan
  obtain ⟨path, hdescent⟩ := exists_descent hgrows hbound linked inOrder
    (Nat.le_add_right o.size (depth start))
  exact ⟨path, _, by simp [innermost?, hregion, hcontains], hdescent⟩

theorem exists_innermost?_descendsTo (linked : o.WellLinked) (inOrder : o.InOrder)
    (contains : o.Contains start pos) :
    ∃ last, o.innermost? start pos = some last ∧ o.DescendsTo pos start last := by
  obtain ⟨path, last, hinnermost, hdescent⟩ := exists_innermost? linked inOrder contains
  exact ⟨last, hinnermost, hdescent.descendsTo⟩

/-- From a region that does not contain a position, nothing is found. -/
theorem innermost?_eq_none_iff (o : Outline α) (start : RegionId α) (pos : Position) :
    o.innermost? start pos = none ↔ ¬ o.Contains start pos := by
  cases hregion : o.region? start with
  | none => simp [innermost?, Contains, span?, hregion]
  | some region => simp [innermost?, Contains, span?, hregion]

end Outline

end CodeInsight

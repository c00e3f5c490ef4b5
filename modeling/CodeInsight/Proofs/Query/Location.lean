/-
# What a position resolves to

A position resolves to a scope and a node. The scope is where the path inwards from the
module scope ends. The node is where a path through the syntax tree ends, which starts at
the node that defines the scope, or at the root if that node does not contain the position
or is none of the tree.

Nothing is assumed of how regions lie: they may overlap, be as large as each other, or
reach out of the regions around them. Where they nest, both ends are the innermost of all
regions at the position.
-/

import CodeInsight.Proofs.Outline.Nesting
import CodeInsight.Proofs.Symbols.Representation
import CodeInsight.Query.Place

namespace CodeInsight

namespace Facts

open ScopeTree

variable {f : Facts} {scope : ScopeId} {pos : Position} {place : Place}

/-- The node that defines a scope. -/
def definingNode? (f : Facts) (scope : ScopeId) : Option NodeId :=
  (f.scopes.scope? scope).bind (·.label.node)

/-- The node found at a position in a scope. The path to it starts at the node that defines the
scope; at the root when that node does not contain the position; and there is none when the root
does not contain it either. -/
inductive FindsNode (f : Facts) (scope : ScopeId) (pos : Position) : Option NodeId → Prop
  | inDefinition {node last : NodeId} (defines : f.definingNode? scope = some node)
      (contains : f.tree.Contains node pos) (path : f.tree.DescendsTo pos node last) :
      FindsNode f scope pos (some last)
  | inModule {last : NodeId}
      (beyond : ∀ node, f.definingNode? scope = some node → ¬ f.tree.Contains node pos)
      (contains : f.tree.Contains Outline.root pos)
      (path : f.tree.DescendsTo pos Outline.root last) : FindsNode f scope pos (some last)
  | nowhere
      (beyond : ∀ node, f.definingNode? scope = some node → ¬ f.tree.Contains node pos)
      (outside : ¬ f.tree.Contains Outline.root pos) : FindsNode f scope pos none

/-- What a position inside the module scope resolves to. -/
structure Resolves (f : Facts) (pos : Position) (place : Place) : Prop where
  scope : f.scopes.outline.DescendsTo pos moduleId place.scope
  node : f.FindsNode place.scope pos place.node

theorem FindsNode.unique {found other : Option NodeId} (finds : f.FindsNode scope pos found)
    (also : f.FindsNode scope pos other) : other = found := by
  cases finds with
  | inDefinition defines contains path =>
      cases also with
      | inDefinition alsoDefines _ alsoPath =>
          cases Option.some.inj (defines.symm.trans alsoDefines)
          exact congrArg some (path.unique alsoPath)
      | inModule beyond => exact absurd contains (beyond _ defines)
      | nowhere beyond => exact absurd contains (beyond _ defines)
  | inModule beyond contains path =>
      cases also with
      | inDefinition defines alsoContains => exact absurd alsoContains (beyond _ defines)
      | inModule _ _ alsoPath => exact congrArg some (path.unique alsoPath)
      | nowhere _ outside => exact absurd contains outside
  | nowhere beyond outside =>
      cases also with
      | inDefinition defines contains => exact absurd contains (beyond _ defines)
      | inModule _ contains => exact absurd contains outside
      | nowhere => rfl

/-- There is only one place that a position resolves to. -/
theorem Resolves.unique {place other : Place} (resolves : f.Resolves pos place)
    (also : f.Resolves pos other) : other = place := by
  obtain ⟨scope, node⟩ := place
  obtain ⟨otherScope, otherNode⟩ := other
  cases resolves.scope.unique also.scope
  cases resolves.node.unique also.node
  rfl

/-- Where the node that defines the scope is out of reach, the search is one from the root. -/
theorem findsNode_inModule (linked : f.tree.WellLinked) (inOrder : f.tree.InOrder)
    (beyond : ∀ node, f.definingNode? scope = some node → ¬ f.tree.Contains node pos) :
    f.FindsNode scope pos (f.tree.innermost? Outline.root pos) := by
  by_cases hcontains : f.tree.Contains Outline.root pos
  · obtain ⟨last, hfound, hpath⟩ :=
      Outline.exists_innermost?_descendsTo linked inOrder hcontains
    rw [hfound]
    exact .inModule beyond hcontains hpath
  · rw [(f.tree.innermost?_eq_none_iff Outline.root pos).mpr hcontains]
    exact .nowhere beyond hcontains

/-- The search for a node finds what it should. -/
theorem findsNode (linked : f.tree.WellLinked) (inOrder : f.tree.InOrder) (scope : ScopeId)
    (pos : Position) :
    f.FindsNode scope pos ((f.tree.innermost? (f.searchStart scope) pos).or
      (f.tree.innermost? Outline.root pos)) := by
  have hstart : f.searchStart scope = (f.definingNode? scope).getD Outline.root := rfl
  cases hdefines : f.definingNode? scope with
  | none =>
      rw [hstart, hdefines, Option.getD_none, Option.or_self]
      apply findsNode_inModule linked inOrder
      intro node hnode
      cases hdefines.symm.trans hnode
  | some node =>
      rw [hstart, hdefines, Option.getD_some]
      by_cases hcontains : f.tree.Contains node pos
      · obtain ⟨last, hfound, hpath⟩ :=
          Outline.exists_innermost?_descendsTo linked inOrder hcontains
        rw [hfound]
        exact .inDefinition hdefines hcontains hpath
      · rw [(f.tree.innermost?_eq_none_iff node pos).mpr hcontains, Option.none_or]
        apply findsNode_inModule linked inOrder
        intro other hother
        cases hdefines.symm.trans hother
        exact hcontains

theorem FindsNode.contains {node : NodeId} (finds : f.FindsNode scope pos (some node)) :
    f.tree.Contains node pos := by
  cases finds with
  | inDefinition _ contains path => exact path.contains contains
  | inModule _ contains path => exact path.contains contains

/-- Inside the module scope a position resolves. -/
theorem exists_resolves (formed : f.scopes.WellFormed) (inOrder : f.scopes.outline.InOrder)
    (linked : f.tree.WellLinked) (treeInOrder : f.tree.InOrder)
    (contains : f.scopes.outline.Contains moduleId pos) :
    ∃ place, f.locate pos = .ok place ∧ f.Resolves pos place := by
  obtain ⟨scope, hfound, hpath⟩ :=
    Outline.exists_innermost?_descendsTo formed.linked inOrder contains
  refine ⟨⟨scope, _⟩, ?_, hpath, findsNode linked treeInOrder scope pos⟩
  rw [locate, ScopeTree.scopeAt?, hfound]
  rfl

theorem locate_eq_error_iff :
    f.locate pos = .error (.outsideScopes pos) ↔
      ¬ f.scopes.outline.Contains moduleId pos := by
  rw [← Outline.innermost?_eq_none_iff, locate, ScopeTree.scopeAt?]
  cases f.scopes.outline.innermost? moduleId pos with
  | none => exact iff_of_true rfl rfl
  | some scope => exact iff_of_false nofun nofun

/-- Inside the module scope a position stands for something. -/
theorem exists_locate_eq_ok (contains : f.scopes.outline.Contains moduleId pos) :
    ∃ place, f.locate pos = .ok place := by
  rw [locate, scopeAt?]
  cases hfound : f.scopes.outline.innermost? moduleId pos with
  | none => exact absurd contains ((f.scopes.outline.innermost?_eq_none_iff moduleId pos).mp hfound)
  | some scope => exact ⟨_, rfl⟩

theorem findsNode_of_locate (grown : f.tree.Built) (located : f.locate pos = .ok place) :
    f.FindsNode place.scope pos place.node := by
  rw [locate] at located
  cases hfound : f.scopes.scopeAt? pos with
  | none =>
      rw [hfound] at located
      cases located
  | some scope =>
      rw [hfound] at located
      cases located
      exact findsNode grown.linked grown.inOrder scope pos

/-- A node that is found at a position is one of the tree. -/
theorem exists_kind?_of_locate (grown : f.tree.Built) (located : f.locate pos = .ok place)
    {node : NodeId} (found : place.node = some node) : ∃ kind, f.tree.kind? node = some kind := by
  have hfinds := findsNode_of_locate grown located
  rw [found] at hfinds
  obtain ⟨region, hregion⟩ := hfinds.contains.exists_region?
  exact ⟨region.label, congrArg (Option.map _) hregion⟩

/-- **A position resolves to the ends of two paths.** There is an error just if the module scope
does not contain the position. Otherwise one place is found, the only one that the position can
resolve to: its scope is where the path from the module scope ends, its node where the path ends
that starts at the node which defines the scope, or else at the root. The scope is inside the module
and not that of built-in names, and both scope and node contain the position. With handles of 32
bits this is so while there are fewer than 2^32 nodes and 2^32 scopes. -/
theorem locate_follows_paths {moduleName : String} {span : Span} {node : Option NodeId}
    {operations : List Operation} (grown : f.tree.Built)
    (built : f.scopes = (ofModule moduleName span node).build operations) (pos : Position) :
    (f.locate pos = .error (.outsideScopes pos) ↔ ¬ f.scopes.outline.Contains moduleId pos) ∧
    (f.scopes.outline.Contains moduleId pos →
      ∃ place, f.locate pos = .ok place ∧ f.Resolves pos place ∧
        (∀ other, f.Resolves pos other → other = place) ∧
        moduleId ∈ f.scopes.ancestors place.scope ∧ f.scopes.builtins ≠ some place.scope ∧
        f.scopes.outline.Contains place.scope pos ∧
        ∀ found, place.node = some found → f.tree.Contains found pos) := by
  refine ⟨locate_eq_error_iff, fun hcontains => ?_⟩
  obtain ⟨hformed, hinOrder, -⟩ := growth_build moduleName span node operations
  rw [← built] at hformed hinOrder
  obtain ⟨place, hlocated, hresolves⟩ :=
    exists_resolves hformed hinOrder grown.linked grown.inOrder hcontains
  have hinside := hresolves.scope.mem_ancestors hformed.linked hcontains
  refine ⟨place, hlocated, hresolves, fun other => hresolves.unique, hinside,
    hformed.ne_builtins_of_mem_ancestors hinside, hresolves.scope.contains hcontains, ?_⟩
  intro found hfound
  have hnode := hresolves.node
  rw [hfound] at hnode
  exact hnode.contains

/-- Of two statements that cover a position, the one that starts later is found, although it ends
later as well. The scope that is found is defined by a node which the tree does not have. -/
theorem locate_between_overlapping_nodes :
    let extent : Span := ⟨⟨0, 0⟩, ⟨9, 0⟩⟩
    let tree : SyntaxTree := SyntaxTree.build (.ofModule extent)
      [⟨Outline.root, .statement, ⟨⟨1, 0⟩, ⟨3, 0⟩⟩⟩, ⟨Outline.root, .statement, ⟨⟨2, 0⟩, ⟨8, 0⟩⟩⟩]
    let start := ScopeTree.ofModule "m" extent (some Outline.root)
    let operations : List Operation :=
      [.withBuiltins, .insert moduleId .functionBody "f" ⟨⟨0, 0⟩, ⟨3, 0⟩⟩ (some ⟨7⟩)]
    let facts : Facts := ⟨"m.py", 1, tree, start.build operations, .default⟩
    facts.tree.Built ∧ facts.scopes.outline.Contains moduleId ⟨2, 4⟩ ∧
      facts.locate ⟨2, 4⟩ = .ok ⟨⟨2⟩, some ⟨2⟩⟩ ∧ facts.Resolves ⟨2, 4⟩ ⟨⟨2⟩, some ⟨2⟩⟩ ∧
      facts.locate ⟨9, 1⟩ = .error (.outsideScopes ⟨9, 1⟩) := by
  intro extent tree start operations facts
  have hgrown : facts.tree.Built := (SyntaxTree.Built.ofModule extent).build _
  have hbuilt : facts.scopes =
      (ScopeTree.ofModule "m" extent (some Outline.root)).build operations := rfl
  have hcontains : facts.scopes.outline.Contains moduleId ⟨2, 4⟩ :=
    ⟨extent, by decide +kernel, by decide +kernel⟩
  have hlocated : facts.locate ⟨2, 4⟩ = .ok ⟨⟨2⟩, some ⟨2⟩⟩ := by decide +kernel
  have herror : facts.locate ⟨9, 1⟩ = .error (.outsideScopes ⟨9, 1⟩) := by decide +kernel
  obtain ⟨-, hplace⟩ := locate_follows_paths hgrown hbuilt ⟨2, 4⟩
  obtain ⟨place, hfound, hresolves, -⟩ := hplace hcontains
  cases Except.ok.inj (hlocated.symm.trans hfound)
  exact ⟨hgrown, hcontains, hlocated, hresolves, herror⟩

end Facts

open ScopeTree

/-- **Where regions nest, the innermost one is found.** From any node of a syntax tree that contains
the position, and from the module scope of a scope tree, the search finds a region such that the
regions at the position are those met on the way from it outwards to the start. All regions at the
position enclose it, and the same region is found in whatever order siblings were added.

The scope of built-in names covers no part of the module that it is around. So scopes are asked to
nest from `outer` inwards, which is the module scope or that of built-in names. With handles of 32
bits this is so while there are fewer than 2^32 nodes and 2^32 scopes. -/
theorem search_finds_innermost_region :
    (∀ (t : SyntaxTree) (start : NodeId) (pos : Position), t.Built →
      t.NestedWithin Outline.root → t.Contains start pos →
      ∃ found, t.innermost? start pos = some found ∧ t.IsInnermost start pos found ∧
        (∀ id, t.Contains id pos → t.Encloses id found) ∧
        ∀ (place : NodeId ≃ NodeId) (other : SyntaxTree), other.Built →
          Outline.Rearranges place t other →
          other.innermost? (place start) pos = some (place found)) ∧
    (∀ (moduleName : String) (span : Span) (node : Option NodeId) (operations : List Operation)
      (outer : ScopeId) (pos : Position),
      let t := (ofModule moduleName span node).build operations
      outer = moduleId ∨ t.builtins = some outer → t.outline.NestedWithin outer →
      t.outline.Contains moduleId pos →
      ∃ found, t.scopeAt? pos = some found ∧ t.outline.IsInnermost moduleId pos found ∧
        (∀ id, outer ∈ t.ancestors id ∨ t.outline.parent? outer = none →
          t.outline.Contains id pos → t.outline.Encloses id found) ∧
        ∀ (place : ScopeId ≃ ScopeId) (otherName : String) (otherSpan : Span)
          (otherNode : Option NodeId) (otherOperations : List Operation),
          let other := (ofModule otherName otherSpan otherNode).build otherOperations
          Outline.Rearranges place t.outline other.outline → place moduleId = moduleId →
          other.scopeAt? pos = some (place found)) := by
  constructor
  · intro t start pos hbuilt hnested hcontains
    obtain ⟨region, hregion⟩ := hcontains.exists_region?
    obtain ⟨found, hfound, hinnermost, hencloses, hrearranged⟩ :=
      hnested.exists_innermost? hbuilt.linked hbuilt.inOrder (hbuilt.root_mem_ancestors hregion)
        hcontains
    refine ⟨found, hfound, hinnermost, ?_, ?_⟩
    · intro id hidContains
      obtain ⟨idRegion, hid⟩ := hidContains.exists_region?
      exact hencloses id (hbuilt.root_mem_ancestors hid) hidContains
    · intro place other hother hrearranges
      exact hrearranged place other hrearranges hother.linked hother.inOrder
  · intro moduleName span node operations outer pos t houter hnested hcontains
    obtain ⟨hformed, hinOrder, hone⟩ := growth_build moduleName span node operations
    have hwithin := hformed.mem_ancestors_module houter
    obtain ⟨found, hfound, hinnermost, hencloses, hrearranged⟩ :=
      hnested.exists_innermost? hformed.linked hinOrder hwithin hcontains
    refine ⟨found, hfound, hinnermost, ?_, ?_⟩
    · rintro id (hidWithin | houtermost) hidContains
      · exact hencloses id hidWithin hidContains
      · obtain ⟨idRegion, hid⟩ := hidContains.exists_region?
        obtain ⟨outerRegion, hregion⟩ := hformed.linked.exists_region?_of_mem_ancestors hwithin
        exact hencloses id (hone.mem_ancestors hformed.linked hid hregion houtermost) hidContains
    · intro place otherName otherSpan otherNode otherOperations other hrearranges hmodule
      obtain ⟨hother, hotherInOrder, -⟩ :=
        growth_build otherName otherSpan otherNode otherOperations
      have hsame := hrearranged place other.outline hrearranges hother.linked hotherInOrder
      rwa [hmodule] at hsame

/-- Two siblings, one with a child, as nodes and as scopes. The search finds the second sibling, and
finds it as well when that one was added first. -/
theorem search_finds_second_sibling :
    let extent : Span := ⟨⟨0, 0⟩, ⟨9, 0⟩⟩
    let first : Span := ⟨⟨1, 0⟩, ⟨2, 0⟩⟩
    let second : Span := ⟨⟨4, 0⟩, ⟨8, 0⟩⟩
    let inside : Span := ⟨⟨5, 0⟩, ⟨6, 0⟩⟩
    let pos : Position := ⟨8, 0⟩
    let t : SyntaxTree := SyntaxTree.build (.ofModule extent)
      [⟨⟨0⟩, .statement, first⟩, ⟨⟨0⟩, .statement, second⟩, ⟨⟨2⟩, .expression, inside⟩]
    let other : SyntaxTree := SyntaxTree.build (.ofModule extent)
      [⟨⟨0⟩, .statement, second⟩, ⟨⟨0⟩, .statement, first⟩, ⟨⟨1⟩, .expression, inside⟩]
    let scopes := (ofModule "m" extent none).build
      [.withBuiltins, .insert moduleId .functionBody "f" first none,
        .insert moduleId .functionBody "g" second none, .insert ⟨3⟩ .classBody "A" inside none]
    t.NestedWithin Outline.root ∧ Outline.Rearranges (Equiv.swap ⟨1⟩ ⟨2⟩) t other ∧
      t.innermost? Outline.root pos = some ⟨2⟩ ∧ t.IsInnermost Outline.root pos ⟨2⟩ ∧
      other.innermost? Outline.root pos = some ⟨1⟩ ∧
      scopes.outline.NestedWithin moduleId ∧ scopes.scopeAt? pos = some ⟨3⟩ ∧
      scopes.outline.IsInnermost moduleId pos ⟨3⟩ := by
  intro extent first second inside pos t other scopes
  obtain ⟨hnodes, hscopes⟩ := search_finds_innermost_region
  have hbuilt : t.Built := (SyntaxTree.Built.ofModule extent).build _
  have hotherBuilt : other.Built := (SyntaxTree.Built.ofModule extent).build _
  have hnested : t.NestedWithin Outline.root := by decide +kernel
  have hrearranges : Outline.Rearranges (Equiv.swap ⟨1⟩ ⟨2⟩) t other :=
    .swap (by decide +kernel) (by decide +kernel) (by decide +kernel) (by decide +kernel)
      (by decide +kernel)
  have hfound : t.innermost? Outline.root pos = some ⟨2⟩ := by decide +kernel
  have hscopesNested : scopes.outline.NestedWithin moduleId := by decide +kernel
  have hscope : scopes.scopeAt? pos = some ⟨3⟩ := by decide +kernel
  obtain ⟨found, hnode, hinnermost, -, hrearranged⟩ := hnodes t Outline.root pos hbuilt hnested
    ⟨extent, by decide +kernel, by decide +kernel⟩
  cases Option.some.inj (hfound.symm.trans hnode)
  have hother : other.innermost? Outline.root pos = some ⟨1⟩ := by
    have hroot : Equiv.swap (⟨1⟩ : NodeId) ⟨2⟩ Outline.root = Outline.root := by decide +kernel
    have hsecond : Equiv.swap (⟨1⟩ : NodeId) ⟨2⟩ ⟨2⟩ = ⟨1⟩ := by decide +kernel
    rw [← hroot, ← hsecond]
    exact hrearranged _ other hotherBuilt hrearranges
  obtain ⟨scope, hscopeAt, hscopeInnermost, -⟩ := hscopes "m" extent none _ moduleId pos (.inl rfl)
    hscopesNested ⟨extent, by decide +kernel, by decide +kernel⟩
  cases Option.some.inj (hscope.symm.trans hscopeAt)
  exact ⟨hnested, hrearranges, hfound, hinnermost, hother, hscopesNested, hscope, hscopeInnermost⟩

end CodeInsight

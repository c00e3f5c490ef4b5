/-
# Walks through the scopes of a module

One walk leads from a scope outwards, another one inwards through all scopes, each before
its children. They rest on different links, the one on parents and the other on children,
and the scope of built-in names comes into both whenever it is asked for: it is numbered
like any other new scope and yet goes above the module scope, so that numbers do not fall on
the way outwards.

All variables of a module are listed on the walk inwards from the module scope. What is
above or beside the module scope is not met on it.

Walks end, through scopes as through nodes. No walk notes where it has been: that it comes to
no scope or node twice rests on the depth that all operations keep, and not on the numbers.
-/

import CodeInsight.Proofs.Outline.Termination
import CodeInsight.Proofs.Symbols.Resolution

namespace CodeInsight

namespace ScopeTree

variable {t : ScopeTree} {scope : ScopeId} {v : Variable}

/-- A scope lists the variables that are declared in it. -/
theorem NamesFit.mem_variablesOf_iff (fit : t.NamesFit) :
    v ∈ t.variablesOf scope ↔ v.scope = scope ∧ ∃ id, t.variableAt? id = some v := by
  constructor
  · intro hlisted
    obtain ⟨hscope, id, -, hv⟩ := fit.exists_binding_of_mem_variablesOf hlisted
    exact ⟨hscope, id, hv⟩
  · rintro ⟨rfl, id, hv⟩
    rw [variablesOf_eq_filterMap, List.mem_filterMap]
    exact ⟨(v.name, id), (fit.binding_iff _ _ _).mpr ⟨v, hv, rfl, rfl⟩, hv⟩

namespace WellFormed

/-- The variables of a module are those declared in the module scope or inside it. -/
theorem mem_allVariables_iff (formed : t.WellFormed) :
    v ∈ t.allVariables ↔ moduleId ∈ t.ancestors v.scope ∧ ∃ id, t.variableAt? id = some v := by
  rw [allVariables, List.mem_flatMap]
  constructor
  · rintro ⟨scope, hscope, hv⟩
    obtain ⟨rfl, hdeclared⟩ := formed.names.mem_variablesOf_iff.mp hv
    exact ⟨formed.linked.mem_descendants_iff.mp hscope, hdeclared⟩
  · rintro ⟨hinside, hdeclared⟩
    exact ⟨v.scope, formed.linked.mem_descendants_iff.mpr hinside,
      formed.names.mem_variablesOf_iff.mpr ⟨rfl, hdeclared⟩⟩

/-- No scope is both inside the module and inside a scope beside it. -/
theorem not_mem_ancestors_of_beside (formed : t.WellFormed)
    (inside : moduleId ∈ t.ancestors scope) {builtins beside : ScopeId}
    (made : t.builtins = some builtins) (around : t.outline.parent? beside = some builtins)
    (ne : beside ≠ moduleId) : beside ∉ t.ancestors scope := by
  intro hbeside
  have hmodule : t.outline.parent? moduleId = some builtins := formed.module_parent.trans made
  exact ne (formed.linked.eq_of_mem_ancestors_of_parent? hbeside inside around hmodule)

/-- The way outwards ends at the scope of built-in names, or at the module scope as long as there is
none. -/
theorem getLast?_ancestors (formed : t.WellFormed) (one : t.outline.OneOutermost) {region : Scope}
    (found : t.scope? scope = some region) :
    (t.ancestors scope).getLast? = some (t.builtins.getD moduleId) := by
  cases hbuiltins : t.builtins with
  | none =>
      obtain ⟨moduleRegion, hmodule, -⟩ := scope?_of_kind? formed.module_kind
      exact one.getLast?_ancestors formed.linked found hmodule
        (formed.module_parent.trans hbuiltins)
  | some builtins =>
      obtain ⟨builtinsRegion, hfound, -⟩ :=
        scope?_of_kind? (formed.builtins_kind builtins hbuiltins)
      exact one.getLast?_ancestors formed.linked found hfound
        (formed.builtins_outermost builtins hbuiltins)

end WellFormed

/-- **A module is flattened in preorder.** The walk inwards, which keeps a stack, is the one walk
that lists a scope and then what it lists from each child, in the order in which the children were
added; it meets no scope twice. On it every variable declared in the module scope or inside it is
listed once: scope after scope, and within a scope in the order of first declarations. No variable
is listed that is declared in the scope of built-in names, or anywhere inside a scope that was put
below it beside the module. With handles of 32 bits this is so while there are fewer than 2^32
scopes and 2^32 variables. -/
theorem module_is_flattened_in_preorder (moduleName : String) (span : Span) (node : Option NodeId)
    (operations : List Operation) :
    let start := ofModule moduleName span node
    let t := start.build operations
    (t.outline.InOrder ∧ (∀ walk, t.outline.IsPreorder walk ↔ walk = t.descendants) ∧
      ∀ scope, (t.descendants scope).Nodup) ∧
    (∀ id v, t.variableAt? id = some v →
      t.allVariables.count v = if moduleId ∈ t.ancestors v.scope then 1 else 0) ∧
    (∀ v ∈ t.allVariables, ∃ id, t.variableAt? id = some v) ∧
    t.allVariables.Pairwise (ListedEarlier start operations (t.descendants moduleId)) ∧
    ∀ builtins, t.builtins = some builtins → ∀ v ∈ t.allVariables,
      v.scope ≠ builtins ∧ ∀ beside, t.outline.parent? beside = some builtins →
        beside ≠ moduleId → beside ∉ t.ancestors v.scope := by
  intro start t
  obtain ⟨hformed, hinOrder, -⟩ := growth_build moduleName span node operations
  have hlisted : t.allVariables.Pairwise
      (ListedEarlier start operations (t.descendants moduleId)) :=
    flatMap_variablesOf_pairwise moduleName span node operations
      (hformed.linked.descendants_nodup moduleId) (List.Sublist.refl _)
  have hnodup : t.allVariables.Nodup := by
    refine hlisted.imp ?_
    rintro v later hearlier rfl
    exact not_listedEarlier_self _ _ _ v hearlier
  refine ⟨⟨hinOrder, fun walk => hformed.linked.isPreorder_iff,
    hformed.linked.descendants_nodup⟩, ?_, ?_, hlisted, ?_⟩
  · intro id v hv
    split
    · rename_i hinside
      refine List.count_eq_one_of_mem hnodup ?_
      exact hformed.mem_allVariables_iff.mpr ⟨hinside, id, hv⟩
    · rename_i houtside
      refine List.count_eq_zero_of_not_mem fun hmem => houtside ?_
      exact (hformed.mem_allVariables_iff.mp hmem).1
  · intro v hv
    exact (hformed.mem_allVariables_iff.mp hv).2
  · intro builtins hmade v hv
    have hinside := (hformed.mem_allVariables_iff.mp hv).1
    refine ⟨?_, fun beside => hformed.not_mem_ancestors_of_beside hinside hmade⟩
    rintro rfl
    exact hformed.ne_builtins_of_mem_ancestors hinside hmade

/-- A class goes below the scope of built-in names, which is made between the functions of the
module. Its variable is not listed, and that of the inner function is, in its place. -/
theorem class_beside_module_is_not_flattened :
    let operations : List Operation :=
      [.insert moduleId .functionBody "f" ⟨⟨1, 0⟩, ⟨4, 0⟩⟩ none, .withBuiltins,
        .insert ⟨2⟩ .classBody "int" Span.origin none,
        .insert moduleId .functionBody "h" ⟨⟨5, 0⟩, ⟨8, 0⟩⟩ none,
        .insert ⟨1⟩ .functionBody "g" ⟨⟨2, 0⟩, ⟨3, 0⟩⟩ none, .declare ⟨3⟩ "real" [] none,
        .declare ⟨4⟩ "z" [] none, .declare ⟨5⟩ "y" [] none, .declare moduleId "x" [] none]
    let t := (ofModule "m" ⟨⟨0, 0⟩, ⟨9, 0⟩⟩ none).build operations
    t.descendants moduleId = [moduleId, ⟨1⟩, ⟨5⟩, ⟨4⟩] ∧
      t.allVariables.map (·.name) = ["x", "y", "z"] ∧
      t.variableAt? ⟨0⟩ = some ⟨"real", [], ⟨3⟩, []⟩ ∧
      t.allVariables.count ⟨"real", [], ⟨3⟩, []⟩ = 0 ∧
      t.variableAt? ⟨2⟩ = some ⟨"y", [], ⟨5⟩, []⟩ ∧
      t.allVariables.count ⟨"y", [], ⟨5⟩, []⟩ = 1 ∧
      t.builtins = some ⟨2⟩ ∧ ∀ v ∈ t.allVariables, ⟨3⟩ ∉ t.ancestors v.scope := by
  intro operations t
  obtain ⟨-, hcount, -, -, hbeside⟩ :=
    module_is_flattened_in_preorder "m" ⟨⟨0, 0⟩, ⟨9, 0⟩⟩ none operations
  have hreal : t.variableAt? ⟨0⟩ = some ⟨"real", [], ⟨3⟩, []⟩ := by decide +kernel
  have hy : t.variableAt? ⟨2⟩ = some ⟨"y", [], ⟨5⟩, []⟩ := by decide +kernel
  have hmade : t.builtins = some ⟨2⟩ := by decide +kernel
  have houtside : moduleId ∉ t.ancestors ⟨3⟩ := by decide +kernel
  have hinside : moduleId ∈ t.ancestors ⟨5⟩ := by decide +kernel
  refine ⟨by decide +kernel, by decide +kernel, hreal, (hcount _ _ hreal).trans (if_neg houtside),
    hy, (hcount _ _ hy).trans (if_pos hinside), hmade, fun v hv => ?_⟩
  exact (hbeside ⟨2⟩ hmade v hv).2 ⟨3⟩ (by decide +kernel) (by decide)

/-- **The walks inwards and outwards agree.** One scope is met on the walk inwards from another one
just if that one is met on the way outwards from it. Every way outwards ends at the scope of
built-in names if that was ever asked for, and at the module scope otherwise. With handles of 32
bits this is so while there are fewer than 2^32 scopes. -/
theorem walks_inwards_and_outwards_agree (moduleName : String) (span : Span)
    (node : Option NodeId) (operations : List Operation) :
    let t := (ofModule moduleName span node).build operations
    (∀ outer inner, inner ∈ t.descendants outer ↔ outer ∈ t.ancestors inner) ∧
    (∀ scope region, t.scope? scope = some region →
      (t.ancestors scope).getLast? = some (t.builtins.getD moduleId)) ∧
    (t.builtins.isSome ↔ .withBuiltins ∈ operations) := by
  intro t
  obtain ⟨hformed, -, hone⟩ := growth_build moduleName span node operations
  refine ⟨fun outer inner => hformed.linked.mem_descendants_iff, ?_, ?_⟩
  · intro scope region hfound
    exact hformed.getLast?_ancestors hone hfound
  · have hmade : t.builtins.isSome ↔
        (ofModule moduleName span node).builtins.isSome ∨ .withBuiltins ∈ operations :=
      isSome_builtins_build_iff
    rw [hmade, or_iff_right]
    exact nofun

/-- With the scope of built-in names above the module scope, and a class beside the module, both
ways outwards end there, and the walk inwards from it meets both. -/
theorem ways_outwards_meet_at_builtins :
    let operations : List Operation :=
      [.insert moduleId .functionBody "f" ⟨⟨1, 0⟩, ⟨4, 0⟩⟩ none, .withBuiltins,
        .insert ⟨2⟩ .classBody "int" Span.origin none]
    let t := (ofModule "m" ⟨⟨0, 0⟩, ⟨9, 0⟩⟩ none).build operations
    (t.scope? ⟨1⟩).isSome ∧ (t.ancestors ⟨1⟩).getLast? = some ⟨2⟩ ∧
      (t.scope? ⟨3⟩).isSome ∧ (t.ancestors ⟨3⟩).getLast? = some ⟨2⟩ ∧
      ⟨1⟩ ∈ t.descendants ⟨2⟩ ∧ ⟨3⟩ ∈ t.descendants ⟨2⟩ ∧ ⟨3⟩ ∉ t.descendants moduleId := by
  intro operations t
  obtain ⟨hdual, hlast, -⟩ :=
    walks_inwards_and_outwards_agree "m" ⟨⟨0, 0⟩, ⟨9, 0⟩⟩ none operations
  have hbuiltins : t.builtins.getD moduleId = ⟨2⟩ := by decide +kernel
  have hends : ∀ scope, (t.scope? scope).isSome →
      (t.ancestors scope).getLast? = some ⟨2⟩ := by
    intro scope hscope
    obtain ⟨region, hfound⟩ := Option.isSome_iff_exists.mp hscope
    rw [hlast scope region hfound, hbuiltins]
  have hinner : (t.scope? ⟨1⟩).isSome := by decide +kernel
  have hbeside : (t.scope? ⟨3⟩).isSome := by decide +kernel
  refine ⟨hinner, hends ⟨1⟩ hinner, hbeside, hends ⟨3⟩ hbeside, ?_, ?_, ?_⟩
  · exact (hdual ⟨2⟩ ⟨1⟩).mpr (List.mem_of_getLast? (hends ⟨1⟩ hinner))
  · exact (hdual ⟨2⟩ ⟨3⟩).mpr (List.mem_of_getLast? (hends ⟨3⟩ hbeside))
  · rw [hdual]
    decide +kernel

end ScopeTree

open ScopeTree

/-- **Every walk through a tree ends.** Made by single moves and without a budget, the way outwards,
the walk inwards and the search at a position come to be over wherever they start. They look only at
nodes and scopes that are there and meet none of them twice, and they meet what the walks with a
budget answer. The way outwards from a node ends at the root. It makes no difference when the scope
of built-in names is asked for. With handles of 32 bits this is so while there are fewer than 2^32
nodes and 2^32 scopes. -/
theorem every_walk_ends :
    (∀ (span : Span) (additions : List SyntaxTree.Addition),
      let t := (SyntaxTree.ofModule span).build additions
      (∀ id, t.Finishes t.moveOutwards (t.startAt? id) (t.ancestors id)) ∧
      (∀ id region, t.region? id = some region →
        (t.ancestors id).getLast? = some Outline.root) ∧
      ∀ pos id, ∃ path, t.Finishes (t.moveTowards pos) (t.searchAt? pos id) path ∧
        t.innermost? id pos = path.getLast?) ∧
    ∀ (moduleName : String) (span : Span) (node : Option NodeId) (operations : List Operation),
      let t := (ofModule moduleName span node).build operations
      let o := t.outline
      (∀ scope, o.Finishes o.moveOutwards (o.startAt? scope) (t.ancestors scope)) ∧
      (∀ scope, o.Finishes o.moveInwards (o.startAt? scope).toList (t.descendants scope)) ∧
      (t.scope? moduleId).isSome ∧
      ∀ pos, ∃ path, o.Finishes (o.moveTowards pos) (o.searchAt? pos moduleId) path ∧
        t.scopeAt? pos = path.getLast? := by
  constructor
  · intro span additions t
    have hbuilt : t.Built := (SyntaxTree.Built.ofModule span).build additions
    refine ⟨hbuilt.linked.finishes_outwards, fun id region => hbuilt.getLast?_ancestors, ?_⟩
    intro pos id
    exact hbuilt.linked.exists_finishes_search hbuilt.inOrder id pos
  · intro moduleName span node operations t o
    obtain ⟨hformed, hinOrder, -⟩ := growth_build moduleName span node operations
    obtain ⟨region, hmodule, -⟩ := scope?_of_kind? hformed.module_kind
    refine ⟨hformed.linked.finishes_outwards, hformed.linked.finishes_inwards,
      Option.isSome_iff_exists.mpr ⟨region, hmodule⟩, ?_⟩
    exact hformed.linked.exists_finishes_search hinOrder moduleId

/-- A call within a statement, and scopes of which one is beside the module, with the scope of
built-in names between them in number. The way outwards from the innermost scope falls from number
to number as far as the module scope and then rises. -/
theorem walks_through_builtins_end :
    let extent : Span := ⟨⟨0, 0⟩, ⟨9, 0⟩⟩
    let outer : Span := ⟨⟨1, 0⟩, ⟨5, 0⟩⟩
    let inner : Span := ⟨⟨2, 0⟩, ⟨4, 0⟩⟩
    let tree : SyntaxTree := SyntaxTree.build (.ofModule extent)
      [⟨Outline.root, .statement, outer⟩, ⟨⟨1⟩, .call, inner⟩, ⟨⟨2⟩, .expression, inner⟩]
    let t := (ofModule "m" extent none).build
      [.insert moduleId .functionBody "f" outer none, .withBuiltins,
        .insert ⟨2⟩ .classBody "int" Span.origin none,
        .insert ⟨1⟩ .functionBody "g" inner none]
    let o := t.outline
    (tree.region? ⟨3⟩).isSome ∧ (tree.ancestors ⟨3⟩).getLast? = some Outline.root ∧
      (∃ path, tree.Finishes (tree.moveTowards ⟨4, 0⟩) (some ⟨1⟩) path ∧
        path.getLast? = some ⟨3⟩) ∧
      o.Finishes o.moveOutwards (some ⟨4⟩) [⟨4⟩, ⟨1⟩, moduleId, ⟨2⟩] ∧
      o.Finishes o.moveInwards [⟨2⟩] [⟨2⟩, moduleId, ⟨1⟩, ⟨4⟩, ⟨3⟩] ∧
      ∃ path, o.Finishes (o.moveTowards ⟨4, 0⟩) (some moduleId) path ∧
        path.getLast? = some ⟨4⟩ := by
  intro extent outer inner tree t o
  obtain ⟨hnodes, hscopes⟩ := every_walk_ends
  obtain ⟨-, hroot, hsearch⟩ := hnodes extent
    [⟨Outline.root, .statement, outer⟩, ⟨⟨1⟩, .call, inner⟩, ⟨⟨2⟩, .expression, inner⟩]
  obtain ⟨houtwards, hinwards, -, hscopeAt⟩ := hscopes "m" extent none
    [.insert moduleId .functionBody "f" outer none, .withBuiltins,
      .insert ⟨2⟩ .classBody "int" Span.origin none,
      .insert ⟨1⟩ .functionBody "g" inner none]
  have hfound : (tree.region? ⟨3⟩).isSome := by decide +kernel
  obtain ⟨region, hregion⟩ := Option.isSome_iff_exists.mp hfound
  obtain ⟨path, hpath, hnode⟩ := hsearch ⟨4, 0⟩ ⟨1⟩
  obtain ⟨scopePath, hscopePath, hscope⟩ := hscopeAt ⟨4, 0⟩
  have hstart : tree.searchAt? ⟨4, 0⟩ ⟨1⟩ = some ⟨1⟩ := by decide +kernel
  have hinnermost : tree.innermost? ⟨1⟩ ⟨4, 0⟩ = some ⟨3⟩ := by decide +kernel
  have hscopeStart : o.searchAt? ⟨4, 0⟩ moduleId = some moduleId := by decide +kernel
  have hscopeFound : t.scopeAt? ⟨4, 0⟩ = some ⟨4⟩ := by decide +kernel
  have hancestors : t.ancestors ⟨4⟩ = [⟨4⟩, ⟨1⟩, moduleId, ⟨2⟩] := by decide +kernel
  have hdescendants : t.descendants ⟨2⟩ = [⟨2⟩, moduleId, ⟨1⟩, ⟨4⟩, ⟨3⟩] := by decide +kernel
  have hinnerStart : o.startAt? ⟨4⟩ = some ⟨4⟩ := by decide +kernel
  have hbuiltinsStart : (o.startAt? ⟨2⟩).toList = [⟨2⟩] := by decide +kernel
  refine ⟨hfound, hroot ⟨3⟩ region hregion, ⟨path, hstart ▸ hpath, hnode.symm.trans hinnermost⟩,
    ?_, ?_, scopePath, hscopeStart ▸ hscopePath, hscope.symm.trans hscopeFound⟩
  · rw [← hancestors, ← hinnerStart]
    exact houtwards ⟨4⟩
  · rw [← hdescendants, ← hbuiltinsStart]
    exact hinwards ⟨2⟩

end CodeInsight

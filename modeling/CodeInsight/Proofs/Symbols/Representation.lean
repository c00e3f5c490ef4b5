/-
# What every scope tree looks like

Scopes and variables point at each other in four ways: a scope at the scope around it and
at the scopes inside it, a name of a scope at its variable, and a variable back at its
scope. The scope of built-in names is put above the module scope at any moment, before or
after scopes and names are added, and may be built upon like the others.

`WellFormed` says that all of these agree. Each of the three operations keeps it, so it
holds of every tree that is built from a module scope.
-/

import CodeInsight.Proofs.Outline.Growth
import CodeInsight.Proofs.Symbols.Building
import Mathlib.Data.List.Nodup

namespace CodeInsight

/-- A name stands for nothing in a scope just if it is not among the names of the scope. -/
theorem ScopeEntry.lookup?_eq_none_iff {s : ScopeEntry} {name : String} :
    s.lookup? name = none ↔ name ∉ s.bindings.map (·.1) := by
  rw [lookup?, List.lookup_eq_none_iff]
  simp only [List.mem_map, not_exists, not_and, bne_iff_ne, ne_eq]
  exact ⟨fun habsent binding hbinding hname => habsent binding hbinding hname.symm,
    fun habsent binding hbinding hname => habsent binding hbinding hname.symm⟩

theorem VariableId.eq_iff {a b : VariableId} : a = b ↔ a.index = b.index := by
  cases a
  cases b
  simp

namespace ScopeTree

variable {t after : ScopeTree} {scope parent : ScopeId} {name : String} {id : VariableId}

/-! ## Names of a scope -/

/-- The names bound in a scope with their variables, in the order of their first declaration. -/
def bindingsOf (t : ScopeTree) (scope : ScopeId) : List (String × VariableId) :=
  ((t.outline.label? scope).map (·.bindings)).getD []

theorem bindingsOf_of_scope? {region : Scope} (found : t.scope? scope = some region) :
    t.bindingsOf scope = region.label.bindings := by
  rw [bindingsOf, Outline.label?, ← scope?, found]
  rfl

theorem bindingsOf_of_scope?_eq_none (absent : t.scope? scope = none) :
    t.bindingsOf scope = [] := by
  rw [bindingsOf, Outline.label?, ← scope?, absent]
  rfl

theorem bindingsOf_ofModule (name : String) (span : Span) (node : Option NodeId)
    (scope : ScopeId) : (ofModule name span node).bindingsOf scope = [] := by
  rw [bindingsOf, ofModule, Outline.label?_ofRoot]
  split <;> rfl

/-- A new scope without names binds no names. -/
theorem bindingsOf_of_label? {label : ScopeEntry} (unnamed : label.bindings = [])
    (added : ∀ other, after.outline.label? other =
      if other = t.outline.nextId then some label else t.outline.label? other)
    (scope : ScopeId) : after.bindingsOf scope = t.bindingsOf scope := by
  rw [bindingsOf, bindingsOf, added]
  split
  · subst scope
    rw [Outline.label?, Outline.region?_nextId]
    exact unnamed
  · rfl

theorem bindingsOf_bind {region : Scope} (found : t.scope? scope = some region)
    (outlined : after.outline = t.outline.relabel scope (·.bind name id)) (other : ScopeId) :
    after.bindingsOf other =
      t.bindingsOf other ++ if other = scope then [(name, id)] else [] := by
  rw [bindingsOf, bindingsOf, outlined, Outline.label?_relabel]
  by_cases hother : other = scope
  · have hlabel : t.outline.label? scope = some region.label := by
      rw [Outline.label?, ← scope?, found]
      rfl
    simp [hother, hlabel, ScopeEntry.bind]
  · simp [hother]

/-! ## Variables by their handles -/

theorem variableAt?_modify (t : ScopeTree) (id : VariableId) (change : Variable → Variable)
    (other : VariableId) :
    variableAt? { t with declared := t.declared.modify id.index change } other =
      (t.variableAt? other).map fun v => if other = id then change v else v := by
  rw [variableAt?, variableAt?, Array.getElem?_modify]
  by_cases hsame : other = id
  · simp [hsame]
  · have hindex : id.index ≠ other.index := fun h => hsame (VariableId.eq_iff.mpr h.symm)
    simp [hsame, hindex]

theorem variableAt?_push (t : ScopeTree) (v : Variable) (outline : Outline ScopeEntry)
    (other : VariableId) :
    variableAt? { t with declared := t.declared.push v, outline } other =
      if other = ⟨t.declared.size⟩ then some v else t.variableAt? other := by
  rw [variableAt?, variableAt?, Array.getElem?_push]
  simp only [VariableId.eq_iff]

/-- The names of the scopes and the variables stand for each other. -/
structure NamesFit (t : ScopeTree) : Prop where
  names_nodup : ∀ scope, ((t.bindingsOf scope).map (·.1)).Nodup
  binding_iff : ∀ scope name id, (name, id) ∈ t.bindingsOf scope ↔
    ∃ v, t.variableAt? id = some v ∧ v.name = name ∧ v.scope = scope

namespace NamesFit

theorem ofModule (name : String) (span : Span) (node : Option NodeId) :
    (ofModule name span node).NamesFit where
  names_nodup scope := by
    rw [bindingsOf_ofModule]
    exact .nil
  binding_iff scope bound id := by
    rw [bindingsOf_ofModule]
    exact iff_of_false List.not_mem_nil fun ⟨v, hv, _⟩ => nomatch hv

theorem congr (fit : t.NamesFit) (bindings : ∀ scope, after.bindingsOf scope = t.bindingsOf scope)
    (declared : after.declared = t.declared) : after.NamesFit where
  names_nodup scope := by
    rw [bindings]
    exact fit.names_nodup scope
  binding_iff scope name id := by
    rw [bindings, variableAt?, declared]
    exact fit.binding_iff scope name id

/-- A name that gets new types and a new location is still the same name of the same scope. -/
theorem modify (fit : t.NamesFit) (id : VariableId) {change : Variable → Variable}
    (same_name : ∀ v, (change v).name = v.name) (same_scope : ∀ v, (change v).scope = v.scope) :
    NamesFit { t with declared := t.declared.modify id.index change } where
  names_nodup := fit.names_nodup
  binding_iff scope name other := by
    refine (fit.binding_iff scope name other).trans ?_
    rw [variableAt?_modify]
    simp only [Option.map_eq_some_iff]
    constructor
    · rintro ⟨v, hv, rfl, rfl⟩
      refine ⟨_, ⟨v, hv, rfl⟩, ?_⟩
      split
      · exact ⟨same_name v, same_scope v⟩
      · exact ⟨rfl, rfl⟩
    · rintro ⟨_, ⟨v, hv, rfl⟩, rfl, rfl⟩
      refine ⟨v, hv, ?_⟩
      split
      · exact ⟨(same_name v).symm, (same_scope v).symm⟩
      · exact ⟨rfl, rfl⟩

/-- A variable may be added together with its name. -/
theorem push (fit : t.NamesFit) {region : Scope} {types : List TypeInfo}
    {locations : List Location} (found : t.scope? scope = some region)
    (unbound : region.label.lookup? name = none) :
    NamesFit { t with
      declared := t.declared.push ⟨name, types, scope, locations⟩
      outline := t.outline.relabel scope (·.bind name ⟨t.declared.size⟩) } where
  names_nodup other := by
    rw [bindingsOf_bind found rfl, List.map_append, List.nodup_append]
    refine ⟨fit.names_nodup other, ?_, ?_⟩
    · split
      · exact List.pairwise_singleton _ _
      · exact .nil
    · intro old hold new hnew
      split at hnew
      · subst other
        rw [bindingsOf_of_scope? found] at hold
        rw [List.mem_singleton.mp hnew]
        rintro rfl
        exact ScopeEntry.lookup?_eq_none_iff.mp unbound hold
      · cases hnew
  binding_iff other bound id := by
    rw [bindingsOf_bind found rfl, List.mem_append, fit.binding_iff, variableAt?_push]
    by_cases hnew : id = ⟨t.declared.size⟩
    · have habsent : t.variableAt? ⟨t.declared.size⟩ = none :=
        Array.getElem?_eq_none (Nat.le_refl _)
      rw [if_pos hnew, hnew, habsent]
      by_cases hother : other = scope
      · simp [hother, eq_comm]
      · simp [hother, Ne.symm hother]
    · rw [if_neg hnew]
      by_cases hother : other = scope <;> simp [hother, hnew]

/-- A name of a scope stands for one variable. -/
theorem eq_of_mem_bindingsOf (fit : t.NamesFit) {other : VariableId}
    (bound : (name, id) ∈ t.bindingsOf scope) (also_bound : (name, other) ∈ t.bindingsOf scope) :
    id = other := by
  have hinjective := List.inj_on_of_nodup_map (fit.names_nodup scope)
  exact congrArg Prod.snd (hinjective bound also_bound rfl)

theorem existsUnique_id (fit : t.NamesFit) (bound : name ∈ (t.bindingsOf scope).map (·.1)) :
    ∃! id, (name, id) ∈ t.bindingsOf scope := by
  obtain ⟨⟨_, id⟩, hbinding, rfl⟩ := List.mem_map.mp bound
  exact ⟨id, hbinding, fun other hother => fit.eq_of_mem_bindingsOf hother hbinding⟩

/-- A variable is what one name of one scope stands for. -/
theorem existsUnique_binding (fit : t.NamesFit) {v : Variable} (found : t.variableAt? id = some v) :
    ∃! binding : ScopeId × String, (binding.2, id) ∈ t.bindingsOf binding.1 := by
  refine ⟨(v.scope, v.name), (fit.binding_iff _ _ _).mpr ⟨v, found, rfl, rfl⟩, ?_⟩
  intro ⟨scope, bound⟩ hbinding
  obtain ⟨other, hother, rfl, rfl⟩ := (fit.binding_iff _ _ _).mp hbinding
  rw [found] at hother
  cases hother
  rfl

end NamesFit

/-! ## Trees that fit together -/

/-- The kind of a scope. -/
def kind? (t : ScopeTree) (scope : ScopeId) : Option ScopeKind :=
  (t.outline.label? scope).map (·.kind)

theorem ne_nextId_of_kind? {kind : ScopeKind} (known : t.kind? scope = some kind) :
    scope ≠ t.outline.nextId := by
  rintro rfl
  rw [kind?, Outline.label?, Outline.region?_nextId] at known
  cases known

theorem kind?_of_added {label : ScopeEntry}
    (added : ∀ other, after.outline.label? other =
      if other = t.outline.nextId then some label else t.outline.label? other)
    (scope : ScopeId) :
    after.kind? scope = if scope = t.outline.nextId then some label.kind else t.kind? scope := by
  rw [kind?, kind?, added]
  split <;> rfl

/-- Binding a name leaves the kind of every scope. -/
theorem kind?_bind (outlined : after.outline = t.outline.relabel scope (·.bind name id))
    (other : ScopeId) : after.kind? other = t.kind? other := by
  rw [kind?, kind?, outlined, Outline.label?_relabel]
  split
  · exact Option.map_map ..
  · rfl

theorem scope?_of_kind? {kind : ScopeKind} (known : t.kind? scope = some kind) :
    ∃ region, t.scope? scope = some region ∧ region.label.kind = kind := by
  rw [kind?, Outline.label?, Option.map_map, Option.map_eq_some_iff] at known
  exact known

/-- The links between scopes, the module scope, the scope of built-in names, and the names of all
scopes are as they should be. -/
structure WellFormed (t : ScopeTree) : Prop where
  linked : t.outline.WellLinked
  module_kind : t.kind? moduleId = some .module
  /-- The scope of built-in names is around the module scope, and nothing else ever is. -/
  module_parent : t.outline.parent? moduleId = t.builtins
  builtins_kind : ∀ id, t.builtins = some id → t.kind? id = some .builtins
  builtins_outermost : ∀ id, t.builtins = some id → t.outline.parent? id = none
  names : t.NamesFit

namespace WellFormed

/-- A new region leaves the kinds of the scopes that are there. -/
theorem kind?_of_label? {label : ScopeEntry} {kind : ScopeKind}
    (added : ∀ other, after.outline.label? other =
      if other = t.outline.nextId then some label else t.outline.label? other)
    (known : t.kind? scope = some kind) : after.kind? scope = some kind := by
  rw [kind?_of_added added, if_neg (ne_nextId_of_kind? known)]
  exact known

theorem ofModule (name : String) (span : Span) (node : Option NodeId) :
    (ofModule name span node).WellFormed where
  linked := .ofRoot _ span
  module_kind := rfl
  module_parent := rfl
  builtins_kind _ made := nomatch made
  builtins_outermost _ made := nomatch made
  names := .ofModule name span node

theorem nonempty (formed : t.WellFormed) : 0 < t.outline.size := by
  obtain ⟨region, hfound, -⟩ := scope?_of_kind? formed.module_kind
  exact Outline.lt_size_of_region? hfound

/-- Every operation keeps the parts of a tree together. -/
theorem performed (formed : t.WellFormed) {operation : Operation}
    (performed : Performed t operation after) : after.WellFormed := by
  cases performed with
  | unchanged => exact formed
  | enclosed unmade =>
      have houtermost : t.outline.parent? moduleId = none := formed.module_parent.trans unmade
      have hlabel := t.outline.label?_enclose (.empty .builtins "builtins" none) Span.origin
      have hparent := Outline.parent?_enclose formed.nonempty
        (ScopeEntry.empty .builtins "builtins" none) Span.origin
      have hmodule := ne_nextId_of_kind? formed.module_kind
      exact
        { linked := formed.linked.enclose formed.nonempty houtermost _ _
          module_kind := kind?_of_label? hlabel formed.module_kind
          module_parent := by
            rw [hparent, if_neg hmodule]
            rfl
          builtins_kind := by
            rintro id ⟨⟩
            rw [kind?_of_added hlabel, if_pos rfl]
            rfl
          builtins_outermost := by
            rintro id ⟨⟩
            rw [hparent, if_pos rfl]
          names := formed.names.congr (bindingsOf_of_label? rfl hlabel) rfl }
  | inserted below =>
      have hlabel := Outline.label?_insert? below
      have hparent := Outline.parent?_insert? below
      exact
        { linked := formed.linked.insert? below
          module_kind := kind?_of_label? hlabel formed.module_kind
          module_parent := by
            rw [hparent, if_neg (ne_nextId_of_kind? formed.module_kind)]
            exact formed.module_parent
          builtins_kind := fun id made => kind?_of_label? hlabel (formed.builtins_kind id made)
          builtins_outermost := fun id made => by
            rw [hparent, if_neg (ne_nextId_of_kind? (formed.builtins_kind id made))]
            exact formed.builtins_outermost id made
          names := formed.names.congr (bindingsOf_of_label? rfl hlabel) rfl }
  | @redeclared _ _ _ _ _ id _ _ =>
      -- Only types and locations change, which nothing points at.
      exact
        { linked := formed.linked
          module_kind := formed.module_kind
          module_parent := formed.module_parent
          builtins_kind := formed.builtins_kind
          builtins_outermost := formed.builtins_outermost
          names := formed.names.modify id (fun _ => rfl) fun _ => rfl }
  | @declared scope name _ _ _ found unbound =>
      exact
        { linked := formed.linked.relabel scope (·.bind name ⟨t.declared.size⟩)
          module_kind := (kind?_bind rfl moduleId).trans formed.module_kind
          module_parent := (Outline.parent?_relabel ..).trans formed.module_parent
          builtins_kind := fun id made => (kind?_bind rfl id).trans (formed.builtins_kind id made)
          builtins_outermost := fun id made =>
            (Outline.parent?_relabel ..).trans (formed.builtins_outermost id made)
          names := formed.names.push found unbound }

/-- Building on keeps the parts of a tree together. -/
theorem buildOn (formed : t.WellFormed) (operations : List Operation) :
    (t.build operations).WellFormed :=
  build_induction operations (fun _ _ _ _ hperformed hformed => hformed.performed hperformed) formed

/-- Every tree that is built from a module scope fits together. -/
theorem build (name : String) (span : Span) (node : Option NodeId)
    (operations : List Operation) :
    ((ScopeTree.ofModule name span node).build operations).WellFormed :=
  (ofModule name span node).buildOn operations

/-- The module scope is within itself and within the scope of built-in names. -/
theorem mem_ancestors_module (formed : t.WellFormed)
    (outer : scope = moduleId ∨ t.builtins = some scope) : scope ∈ t.ancestors moduleId := by
  rcases outer with rfl | hbuiltins
  · obtain ⟨region, hregion, -⟩ := scope?_of_kind? formed.module_kind
    exact formed.linked.mem_ancestors_self hregion
  · exact formed.linked.mem_ancestors_of_parent? (formed.module_parent.trans hbuiltins)

/-- The scope of built-in names is no scope inside the module. -/
theorem ne_builtins_of_mem_ancestors (formed : t.WellFormed)
    (inside : moduleId ∈ t.ancestors scope) : t.builtins ≠ some scope := by
  intro hbuiltins
  have hkind := formed.builtins_kind scope hbuiltins
  obtain ⟨region, hregion, -⟩ := scope?_of_kind? hkind
  rw [ancestors, formed.linked.ancestors_of_outermost hregion
    (formed.builtins_outermost scope hbuiltins), List.mem_singleton] at inside
  rw [← inside, formed.module_kind] at hkind
  cases hkind

theorem inOrder_performed (formed : t.WellFormed) (inOrder : t.outline.InOrder)
    {operation : Operation} (performed : Performed t operation after) : after.outline.InOrder := by
  cases performed with
  | unchanged => exact inOrder
  | enclosed => exact inOrder.enclose _ _
  | inserted below => exact inOrder.insert? formed.linked below
  | redeclared => exact inOrder
  | declared => exact inOrder.relabel _ _

theorem oneOutermost_performed (formed : t.WellFormed) (one : t.outline.OneOutermost)
    {operation : Operation} (performed : Performed t operation after) :
    after.outline.OneOutermost := by
  cases performed with
  | unchanged => exact one
  | enclosed unmade => exact one.enclose formed.nonempty (formed.module_parent.trans unmade) _ _
  | inserted below => exact one.insert? below
  | redeclared => exact one
  | declared => exact one.relabel _ _

end WellFormed

/-- Scopes are listed in the order in which they were added, and all of them are within one. -/
theorem growth_build (name : String) (span : Span) (node : Option NodeId)
    (operations : List Operation) :
    let t := (ofModule name span node).build operations
    t.WellFormed ∧ t.outline.InOrder ∧ t.outline.OneOutermost := by
  refine build_induction
    (P := fun t => t.WellFormed ∧ t.outline.InOrder ∧ t.outline.OneOutermost) operations ?_
    ⟨.ofModule name span node, .ofRoot _ span, .ofRoot _ span⟩
  rintro t operation - after hperformed ⟨hformed, hinOrder, hone⟩
  exact ⟨hformed.performed hperformed, hformed.inOrder_performed hinOrder hperformed,
    hformed.oneOutermost_performed hone hperformed⟩

/-- **Scopes and variables fit together in every tree that is built.** Handles are places in the
tree; parents and children agree, and no child is listed twice; the module scope is the first and
outermost until the scope of built-in names is put above it; there is one such scope for good, with
nothing around it. Names and variables stand for each other one to one. An operation that works in
a scope which is not there is refused, no other one is, and a refused one changes nothing. With
handles of 32 bits this is so while there are fewer than 2^32 scopes and 2^32 variables. -/
theorem scopes_and_variables_fit (name : String) (span : Span) (node : Option NodeId)
    (operations : List Operation) :
    let t := (ofModule name span node).build operations
    (∀ i < t.size, ∃ scope, t.scope? ⟨i⟩ = some scope ∧ scope.id = ⟨i⟩) ∧
    (∀ parent child,
      (child ∈ t.outline.childrenOf parent ↔ t.outline.parent? child = some parent) ∧
        (child ∈ t.outline.childrenOf parent → (t.outline.childrenOf parent).count child = 1)) ∧
    (moduleId.index = 0 ∧ t.kind? moduleId = some .module ∧
      (t.outline.parent? moduleId = none ↔ t.builtins = none)) ∧
    (∀ builtins, t.builtins = some builtins → t.withBuiltins = (t, builtins) ∧
      t.kind? builtins = some .builtins ∧ t.outline.parent? builtins = none) ∧
    (t.withBuiltins.1.builtins = some t.withBuiltins.2 ∧
      ∀ later, (t.withBuiltins.1.build later).withBuiltins.2 = t.withBuiltins.2) ∧
    (∀ scope bound id, (bound, id) ∈ t.bindingsOf scope →
      ∃ v, t.variableAt? id = some v ∧ v.name = bound ∧ v.scope = scope) ∧
    (∀ scope bound, bound ∈ (t.bindingsOf scope).map (·.1) →
      ∃! id, (bound, id) ∈ t.bindingsOf scope) ∧
    (∀ i < t.declared.size,
      ∃! binding : ScopeId × String, (binding.2, ⟨i⟩) ∈ t.bindingsOf binding.1) ∧
    (∀ operation,
      (t.perform? operation = none ↔
        ∃ scope, operation.scope? = some scope ∧ t.scope? scope = none) ∧
      (t.perform? operation = none → t.perform operation = t)) := by
  intro t
  have hformed : t.WellFormed := .build name span node operations
  refine ⟨?_, ?_, ?_, ?_, ?_, ?_, ?_, ?_, ?_⟩
  · intro i hi
    have hfound : t.scope? ⟨i⟩ = some t.outline.regions[i] := Array.getElem?_eq_getElem hi
    exact ⟨_, hfound, hformed.linked.ids _ _ hfound⟩
  · intro parent child
    exact ⟨hformed.linked.children_iff parent child,
      List.nodup_iff_count_eq_one.mp (hformed.linked.children_nodup parent) child⟩
  · refine ⟨rfl, hformed.module_kind, ?_⟩
    rw [hformed.module_parent]
  · intro builtins hmade
    exact ⟨withBuiltins_of_some hmade, hformed.builtins_kind builtins hmade,
      hformed.builtins_outermost builtins hmade⟩
  · refine ⟨t.builtins_withBuiltins, fun later => ?_⟩
    have hmade := builtins_build t.builtins_withBuiltins later
    rw [withBuiltins_of_some hmade]
  · intro scope bound id hbound
    exact (hformed.names.binding_iff scope bound id).mp hbound
  · intro scope bound hbound
    exact hformed.names.existsUnique_id hbound
  · intro i hi
    have hvariable : t.variableAt? ⟨i⟩ = some t.declared[i] := Array.getElem?_eq_getElem hi
    exact hformed.names.existsUnique_binding hvariable
  · intro operation
    exact ⟨perform?_eq_none_iff, perform_of_eq_none⟩

end ScopeTree

end CodeInsight

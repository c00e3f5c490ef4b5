/-
# Names and what they stand for

Resolving a name looks it up in one scope after the other, from the inside out. Listing
the variables of the same scopes one behind the other and searching the list by name finds
the same variable.

The names of a scope are listed as they were first declared. `BoundBefore` says this in
terms of how the tree was built: at some moment the one name was bound and the other was
not yet.
-/

import CodeInsight.Proofs.Outline.Ancestors
import CodeInsight.Proofs.Symbols.Representation
import Mathlib.Data.List.Induction

namespace CodeInsight

namespace ScopeTree

variable {t after : ScopeTree} {scope : ScopeId} {name : String} {id : VariableId} {v : Variable}

/-! ## Lookup as a search -/

theorem variablesOf_eq_filterMap (t : ScopeTree) (scope : ScopeId) :
    t.variablesOf scope =
      (t.bindingsOf scope).filterMap fun binding => t.variableAt? binding.2 := by
  rw [variablesOf]
  split
  · rw [bindingsOf_of_scope? ‹_›]
  · rw [bindingsOf_of_scope?_eq_none ‹_›]
    rfl

theorem lookup?_eq_bind (t : ScopeTree) (scope : ScopeId) (name : String) :
    t.lookup? scope name = ((t.bindingsOf scope).lookup name).bind t.variableAt? := by
  rw [lookup?]
  cases hfound : t.scope? scope with
  | none =>
      rw [bindingsOf_of_scope?_eq_none hfound]
      rfl
  | some region =>
      rw [bindingsOf_of_scope? hfound]
      rfl

namespace NamesFit

theorem exists_binding_of_mem_variablesOf (fit : t.NamesFit) (listed : v ∈ t.variablesOf scope) :
    v.scope = scope ∧ ∃ id, (v.name, id) ∈ t.bindingsOf scope ∧ t.variableAt? id = some v := by
  rw [variablesOf_eq_filterMap, List.mem_filterMap] at listed
  obtain ⟨⟨bound, id⟩, hbinding, hv⟩ := listed
  obtain ⟨found, hfound, rfl, rfl⟩ := (fit.binding_iff scope bound id).mp hbinding
  cases hv.symm.trans hfound
  exact ⟨rfl, id, hbinding, hv⟩

/-- The variables of a scope stand in the order of its names. -/
theorem names_variablesOf (fit : t.NamesFit) (scope : ScopeId) :
    (t.variablesOf scope).map (·.name) = (t.bindingsOf scope).map (·.1) := by
  rw [variablesOf_eq_filterMap, List.map_filterMap, ← List.filterMap_eq_map]
  refine List.filterMap_congr fun binding hbinding => ?_
  obtain ⟨v, hv, hname, -⟩ := (fit.binding_iff scope binding.1 binding.2).mp hbinding
  rw [hv, Option.map_some, hname]
  rfl

/-- What a name is bound to has that name. -/
theorem namesOf_eq_map (fit : t.NamesFit) (scope : ScopeId) :
    t.namesOf scope = (t.variablesOf scope).map fun v => (v.name, v) := by
  rw [namesOf, variablesOf]
  cases hfound : t.scope? scope with
  | none => rfl
  | some region =>
      rw [List.map_filterMap]
      refine List.filterMap_congr ?_
      rintro ⟨bound, id⟩ hbinding
      rw [← bindingsOf_of_scope? hfound] at hbinding
      obtain ⟨v, hv, rfl, -⟩ := (fit.binding_iff scope bound id).mp hbinding
      simp only [hv, Option.map_some]

/-- Looking a name up is searching the variables of the scope by it. -/
theorem lookup?_eq_find? (fit : t.NamesFit) (scope : ScopeId) (name : String) :
    t.lookup? scope name = (t.variablesOf scope).find? (·.name = name) := by
  rw [lookup?_eq_bind, variablesOf_eq_filterMap]
  have hdeclared : ∀ binding ∈ t.bindingsOf scope,
      ∃ v, t.variableAt? binding.2 = some v ∧ v.name = binding.1 := by
    intro binding hbinding
    obtain ⟨v, hv, hname, -⟩ := (fit.binding_iff scope binding.1 binding.2).mp hbinding
    exact ⟨v, hv, hname⟩
  generalize t.bindingsOf scope = bindings at hdeclared ⊢
  induction bindings with
  | nil => rfl
  | cons binding rest ih =>
      obtain ⟨bound, id⟩ := binding
      obtain ⟨v, hv, rfl⟩ := hdeclared _ List.mem_cons_self
      have hrest := ih fun binding hbinding => hdeclared binding (List.mem_cons_of_mem _ hbinding)
      rw [List.filterMap_cons, hv, List.lookup_cons]
      by_cases hname : v.name = name
      · subst name
        simp [hv]
      · have hother : (name == v.name) = false := by simpa using Ne.symm hname
        simp [hname, hother, hrest]

/-- Resolving a name is searching the variables of all scopes around by it. -/
theorem resolve?_eq_find? (fit : t.NamesFit) (scope : ScopeId) (name : String) :
    t.resolve? scope name =
      ((t.ancestors scope).flatMap t.variablesOf).find? (·.name = name) := by
  rw [List.find?_flatMap, resolve?]
  congr 1
  funext outer
  exact fit.lookup?_eq_find? outer name

/-- A name is found in a scope just if it is bound there. -/
theorem isSome_lookup?_iff (fit : t.NamesFit) :
    (t.lookup? scope name).isSome ↔ name ∈ (t.bindingsOf scope).map (·.1) := by
  rw [fit.lookup?_eq_find?, List.find?_isSome, ← fit.names_variablesOf, List.mem_map]
  simp only [decide_eq_true_eq]

end NamesFit

/-! ## The order of first declaration -/

/-- While a tree was built, there was a moment when one name was bound in a scope and another one
was not. -/
def BoundBefore (start : ScopeTree) (operations : List Operation) (scope : ScopeId)
    (name later : String) : Prop :=
  ∃ done, done <+: operations ∧ ((start.build done).lookup? scope name).isSome ∧
    (start.build done).lookup? scope later = none

/-- An operation leaves the names of a scope as they are, or it puts a new name behind them. -/
theorem Performed.bindingsOf {operation : Operation} (performed : Performed t operation after)
    (scope : ScopeId) :
    after.bindingsOf scope = t.bindingsOf scope ∨
      ∃ name id, name ∉ (t.bindingsOf scope).map (·.1) ∧
        after.bindingsOf scope = t.bindingsOf scope ++ [(name, id)] := by
  cases performed with
  | unchanged => exact .inl rfl
  | enclosed =>
      have hlabel := t.outline.label?_enclose (.empty .builtins "builtins" none) Span.origin
      exact .inl (bindingsOf_of_label? rfl hlabel scope)
  | inserted below =>
      exact .inl (bindingsOf_of_label? rfl (Outline.label?_insert? below) scope)
  | redeclared => exact .inl rfl
  | @declared other name _ _ region found unbound =>
      rw [bindingsOf_bind found rfl]
      by_cases hscope : scope = other
      · rw [if_pos hscope, hscope, bindingsOf_of_scope? found]
        exact .inr ⟨name, _, ScopeEntry.lookup?_eq_none_iff.mp unbound, rfl⟩
      · rw [if_neg hscope, List.append_nil]
        exact .inl rfl

theorem BoundBefore.append {start : ScopeTree} {operations : List Operation} {later : String}
    (before : BoundBefore start operations scope name later) (operation : Operation) :
    BoundBefore start (operations ++ [operation]) scope name later := by
  obtain ⟨done, hdone, hbefore⟩ := before
  exact ⟨done, hdone.trans (List.prefix_append _ _), hbefore⟩

/-- The names of a scope stand in the order in which they were bound. -/
theorem bindingsOf_build_pairwise (moduleName : String) (span : Span) (node : Option NodeId)
    (operations : List Operation) (scope : ScopeId) :
    (((ofModule moduleName span node).build operations).bindingsOf scope).Pairwise
      fun binding later =>
        BoundBefore (ofModule moduleName span node) operations scope binding.1 later.1 := by
  induction operations using List.reverseRecOn with
  | nil =>
      rw [build, List.foldl_nil, bindingsOf_ofModule]
      exact .nil
  | append_singleton operations operation ih =>
      have hfit := (WellFormed.build moduleName span node operations).names
      have hold := ih.imp fun before => BoundBefore.append before operation
      rw [build_append]
      cases hperform : ((ofModule moduleName span node).build operations).perform? operation with
      | none =>
          rw [perform_of_eq_none hperform]
          exact hold
      | some after =>
          rw [perform_of_eq_some hperform]
          obtain hsame | ⟨name, id, hnew, hadded⟩ :=
            (performed_of_perform? hperform).bindingsOf scope
          · rw [hsame]
            exact hold
          · -- The new name comes last, and before this operation it was the only one not bound.
            rw [hadded, List.pairwise_append]
            refine ⟨hold, List.pairwise_singleton _ _, ?_⟩
            intro binding hbinding new hmem
            rw [List.mem_singleton.mp hmem]
            refine ⟨operations, List.prefix_append _ _, ?_, ?_⟩
            · exact hfit.isSome_lookup?_iff.mpr (List.mem_map_of_mem hbinding)
            · exact Option.not_isSome_iff_eq_none.mp (mt hfit.isSome_lookup?_iff.mp hnew)

/-- The variables of a scope stand in the order in which their names were bound. -/
theorem variablesOf_build_pairwise (moduleName : String) (span : Span) (node : Option NodeId)
    (operations : List Operation) (scope : ScopeId) :
    (((ofModule moduleName span node).build operations).variablesOf scope).Pairwise fun v later =>
      BoundBefore (ofModule moduleName span node) operations scope v.name later.name := by
  have hfit := (WellFormed.build moduleName span node operations).names
  have hnames := List.pairwise_map.mpr
    (bindingsOf_build_pairwise moduleName span node operations scope)
  rw [← hfit.names_variablesOf] at hnames
  exact List.pairwise_map.mp hnames

/-- A list without duplicates stands in the order of its indices. -/
theorem pairwise_idxOf {met : List ScopeId} (nodup : met.Nodup) :
    met.Pairwise fun first later => met.idxOf first < met.idxOf later := by
  rw [List.pairwise_iff_getElem]
  intro i j hi hj hij
  rwa [nodup.idxOf_getElem, nodup.idxOf_getElem]

/-- Where scopes are met in an order, one variable is listed before another one: its scope is met
earlier, or both are of one scope and its name was bound earlier. -/
def ListedEarlier (start : ScopeTree) (operations : List Operation) (met : List ScopeId)
    (v later : Variable) : Prop :=
  met.idxOf v.scope < met.idxOf later.scope ∨
    v.scope = later.scope ∧ BoundBefore start operations v.scope v.name later.name

theorem not_listedEarlier_self (start : ScopeTree) (operations : List Operation)
    (met : List ScopeId) (v : Variable) : ¬ ListedEarlier start operations met v v := by
  rintro (hindex | ⟨-, done, -, hbound, hunbound⟩)
  · exact Nat.lt_irrefl _ hindex
  · rw [hunbound] at hbound
    cases hbound

/-- The variables of scopes met one after the other are listed in their order. -/
theorem flatMap_variablesOf_pairwise (moduleName : String) (span : Span) (node : Option NodeId)
    (operations : List Operation) {met part : List ScopeId} (nodup : met.Nodup)
    (walked : part.Sublist met) :
    (part.flatMap ((ofModule moduleName span node).build operations).variablesOf).Pairwise
      (ListedEarlier (ofModule moduleName span node) operations met) := by
  have hfit := (WellFormed.build moduleName span node operations).names
  rw [List.pairwise_flatMap]
  constructor
  · intro scope _
    refine (variablesOf_build_pairwise moduleName span node operations scope).imp_of_mem ?_
    intro v later hv hlater hbefore
    obtain ⟨hscope, -⟩ := hfit.exists_binding_of_mem_variablesOf hv
    obtain ⟨hlaterScope, -⟩ := hfit.exists_binding_of_mem_variablesOf hlater
    refine .inr ⟨hscope.trans hlaterScope.symm, ?_⟩
    rw [hscope]
    exact hbefore
  · refine ((pairwise_idxOf nodup).sublist walked).imp ?_
    intro first second hindex v hv later hlater
    obtain ⟨hscope, -⟩ := hfit.exists_binding_of_mem_variablesOf hv
    obtain ⟨hlaterScope, -⟩ := hfit.exists_binding_of_mem_variablesOf hlater
    refine .inl ?_
    rw [hscope, hlaterScope]
    exact hindex

/-! ## The scope of built-in names -/

/-- Whether building adds a scope of the kind that the scope of built-in names has. A refused
operation adds none. -/
def addsBuiltins (t : ScopeTree) : List Operation → Bool
  | [] => false
  | operation :: rest =>
    (operation.addsBuiltins && (t.perform? operation).isSome) ||
      (t.perform operation).addsBuiltins rest

/-- Only the scope of built-in names is of its kind. -/
def OneBuiltins (t : ScopeTree) : Prop :=
  ∀ scope, t.kind? scope = some .builtins → t.builtins = some scope

theorem OneBuiltins.performed {operation : Operation} (one : t.OneBuiltins)
    (performed : Performed t operation after) (plain : operation.addsBuiltins = false) :
    after.OneBuiltins := by
  intro scope hkind
  cases performed with
  | unchanged => exact one scope hkind
  | enclosed unmade =>
      have hlabel := t.outline.label?_enclose (.empty .builtins "builtins" none) Span.origin
      rw [kind?_of_added hlabel] at hkind
      split at hkind
      · exact congrArg some ‹scope = _›.symm
      · have hmade := one scope hkind
        rw [unmade] at hmade
        cases hmade
  | @inserted _ _ kind _ _ _ _ below =>
      rw [kind?_of_added (Outline.label?_insert? below)] at hkind
      split at hkind
      · have hother : kind ≠ .builtins := of_decide_eq_false plain
        exact absurd (Option.some.inj hkind) hother
      · exact one scope hkind
  | redeclared => exact one scope hkind
  | declared =>
      rw [kind?_bind rfl] at hkind
      exact one scope hkind

theorem OneBuiltins.build {operations : List Operation} (one : t.OneBuiltins)
    (plain : t.addsBuiltins operations = false) : (t.build operations).OneBuiltins := by
  induction operations generalizing t with
  | nil => exact one
  | cons operation rest ih =>
      rw [addsBuiltins, Bool.or_eq_false_iff] at plain
      refine ih ?_ plain.2
      cases hperform : t.perform? operation with
      | none =>
          rw [perform_of_eq_none hperform]
          exact one
      | some after =>
          rw [perform_of_eq_some hperform]
          refine one.performed (performed_of_perform? hperform) ?_
          simpa [hperform] using plain.1

theorem oneBuiltins_ofModule (name : String) (span : Span) (node : Option NodeId) :
    (ofModule name span node).OneBuiltins := by
  intro scope hkind
  rw [kind?, ofModule, Outline.label?_ofRoot] at hkind
  split at hkind
  · cases hkind
  · cases hkind

/-- On the way outwards the scope of built-in names comes last, if at all. -/
theorem WellFormed.ancestors_eq_append (formed : t.WellFormed) (scope : ScopeId) :
    ∃ inner last, t.ancestors scope = inner ++ last ∧ (∀ a ∈ inner, t.builtins ≠ some a) ∧
      ∀ a ∈ last, t.builtins = some a := by
  cases hbuiltins : t.builtins with
  | none => exact ⟨t.ancestors scope, [], (List.append_nil _).symm, nofun, nofun⟩
  | some builtins =>
      have houtermost := formed.builtins_outermost builtins hbuiltins
      obtain ⟨inner, hinner, hall | hall⟩ := Outline.ancestors_eq_or_append houtermost scope
      · refine ⟨inner, [], hall.trans (List.append_nil _).symm, ?_, nofun⟩
        rintro a ha ⟨⟩
        exact hinner ha
      · refine ⟨inner, [builtins], hall, ?_, ?_⟩
        · rintro a ha ⟨⟩
          exact hinner ha
        · intro a ha
          rw [List.mem_singleton.mp ha]

end ScopeTree

end CodeInsight

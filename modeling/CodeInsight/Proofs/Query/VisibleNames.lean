/-
# Visible names and what they resolve to

The names visible at a position are listed by walking outwards and keeping the first of
every name; a single name is resolved by a walk of its own that stops at the first scope
where the name is bound. Over trees that are built by the operations on them the two agree,
for every name and however names hide each other.

A host that does not want built-in names gets the same list without them, in the same
order. This rests on the scope of built-in names being the outermost one: nothing that it
binds hides anything.
-/

import CodeInsight.Proofs.Symbols.Merge
import CodeInsight.Proofs.Symbols.Resolution
import CodeInsight.Query.Answers

namespace CodeInsight

/-- What a merge of variables has under a name is the first variable with that name. -/
theorem Member.mem_merge_ofVariable_iff {vars : List Variable} {m : Member} {name : String} :
    (m ∈ merge (vars.map ofVariable) ∧ m.name = name) ↔
      ∃ v, vars.find? (·.name = name) = some v ∧ m = ofVariable v := by
  rw [mem_merge_iff, List.find?_map, Option.map_eq_some_iff]
  constructor
  · rintro ⟨⟨v, hv, rfl⟩, rfl⟩
    exact ⟨v, hv, rfl⟩
  · rintro ⟨v, hv, rfl⟩
    have hname : v.name = name := by simpa using List.find?_some hv
    subst hname
    exact ⟨⟨v, hv, rfl⟩, rfl⟩

namespace ScopeTree

/-- One visible name is listed before another one: it is declared further inside, or in the same
scope and earlier. -/
def ListedBefore (start : ScopeTree) (operations : List Operation) (scope : ScopeId)
    (m later : Member) : Prop :=
  let around := (start.build operations).ancestors scope
  ∃ inner ∈ around, ∃ outer ∈ around, m.scope = some inner ∧ later.scope = some outer ∧
    (around.idxOf inner < around.idxOf outer ∨
      inner = outer ∧ BoundBefore start operations inner m.name later.name)

/-- What is listed of some scopes tells which of them it is declared in. -/
theorem NamesFit.exists_scope_of_listed {t : ScopeTree} (fit : t.NamesFit) {met : List ScopeId}
    {m : Member} (listed : m ∈ (met.flatMap t.variablesOf).map Member.ofVariable) :
    ∃ scope ∈ met, m.scope = some scope := by
  obtain ⟨v, hv, rfl⟩ := List.mem_map.mp listed
  obtain ⟨scope, hscope, hvariable⟩ := List.mem_flatMap.mp hv
  exact ⟨scope, hscope, congrArg some (fit.exists_binding_of_mem_variablesOf hvariable).1⟩

/-- The variables of scopes met on the way outwards are listed as they should be. -/
theorem variables_pairwise (moduleName : String) (span : Span) (node : Option NodeId)
    (operations : List Operation) (scope : ScopeId) {met : List ScopeId}
    (walked : met.Sublist (((ofModule moduleName span node).build operations).ancestors scope)) :
    (met.flatMap ((ofModule moduleName span node).build operations).variablesOf).Pairwise
      fun v later => ListedBefore (ofModule moduleName span node) operations scope
        (Member.ofVariable v) (Member.ofVariable later) := by
  have hformed : ((ofModule moduleName span node).build operations).WellFormed :=
    .build moduleName span node operations
  have hmet {v : Variable}
      (hv : v ∈ met.flatMap ((ofModule moduleName span node).build operations).variablesOf) :
      v.scope ∈ ((ofModule moduleName span node).build operations).ancestors scope := by
    obtain ⟨a, ha, hvariable⟩ := List.mem_flatMap.mp hv
    rw [(hformed.names.exists_binding_of_mem_variablesOf hvariable).1]
    exact walked.subset ha
  have hnodup := hformed.linked.ancestors_nodup scope
  refine (flatMap_variablesOf_pairwise moduleName span node operations hnodup walked).imp_of_mem ?_
  intro v later hv hlater hearlier
  exact ⟨v.scope, hmet hv, later.scope, hmet hlater, rfl, rfl, hearlier⟩

end ScopeTree

namespace Facts

open ScopeTree

variable {f : Facts} {moduleName : String} {span : Span} {node : Option NodeId}
  {operations : List Operation}

/-- The variables whose names are offered in a scope, inner ones first, hidden ones included. -/
def offered (f : Facts) (scope : ScopeId) : List Variable :=
  ((f.scopes.ancestors scope).filter f.shows).flatMap f.scopes.variablesOf

/-- Names are collected as they are bound. Where variables have the names they are bound to, this
merges the variables. -/
theorem visibleFrom_eq_merge (f : Facts) (fit : f.scopes.NamesFit) (scope : ScopeId) :
    f.visibleFrom scope = Member.merge ((f.offered scope).map Member.ofVariable) := by
  have hnames : ((f.scopes.ancestors scope).filter f.shows).flatMap f.scopes.namesOf =
      (f.offered scope).map fun v => (v.name, v) := by
    rw [offered, List.map_flatMap]
    congr 1
    funext outer
    exact fit.namesOf_eq_map outer
  rw [visibleFrom, hnames, keepFirst_map, Member.merge, keepFirst_map, List.map_map]
  rfl

theorem offered_of_includeBuiltins (included : f.preferences.includeBuiltins = true)
    (scope : ScopeId) :
    f.offered scope = (f.scopes.ancestors scope).flatMap f.scopes.variablesOf := by
  have hshows : ∀ outer ∈ f.scopes.ancestors scope, f.shows outer = true := by
    intro outer _
    rw [shows, included, Bool.true_or]
  rw [offered, List.filter_eq_self.mpr hshows]

/-- Without built-in names a scope is shown just if it is none of their kind. -/
theorem shows_iff (excluded : f.preferences.includeBuiltins = false) (scope : ScopeId)
    (found : ∃ region, f.scopes.scope? scope = some region) :
    f.shows scope = true ↔ f.scopes.kind? scope ≠ some .builtins := by
  obtain ⟨region, hfound⟩ := found
  rw [shows, excluded, Bool.false_or, hfound, kind?, Outline.label?, ← scope?, hfound]
  simp

/-- A visible name is what the name resolves to. -/
theorem mem_visibleFrom_iff (fit : f.scopes.NamesFit)
    (included : f.preferences.includeBuiltins = true) {scope : ScopeId} {m : Member}
    {name : String} :
    (m ∈ f.visibleFrom scope ∧ m.name = name) ↔
      ∃ v, f.scopes.resolve? scope name = some v ∧ m = Member.ofVariable v := by
  rw [visibleFrom_eq_merge f fit, Member.mem_merge_ofVariable_iff, fit.resolve?_eq_find?,
    offered_of_includeBuiltins included]

/-- Visible names are listed from the inside out, and as they were declared within a scope. -/
theorem visibleFrom_pairwise (built : f.scopes = (ofModule moduleName span node).build operations)
    (scope : ScopeId) :
    (f.visibleFrom scope).Pairwise
      (ListedBefore (ofModule moduleName span node) operations scope) := by
  have hfit : f.scopes.NamesFit := built ▸ (WellFormed.build moduleName span node operations).names
  rw [visibleFrom_eq_merge f hfit]
  refine List.Pairwise.sublist (Member.merge_sublist _) ?_
  rw [List.pairwise_map, offered, built]
  exact variables_pairwise moduleName span node operations scope List.filter_sublist

/-- Leaving built-in names out leaves out the last of the visible names. -/
theorem visibleFrom_of_not_includeBuiltins (formed : f.scopes.WellFormed)
    (one : f.scopes.OneBuiltins) (excluded : f.preferences.includeBuiltins = false)
    (scope : ScopeId) :
    f.visibleFrom scope =
      (visibleFrom { f with preferences := ⟨true⟩ } scope).filter fun m =>
        m.scope ≠ f.scopes.builtins := by
  obtain ⟨inner, last, hancestors, hinner, hlast⟩ := formed.ancestors_eq_append scope
  have hfound : ∀ a ∈ inner ++ last, ∃ region, f.scopes.scope? a = some region := by
    rw [← hancestors]
    exact fun a ha => formed.linked.exists_region?_of_mem_ancestors ha
  have hshown : ∀ a ∈ inner, f.shows a = true := by
    intro a ha
    rw [shows_iff excluded a (hfound a (List.mem_append_left _ ha))]
    exact fun hkind => hinner a ha (one a hkind)
  have hhidden : ∀ a ∈ last, ¬ f.shows a = true := by
    intro a ha
    rw [shows_iff excluded a (hfound a (List.mem_append_right _ ha)), not_not]
    exact formed.builtins_kind a (hlast a ha)
  have hoffered : f.offered scope = inner.flatMap f.scopes.variablesOf := by
    rw [offered, hancestors, List.filter_append, List.filter_eq_self.mpr hshown,
      List.filter_eq_nil_iff.mpr hhidden, List.append_nil]
  rw [visibleFrom_eq_merge f formed.names,
    visibleFrom_eq_merge { f with preferences := ⟨true⟩ } formed.names, hoffered,
    offered_of_includeBuiltins rfl, hancestors, List.flatMap_append, List.map_append]
  symm
  apply Member.filter_merge_append
  · intro m hm
    obtain ⟨a, ha, hscope⟩ := formed.names.exists_scope_of_listed hm
    exact decide_eq_true fun hbuiltins => hinner a ha (hbuiltins.symm.trans hscope)
  · intro m hm
    obtain ⟨a, ha, hscope⟩ := formed.names.exists_scope_of_listed hm
    exact decide_eq_false (not_not.mpr (hscope.trans (hlast a ha).symm))

end Facts

namespace Snapshot

open ScopeTree

/-- **The names visible at a position are those that resolve there.** No name is listed twice; with
built-in names wanted, a name is listed just if it resolves, and then as the variable it resolves
to; names declared further inside come first, and within a scope those declared earlier. Where
built-in names are not wanted and no other scope passes for theirs, the list is the one with them,
less the names declared in their scope. With handles of 32 bits this is so while there are fewer
than 2^32 nodes, 2^32 scopes and 2^32 variables. -/
theorem visible_names_agree_with_resolution {s : Snapshot} {moduleName : String} {span : Span}
    {node : Option NodeId} {operations : List Operation} {pos : Position} {place : Place}
    (built : s.scopes = (ofModule moduleName span node).build operations)
    (located : s.locate pos = .ok place) :
    ∃ items, s.itemsAt pos = .ok items ∧
      (items.map (·.name)).Nodup ∧
      (s.preferences.includeBuiltins = true → ∀ name m,
        (m ∈ items ∧ m.name = name) ↔
          ∃ v, s.scopes.resolve? place.scope name = some v ∧ m = Member.ofVariable v) ∧
      items.Pairwise (ListedBefore (ofModule moduleName span node) operations place.scope) ∧
      (s.preferences.includeBuiltins = false →
        (ofModule moduleName span node).addsBuiltins operations = false →
        ∃ all, itemsAt { s with preferences := ⟨true⟩ } pos = .ok all ∧
          items = all.filter fun m => m.scope ≠ s.scopes.builtins) := by
  have hformed : s.scopes.WellFormed := built ▸ .build moduleName span node operations
  have hitems : s.itemsAt pos = .ok (s.visibleFrom place.scope) := by
    rw [itemsAt, located]
    rfl
  refine ⟨s.visibleFrom place.scope, hitems, ?_, ?_, ?_, ?_⟩
  · rw [Facts.visibleFrom_eq_merge _ hformed.names]
    exact Member.merge_names_nodup _
  · intro hincluded name m
    exact Facts.mem_visibleFrom_iff hformed.names hincluded
  · exact Facts.visibleFrom_pairwise built place.scope
  · intro hexcluded hplain
    have hone : s.scopes.OneBuiltins :=
      built ▸ (oneBuiltins_ofModule moduleName span node).build hplain
    have hall : itemsAt { s with preferences := ⟨true⟩ } pos =
        .ok (Facts.visibleFrom { s.toFacts with preferences := ⟨true⟩ } place.scope) := by
      have hlocated : Facts.locate { s.toFacts with preferences := ⟨true⟩ } pos = .ok place :=
        located
      rw [itemsAt, hlocated]
      rfl
    exact ⟨_, hall, Facts.visibleFrom_of_not_includeBuiltins hformed hone hexcluded place.scope⟩

/-- A function body hides a name of its module and one of the built-in names, which the module
hides as well. -/
theorem visible_names_inside_function :
    let body : Span := ⟨⟨1, 0⟩, ⟨2, 0⟩⟩
    let start := ofModule "m" ⟨⟨0, 0⟩, ⟨9, 0⟩⟩ none
    let operations : List Operation :=
      [.declare moduleId "x" [] none, .insert moduleId .functionBody "f" body none,
        .withBuiltins, .declare ⟨2⟩ "x" [] none, .declare ⟨2⟩ "len" [] none,
        .declare moduleId "y" [] none, .declare ⟨1⟩ "len" [] none, .declare ⟨1⟩ "x" [] none]
    let facts : Facts :=
      ⟨"m.py", 1, .ofModule ⟨⟨0, 0⟩, ⟨9, 0⟩⟩, start.build operations, ⟨false⟩⟩
    let s : Snapshot := ⟨facts, .silent, .empty⟩
    s.locate ⟨1, 4⟩ = .ok ⟨⟨1⟩, some Outline.root⟩ ∧
      start.addsBuiltins operations = false ∧
      ∃ items all, s.itemsAt ⟨1, 4⟩ = .ok items ∧ items.map (·.name) = ["len", "x", "y"] ∧
        items.Pairwise (ListedBefore start operations ⟨1⟩) ∧
        itemsAt { s with preferences := ⟨true⟩ } ⟨1, 4⟩ = .ok all ∧
        items = all.filter fun m => m.scope ≠ some ⟨2⟩ := by
  intro body start operations facts s
  have hbuilt : s.scopes = (ofModule "m" ⟨⟨0, 0⟩, ⟨9, 0⟩⟩ none).build operations := by
    simp only [s, facts, start]
  have hlocated : s.locate ⟨1, 4⟩ = .ok ⟨⟨1⟩, some Outline.root⟩ := by decide +kernel
  have hplain : start.addsBuiltins operations = false := by decide +kernel
  have hbuiltins : s.scopes.builtins = some ⟨2⟩ := by decide +kernel
  have hnames : (s.itemsAt ⟨1, 4⟩).map (List.map (·.name)) = .ok ["len", "x", "y"] := by
    decide +kernel
  obtain ⟨items, hitems, -, -, hordered, hexcluded⟩ :=
    visible_names_agree_with_resolution hbuilt hlocated
  obtain ⟨all, hall, hfilter⟩ := hexcluded rfl hplain
  rw [hbuiltins] at hfilter
  rw [hitems] at hnames
  exact ⟨hlocated, hplain, items, all, hitems, Except.ok.inj hnames, hordered, hall, hfilter⟩

end Snapshot

end CodeInsight

/-
# What declarations leave in a scope

The names of a scope are a map in order of insertion: a name stands where it was declared
first, with the types and the location of its last declaration. The map is kept in two
places, the names in the scope and the variables in one array for all scopes, and a name
that is declared again overwrites the entry of the array and nothing else.

`Declaration.into` is one step of such a map on the list of variables itself. Every
operation on a tree is this step in the scope that it declares a name in, and no step in any
other scope. So what a scope lists after any number of operations is what the map has after
the declarations among them that are made in this scope.
-/

import CodeInsight.Proofs.Symbols.Resolution

namespace CodeInsight

/-- What is said of a name when it is declared in a scope. -/
structure Declaration where
  scope : ScopeId
  name : String
  types : List TypeInfo
  location : Option Location

namespace Declaration

/-- The variable that is just as the declaration says. -/
def toVariable (d : Declaration) : Variable := ⟨d.name, d.types, d.scope, d.location.toList⟩

/-- A variable after a declaration, which only a variable of the same name takes notice of. -/
def overwrite (d : Declaration) (v : Variable) : Variable :=
  if v.name = d.name then d.toVariable else v

/-- The variables of a scope after a declaration in it. A name that is there keeps its place, and a
new one comes last. -/
def into (vars : List Variable) (d : Declaration) : List Variable :=
  if d.name ∈ vars.map (·.name) then vars.map d.overwrite else vars ++ [d.toVariable]

/-! ## Names in order of their first declaration -/

variable {vars : List Variable} {d : Declaration} {v : Variable}

theorem overwrite_of_eq (same : v.name = d.name) : d.overwrite v = d.toVariable := if_pos same

theorem overwrite_of_ne (other : v.name ≠ d.name) : d.overwrite v = v := if_neg other

@[simp]
theorem name_overwrite (d : Declaration) (v : Variable) : (d.overwrite v).name = v.name := by
  rw [overwrite]
  split
  · exact ‹v.name = d.name›.symm
  · rfl

theorem mem_into_iff : v ∈ into vars d ↔ v = d.toVariable ∨ v ∈ vars ∧ v.name ≠ d.name := by
  rw [into]
  split
  · rename_i hknown
    obtain ⟨old, hold, hname⟩ := List.mem_map.mp hknown
    rw [List.mem_map]
    constructor
    · rintro ⟨w, hw, rfl⟩
      by_cases hsame : w.name = d.name
      · exact .inl (overwrite_of_eq hsame)
      · exact .inr (by rw [overwrite_of_ne hsame]; exact ⟨hw, hsame⟩)
    · rintro (rfl | ⟨hv, hother⟩)
      · exact ⟨old, hold, overwrite_of_eq hname⟩
      · exact ⟨v, hv, overwrite_of_ne hother⟩
  · rename_i hnew
    have hother : v ∈ vars → v.name ≠ d.name := fun hv hname =>
      hnew (hname ▸ List.mem_map_of_mem hv)
    rw [List.mem_append, List.mem_singleton, or_comm]
    exact or_congr_right ⟨fun hv => ⟨hv, hother hv⟩, And.left⟩

theorem names_into (vars : List Variable) (d : Declaration) :
    (into vars d).map (·.name) =
      if d.name ∈ vars.map (·.name) then vars.map (·.name)
      else vars.map (·.name) ++ [d.name] := by
  rw [into]
  split
  · rw [List.map_map]
    exact List.map_congr_left fun v _ => name_overwrite d v
  · rw [List.map_append]
    rfl

/-- All but the name that is declared stays as it is, in the same order. -/
theorem filter_into (vars : List Variable) (d : Declaration) :
    (into vars d).filter (·.name ≠ d.name) = vars.filter (·.name ≠ d.name) := by
  rw [into]
  split
  · rw [List.filter_map]
    simp only [Function.comp_def, name_overwrite]
    refine (List.map_congr_left fun v hv => ?_).trans (List.map_id _)
    exact overwrite_of_ne (of_decide_eq_true (List.mem_filter.mp hv).2)
  · rw [List.filter_append, List.filter_cons_of_neg (by simp [toVariable]), List.filter_nil,
      List.append_nil]

/-- A search by the name that is declared finds the declaration. -/
theorem find?_into_self (vars : List Variable) (d : Declaration) :
    (into vars d).find? (·.name = d.name) = some d.toVariable := by
  cases hfound : (into vars d).find? (·.name = d.name) with
  | none =>
      have hmem : d.toVariable ∈ into vars d := mem_into_iff.mpr (.inl rfl)
      exact absurd (decide_eq_true rfl) (List.find?_eq_none.mp hfound _ hmem)
  | some v =>
      rcases mem_into_iff.mp (List.mem_of_find?_eq_some hfound) with rfl | ⟨-, hother⟩
      · rfl
      · exact absurd (by simpa using List.find?_some hfound) hother

/-- A search by another name finds what it found before. -/
theorem find?_into_of_ne (vars : List Variable) {name : String} (other : name ≠ d.name) :
    (into vars d).find? (·.name = name) = vars.find? (·.name = name) := by
  have hfilter : ∀ list : List Variable, list.find? (·.name = name) =
      (list.filter (·.name ≠ d.name)).find? (·.name = name) := by
    intro list
    rw [List.find?_filter]
    congr 1
    funext v
    by_cases hname : v.name = name <;> simp [hname, other]
  rw [hfilter, filter_into, ← hfilter]

/-- After declarations in order, names stand in the order of their first declaration. -/
theorem names_foldl_into (made : List Declaration) :
    (made.foldl into []).map (·.name) = (made.map (·.name)).eraseDups := by
  induction made using List.reverseRecOn with
  | nil => rfl
  | append_singleton made d ih =>
      rw [List.foldl_append, List.foldl_cons, List.foldl_nil, names_into, ih, List.map_append,
        List.map_cons, List.map_nil, List.eraseDups_append]
      generalize made.map (·.name) = names
      by_cases hknown : d.name ∈ names
      · simp [List.removeAll, hknown]
      · simp [List.removeAll, hknown, List.eraseDups_cons]

/-- After declarations in order, a variable is as the last declaration of its name says. -/
theorem last_of_mem_foldl_into {made : List Declaration} (listed : v ∈ made.foldl into []) :
    (made.filter (·.name = v.name)).getLast?.map toVariable = some v := by
  induction made using List.reverseRecOn with
  | nil => cases listed
  | append_singleton made d ih =>
      rw [List.foldl_append, List.foldl_cons, List.foldl_nil, mem_into_iff] at listed
      rw [List.filter_append]
      rcases listed with rfl | ⟨hv, hother⟩
      · rw [List.filter_cons_of_pos (by simp [toVariable]), List.filter_nil, List.getLast?_concat]
        rfl
      · rw [List.filter_cons_of_neg (by simpa using Ne.symm hother), List.filter_nil,
          List.append_nil]
        exact ih hv

end Declaration

namespace ScopeTree

variable {t after : ScopeTree} {scope other : ScopeId} {name : String} {id : VariableId}
  {d : Declaration}

/-! ## Handles -/

/-- The handle of the variable that a name stands for in one scope. -/
def handle? (t : ScopeTree) (scope : ScopeId) (name : String) : Option VariableId :=
  (t.scope? scope).bind (·.label.lookup? name)

theorem handle?_of_scope? {region : Scope} (found : t.scope? scope = some region) :
    t.handle? scope name = region.label.lookup? name := by
  rw [handle?, found]
  rfl

theorem handle?_eq_lookup (t : ScopeTree) (scope : ScopeId) (name : String) :
    t.handle? scope name = (t.bindingsOf scope).lookup name := by
  cases hfound : t.scope? scope with
  | none =>
      rw [handle?, hfound, bindingsOf_of_scope?_eq_none hfound]
      rfl
  | some region =>
      rw [handle?_of_scope? hfound, bindingsOf_of_scope? hfound]
      rfl

theorem NamesFit.handle?_eq_some_iff (fit : t.NamesFit) :
    t.handle? scope name = some id ↔ (name, id) ∈ t.bindingsOf scope := by
  rw [handle?_eq_lookup]
  have hlisted : ∀ other, (t.bindingsOf scope).lookup name = some other →
      (name, other) ∈ t.bindingsOf scope := by
    intro other hlookup
    obtain ⟨front, back, hbindings, -⟩ := List.lookup_eq_some_iff.mp hlookup
    rw [hbindings]
    exact List.mem_append_right _ List.mem_cons_self
  refine ⟨hlisted id, fun hbound => ?_⟩
  cases hlookup : (t.bindingsOf scope).lookup name with
  | none => simpa using List.lookup_eq_none_iff.mp hlookup _ hbound
  | some other => rw [fit.eq_of_mem_bindingsOf (hlisted other hlookup) hbound]

/-- Two names stand for one variable just if they are the same name of the same scope. -/
theorem NamesFit.eq_iff_of_handle? (fit : t.NamesFit) {otherName : String} {otherId : VariableId}
    (known : t.handle? scope name = some id) (also : t.handle? other otherName = some otherId) :
    otherId = id ↔ other = scope ∧ otherName = name := by
  constructor
  · rintro rfl
    obtain ⟨v, hv, rfl, rfl⟩ := (fit.binding_iff _ _ _).mp (fit.handle?_eq_some_iff.mp known)
    obtain ⟨w, hw, rfl, rfl⟩ := (fit.binding_iff _ _ _).mp (fit.handle?_eq_some_iff.mp also)
    cases hv.symm.trans hw
    exact ⟨rfl, rfl⟩
  · rintro ⟨rfl, rfl⟩
    exact Option.some.inj (also.symm.trans known)

/-- An operation leaves the handles that there are. -/
theorem Performed.handle? {operation : Operation} (performed : Performed t operation after)
    (known : t.handle? scope name = some id) : after.handle? scope name = some id := by
  rw [handle?_eq_lookup] at known ⊢
  obtain hsame | ⟨new, newId, -, hadded⟩ := performed.bindingsOf scope
  · rw [hsame, known]
  · rw [hadded, List.lookup_append, known]
    rfl

/-- A name keeps its handle for good. -/
theorem handle?_build (known : t.handle? scope name = some id) (later : List Operation) :
    (t.build later).handle? scope name = some id :=
  build_induction (P := fun t => t.handle? scope name = some id) later
    (fun _ _ _ _ performed known => performed.handle? known) known

/-- The variable that a declaration gives back is the one that its name stands for. -/
theorem handle?_declare?
    (declared : t.declare? d.scope d.name d.types d.location = some (after, id))
    (scope : ScopeId) (name : String) :
    after.handle? scope name =
      if scope = d.scope ∧ name = d.name then some id else t.handle? scope name := by
  obtain ⟨region, hfound, ⟨hbound, rfl⟩ | ⟨hunbound, rfl, rfl⟩⟩ := declare?_cases declared
  · rw [← handle?_of_scope? hfound] at hbound
    split
    · obtain ⟨rfl, rfl⟩ := ‹scope = d.scope ∧ name = d.name›
      exact hbound
    · rfl
  · rw [← handle?_of_scope? hfound] at hunbound
    rw [handle?_eq_lookup, bindingsOf_bind hfound rfl, List.lookup_append, ← handle?_eq_lookup]
    by_cases hscope : scope = d.scope
    · subst hscope
      by_cases hname : name = d.name
      · subst hname
        simp [hunbound]
      · have hother : (name == d.name) = false := by simpa using hname
        simp [hname, List.lookup_cons, hother]
    · simp [hscope]

theorem performed_of_declare?
    (declared : t.declare? d.scope d.name d.types d.location = some (after, id)) :
    Performed t (.declare d.scope d.name d.types d.location) after :=
  performed_of_perform? (Option.map_eq_some_iff.mpr ⟨(after, id), declared, rfl⟩)

/-! ## The variables of a scope, operation by operation -/

namespace NamesFit

/-- A name that is declared again keeps its place and is as declared, and no other variable is
changed. -/
theorem variablesOf_modify (fit : t.NamesFit) (bound : t.handle? d.scope d.name = some id)
    (scope : ScopeId) :
    variablesOf { t with
        declared := t.declared.modify id.index fun v =>
          { v with types := d.types, locations := d.location.toList } } scope =
      if scope = d.scope then Declaration.into (t.variablesOf scope) d
      else t.variablesOf scope := by
  have hchanged : ∀ binding ∈ t.bindingsOf scope,
      variableAt? { t with
          declared := t.declared.modify id.index fun v =>
            { v with types := d.types, locations := d.location.toList } } binding.2 =
        (t.variableAt? binding.2).map fun v => if scope = d.scope then d.overwrite v else v := by
    intro binding hbinding
    obtain ⟨v, hv, hname, rfl⟩ := (fit.binding_iff scope binding.1 binding.2).mp hbinding
    have hsame := fit.eq_iff_of_handle? bound (fit.handle?_eq_some_iff.mpr hbinding)
    rw [← hname] at hsame
    rw [variableAt?_modify, hv, Option.map_some, Option.map_some, Declaration.overwrite, ← ite_and]
    split
    · rename_i hid
      obtain ⟨hscope, hdname⟩ := hsame.mp hid
      rw [if_pos ⟨hscope, hdname⟩, Declaration.toVariable, ← hscope, ← hdname]
    · rename_i hother
      rw [if_neg (mt hsame.mpr hother)]
  have hlisted : scope = d.scope → d.name ∈ (t.variablesOf scope).map (·.name) := by
    rintro rfl
    rw [fit.names_variablesOf]
    exact List.mem_map_of_mem (fit.handle?_eq_some_iff.mp bound)
  rw [variablesOf_eq_filterMap]
  refine (List.filterMap_congr hchanged).trans ?_
  rw [← List.map_filterMap, ← variablesOf_eq_filterMap]
  split
  · rw [Declaration.into, if_pos (hlisted ‹scope = d.scope›)]
  · exact List.map_id' _

/-- A new name comes last in its scope. -/
theorem variablesOf_push (fit : t.NamesFit) {region : Scope}
    (found : t.scope? d.scope = some region) (unbound : region.label.lookup? d.name = none)
    (scope : ScopeId) :
    variablesOf { t with
        declared := t.declared.push d.toVariable
        outline := t.outline.relabel d.scope (·.bind d.name ⟨t.declared.size⟩) } scope =
      if scope = d.scope then Declaration.into (t.variablesOf scope) d
      else t.variablesOf scope := by
  have hkept : ∀ binding ∈ t.bindingsOf scope,
      variableAt? { t with
          declared := t.declared.push d.toVariable
          outline := t.outline.relabel d.scope (·.bind d.name ⟨t.declared.size⟩) } binding.2 =
        t.variableAt? binding.2 := by
    intro binding hbinding
    obtain ⟨v, hv, -⟩ := (fit.binding_iff scope binding.1 binding.2).mp hbinding
    rw [variableAt?_push, if_neg]
    intro hnew
    rw [hnew, variableAt?, Array.getElem?_eq_none (Nat.le_refl _)] at hv
    cases hv
  have hlisted : scope = d.scope → d.name ∉ (t.variablesOf scope).map (·.name) := by
    rintro rfl
    rw [fit.names_variablesOf, bindingsOf_of_scope? found]
    exact ScopeEntry.lookup?_eq_none_iff.mp unbound
  rw [variablesOf_eq_filterMap, bindingsOf_bind found rfl, List.filterMap_append,
    List.filterMap_congr hkept, ← variablesOf_eq_filterMap]
  split
  · rw [Declaration.into, if_neg (hlisted ‹scope = d.scope›), List.filterMap_cons,
      variableAt?_push, if_pos rfl]
    rfl
  · exact List.append_nil _

/-- A declaration counts in its own scope. -/
theorem variablesOf_declare? (fit : t.NamesFit)
    (declared : t.declare? d.scope d.name d.types d.location = some (after, id))
    (scope : ScopeId) :
    after.variablesOf scope =
      if scope = d.scope then Declaration.into (t.variablesOf scope) d
      else t.variablesOf scope := by
  obtain ⟨region, hfound, ⟨hbound, rfl⟩ | ⟨hunbound, rfl, rfl⟩⟩ := declare?_cases declared
  · exact fit.variablesOf_modify ((handle?_of_scope? hfound).trans hbound) scope
  · exact fit.variablesOf_push hfound hunbound scope

/-- A search by the name that is declared finds the declaration, and any other search finds what it
found before. -/
theorem lookup?_declare? (fit : t.NamesFit) (fitAfter : after.NamesFit)
    (declared : t.declare? d.scope d.name d.types d.location = some (after, id))
    (scope : ScopeId) (name : String) :
    after.lookup? scope name =
      if scope = d.scope ∧ name = d.name then some d.toVariable else t.lookup? scope name := by
  rw [fitAfter.lookup?_eq_find?, fit.lookup?_eq_find?, fit.variablesOf_declare? declared]
  by_cases hscope : scope = d.scope
  · rw [if_pos hscope]
    by_cases hname : name = d.name
    · rw [if_pos ⟨hscope, hname⟩, hname, Declaration.find?_into_self]
    · rw [if_neg fun h => hname h.2, Declaration.find?_into_of_ne _ hname]
  · rw [if_neg hscope, if_neg fun h => hscope h.1]

end NamesFit

namespace WellFormed

theorem declared (formed : t.WellFormed)
    (declared : t.declare? d.scope d.name d.types d.location = some (after, id)) :
    after.WellFormed := formed.performed (performed_of_declare? declared)

/-- Two declarations in one tree give back the same variable just if they are of the same name in
the same scope. -/
theorem declare?_eq_iff (formed : t.WellFormed)
    (declared : t.declare? d.scope d.name d.types d.location = some (after, id))
    (later : List Operation) {again : Declaration} {last : ScopeTree} {againId : VariableId}
    (declaredAgain : (after.build later).declare? again.scope again.name again.types
      again.location = some (last, againId)) :
    againId = id ↔ again.scope = d.scope ∧ again.name = d.name := by
  have hfirst : after.handle? d.scope d.name = some id := by
    rw [handle?_declare? declared, if_pos ⟨rfl, rfl⟩]
  have hkept : last.handle? d.scope d.name = some id :=
    (performed_of_declare? declaredAgain).handle? (handle?_build hfirst later)
  have hagain : last.handle? again.scope again.name = some againId := by
    rw [handle?_declare? declaredAgain, if_pos ⟨rfl, rfl⟩]
  have hlast : last.WellFormed := ((formed.declared declared).buildOn later).declared declaredAgain
  exact hlast.names.eq_iff_of_handle? hkept hagain

/-- A declaration leaves all other names where they are and as they are. -/
theorem declare?_others (formed : t.WellFormed)
    (declared : t.declare? d.scope d.name d.types d.location = some (after, id))
    (scope : ScopeId) :
    (∀ name, (scope, name) ≠ (d.scope, d.name) →
      after.handle? scope name = t.handle? scope name ∧
        after.lookup? scope name = t.lookup? scope name) ∧
    (after.variablesOf scope).filter (fun v => (scope, v.name) ≠ (d.scope, d.name)) =
      (t.variablesOf scope).filter fun v => (scope, v.name) ≠ (d.scope, d.name) := by
  constructor
  · intro name hother
    have hne : ¬ (scope = d.scope ∧ name = d.name) := by rwa [Ne, Prod.mk.injEq] at hother
    rw [handle?_declare? declared, if_neg hne,
      formed.names.lookup?_declare? (formed.declared declared).names declared, if_neg hne]
    exact ⟨rfl, rfl⟩
  · rw [formed.names.variablesOf_declare? declared]
    split
    · rename_i hscope
      simp only [hscope, Prod.mk.injEq, true_and, ne_eq]
      exact Declaration.filter_into _ d
    · rfl

end WellFormed

/-! ## The variables of a scope after any number of operations -/

/-- The declaration that an operation makes, if it makes one. -/
def Operation.declaration? : Operation → Option Declaration
  | declare scope name types location => some ⟨scope, name, types, location⟩
  | _ => none

/-- The declarations that building makes, in order. A refused operation makes none. -/
def declarations (t : ScopeTree) : List Operation → List Declaration
  | [] => []
  | operation :: rest =>
    match t.perform? operation with
    | some after => operation.declaration?.toList ++ after.declarations rest
    | none => t.declarations rest

theorem variablesOf_congr (bindings : after.bindingsOf scope = t.bindingsOf scope)
    (declared : after.declared = t.declared) : after.variablesOf scope = t.variablesOf scope := by
  rw [variablesOf_eq_filterMap, variablesOf_eq_filterMap, bindings]
  simp only [variableAt?, declared]

/-- An operation is a step of the map in the scope that it declares a name in. -/
theorem NamesFit.variablesOf_performed (fit : t.NamesFit) {operation : Operation}
    (performed : t.perform? operation = some after) (scope : ScopeId) :
    after.variablesOf scope =
      (operation.declaration?.toList.filter (·.scope = scope)).foldl Declaration.into
        (t.variablesOf scope) := by
  cases operation with
  | declare declScope name types location =>
      obtain ⟨⟨_, id⟩, hdeclared, rfl⟩ := Option.map_eq_some_iff.mp performed
      rw [fit.variablesOf_declare? (d := ⟨declScope, name, types, location⟩) hdeclared]
      by_cases hscope : scope = declScope
      · simp [Operation.declaration?, hscope]
      · simp [Operation.declaration?, hscope, Ne.symm hscope]
  | withBuiltins =>
      cases performed_of_perform? performed with
      | unchanged => rfl
      | enclosed =>
          have hlabel := t.outline.label?_enclose (.empty .builtins "builtins" none) Span.origin
          exact variablesOf_congr (bindingsOf_of_label? rfl hlabel scope) rfl
  | insert =>
      cases performed_of_perform? performed with
      | inserted below =>
          exact variablesOf_congr (bindingsOf_of_label? rfl (Outline.label?_insert? below) scope) rfl

/-- A scope lists what the map has after the declarations in it. -/
theorem WellFormed.variablesOf_build (formed : t.WellFormed) (operations : List Operation)
    (scope : ScopeId) :
    (t.build operations).variablesOf scope =
      ((t.declarations operations).filter (·.scope = scope)).foldl Declaration.into
        (t.variablesOf scope) := by
  induction operations generalizing t with
  | nil => rfl
  | cons operation rest ih =>
      have hbuild : t.build (operation :: rest) = (t.perform operation).build rest := rfl
      rw [hbuild, declarations]
      cases hperform : t.perform? operation with
      | none =>
          rw [perform_of_eq_none hperform]
          exact ih formed
      | some after =>
          rw [perform_of_eq_some hperform, ih (formed.performed (performed_of_perform? hperform)),
            formed.names.variablesOf_performed hperform, List.filter_append, List.foldl_append]

/-- **Declarations are kept in order, each name as it was declared last.** In a tree that is built
from a module scope, a scope lists each name declared in it once, in the order of first
declarations, with the types and the location of its last declaration. Every scope of the tree
takes declarations. A declaration gives back the variable of its name, which is the same one for
good and that of no other name; and it leaves every other name of every scope where it is and as it
is. With handles of 32 bits this is so while there are fewer than 2^32 scopes and 2^32 variables. -/
theorem declarations_keep_order (moduleName : String) (span : Span) (node : Option NodeId)
    (operations : List Operation) :
    let start := ofModule moduleName span node
    let t := start.build operations
    (∀ scope,
      let made := (start.declarations operations).filter (·.scope = scope)
      (t.variablesOf scope).map (·.name) = (made.map (·.name)).eraseDups ∧
        ∀ v ∈ t.variablesOf scope,
          (made.filter (·.name = v.name)).getLast?.map Declaration.toVariable = some v) ∧
    (∀ d : Declaration, t.declare? d.scope d.name d.types d.location = none ↔
      t.scope? d.scope = none) ∧
    ∀ (d : Declaration) after id,
      t.declare? d.scope d.name d.types d.location = some (after, id) →
      (∀ later (other : Declaration) last otherId,
        (after.build later).declare? other.scope other.name other.types other.location =
            some (last, otherId) →
          (otherId = id ↔ other.scope = d.scope ∧ other.name = d.name)) ∧
      after.handle? d.scope d.name = some id ∧
      after.lookup? d.scope d.name = some d.toVariable ∧
      ∀ scope,
        (∀ name, (scope, name) ≠ (d.scope, d.name) →
          after.handle? scope name = t.handle? scope name ∧
            after.lookup? scope name = t.lookup? scope name) ∧
        (after.variablesOf scope).filter (fun v => (scope, v.name) ≠ (d.scope, d.name)) =
          (t.variablesOf scope).filter fun v => (scope, v.name) ≠ (d.scope, d.name) := by
  intro start t
  have hformed : t.WellFormed := .build moduleName span node operations
  refine ⟨fun scope => ?_, fun d => declare?_eq_none_iff, fun d after id hdeclared => ?_⟩
  · have hvariables := (WellFormed.ofModule moduleName span node).variablesOf_build operations scope
    have hnone : (ofModule moduleName span node).variablesOf scope = [] := by
      rw [variablesOf_eq_filterMap, bindingsOf_ofModule, List.filterMap_nil]
    rw [hnone] at hvariables
    intro made
    constructor
    · rw [hvariables]
      exact Declaration.names_foldl_into made
    · intro v hv
      rw [hvariables] at hv
      exact Declaration.last_of_mem_foldl_into hv
  · refine ⟨fun later again last againId => hformed.declare?_eq_iff hdeclared later, ?_, ?_,
      hformed.declare?_others hdeclared⟩
    · rw [handle?_declare? hdeclared, if_pos ⟨rfl, rfl⟩]
    · rw [hformed.names.lookup?_declare? (hformed.declared hdeclared).names hdeclared,
        if_pos ⟨rfl, rfl⟩]

/-- Between two declarations of one name in the module scope, the scope of built-in names is made
and takes the same name, a scope that is not there refuses one, and another name is declared. The
name keeps its place and its variable, and that of the scope above stays what it is. -/
theorem redeclared_name_keeps_place :
    let start := ofModule "m" ⟨⟨0, 0⟩, ⟨9, 0⟩⟩ none
    let operations : List Operation :=
      [.declare moduleId "a" [] none, .withBuiltins, .declare ⟨1⟩ "a" [] none,
        .declare ⟨7⟩ "c" [] none, .declare moduleId "b" [] none]
    let d : Declaration := ⟨moduleId, "a", [.unknown], some ⟨"m.py", ⟨⟨4, 0⟩, ⟨4, 1⟩⟩⟩⟩
    let t := start.build operations
    let after := t.perform (.declare d.scope d.name d.types d.location)
    t.declare? d.scope d.name d.types d.location = some (after, ⟨0⟩) ∧
      (t.variablesOf moduleId).map (·.name) = ["a", "b"] ∧
      after.variablesOf moduleId = [d.toVariable, ⟨"b", [], moduleId, []⟩] ∧
      after.lookup? moduleId "a" = some d.toVariable ∧
      after.lookup? ⟨1⟩ "a" = t.lookup? ⟨1⟩ "a" ∧
      ∀ later last id, (after.build later).declare? ⟨1⟩ "a" [] none = some (last, id) →
        id ≠ ⟨0⟩ := by
  intro start operations d t after
  obtain ⟨hlisted, -, hdeclare⟩ :=
    declarations_keep_order "m" ⟨⟨0, 0⟩, ⟨9, 0⟩⟩ none operations
  have hdeclared : t.declare? d.scope d.name d.types d.location = some (after, ⟨0⟩) := by
    decide +kernel
  obtain ⟨hagain, -, hlookup, hothers⟩ := hdeclare d after ⟨0⟩ hdeclared
  refine ⟨hdeclared, (hlisted moduleId).1.trans (by decide +kernel), by decide +kernel, hlookup,
    ((hothers ⟨1⟩).1 "a" (by decide)).2, fun later last id hlater hsame => ?_⟩
  obtain ⟨hscope, -⟩ := (hagain later ⟨⟨1⟩, "a", [], none⟩ last id hlater).mp hsame
  exact absurd hscope (by decide)

end ScopeTree

end CodeInsight

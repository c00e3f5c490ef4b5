/-
# Building scope trees

A scope tree comes into being by three operations: the scope of built-in names is asked
for, a scope is added, a name is declared. `perform` does one of them and leaves the tree
as it is when the operation is refused, and `build` does a list of them in order.

`Performed` lists all that an operation can do to a tree, so that proofs about trees need
not open the operations themselves.
-/

import CodeInsight.Proofs.Outline.Links
import CodeInsight.Symbols.ScopeTree

namespace CodeInsight

namespace ScopeTree

/-- One operation on a scope tree under construction. -/
inductive Operation where
  /-- The scope of built-in names is asked for. -/
  | withBuiltins
  | insert (parent : ScopeId) (kind : ScopeKind) (name : String) (span : Span)
      (node : Option NodeId)
  | declare (scope : ScopeId) (name : String) (types : List TypeInfo)
      (location : Option Location)

namespace Operation

/-- The scope that an operation works in, which has to be there already. -/
def scope? : Operation → Option ScopeId
  | withBuiltins => none
  | insert parent .. => some parent
  | declare scope .. => some scope

/-- Whether an operation adds a scope of the kind that the scope of built-in names has. -/
def addsBuiltins : Operation → Bool
  | insert _ kind .. => kind = .builtins
  | _ => false

end Operation

/-- What an operation makes of a tree, or that it is refused. -/
def perform? (t : ScopeTree) : Operation → Option ScopeTree
  | .withBuiltins => some t.withBuiltins.1
  | .insert parent kind name span node => (t.insert? parent kind name span node).map (·.1)
  | .declare scope name types location => (t.declare? scope name types location).map (·.1)

/-- The tree after an operation. One that is refused changes nothing. -/
def perform (t : ScopeTree) (operation : Operation) : ScopeTree := (t.perform? operation).getD t

/-- The tree after operations in order. -/
def build (t : ScopeTree) (operations : List Operation) : ScopeTree := operations.foldl perform t

theorem build_append (t : ScopeTree) (operations : List Operation) (operation : Operation) :
    t.build (operations ++ [operation]) = (t.build operations).perform operation :=
  List.foldl_append ..

/-! ## The single operations -/

variable {t after : ScopeTree} {scope parent : ScopeId} {name : String} {id : VariableId}

theorem perform_of_eq_some {operation : Operation} (done : t.perform? operation = some after) :
    t.perform operation = after := by
  rw [perform, done]
  rfl

theorem perform_of_eq_none {operation : Operation} (refused : t.perform? operation = none) :
    t.perform operation = t := by
  rw [perform, refused]
  rfl

theorem withBuiltins_of_some {builtins : ScopeId} (made : t.builtins = some builtins) :
    t.withBuiltins = (t, builtins) := by
  rw [withBuiltins, made]

theorem withBuiltins_of_none (unmade : t.builtins = none) :
    t.withBuiltins =
      ({ t with
          outline := (t.outline.enclose (.empty .builtins "builtins" none) Span.origin).1
          builtins := some t.outline.nextId },
        t.outline.nextId) := by
  rw [withBuiltins, unmade]
  rfl

/-- The scope of built-in names is the one that was made for them. -/
theorem builtins_withBuiltins (t : ScopeTree) :
    t.withBuiltins.1.builtins = some t.withBuiltins.2 := by
  cases hbuiltins : t.builtins with
  | none => rw [withBuiltins_of_none hbuiltins]
  | some builtins => rw [withBuiltins_of_some hbuiltins, hbuiltins]

/-- Adding a scope adds a region with a scope that has no names. -/
theorem insert?_eq_some_iff {kind : ScopeKind} {span : Span} {node : Option NodeId}
    {added : ScopeId} :
    t.insert? parent kind name span node = some (after, added) ↔
      ∃ outline, t.outline.insert? parent (.empty kind name node) span = some (outline, added) ∧
        after = { t with outline } := by
  rw [insert?]
  cases t.outline.insert? parent (.empty kind name node) span with
  | none => exact iff_of_false nofun fun ⟨_, hinserted, _⟩ => nomatch hinserted
  | some inserted =>
      obtain ⟨outline, id⟩ := inserted
      constructor
      · intro hafter
        cases hafter
        exact ⟨outline, rfl, rfl⟩
      · rintro ⟨_, hinserted, rfl⟩
        cases hinserted
        rfl

theorem insert?_eq_none_iff {kind : ScopeKind} {span : Span} {node : Option NodeId} :
    t.insert? parent kind name span node = none ↔ t.scope? parent = none := by
  have houtline : t.outline.insert? parent (.empty kind name node) span = none ↔
      t.outline.region? parent = none := Outline.insert?_eq_none_iff
  rw [scope?, ← houtline, insert?]
  cases t.outline.insert? parent (.empty kind name node) span with
  | none => exact iff_of_true rfl rfl
  | some inserted => exact iff_of_false nofun nofun

/-- A name that is bound already keeps its variable, which gets new types and a new location. -/
theorem declare?_of_bound {region : Scope} {types : List TypeInfo} {location : Option Location}
    (found : t.scope? scope = some region) (bound : region.label.lookup? name = some id) :
    t.declare? scope name types location =
      some ({ t with
          declared := t.declared.modify id.index fun v =>
            { v with types, locations := location.toList } }, id) := by
  simp [declare?, found, bound]

/-- A new name gets a new variable. -/
theorem declare?_of_unbound {region : Scope} {types : List TypeInfo} {location : Option Location}
    (found : t.scope? scope = some region) (unbound : region.label.lookup? name = none) :
    t.declare? scope name types location =
      some ({ t with
          declared := t.declared.push ⟨name, types, scope, location.toList⟩
          outline := t.outline.relabel scope (·.bind name ⟨t.declared.size⟩) },
        ⟨t.declared.size⟩) := by
  simp [declare?, found, unbound]

/-- Declaring a name gives back the variable that it stands for. A name that is bound already keeps
its variable, a new one gets a new variable. -/
theorem declare?_cases {types : List TypeInfo} {location : Option Location}
    (declared : t.declare? scope name types location = some (after, id)) :
    ∃ region, t.scope? scope = some region ∧
      (region.label.lookup? name = some id ∧
          after = { t with
            declared := t.declared.modify id.index fun v =>
              { v with types, locations := location.toList } } ∨
        region.label.lookup? name = none ∧ id = ⟨t.declared.size⟩ ∧
          after = { t with
            declared := t.declared.push ⟨name, types, scope, location.toList⟩
            outline := t.outline.relabel scope (·.bind name ⟨t.declared.size⟩) }) := by
  cases hfound : t.scope? scope with
  | none => simp [declare?, hfound] at declared
  | some region =>
      refine ⟨region, rfl, ?_⟩
      cases hbound : region.label.lookup? name with
      | some old =>
          rw [declare?_of_bound hfound hbound] at declared
          cases declared
          exact .inl ⟨rfl, rfl⟩
      | none =>
          rw [declare?_of_unbound hfound hbound] at declared
          cases declared
          exact .inr ⟨rfl, rfl, rfl⟩

/-- A name can be declared in every scope of the tree, and in no other. -/
theorem declare?_eq_none_iff {types : List TypeInfo} {location : Option Location} :
    t.declare? scope name types location = none ↔ t.scope? scope = none := by
  cases hfound : t.scope? scope with
  | none => simp [declare?, hfound]
  | some region =>
      cases hbound : region.label.lookup? name with
      | some id => simp [declare?_of_bound hfound hbound]
      | none => simp [declare?_of_unbound hfound hbound]

/-- An operation is refused just if it works in a scope that is not there. -/
theorem perform?_eq_none_iff {operation : Operation} :
    t.perform? operation = none ↔
      ∃ scope, operation.scope? = some scope ∧ t.scope? scope = none := by
  cases operation with
  | withBuiltins => exact iff_of_false nofun fun ⟨_, hscope, _⟩ => nomatch hscope
  | insert parent kind name span node =>
      simp only [perform?, Operation.scope?, Option.map_eq_none_iff, Option.some.injEq,
        exists_eq_left', insert?_eq_none_iff]
  | declare scope name types location =>
      simp only [perform?, Operation.scope?, Option.map_eq_none_iff, Option.some.injEq,
        exists_eq_left', declare?_eq_none_iff]

/-- All that an operation can do to a tree. -/
inductive Performed (t : ScopeTree) : Operation → ScopeTree → Prop where
  /-- The scope of built-in names was there already. -/
  | unchanged {builtins : ScopeId} (made : t.builtins = some builtins) :
      Performed t .withBuiltins t
  | enclosed (unmade : t.builtins = none) :
      Performed t .withBuiltins
        { t with
          outline := (t.outline.enclose (.empty .builtins "builtins" none) Span.origin).1
          builtins := some t.outline.nextId }
  | inserted {parent added : ScopeId} {kind : ScopeKind} {name : String} {span : Span}
      {node : Option NodeId} {outline : Outline ScopeEntry}
      (below : t.outline.insert? parent (.empty kind name node) span = some (outline, added)) :
      Performed t (.insert parent kind name span node) { t with outline }
  | redeclared {scope : ScopeId} {name : String} {types : List TypeInfo}
      {location : Option Location} {region : Scope} {id : VariableId}
      (found : t.scope? scope = some region) (bound : region.label.lookup? name = some id) :
      Performed t (.declare scope name types location)
        { t with
          declared := t.declared.modify id.index fun v =>
            { v with types, locations := location.toList } }
  | declared {scope : ScopeId} {name : String} {types : List TypeInfo}
      {location : Option Location} {region : Scope}
      (found : t.scope? scope = some region) (unbound : region.label.lookup? name = none) :
      Performed t (.declare scope name types location)
        { t with
          declared := t.declared.push ⟨name, types, scope, location.toList⟩
          outline := t.outline.relabel scope (·.bind name ⟨t.declared.size⟩) }

theorem performed_of_perform? {operation : Operation}
    (performed : t.perform? operation = some after) : Performed t operation after := by
  cases operation with
  | withBuiltins =>
      cases performed
      cases hbuiltins : t.builtins with
      | some builtins =>
          rw [withBuiltins_of_some hbuiltins]
          exact .unchanged hbuiltins
      | none =>
          rw [withBuiltins_of_none hbuiltins]
          exact .enclosed hbuiltins
  | insert parent kind name span node =>
      obtain ⟨⟨_, added⟩, hinserted, rfl⟩ := Option.map_eq_some_iff.mp performed
      obtain ⟨outline, hbelow, rfl⟩ := insert?_eq_some_iff.mp hinserted
      exact .inserted hbelow
  | declare scope name types location =>
      obtain ⟨⟨_, id⟩, hdeclared, rfl⟩ := Option.map_eq_some_iff.mp performed
      obtain ⟨region, hfound, ⟨hbound, rfl⟩ | ⟨hunbound, rfl, rfl⟩⟩ := declare?_cases hdeclared
      · exact .redeclared hfound hbound
      · exact .declared hfound hunbound

/-- What every operation keeps, building keeps. -/
theorem build_induction {P : ScopeTree → Prop} (operations : List Operation)
    (kept : ∀ t, ∀ operation ∈ operations, ∀ after, Performed t operation after → P t → P after)
    (initially : P t) : P (t.build operations) := by
  induction operations generalizing t with
  | nil => exact initially
  | cons operation rest ih =>
      refine ih (fun t other hother => kept t other (List.mem_cons_of_mem _ hother)) ?_
      cases hperform : t.perform? operation with
      | none => rwa [perform_of_eq_none hperform]
      | some after =>
          rw [perform_of_eq_some hperform]
          have hperformed := performed_of_perform? hperform
          exact kept t operation List.mem_cons_self after hperformed initially

/-- The scope of built-in names stays the one that was made for them. -/
theorem builtins_build {builtins : ScopeId} (made : t.builtins = some builtins)
    (operations : List Operation) : (t.build operations).builtins = some builtins := by
  refine build_induction (P := fun t => t.builtins = some builtins) operations ?_ made
  intro t operation _ after hperformed hmade
  cases hperformed with
  | enclosed hunmade =>
      rw [hunmade] at hmade
      cases hmade
  | unchanged => exact hmade
  | inserted => exact hmade
  | redeclared => exact hmade
  | declared => exact hmade

/-- There is a scope of built-in names just if it was asked for. -/
theorem isSome_builtins_build_iff {operations : List Operation} :
    (t.build operations).builtins.isSome ↔
      t.builtins.isSome ∨ .withBuiltins ∈ operations := by
  induction operations generalizing t with
  | nil => simp [build]
  | cons operation rest ih =>
      have hbuild : t.build (operation :: rest) = (t.perform operation).build rest := rfl
      have hperform : (t.perform operation).builtins.isSome ↔
          t.builtins.isSome ∨ .withBuiltins = operation := by
        cases hperform : t.perform? operation with
        | none =>
            rw [perform_of_eq_none hperform]
            have hother : .withBuiltins ≠ operation := by
              rintro rfl
              cases hperform
            rw [or_iff_left hother]
        | some after =>
            rw [perform_of_eq_some hperform]
            cases performed_of_perform? hperform with
            | unchanged made => simp [made]
            | enclosed => simp
            | inserted => simp
            | redeclared => simp
            | declared => simp
      rw [hbuild, ih, hperform, List.mem_cons, or_assoc]

end ScopeTree

end CodeInsight

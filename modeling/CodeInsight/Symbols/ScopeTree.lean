/-
# Scope trees

A scope tree is the outline of a module's scopes together with the variables
bound in them. It starts with the module scope. The scope of built-in names is
made when it is first asked for and stands above the module scope; having no
source of its own, it is reached only by walking outwards.

Declaring a name again in the same scope keeps its variable and its place among
the names of the scope, and gives the variable new types and a new location.
-/

import CodeInsight.Outline.Walk
import CodeInsight.Symbols.Member

namespace CodeInsight

/-- What a name bound in a scope stands for. Names made up by the analysis have no location. -/
structure Variable where
  name : String
  types : List TypeInfo
  scope : ScopeId
  locations : List Location
  deriving DecidableEq

/-- The member that stands for a variable. Its kind is that of the first possible type, its
documentation the first that any possible type has. -/
def Member.ofVariable (v : Variable) : Member :=
  { name := v.name
    kind := (v.types.head?.map TypeInfo.kind).getD .unknown
    completion := v.name
    scope := some v.scope
    locations := v.locations
    values := v.types
    documentation := ((v.types.map TypeInfo.documentation).find? (· ≠ "")).getD "" }

/-- The scopes of a module and the variables bound in them. -/
structure ScopeTree where
  outline : Outline ScopeEntry
  /-- The variables of all scopes, in the order of their first declaration. -/
  declared : Array Variable
  /-- The scope of built-in names, once it was asked for. -/
  builtins : Option ScopeId
  deriving DecidableEq

namespace ScopeTree

/-- A tree of the module scope alone. -/
def ofModule (name : String) (span : Span) (node : Option NodeId) : ScopeTree :=
  ⟨Outline.ofRoot (.empty .module name node) span, #[], none⟩

/-- The module scope. -/
def moduleId : ScopeId := Outline.root

/-- The number of scopes, that of built-in names included. -/
def size (t : ScopeTree) : Nat := t.outline.size

/-- The scope of a handle. -/
def scope? (t : ScopeTree) (id : ScopeId) : Option Scope := t.outline.region? id

/-- The variable of a handle. -/
def variableAt? (t : ScopeTree) (id : VariableId) : Option Variable := t.declared[id.index]?

/-- The scope of built-in names, made above the module scope if it is not there yet. -/
def withBuiltins (t : ScopeTree) : ScopeTree × ScopeId :=
  match t.builtins with
  | some id => (t, id)
  | none =>
    let (outline, id) := t.outline.enclose (.empty .builtins "builtins" none) Span.origin
    ({ t with outline, builtins := some id }, id)

/-- A new scope inside `parent`; there is none when `parent` is no scope of the tree. -/
def insert? (t : ScopeTree) (parent : ScopeId) (kind : ScopeKind) (name : String) (span : Span)
    (node : Option NodeId) : Option (ScopeTree × ScopeId) := do
  let (outline, id) ← t.outline.insert? parent (.empty kind name node) span
  return ({ t with outline }, id)

/-- Binds a name in a scope; there is no variable when the scope is not one of the tree. -/
def declare? (t : ScopeTree) (scope : ScopeId) (name : String) (types : List TypeInfo)
    (location : Option Location) : Option (ScopeTree × VariableId) := do
  let locations := location.toList
  let region ← t.scope? scope
  match region.label.lookup? name with
  | some id =>
    let declared := t.declared.modify id.index fun v => { v with types, locations }
    return ({ t with declared }, id)
  | none =>
    let id : VariableId := ⟨t.declared.size⟩
    let declared := t.declared.push { name, types, scope, locations }
    return ({ t with declared, outline := t.outline.relabel scope (·.bind name id) }, id)

/-- The variable that a name stands for in one scope. -/
def lookup? (t : ScopeTree) (scope : ScopeId) (name : String) : Option Variable := do
  let region ← t.scope? scope
  let id ← region.label.lookup? name
  t.variableAt? id

/-- A scope and those around it, from the inside out. -/
def ancestors (t : ScopeTree) (scope : ScopeId) : List ScopeId := t.outline.ancestors scope

/-- A scope and those inside it, each before its children. -/
def descendants (t : ScopeTree) (scope : ScopeId) : List ScopeId := t.outline.descendants scope

/-- The variable that a name stands for in a scope or around it; the innermost one counts. -/
def resolve? (t : ScopeTree) (scope : ScopeId) (name : String) : Option Variable :=
  (t.ancestors scope).findSome? (t.lookup? · name)

/-- The variables of one scope, in the order of their first declaration. -/
def variablesOf (t : ScopeTree) (scope : ScopeId) : List Variable :=
  match t.scope? scope with
  | some region => region.label.bindings.filterMap fun binding => t.variableAt? binding.2
  | none => []

/-- The names bound in one scope with their variables, in the order of their first declaration. -/
def namesOf (t : ScopeTree) (scope : ScopeId) : List (String × Variable) :=
  match t.scope? scope with
  | some region =>
    region.label.bindings.filterMap fun (name, id) => (t.variableAt? id).map (name, ·)
  | none => []

/-- The variables of the module scope. -/
def moduleVariables (t : ScopeTree) : List Variable := t.variablesOf moduleId

/-- The variables of the module scope and the scopes inside it, each scope before its children.
Built-in names are not among them. -/
def allVariables (t : ScopeTree) : List Variable := (t.descendants moduleId).flatMap t.variablesOf

/-- The innermost scope at a position; there is none outside the module scope. -/
def scopeAt? (t : ScopeTree) (pos : Position) : Option ScopeId :=
  t.outline.innermost? moduleId pos

end ScopeTree

end CodeInsight

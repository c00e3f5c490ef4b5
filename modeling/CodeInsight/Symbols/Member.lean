/-
# Members

A member starts from a name and is described further step by step. A list of
members taken from several places is merged by name, the first member of each
name standing for all of that name. The names visible in a scope are collected in
the same way.
-/

import CodeInsight.Symbols.TypeInfo

namespace CodeInsight

/-- The first item of every key, in order, where the keys in `known` are taken. -/
def keepFirst {α : Type} (key : α → String) (known : List String) : List α → List α
  | [] => []
  | a :: rest =>
    if key a ∈ known then keepFirst key known rest
    else a :: keepFirst key (key a :: known) rest

namespace Member

/-- A member of which nothing but name and kind is known. -/
def ofName (name : String) (kind : SymbolKind) : Member :=
  ⟨name, kind, name, none, [], [], ""⟩

/-- A member that stands for one value. -/
def ofValue (name : String) (value : TypeInfo) : Member :=
  { ofName name value.kind with values := [value], documentation := value.documentation }

/-- The member with another text to type. -/
def withCompletion (m : Member) (completion : String) : Member := { m with completion }

/-- The member as found in a scope. -/
def withScope (m : Member) (scope : ScopeId) : Member := { m with scope := some scope }

/-- One more place where the member is declared. -/
def withLocation (m : Member) (location : Location) : Member :=
  { m with locations := m.locations ++ [location] }

/-- One more value that the member may have. -/
def withValue (m : Member) (value : TypeInfo) : Member :=
  { m with values := m.values ++ [value] }

/-- The member with other documentation. -/
def withDocumentation (m : Member) (documentation : String) : Member := { m with documentation }

/-- The first member of every name, in order. -/
def merge (members : List Member) : List Member := keepFirst (·.name) [] members

end Member

end CodeInsight

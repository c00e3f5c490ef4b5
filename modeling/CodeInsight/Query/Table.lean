/-
# Tables to consult

Where inference and module resolution have been done beforehand, their results
can be handed over as tables. An expression is then evaluated by looking up its
node, and the table may refer to a name instead of listing types; the types are
then those of the variable that the name stands for at the expression.
-/

import CodeInsight.Query.Snapshot

namespace CodeInsight

/-- What a table says about one expression. -/
inductive TableEntry where
  | types (types : List TypeInfo)
  /-- The expression has the types of the variable that this name stands for. -/
  | variable (name : String)

/-- The members of the types with one kind and one name. -/
structure MemberRow where
  kind : SymbolKind
  name : String
  members : List Member

/-- Inference results. -/
structure EvaluationTable where
  entries : List (NodeId × TableEntry)
  rows : List MemberRow

namespace EvaluationTable

/-- The types of an expression; none when the table does not mention it. -/
def typesOf (t : EvaluationTable) (cx : ExpressionContext) : List TypeInfo :=
  match t.entries.lookup cx.node with
  | some (.types types) => types
  | some (.variable name) => ((cx.facts.scopes.resolve? cx.scope name).map (·.types)).getD []
  | none => []

/-- The members that the first fitting row gives to a type. -/
def membersOf (t : EvaluationTable) (type : TypeInfo) : List Member :=
  ((t.rows.find? fun row => row.kind = type.kind && row.name = type.name).map (·.members)).getD []

/-- Inference that reads from a table. -/
def inference (t : EvaluationTable) : Inference := ⟨t.typesOf, t.membersOf⟩

end EvaluationTable

/-- What modules export; a module may be listed as one that cannot be found. -/
structure ModuleTable where
  modules : List (String × Option (List Member))

/-- The index that reads from a table. -/
def ModuleTable.index (t : ModuleTable) : ModuleIndex :=
  ⟨fun name => (t.modules.lookup name).join⟩

end CodeInsight

/-
# Types of values and their members

What inference reports about an expression is a list of possible types. A type
carries what a reader may ask about it: its name, its documentation, how it is
called, and for a class the members of its values. Types and members contain each
other, so they are defined together.
-/

import CodeInsight.Symbols.Scope
import CodeInsight.Text.Location

namespace CodeInsight

/-- What a name denotes. -/
inductive SymbolKind where
  | function
  | classObject
  | module
  | property
  | classInstance
  | unknown
  deriving DecidableEq, Repr

namespace SymbolKind

/-- The word for a kind. -/
def name : SymbolKind → String
  | function => "function"
  | classObject => "class"
  | module => "module"
  | property => "property"
  | classInstance => "instance"
  | unknown => "unknown"

end SymbolKind

/-- How an argument finds its parameter. -/
inductive ParameterKind where
  /-- By place or by name. -/
  | positional
  /-- Takes the places left over. -/
  | varPositional
  /-- By name alone. -/
  | keywordOnly
  /-- Takes the names left over. -/
  | varKeyword
  deriving DecidableEq, Repr

/-- A parameter; annotation and default value are kept as they were written. -/
structure Parameter where
  name : String
  annotation : Option String
  defaultValue : Option String
  kind : ParameterKind
  deriving DecidableEq, Repr

/-- What is known of a module without resolving it. -/
structure ModuleInfo where
  name : String
  documentation : String
  deriving DecidableEq, Repr

mutual

/-- One possible type of an expression. -/
inductive TypeInfo where
  | function (info : FunctionInfo)
  /-- A class itself, not one of its values. -/
  | classObject (info : ClassInfo)
  | module (info : ModuleInfo)
  | property (info : PropertyInfo)
  /-- A value of a class. -/
  | classInstance (info : ClassInfo)
  | unknown

/-- One way of calling something, with the types that a call may return. -/
structure Signature where
  name : String
  parameters : List Parameter
  returns : List TypeInfo
  documentation : String

/-- A function with every known way of calling it. -/
structure FunctionInfo where
  name : String
  signatures : List Signature
  documentation : String

/-- A class: the members of its values, inherited ones included, and the ways of calling it. -/
structure ClassInfo where
  name : String
  members : List Member
  constructors : List Signature
  documentation : String

/-- A property with the possible types of its value. -/
structure PropertyInfo where
  name : String
  value : List TypeInfo
  documentation : String

/-- A name offered to the user. It has a scope when it was found in one, no locations when it was
made up, and empty documentation when there is none. -/
structure Member where
  name : String
  kind : SymbolKind
  /-- What is typed when the member is picked. -/
  completion : String
  scope : Option ScopeId
  locations : List Location
  values : List TypeInfo
  documentation : String

end

/-! ## Equality

Types are equal when they are built alike, and this is decided part by part.
-/

mutual

def TypeInfo.decideEq : (a b : TypeInfo) → Decidable (a = b)
  | .function a, .function b =>
    let _ := FunctionInfo.decideEq a b
    decidable_of_iff (a = b) (by simp)
  | .classObject a, .classObject b =>
    let _ := ClassInfo.decideEq a b
    decidable_of_iff (a = b) (by simp)
  | .module a, .module b => decidable_of_iff (a = b) (by simp)
  | .property a, .property b =>
    let _ := PropertyInfo.decideEq a b
    decidable_of_iff (a = b) (by simp)
  | .classInstance a, .classInstance b =>
    let _ := ClassInfo.decideEq a b
    decidable_of_iff (a = b) (by simp)
  | .unknown, .unknown => isTrue rfl
  | .function _, .classObject _ | .function _, .module _ | .function _, .property _
  | .function _, .classInstance _ | .function _, .unknown
  | .classObject _, .function _ | .classObject _, .module _ | .classObject _, .property _
  | .classObject _, .classInstance _ | .classObject _, .unknown
  | .module _, .function _ | .module _, .classObject _ | .module _, .property _
  | .module _, .classInstance _ | .module _, .unknown
  | .property _, .function _ | .property _, .classObject _ | .property _, .module _
  | .property _, .classInstance _ | .property _, .unknown
  | .classInstance _, .function _ | .classInstance _, .classObject _ | .classInstance _, .module _
  | .classInstance _, .property _ | .classInstance _, .unknown
  | .unknown, .function _ | .unknown, .classObject _ | .unknown, .module _
  | .unknown, .property _ | .unknown, .classInstance _ => isFalse nofun
termination_by structural a => a

def Signature.decideEq : (a b : Signature) → Decidable (a = b)
  | ⟨name, parameters, returns, documentation⟩, ⟨name', parameters', returns', documentation'⟩ =>
    let _ := TypeInfo.decideEqList returns returns'
    decidable_of_iff
      (name = name' ∧ parameters = parameters' ∧ returns = returns'
        ∧ documentation = documentation') (by simp)
termination_by structural a => a

def FunctionInfo.decideEq : (a b : FunctionInfo) → Decidable (a = b)
  | ⟨name, signatures, documentation⟩, ⟨name', signatures', documentation'⟩ =>
    let _ := Signature.decideEqList signatures signatures'
    decidable_of_iff
      (name = name' ∧ signatures = signatures' ∧ documentation = documentation') (by simp)
termination_by structural a => a

def ClassInfo.decideEq : (a b : ClassInfo) → Decidable (a = b)
  | ⟨name, members, constructors, documentation⟩,
    ⟨name', members', constructors', documentation'⟩ =>
    let _ := Member.decideEqList members members'
    let _ := Signature.decideEqList constructors constructors'
    decidable_of_iff
      (name = name' ∧ members = members' ∧ constructors = constructors'
        ∧ documentation = documentation') (by simp)
termination_by structural a => a

def PropertyInfo.decideEq : (a b : PropertyInfo) → Decidable (a = b)
  | ⟨name, value, documentation⟩, ⟨name', value', documentation'⟩ =>
    let _ := TypeInfo.decideEqList value value'
    decidable_of_iff (name = name' ∧ value = value' ∧ documentation = documentation') (by simp)
termination_by structural a => a

def Member.decideEq : (a b : Member) → Decidable (a = b)
  | ⟨name, kind, completion, scope, locations, values, documentation⟩,
    ⟨name', kind', completion', scope', locations', values', documentation'⟩ =>
    let _ := TypeInfo.decideEqList values values'
    decidable_of_iff
      (name = name' ∧ kind = kind' ∧ completion = completion' ∧ scope = scope'
        ∧ locations = locations' ∧ values = values' ∧ documentation = documentation') (by simp)
termination_by structural a => a

def TypeInfo.decideEqList : (a b : List TypeInfo) → Decidable (a = b)
  | [], [] => isTrue rfl
  | [], _ :: _ | _ :: _, [] => isFalse nofun
  | a :: as, b :: bs =>
    let _ := TypeInfo.decideEq a b
    let _ := TypeInfo.decideEqList as bs
    decidable_of_iff (a = b ∧ as = bs) (by simp)
termination_by structural a => a

def Signature.decideEqList : (a b : List Signature) → Decidable (a = b)
  | [], [] => isTrue rfl
  | [], _ :: _ | _ :: _, [] => isFalse nofun
  | a :: as, b :: bs =>
    let _ := Signature.decideEq a b
    let _ := Signature.decideEqList as bs
    decidable_of_iff (a = b ∧ as = bs) (by simp)
termination_by structural a => a

def Member.decideEqList : (a b : List Member) → Decidable (a = b)
  | [], [] => isTrue rfl
  | [], _ :: _ | _ :: _, [] => isFalse nofun
  | a :: as, b :: bs =>
    let _ := Member.decideEq a b
    let _ := Member.decideEqList as bs
    decidable_of_iff (a = b ∧ as = bs) (by simp)
termination_by structural a => a

end

instance : DecidableEq TypeInfo := TypeInfo.decideEq

instance : DecidableEq Signature := Signature.decideEq

instance : DecidableEq FunctionInfo := FunctionInfo.decideEq

instance : DecidableEq ClassInfo := ClassInfo.decideEq

instance : DecidableEq PropertyInfo := PropertyInfo.decideEq

instance : DecidableEq Member := Member.decideEq

namespace TypeInfo

/-- The kind of symbol that a value of this type is. -/
def kind : TypeInfo → SymbolKind
  | function _ => .function
  | classObject _ => .classObject
  | module _ => .module
  | property _ => .property
  | classInstance _ => .classInstance
  | unknown => .unknown

/-- The name of a type; a value of a class goes by the name of the class. -/
def name : TypeInfo → String
  | function info => info.name
  | classObject info | classInstance info => info.name
  | module info => info.name
  | property info => info.name
  | unknown => ""

/-- The documentation of a type, empty when there is none. -/
def documentation : TypeInfo → String
  | function info => info.documentation
  | classObject info | classInstance info => info.documentation
  | module info => info.documentation
  | property info => info.documentation
  | unknown => ""

/-- Functions and classes can be called, and nothing else. -/
def isCallable : TypeInfo → Bool
  | function _ | classObject _ => true
  | _ => false

/-- The ways of calling a value of this type. -/
def signatures : TypeInfo → List Signature
  | function info => info.signatures
  | classObject info => info.constructors
  | _ => []

/-- The type of a class's values; unknown when there is no class to be a value of. -/
def instanceOf : TypeInfo → TypeInfo
  | classObject info => classInstance info
  | _ => unknown

end TypeInfo

end CodeInsight

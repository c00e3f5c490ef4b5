/-
# Whose signatures are answered

A position is asked how the expression there is called. The expression itself comes first,
and the callee of the call around it stands in when there is nothing to say of it. What
decides is whether any signature was found, and not whether the expression can be called:
a function of which no signature is known is passed over like a value that is no function.

As long as one signature is known, nothing that inference says of any other expression
makes a difference.
-/

import CodeInsight.Proofs.Outline.Growth
import CodeInsight.Query.Answers
import Mathlib.Control.Monad.Basic

namespace CodeInsight

namespace TypeInfo

/-- The ways of calling those types that can be called, in order. -/
def waysOfCalling (types : List TypeInfo) : List Signature :=
  (types.filter isCallable).flatMap signatures

theorem signatures_of_not_callable {type : TypeInfo} (not : ¬ type.isCallable = true) :
    type.signatures = [] := by
  cases type with
  | function | classObject => exact absurd rfl not
  | module | property | classInstance | unknown => rfl

/-- What cannot be called has no signatures to leave out. -/
theorem waysOfCalling_eq_flatMap (types : List TypeInfo) :
    waysOfCalling types = types.flatMap signatures := by
  induction types with
  | nil => rfl
  | cons type types ih =>
      rw [List.flatMap_cons, ← ih, waysOfCalling, waysOfCalling]
      by_cases hcallable : type.isCallable = true
      · rw [List.filter_cons_of_pos hcallable, List.flatMap_cons]
      · rw [List.filter_cons_of_neg hcallable, signatures_of_not_callable hcallable,
          List.nil_append]

/-- There is a way of calling something as soon as one of its types has one. -/
theorem waysOfCalling_ne_nil_iff {types : List TypeInfo} :
    waysOfCalling types ≠ [] ↔ ∃ type ∈ types, type.signatures ≠ [] := by
  rw [waysOfCalling_eq_flatMap]
  simp

/-- There is no way of calling something just if nothing that can be called has one. -/
theorem waysOfCalling_eq_nil_iff {types : List TypeInfo} :
    waysOfCalling types = [] ↔
      ∀ type ∈ types, type.isCallable = true → type.signatures = [] := by
  rw [waysOfCalling, List.flatMap_eq_nil_iff]
  simp only [List.mem_filter, and_imp]

end TypeInfo

namespace Snapshot

open TypeInfo

variable {s : Snapshot} {pos : Position} {place : Place} {node : NodeId} {types : List TypeInfo}

/-- The signatures of the expression that a position stands for. -/
def ownSignatures (s : Snapshot) (place : Place) : List Signature :=
  match s.expressionOf? place with
  | some node => s.signaturesOf place.scope node
  | none => []

/-- The signatures of what is called by the call around a position. -/
def calleeSignatures (s : Snapshot) (place : Place) : List Signature :=
  match place.node.bind s.tree.calleeAround? with
  | some callee => s.signaturesOf place.scope callee
  | none => []

/-- The callee answers where the expression has no signatures. -/
theorem signaturesAt_of_locate (located : s.locate pos = .ok place) :
    s.signaturesAt pos =
      .ok (if s.ownSignatures place = [] then s.calleeSignatures place
        else s.ownSignatures place) := by
  have hanswer : s.signaturesAt pos =
      if (s.ownSignatures place).isEmpty then
        match place.node.bind s.tree.calleeAround? with
        | some callee => .ok (s.signaturesOf place.scope callee)
        | none => .ok []
      else .ok (s.ownSignatures place) := by
    rw [signaturesAt, located]
    rfl
  rw [hanswer, calleeSignatures]
  cases hown : s.ownSignatures place with
  | nil => cases place.node.bind s.tree.calleeAround? <;> rfl
  | cons => rfl

/-- The possible types at a position are those of the expression there. -/
theorem valuesAt_of_locate (located : s.locate pos = .ok place) :
    s.valuesAt pos = .ok ((s.expressionOf? place).elim [] (s.evaluate place.scope)) := by
  rw [valuesAt, located]
  cases hexpression : s.expressionOf? place with
  | none | some => simp only [hexpression, bind, Except.bind, pure, Except.pure, Option.elim]

/-- Where a position has possible types, there is an expression. -/
theorem exists_expression_of_valuesAt (values : s.valuesAt pos = .ok types)
    (nonempty : types ≠ []) :
    ∃ place node, s.locate pos = .ok place ∧ s.expressionOf? place = some node ∧
      s.evaluate place.scope node = types := by
  cases hlocate : s.locate pos with
  | error =>
      rw [valuesAt, hlocate] at values
      cases values
  | ok place =>
      rw [valuesAt_of_locate hlocate] at values
      have htypes := Except.ok.inj values
      cases hexpression : s.expressionOf? place with
      | none =>
          rw [hexpression] at htypes
          exact absurd htypes.symm nonempty
      | some node =>
          rw [hexpression] at htypes
          exact ⟨place, node, rfl, hexpression, htypes⟩

theorem ownSignatures_of_expression (expression : s.expressionOf? place = some node) :
    s.ownSignatures place = waysOfCalling (s.evaluate place.scope node) := by
  rw [ownSignatures, expression]
  rfl

/-- An expression with signatures answers for itself. -/
theorem signaturesAt_of_ways (located : s.locate pos = .ok place)
    (expression : s.expressionOf? place = some node)
    (evaluated : s.evaluate place.scope node = types) (ways : waysOfCalling types ≠ []) :
    s.signaturesAt pos = .ok (waysOfCalling types) := by
  rw [signaturesAt_of_locate located, ownSignatures_of_expression expression, evaluated,
    if_neg ways]

/-- For an expression without signatures the callee answers. -/
theorem signaturesAt_of_no_ways (located : s.locate pos = .ok place)
    (expression : s.expressionOf? place = some node)
    (evaluated : s.evaluate place.scope node = types) (noWays : waysOfCalling types = []) :
    s.signaturesAt pos = .ok (s.calleeSignatures place) := by
  rw [signaturesAt_of_locate located, ownSignatures_of_expression expression, evaluated,
    if_pos noWays]

/-- **The signatures of an expression come first, as long as there are any.** Where something that
can be called stands at a position, and one of its types has a signature, the answer is every
signature of its types in order, whatever inference says of other expressions. Where none has, the
callee of the call around answers. So the expression's own signatures are the answer just if there
are any, or if the callee has none either. -/
theorem own_signatures_come_first (values : s.valuesAt pos = .ok types)
    (callable : types.any isCallable = true) :
    ∃ place node, s.locate pos = .ok place ∧ s.expressionOf? place = some node ∧
      s.evaluate place.scope node = types ∧
      ((∃ type ∈ types, type.signatures ≠ []) → ∀ other : Inference,
        other.typesOf ⟨s.toFacts, place.scope, node⟩ = types →
        signaturesAt { s with inference := other } pos = .ok (waysOfCalling types)) ∧
      ((∀ type ∈ types, type.signatures = []) →
        s.signaturesAt pos = .ok (s.calleeSignatures place)) ∧
      (s.signaturesAt pos = .ok (waysOfCalling types) ↔
        (∃ type ∈ types, type.signatures ≠ []) ∨ s.calleeSignatures place = []) := by
  have hsome : types ≠ [] := by
    rintro rfl
    cases callable
  obtain ⟨place, node, hlocated, hexpression, hevaluated⟩ :=
    exists_expression_of_valuesAt values hsome
  refine ⟨place, node, hlocated, hexpression, hevaluated, ?_, ?_, ?_⟩
  · intro hsignature other hother
    let told : Snapshot := { s with inference := other }
    have htoldLocated : told.locate pos = .ok place := hlocated
    have htoldExpression : told.expressionOf? place = some node := hexpression
    exact signaturesAt_of_ways htoldLocated htoldExpression hother
      (waysOfCalling_ne_nil_iff.mpr hsignature)
  · intro hnone
    have hways : waysOfCalling types = [] := by
      rw [waysOfCalling_eq_flatMap, List.flatMap_eq_nil_iff]
      exact hnone
    exact signaturesAt_of_no_ways hlocated hexpression hevaluated hways
  · rw [← waysOfCalling_ne_nil_iff]
    by_cases hways : waysOfCalling types = []
    · rw [signaturesAt_of_no_ways hlocated hexpression hevaluated hways]
      simp [hways]
    · rw [signaturesAt_of_ways hlocated hexpression hevaluated hways]
      simp [hways]

/-- The call of something with one argument, which inference says may be of these types. -/
def ofCall (callee argument : List TypeInfo) : Snapshot where
  document := "m.py"
  version := 1
  tree := SyntaxTree.build (.ofModule ⟨⟨0, 0⟩, ⟨1, 0⟩⟩)
    [⟨⟨0⟩, .statement, ⟨⟨0, 0⟩, ⟨0, 4⟩⟩⟩, ⟨⟨1⟩, .call, ⟨⟨0, 0⟩, ⟨0, 4⟩⟩⟩,
      ⟨⟨2⟩, .expression, ⟨⟨0, 0⟩, ⟨0, 1⟩⟩⟩, ⟨⟨2⟩, .expression, ⟨⟨0, 2⟩, ⟨0, 3⟩⟩⟩]
  scopes := .ofModule "m" ⟨⟨0, 0⟩, ⟨1, 0⟩⟩ none
  preferences := .default
  inference :=
    { typesOf := fun context =>
        if context.node = ⟨3⟩ then callee else if context.node = ⟨4⟩ then argument else []
      membersOf := fun _ => [] }
  modules := .empty

/-- A class with one way of calling it, of which nothing is known but its name. -/
def namedClass (name : String) : TypeInfo := .classObject ⟨name, [], [⟨name, [], [], ""⟩], ""⟩

/-- An argument may be a value, a function without signatures, or one of two classes. The classes
answer, in order, and the callee is not asked. -/
theorem own_signatures_of_argument :
    let types : List TypeInfo :=
      [.unknown, .function ⟨"g", [], ""⟩, namedClass "A", namedClass "B"]
    let s := ofCall [namedClass "F"] types
    s.valuesAt ⟨0, 2⟩ = .ok types ∧ types.any isCallable = true ∧
      s.signaturesAt ⟨0, 2⟩ = .ok [⟨"A", [], [], ""⟩, ⟨"B", [], [], ""⟩] ∧
      ∀ other : Inference, other.typesOf ⟨s.toFacts, ⟨0⟩, ⟨4⟩⟩ = types →
        signaturesAt { s with inference := other } ⟨0, 2⟩ =
          .ok [⟨"A", [], [], ""⟩, ⟨"B", [], [], ""⟩] := by
  intro types s
  have hvalues : s.valuesAt ⟨0, 2⟩ = .ok types := by decide +kernel
  have hcallable : types.any isCallable = true := by decide +kernel
  have hlocated : s.locate ⟨0, 2⟩ = .ok ⟨⟨0⟩, some ⟨4⟩⟩ := by decide +kernel
  have hsignature : ∃ type ∈ types, type.signatures ≠ [] :=
    ⟨namedClass "A", by decide +kernel, by decide +kernel⟩
  obtain ⟨place, node, hplace, hexpression, -, hown, -, -⟩ :=
    own_signatures_come_first hvalues hcallable
  cases Except.ok.inj (hlocated.symm.trans hplace)
  obtain ⟨hnode, -⟩ := Option.filter_eq_some_iff.mp hexpression
  cases hnode
  exact ⟨hvalues, hcallable, hown hsignature s.inference rfl, hown hsignature⟩

/-- A function without signatures can be called all the same, and what it is an argument of answers
in its place. -/
theorem callee_answers_for_function_without_signatures :
    let types : List TypeInfo := [.function ⟨"g", [], ""⟩]
    let s := ofCall [namedClass "F"] types
    s.valuesAt ⟨0, 2⟩ = .ok types ∧ types.any isCallable = true ∧ waysOfCalling types = [] ∧
      s.signaturesAt ⟨0, 2⟩ = .ok [⟨"F", [], [], ""⟩] := by
  decide +kernel

end Snapshot

end CodeInsight

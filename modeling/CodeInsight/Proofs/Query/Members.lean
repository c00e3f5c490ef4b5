/-
# Members of an expression

What stands at a position may be of several types, and the members of a type come from an
index of modules, from a class, or from inference. The answer is the merge of them all, and
nothing but that: whoever knows the types and what each has knows the answer.

So answers follow the types. With more types the answer goes on with what is new, and types
that come up again leave it as it is.
-/

import CodeInsight.Proofs.Query.Signatures
import CodeInsight.Proofs.Symbols.Merge

namespace CodeInsight

namespace Snapshot

open Member

variable {s : Snapshot} {pos : Position} {place : Place} {node : NodeId}

/-- The snapshot with an inference that gives every expression these types, and each type the
members that it has had. -/
def evaluatingTo (s : Snapshot) (types : List TypeInfo) : Snapshot :=
  { s with inference := { s.inference with typesOf := fun _ => types } }

/-- An expression is answered with the members of its types. -/
theorem membersAt_of_expression (located : s.locate pos = .ok place)
    (expression : s.expressionOf? place = some node) :
    s.membersAt pos = .ok (s.mergedMembers (s.evaluate place.scope node)) := by
  rw [membersAt, located]
  simp only [expression, bind, Except.bind, pure, Except.pure]

theorem mergedMembers_append (s : Snapshot) (front back : List TypeInfo) :
    s.mergedMembers (front ++ back) =
      s.mergedMembers front ++
        (s.mergedMembers back).filter fun m => m.name ∉ (s.mergedMembers front).map (·.name) := by
  rw [mergedMembers, List.flatMap_append]
  exact merge_append _ _

/-- Types that there are already make no difference, whatever comes after them. -/
theorem mergedMembers_append_again (s : Snapshot) {types again : List TypeInfo}
    (repeats : again ⊆ types) (rest : List TypeInfo) :
    s.mergedMembers (types ++ again ++ rest) = s.mergedMembers (types ++ rest) := by
  have hknown : ∀ m ∈ again.flatMap s.membersOf,
      ∃ earlier ∈ types.flatMap s.membersOf, earlier.name = m.name := by
    intro m hm
    obtain ⟨type, htype, hmember⟩ := List.mem_flatMap.mp hm
    exact ⟨m, List.mem_flatMap.mpr ⟨type, repeats htype, hmember⟩, rfl⟩
  simp only [mergedMembers, List.flatMap_append]
  exact merge_append_again hknown

/-- **The members of an expression are those of its types, merged by name without loss.** A position
on an expression or a call is answered with the one merge of what its types have, wherever each type
has it from. So the answer for two lists of types, one after the other, is the answer for the first
and then what is new in the answer for the second, and types that come up again change nothing. -/
theorem members_merge_by_name (located : s.locate pos = .ok place)
    (found : place.node = some node)
    (kind : s.tree.kind? node = some .expression ∨ s.tree.kind? node = some .call) :
    (∃ answer, s.membersAt pos = .ok answer ∧
      IsMergeOf answer ((s.evaluate place.scope node).flatMap s.membersOf) ∧
      ∀ other, IsMergeOf other ((s.evaluate place.scope node).flatMap s.membersOf) →
        other = answer) ∧
    (∀ front back : List TypeInfo, ∃ answer later,
      (s.evaluatingTo front).membersAt pos = .ok answer ∧
      (s.evaluatingTo back).membersAt pos = .ok later ∧
      (s.evaluatingTo (front ++ back)).membersAt pos =
        .ok (answer ++ later.filter fun m => m.name ∉ answer.map (·.name))) ∧
    ∀ types again rest : List TypeInfo, again ⊆ types →
      (s.evaluatingTo (types ++ again ++ rest)).membersAt pos =
        (s.evaluatingTo (types ++ rest)).membersAt pos := by
  have hvalue : s.tree.hasValue node = true := by
    rcases kind with hkind | hkind <;> simp [SyntaxTree.hasValue, hkind, NodeKind.hasValue]
  have hexpression : s.expressionOf? place = some node := by
    rw [Facts.expressionOf?, found, Option.filter_some_pos hvalue]
  have hanswer (types : List TypeInfo) :
      (s.evaluatingTo types).membersAt pos = .ok (s.mergedMembers types) :=
    membersAt_of_expression (s := s.evaluatingTo types) located hexpression
  refine ⟨⟨_, membersAt_of_expression located hexpression, ?_, fun other => ?_⟩, ?_, ?_⟩
  · exact isMergeOf_merge _
  · exact (isMergeOf_merge _).unique
  · intro front back
    refine ⟨_, _, hanswer front, hanswer back, ?_⟩
    rw [hanswer, mergedMembers_append]
  · intro types again rest hagain
    rw [hanswer, hanswer, mergedMembers_append_again s hagain]

/-- An argument may be a module, a value of a class, or something that only inference knows. Each
has a source of its own. Three names come up twice, one of them within the module. -/
theorem members_of_three_sources :
    let os : TypeInfo := .module ⟨"os", ""⟩
    let str : TypeInfo :=
      .classInstance ⟨"str", [ofName "upper" .property, ofName "getcwd" .property], [], ""⟩
    let s : Snapshot :=
      { ofCall [] [os, str, .unknown] with
        inference :=
          { typesOf := fun _ => [os, str, .unknown]
            membersOf := fun _ => [ofName "upper" .function, ofName "doc" .function] }
        modules :=
          { exports := fun _ => some
              [ofName "path" .module, ofName "getcwd" .function, ofName "path" .unknown] } }
    let answer := [ofName "path" .module, ofName "getcwd" .function, ofName "upper" .property,
      ofName "doc" .function]
    let pos : Position := ⟨0, 2⟩
    s.locate pos = .ok ⟨⟨0⟩, some ⟨4⟩⟩ ∧ s.tree.kind? ⟨4⟩ = some .expression ∧
      s.membersAt pos = .ok answer ∧
      (∀ other, IsMergeOf other ([os, str, .unknown].flatMap s.membersOf) → other = answer) ∧
      (s.evaluatingTo [os, str]).membersAt pos = .ok (answer.take 3) ∧
      (s.evaluatingTo [os, str, os]).membersAt pos = .ok (answer.take 3) := by
  intro os str s answer pos
  have hlocated : s.locate pos = .ok ⟨⟨0⟩, some ⟨4⟩⟩ := by decide +kernel
  have hkind : s.tree.kind? ⟨4⟩ = some .expression := by decide +kernel
  have hanswer : s.membersAt pos = .ok answer := by decide +kernel
  have hstr : (s.evaluatingTo [os, str]).membersAt pos = .ok (answer.take 3) := by decide +kernel
  obtain ⟨⟨same, hsame, -, honly⟩, -, hagain⟩ :=
    members_merge_by_name hlocated rfl (.inl hkind)
  cases Except.ok.inj (hanswer.symm.trans hsame)
  refine ⟨hlocated, hkind, hanswer, honly, hstr, ?_⟩
  exact (hagain [os, str] [os] [] (by simp)).trans hstr

end Snapshot

end CodeInsight

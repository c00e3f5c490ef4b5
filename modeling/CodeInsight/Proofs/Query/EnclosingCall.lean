/-
# The call around a position

While the arguments of a call are being typed, the signatures of what it calls are answered.
The call is looked for from the node at the position outwards, and never beyond the
statement that the node belongs to: a definition or another statement ends the search, and
so does the module. The nearest call counts. Where nothing is written yet of what it calls,
there is no answer, and the calls around it are not asked.
-/

import CodeInsight.Proofs.Query.Location
import CodeInsight.Proofs.Query.Signatures

namespace CodeInsight

/-- The kinds of node that a statement does not reach beyond. -/
def NodeKind.boundaries : List NodeKind := [module, functionDefinition, classDefinition, statement]

theorem NodeKind.endsStatement_iff {kind : NodeKind} :
    kind.endsStatement = true ↔ kind ∈ boundaries := by
  cases kind <;> decide

namespace SyntaxTree

variable {t : SyntaxTree} {id parent call : NodeId} {kind : NodeKind}
  {chain inner outer : List NodeId}

/-! ## The nodes of one statement -/

/-- The nodes of one statement from a node outwards: the node, the node around it and so on, up to
the first one that is a boundary, which is left out. -/
inductive StatementChain (t : SyntaxTree) : NodeId → List NodeId → Prop
  | cut {id : NodeId} {kind : NodeKind} (found : t.kind? id = some kind)
      (boundary : kind ∈ NodeKind.boundaries) : StatementChain t id []
  | outward {id parent : NodeId} {kind : NodeKind} {outer : List NodeId}
      (found : t.kind? id = some kind) (within : kind ∉ NodeKind.boundaries)
      (around : t.parent? id = some parent) (rest : StatementChain t parent outer) :
      StatementChain t id (id :: outer)

/-- From one node there is one chain. -/
theorem StatementChain.unique {other : List NodeId} (walked : t.StatementChain id chain)
    (also : t.StatementChain id other) : other = chain := by
  induction walked generalizing other with
  | cut found boundary =>
      cases also with
      | cut => rfl
      | outward alsoFound within =>
          cases found.symm.trans alsoFound
          exact absurd boundary within
  | outward found within around rest ih =>
      cases also with
      | cut alsoFound boundary =>
          cases found.symm.trans alsoFound
          exact absurd boundary within
      | outward _ _ alsoAround alsoRest =>
          cases around.symm.trans alsoAround
          exact congrArg _ (ih alsoRest)

theorem StatementChain.exists_kind? (walked : t.StatementChain id chain) :
    ∃ kind, t.kind? id = some kind := by
  cases walked with
  | cut found => exact ⟨_, found⟩
  | outward found => exact ⟨_, found⟩

theorem withinStatement_of_boundary (linked : t.WellLinked) (found : t.kind? id = some kind)
    (boundary : kind ∈ NodeKind.boundaries) : t.withinStatement id = [] := by
  obtain ⟨region, hregion, -⟩ := Option.map_eq_some_iff.mp found
  obtain ⟨around, haround⟩ := linked.ancestors_eq_cons hregion
  have hends := NodeKind.endsStatement_iff.mpr boundary
  rw [withinStatement, haround, List.takeWhile_cons_of_neg]
  simp [found, hends]

theorem withinStatement_of_parent? (linked : t.WellLinked) (found : t.kind? id = some kind)
    (within : kind ∉ NodeKind.boundaries) (around : t.parent? id = some parent) :
    t.withinStatement id = id :: t.withinStatement parent := by
  have hgoesOn : kind.endsStatement ≠ true := mt NodeKind.endsStatement_iff.mp within
  rw [withinStatement, linked.ancestors_of_parent? around, List.takeWhile_cons_of_pos]
  · rfl
  · simp [found, hgoesOn]

/-- The nodes of its statement are those in which the call around a node is looked for. -/
theorem Built.statementChain (built : t.Built) (found : t.kind? id = some kind) :
    t.StatementChain id (t.withinStatement id) := by
  induction id using built.linked.outward_induction generalizing kind with
  | outermost id houtermost =>
      -- With nothing around it, the node is the root, and as a module that is a boundary.
      obtain ⟨region, hregion, -⟩ := Option.map_eq_some_iff.mp found
      obtain rfl := built.oneOutermost id Outline.root (Outline.lt_size_of_region? hregion)
        built.nonempty houtermost built.parent?_root
      have hboundary : NodeKind.module ∈ NodeKind.boundaries := List.mem_cons_self
      rw [withinStatement_of_boundary built.linked built.kind?_root hboundary]
      exact .cut built.kind?_root hboundary
  | inside id parent haround ih =>
      by_cases hboundary : kind ∈ NodeKind.boundaries
      · rw [withinStatement_of_boundary built.linked found hboundary]
        exact .cut found hboundary
      · obtain ⟨region, hregion⟩ := built.linked.exists_region?_of_parent? haround
        have hparent : t.kind? parent = some region.label := congrArg (Option.map _) hregion
        rw [withinStatement_of_parent? built.linked found hboundary haround]
        exact .outward found hboundary haround (ih hparent)

/-! ## The nearest call -/

theorem Built.calleeAround?_of_chain (built : t.Built) (walked : t.StatementChain id chain) :
    t.calleeAround? id =
      (chain.find? fun node => t.kind? node = some .call).bind fun call =>
        (t.childrenOf call).head? := by
  obtain ⟨kind, hkind⟩ := walked.exists_kind?
  rw [calleeAround?, walked.unique (built.statementChain hkind)]
  rfl

/-- Without a call in its statement, a node is in no call. -/
theorem Built.calleeAround?_eq_none (built : t.Built) (walked : t.StatementChain id chain)
    (noCall : ∀ met ∈ chain, t.kind? met ≠ some .call) : t.calleeAround? id = none := by
  rw [built.calleeAround?_of_chain walked, List.find?_eq_none.mpr]
  · rfl
  · intro met hmet
    simpa using noCall met hmet

/-- The first call on the way outwards is the one that counts. -/
theorem Built.calleeAround?_eq_head? (built : t.Built)
    (walked : t.StatementChain id (inner ++ call :: outer))
    (nearest : ∀ met ∈ inner, t.kind? met ≠ some .call) (isCall : t.kind? call = some .call) :
    t.calleeAround? id = (t.childrenOf call).head? := by
  rw [built.calleeAround?_of_chain walked, List.find?_eq_some_iff_append.mpr]
  · rfl
  · refine ⟨decide_eq_true isCall, inner, outer, rfl, fun met hmet => ?_⟩
    simpa using nearest met hmet

end SyntaxTree

namespace Snapshot

open TypeInfo ScopeTree

variable {s : Snapshot} {pos : Position} {place : Place}

/-- The expression at a position has no signatures just if nothing among its values that can be
called has any. -/
theorem ownSignatures_eq_nil_iff (located : s.locate pos = .ok place) :
    s.ownSignatures place = [] ↔
      ∀ types, s.valuesAt pos = .ok types →
        ∀ type ∈ types, type.isCallable = true → type.signatures = [] := by
  rw [valuesAt_of_locate located]
  cases hexpression : s.expressionOf? place with
  | none =>
      rw [ownSignatures, hexpression]
      refine iff_of_true rfl fun types htypes => ?_
      cases htypes
      exact fun _ htype => absurd htype List.not_mem_nil
  | some node =>
      rw [ownSignatures_of_expression hexpression, waysOfCalling_eq_nil_iff]
      constructor
      · rintro hnone types htypes
        cases htypes
        exact hnone
      · intro hall
        exact hall _ rfl

/-- **The nearest call of the same statement answers.** Let a position be inside the module scope,
and let nothing among the values there that can be called have a signature. The nodes from the one
at the position outwards, up to the first that is a module, a definition or a statement, are then
looked through for a call, and the first call counts: the answer is every signature of the values of
its first child in the scope at the position, and nothing at all if it has no children, whatever
calls are around it. Without a call among those nodes, or without a node at the position, the answer
is empty. With handles of 32 bits this is so while there are fewer than 2^32 nodes and 2^32
scopes. -/
theorem nearest_call_of_statement_answers (grown : s.tree.Built)
    (contains : s.scopes.outline.Contains moduleId pos)
    (quiet : ∀ types, s.valuesAt pos = .ok types →
      ∀ type ∈ types, type.isCallable = true → type.signatures = []) :
    ∃ place, s.locate pos = .ok place ∧
      (place.node = none → s.signaturesAt pos = .ok []) ∧
      ∀ node, place.node = some node →
        (∃! chain, s.tree.StatementChain node chain) ∧
        ∀ chain, s.tree.StatementChain node chain →
          ((∀ met ∈ chain, s.tree.kind? met ≠ some .call) → s.signaturesAt pos = .ok []) ∧
          ∀ inner call outer, chain = inner ++ call :: outer →
            (∀ met ∈ inner, s.tree.kind? met ≠ some .call) → s.tree.kind? call = some .call →
            (s.tree.childrenOf call = [] → s.signaturesAt pos = .ok []) ∧
            ∀ callee others, s.tree.childrenOf call = callee :: others →
              s.signaturesAt pos =
                .ok (waysOfCalling (s.inference.typesOf ⟨s.toFacts, place.scope, callee⟩)) := by
  obtain ⟨place, hlocated⟩ := Facts.exists_locate_eq_ok contains
  have hanswer : s.signaturesAt pos = .ok (s.calleeSignatures place) := by
    rw [signaturesAt_of_locate hlocated, if_pos ((ownSignatures_eq_nil_iff hlocated).mpr quiet)]
  refine ⟨place, hlocated, fun hnode => ?_, fun node hnode => ⟨?_, fun chain hchain => ?_⟩⟩
  · rw [hanswer, calleeSignatures, hnode]
    rfl
  · obtain ⟨kind, hkind⟩ := Facts.exists_kind?_of_locate grown hlocated hnode
    exact ⟨_, grown.statementChain hkind, fun other => (grown.statementChain hkind).unique⟩
  · have hcallee : s.calleeSignatures place =
        (s.tree.calleeAround? node).elim [] (s.signaturesOf place.scope) := by
      rw [calleeSignatures, hnode, Option.bind_some]
      cases s.tree.calleeAround? node <;> rfl
    rw [hanswer, hcallee]
    refine ⟨fun hnoCall => ?_, ?_⟩
    · rw [grown.calleeAround?_eq_none hchain hnoCall, Option.elim_none]
    · rintro inner call outer rfl hnearest hcall
      rw [grown.calleeAround?_eq_head? hchain hnearest hcall]
      constructor
      · intro hchildren
        rw [hchildren]
        rfl
      · intro callee others hchildren
        rw [hchildren]
        rfl

/-- A call of which nothing is written yet stands behind the argument of another one. Inside it
there is no answer, although the outer call has one for its argument, which is a function without
signatures. -/
theorem no_answer_inside_unwritten_call :
    let argument : TypeInfo := .function ⟨"g", [], ""⟩
    let told := ofCall [namedClass "F"] [argument]
    let s : Snapshot :=
      { told with tree := SyntaxTree.build told.tree [⟨⟨2⟩, .call, ⟨⟨0, 3⟩, ⟨0, 4⟩⟩⟩] }
    s.tree.Built ∧ s.valuesAt ⟨0, 2⟩ = .ok [argument] ∧
      s.signaturesAt ⟨0, 2⟩ = .ok [⟨"F", [], [], ""⟩] ∧
      s.tree.StatementChain ⟨5⟩ [⟨5⟩, ⟨2⟩] ∧ s.valuesAt ⟨0, 4⟩ = .ok [] ∧
      s.signaturesAt ⟨0, 4⟩ = .ok [] := by
  intro argument told s
  have hgrown : s.tree.Built := ((SyntaxTree.Built.ofModule _).build _).build _
  have hcontains : ∀ pos ∈ [(⟨0, 2⟩ : Position), ⟨0, 4⟩],
      s.scopes.outline.Contains moduleId pos := fun pos hpos =>
    ⟨⟨⟨0, 0⟩, ⟨1, 0⟩⟩, by decide +kernel, by revert pos; decide +kernel⟩
  have hstatement : s.tree.kind? ⟨1⟩ = some .statement := by decide +kernel
  have hcall : s.tree.kind? ⟨2⟩ = some .call := by decide +kernel
  have hargument : s.tree.kind? ⟨4⟩ = some .expression := by decide +kernel
  have hunwritten : s.tree.kind? ⟨5⟩ = some .call := by decide +kernel
  have hparents : s.tree.parent? ⟨2⟩ = some ⟨1⟩ ∧ s.tree.parent? ⟨4⟩ = some ⟨2⟩ ∧
      s.tree.parent? ⟨5⟩ = some ⟨2⟩ := by decide +kernel
  have houter : s.tree.StatementChain ⟨2⟩ [⟨2⟩] :=
    .outward hcall (by decide) hparents.1 (.cut hstatement (by decide))
  have hinner : s.tree.StatementChain ⟨5⟩ [⟨5⟩, ⟨2⟩] :=
    .outward hunwritten (by decide) hparents.2.2 houter
  have hvalues : s.valuesAt ⟨0, 2⟩ = .ok [argument] := by decide +kernel
  have hnoValues : s.valuesAt ⟨0, 4⟩ = .ok [] := by decide +kernel
  refine ⟨hgrown, hvalues, ?_, hinner, hnoValues, ?_⟩
  · have hlocated : s.locate ⟨0, 2⟩ = .ok ⟨⟨0⟩, some ⟨4⟩⟩ := by decide +kernel
    have hquiet : ∀ types, s.valuesAt ⟨0, 2⟩ = .ok types →
        ∀ type ∈ types, type.isCallable = true → type.signatures = [] := by
      intro types htypes
      cases hvalues.symm.trans htypes
      decide +kernel
    obtain ⟨place, hplace, -, hanswer⟩ :=
      nearest_call_of_statement_answers hgrown (hcontains _ (by decide)) hquiet
    cases Except.ok.inj (hlocated.symm.trans hplace)
    have hchain := (hanswer ⟨4⟩ rfl).2 _ (.outward hargument (by decide) hparents.2.1 houter)
    have hchildren : s.tree.childrenOf ⟨2⟩ = [⟨3⟩, ⟨4⟩, ⟨5⟩] := by decide +kernel
    exact (hchain.2 [⟨4⟩] ⟨2⟩ [] rfl (by decide +kernel) hcall).2 ⟨3⟩ _ hchildren
  · have hlocated : s.locate ⟨0, 4⟩ = .ok ⟨⟨0⟩, some ⟨5⟩⟩ := by decide +kernel
    have hquiet : ∀ types, s.valuesAt ⟨0, 4⟩ = .ok types →
        ∀ type ∈ types, type.isCallable = true → type.signatures = [] := by
      intro types htypes
      cases hnoValues.symm.trans htypes
      exact nofun
    obtain ⟨place, hplace, -, hanswer⟩ :=
      nearest_call_of_statement_answers hgrown (hcontains _ (by decide)) hquiet
    cases Except.ok.inj (hlocated.symm.trans hplace)
    have hchain := (hanswer ⟨5⟩ rfl).2 _ hinner
    have hchildren : s.tree.childrenOf ⟨5⟩ = [] := by decide +kernel
    exact (hchain.2 [] ⟨5⟩ [⟨2⟩] rfl (by decide) hunwritten).1 hchildren

end Snapshot

end CodeInsight

/-
# The way outwards through an outline

In an outline whose links agree, the way outwards from a region falls from depth to depth.
So it meets no region twice, the number of regions is budget enough to walk it to its end,
and a region with nothing around it can only come last.
-/

import CodeInsight.Proofs.Outline.Links

namespace CodeInsight

namespace Outline

variable {α : Type} {o : Outline α} {id : RegionId α}

theorem chain_of_parent?_eq_none (outermost : o.parent? id = none) (budget : Nat) :
    o.chain (budget + 1) id = [id] := by
  rw [chain, outermost]

theorem chain_of_parent?_eq_some {parent : RegionId α} (around : o.parent? id = some parent)
    (budget : Nat) : o.chain (budget + 1) id = id :: o.chain budget parent := by
  rw [chain, around]

/-- A walk outwards starts at the region itself and falls from depth to depth. -/
theorem depth_chain {depth : RegionId α → Nat}
    (grows : ∀ child parent, o.parent? child = some parent → depth parent < depth child)
    (budget : Nat) (id : RegionId α) :
    (o.chain budget id).Pairwise (fun inner outer => depth outer < depth inner) ∧
      ∀ met ∈ o.chain budget id, depth met ≤ depth id := by
  induction budget generalizing id with
  | zero => exact ⟨.nil, fun met hmet => nomatch hmet⟩
  | succ budget ih =>
      cases haround : o.parent? id with
      | none =>
          rw [chain_of_parent?_eq_none haround]
          refine ⟨List.pairwise_singleton _ _, fun met hmet => ?_⟩
          exact Nat.le_of_eq (congrArg depth (List.mem_singleton.mp hmet))
      | some parent =>
          obtain ⟨hfalls, hbelow⟩ := ih parent
          have hparent := grows id parent haround
          rw [chain_of_parent?_eq_some haround]
          refine ⟨.cons (fun met hmet => Nat.lt_of_le_of_lt (hbelow met hmet) hparent) hfalls, ?_⟩
          intro met hmet
          cases hmet with
          | head => exact Nat.le_refl _
          | tail _ hmet => exact Nat.le_of_lt (Nat.lt_of_le_of_lt (hbelow met hmet) hparent)

/-- A region with nothing around it ends every walk that meets it. -/
theorem chain_eq_or_append {outer : RegionId α} (outermost : o.parent? outer = none)
    (budget : Nat) (id : RegionId α) :
    ∃ inner, outer ∉ inner ∧
      (o.chain budget id = inner ∨ o.chain budget id = inner ++ [outer]) := by
  induction budget generalizing id with
  | zero => exact ⟨[], List.not_mem_nil, .inl rfl⟩
  | succ budget ih =>
      by_cases houter : id = outer
      · subst id
        exact ⟨[], List.not_mem_nil, .inr (chain_of_parent?_eq_none outermost budget)⟩
      · cases haround : o.parent? id with
        | none =>
            refine ⟨[id], fun hmem => houter (List.mem_singleton.mp hmem).symm, .inl ?_⟩
            exact chain_of_parent?_eq_none haround budget
        | some parent =>
            obtain ⟨inner, hinner, hchain⟩ := ih parent
            refine ⟨id :: inner, ?_, ?_⟩
            · intro hmem
              cases hmem with
              | head => exact houter rfl
              | tail _ hmem => exact hinner hmem
            · rw [chain_of_parent?_eq_some haround]
              exact hchain.imp (congrArg (id :: ·)) (congrArg (id :: ·))

/-- With enough budget the walk goes on until nothing is around the last region. -/
theorem getLast?_chain {depth : RegionId α → Nat}
    (grows : ∀ child parent, o.parent? child = some parent → depth parent < depth child)
    {budget : Nat} (enough : depth id < budget) :
    ∃ outer, (o.chain budget id).getLast? = some outer ∧ o.parent? outer = none := by
  induction budget generalizing id with
  | zero => exact absurd enough (Nat.not_lt_zero _)
  | succ budget ih =>
      cases haround : o.parent? id with
      | none => exact ⟨id, by rw [chain_of_parent?_eq_none haround]; rfl, haround⟩
      | some parent =>
          have hparent := grows id parent haround
          obtain ⟨outer, hlast, houtermost⟩ :=
            ih (Nat.lt_of_lt_of_le hparent (Nat.le_of_lt_succ enough))
          refine ⟨outer, ?_, houtermost⟩
          rw [chain_of_parent?_eq_some haround, List.getLast?_cons, hlast]
          rfl

/-- A budget that is large enough makes no difference. -/
theorem chain_eq_chain {depth : RegionId α → Nat}
    (grows : ∀ child parent, o.parent? child = some parent → depth parent < depth child)
    {budget other : Nat} (enough : depth id < budget) (enoughOther : depth id < other) :
    o.chain budget id = o.chain other id := by
  induction budget generalizing id other with
  | zero => exact absurd enough (Nat.not_lt_zero _)
  | succ budget ih =>
      cases other with
      | zero => exact absurd enoughOther (Nat.not_lt_zero _)
      | succ other =>
          cases haround : o.parent? id with
          | none => rw [chain_of_parent?_eq_none haround, chain_of_parent?_eq_none haround]
          | some parent =>
              have hparent := grows id parent haround
              rw [chain_of_parent?_eq_some haround, chain_of_parent?_eq_some haround]
              exact congrArg (id :: ·) (ih (by omega) (by omega))

/-- Where the way outwards meets anything, it starts at a region. -/
theorem exists_region?_of_ancestors {met : RegionId α} (walked : met ∈ o.ancestors id) :
    ∃ region, o.region? id = some region := by
  cases hfound : o.region? id with
  | some region => exact ⟨region, rfl⟩
  | none =>
      rw [ancestors, hfound] at walked
      cases walked

namespace WellLinked

/-- What is around a region is a region. -/
theorem exists_region?_of_parent? (linked : o.WellLinked) {parent : RegionId α}
    (around : o.parent? id = some parent) : ∃ region, o.region? parent = some region := by
  have hchild := (linked.children_iff parent id).mpr around
  cases hfound : o.region? parent with
  | some region => exact ⟨region, rfl⟩
  | none =>
      rw [childrenOf_of_region?_eq_none hfound] at hchild
      cases hchild

theorem exists_region?_of_mem_chain (linked : o.WellLinked) {budget : Nat} {met : RegionId α}
    (start : ∃ region, o.region? id = some region) (walked : met ∈ o.chain budget id) :
    ∃ region, o.region? met = some region := by
  induction budget generalizing id with
  | zero => cases walked
  | succ budget ih =>
      cases haround : o.parent? id with
      | none =>
          rw [chain_of_parent?_eq_none haround] at walked
          rwa [List.mem_singleton.mp walked]
      | some parent =>
          rw [chain_of_parent?_eq_some haround] at walked
          cases walked with
          | head => exact start
          | tail _ hmet => exact ih (linked.exists_region?_of_parent? haround) hmet

theorem ancestors_of_region? (linked : o.WellLinked) {region : Region α}
    (found : o.region? id = some region) : o.ancestors id = o.chain o.size id := by
  rw [ancestors, found, ← linked.ids id region found]

/-- The ancestors of a region are the region itself and those of the region around it. -/
theorem ancestors_of_parent? (linked : o.WellLinked) {parent : RegionId α}
    (around : o.parent? id = some parent) : o.ancestors id = id :: o.ancestors parent := by
  obtain ⟨depth, hgrows, hbound⟩ := linked.grounded
  obtain ⟨region, hregion, -⟩ := Option.bind_eq_some_iff.mp around
  obtain ⟨outer, houter⟩ := linked.exists_region?_of_parent? around
  have hparent := hgrows id parent around
  have hid := hbound id
  obtain ⟨budget, hsize⟩ : ∃ budget, o.size = budget + 1 := ⟨o.size - 1, by omega⟩
  rw [linked.ancestors_of_region? hregion, linked.ancestors_of_region? houter, hsize,
    chain_of_parent?_eq_some around]
  exact congrArg (id :: ·) (chain_eq_chain hgrows (by omega) (by omega))

/-- With nothing around it, a region is its only ancestor. -/
theorem ancestors_of_outermost (linked : o.WellLinked) {region : Region α}
    (found : o.region? id = some region) (outermost : o.parent? id = none) :
    o.ancestors id = [id] := by
  have hid := lt_size_of_region? found
  obtain ⟨budget, hsize⟩ : ∃ budget, o.size = budget + 1 := ⟨o.size - 1, by omega⟩
  rw [linked.ancestors_of_region? found, hsize, chain_of_parent?_eq_none outermost]

/-- What is passed on from a region to those directly inside it, and holds where nothing is around,
holds of every region. -/
theorem outward_induction {P : RegionId α → Prop} (linked : o.WellLinked)
    (outermost : ∀ id, o.parent? id = none → P id)
    (inside : ∀ id parent, o.parent? id = some parent → P parent → P id) (id : RegionId α) :
    P id := by
  obtain ⟨depth, hgrows, -⟩ := linked.grounded
  induction hdepth : depth id using Nat.strongRecOn generalizing id with
  | ind n ih =>
      cases haround : o.parent? id with
      | none => exact outermost id haround
      | some parent =>
          have hparent : depth parent < n := hdepth ▸ hgrows id parent haround
          exact inside id parent haround (ih _ hparent parent rfl)

/-- What holds of a region as soon as it holds of those directly inside it, holds of every
region. -/
theorem inward_induction {P : RegionId α → Prop} (linked : o.WellLinked)
    (around : ∀ id, (∀ child, o.parent? child = some id → P child) → P id) (id : RegionId α) :
    P id := by
  obtain ⟨depth, hgrows, hbound⟩ := linked.grounded
  induction hrest : o.size - depth id using Nat.strongRecOn generalizing id with
  | ind rest ih =>
      refine around id fun child hparent => ih _ ?_ child rfl
      have hdeeper := hgrows child id hparent
      have hchild := hbound child
      omega

theorem ancestors_eq_cons (linked : o.WellLinked) {region : Region α}
    (found : o.region? id = some region) : ∃ around, o.ancestors id = id :: around := by
  cases haround : o.parent? id with
  | none => exact ⟨[], linked.ancestors_of_outermost found haround⟩
  | some parent => exact ⟨o.ancestors parent, linked.ancestors_of_parent? haround⟩

theorem mem_ancestors_self (linked : o.WellLinked) {region : Region α}
    (found : o.region? id = some region) : id ∈ o.ancestors id := by
  obtain ⟨around, haround⟩ := linked.ancestors_eq_cons found
  rw [haround]
  exact List.mem_cons_self

theorem mem_ancestors_of_parent? (linked : o.WellLinked) {parent : RegionId α}
    (around : o.parent? id = some parent) : parent ∈ o.ancestors id := by
  obtain ⟨region, hregion⟩ := linked.exists_region?_of_parent? around
  rw [linked.ancestors_of_parent? around]
  exact List.mem_cons_of_mem _ (linked.mem_ancestors_self hregion)

theorem exists_region?_of_mem_ancestors (linked : o.WellLinked) {met : RegionId α}
    (walked : met ∈ o.ancestors id) : ∃ region, o.region? met = some region := by
  obtain ⟨region, hfound⟩ := exists_region?_of_ancestors walked
  rw [linked.ancestors_of_region? hfound] at walked
  exact linked.exists_region?_of_mem_chain ⟨region, hfound⟩ walked

theorem lt_size_of_mem_ancestors (linked : o.WellLinked) {met : RegionId α}
    (walked : met ∈ o.ancestors id) : met.index < o.size := by
  obtain ⟨region, hregion⟩ := linked.exists_region?_of_mem_ancestors walked
  exact lt_size_of_region? hregion

theorem eq_of_mem_ancestors_of_outermost (linked : o.WellLinked) {met : RegionId α}
    (outermost : o.parent? id = none) (walked : met ∈ o.ancestors id) : met = id := by
  obtain ⟨region, hfound⟩ := exists_region?_of_ancestors walked
  rw [linked.ancestors_of_outermost hfound outermost] at walked
  exact List.mem_singleton.mp walked

/-- The way outwards from a region goes on, from each region on it, as the way outwards from
there. -/
theorem ancestors_eq_append (linked : o.WellLinked) {met : RegionId α}
    (walked : met ∈ o.ancestors id) : ∃ inner, o.ancestors id = inner ++ o.ancestors met := by
  induction id using linked.outward_induction with
  | outermost id houtermost =>
      cases linked.eq_of_mem_ancestors_of_outermost houtermost walked
      exact ⟨[], rfl⟩
  | inside id parent haround ih =>
      have hancestors := linked.ancestors_of_parent? haround
      rw [hancestors, List.mem_cons] at walked
      rcases walked with rfl | hmet
      · exact ⟨[], rfl⟩
      · obtain ⟨inner, hinner⟩ := ih hmet
        exact ⟨id :: inner, by rw [hancestors, hinner, List.cons_append]⟩

theorem mem_ancestors_trans (linked : o.WellLinked) {outer middle : RegionId α}
    (around : outer ∈ o.ancestors middle) (inner : middle ∈ o.ancestors id) :
    outer ∈ o.ancestors id := by
  obtain ⟨before, hbefore⟩ := linked.ancestors_eq_append inner
  rw [hbefore]
  exact List.mem_append_right _ around

/-- A region that is further inside another one is inside one of its children. -/
theorem exists_child_of_mem_ancestors (linked : o.WellLinked) {outer : RegionId α}
    (around : outer ∈ o.ancestors id) (ne : id ≠ outer) :
    ∃ child, o.parent? child = some outer ∧ child ∈ o.ancestors id := by
  induction id using linked.outward_induction with
  | outermost id houtermost =>
      exact absurd (linked.eq_of_mem_ancestors_of_outermost houtermost around).symm ne
  | inside id parent hparent ih =>
      have hancestors := linked.ancestors_of_parent? hparent
      by_cases houter : parent = outer
      · subst houter
        exact ⟨id, hparent, by rw [hancestors]; exact List.mem_cons_self⟩
      · rw [hancestors, List.mem_cons] at around
        obtain ⟨child, hchild, hinner⟩ := ih (around.resolve_left (Ne.symm ne)) houter
        exact ⟨child, hchild, by rw [hancestors]; exact List.mem_cons_of_mem _ hinner⟩

/-- A region is not inside those directly inside it. -/
theorem not_mem_ancestors_of_parent? (linked : o.WellLinked) {child : RegionId α}
    (around : o.parent? child = some id) : child ∉ o.ancestors id := by
  intro hchild
  obtain ⟨depth, hgrows, -⟩ := linked.grounded
  obtain ⟨region, hregion⟩ := linked.exists_region?_of_parent? around
  rw [linked.ancestors_of_region? hregion] at hchild
  have hle : depth child ≤ depth id := (depth_chain hgrows o.size id).2 child hchild
  exact Nat.not_le.mpr (hgrows child id around) hle

/-- The way outwards leads through one child of a region only. -/
theorem eq_of_mem_ancestors_of_parent? (linked : o.WellLinked) {first second parent : RegionId α}
    (firstAround : first ∈ o.ancestors id) (secondAround : second ∈ o.ancestors id)
    (firstParent : o.parent? first = some parent) (secondParent : o.parent? second = some parent) :
    first = second := by
  induction id using linked.outward_induction with
  | outermost id houtermost =>
      exact (linked.eq_of_mem_ancestors_of_outermost houtermost firstAround).trans
        (linked.eq_of_mem_ancestors_of_outermost houtermost secondAround).symm
  | inside id around haround ih =>
      rw [linked.ancestors_of_parent? haround, List.mem_cons] at firstAround secondAround
      rcases firstAround with rfl | hfirst
      · cases haround.symm.trans firstParent
        exact (secondAround.resolve_right (linked.not_mem_ancestors_of_parent? secondParent)).symm
      · rcases secondAround with rfl | hsecond
        · cases haround.symm.trans secondParent
          exact absurd hfirst (linked.not_mem_ancestors_of_parent? firstParent)
        · exact ih hfirst hsecond

theorem ancestors_nodup (linked : o.WellLinked) (id : RegionId α) : (o.ancestors id).Nodup := by
  obtain ⟨depth, hgrows, -⟩ := linked.grounded
  rw [ancestors]
  split
  · refine (depth_chain hgrows o.size _).1.imp ?_
    rintro inner outer hdepth rfl
    exact Nat.lt_irrefl _ hdepth
  · exact .nil

/-- The ancestors of a region reach as far outwards as there are regions. -/
theorem getLast?_ancestors (linked : o.WellLinked) {region : Region α}
    (found : o.region? id = some region) :
    ∃ outer, (o.ancestors id).getLast? = some outer ∧ o.parent? outer = none := by
  obtain ⟨depth, hgrows, hbound⟩ := linked.grounded
  rw [linked.ancestors_of_region? found]
  exact getLast?_chain hgrows (hbound id)

end WellLinked

/-- A region with nothing around it is an ancestor only as the last one. -/
theorem ancestors_eq_or_append {outer : RegionId α} (outermost : o.parent? outer = none)
    (id : RegionId α) :
    ∃ inner, outer ∉ inner ∧ (o.ancestors id = inner ∨ o.ancestors id = inner ++ [outer]) := by
  rw [ancestors]
  split
  · exact chain_eq_or_append outermost o.size _
  · exact ⟨[], List.not_mem_nil, .inl rfl⟩

end Outline

end CodeInsight

/-
# Merging members by name

A merge keeps the first member of every name. So what it keeps under a name is what a
search by that name finds first, and whatever comes later in the list can add names but
never replace what comes before.

Keeping the first of every key is not particular to members: the names visible in a scope
are collected in the same way. What it is like is proved for any key, and a merge is the
case where a member's key is its name.
-/

import CodeInsight.Symbols.Member
import Mathlib.Data.List.Nodup

namespace CodeInsight

/-! ## The first of every key -/

section KeepFirst

variable {α β : Type} {key : α → String} {known taken : List String} {items : List α} {a : α}

/-- Only which keys are taken counts, not how they are listed. -/
theorem keepFirst_congr (same : ∀ name, name ∈ known ↔ name ∈ taken) (items : List α) :
    keepFirst key known items = keepFirst key taken items := by
  induction items generalizing known taken with
  | nil => rfl
  | cons a rest ih =>
      have hrest : keepFirst key (key a :: known) rest = keepFirst key (key a :: taken) rest :=
        ih fun name => by rw [List.mem_cons, List.mem_cons, same]
      simp only [keepFirst, same, ih same, hrest]

theorem keepFirst_append (key : α → String) (known : List String) (front back : List α) :
    keepFirst key known (front ++ back) =
      keepFirst key known front ++ keepFirst key (known ++ front.map key) back := by
  induction front generalizing known with
  | nil => simp [keepFirst]
  | cons a rest ih =>
      rw [List.cons_append, keepFirst, keepFirst]
      split
      · rw [ih]
        congr 1
        refine keepFirst_congr (fun name => ?_) back
        simp only [List.mem_append, List.map_cons, List.mem_cons]
        constructor
        · rintro (hname | hname)
          · exact .inl hname
          · exact .inr (.inr hname)
        · rintro (hname | rfl | hname)
          · exact .inl hname
          · exact .inl ‹_›
          · exact .inr hname
      · rw [ih, List.cons_append]
        congr 2
        refine keepFirst_congr (fun name => ?_) back
        simp only [List.mem_append, List.map_cons, List.mem_cons]
        exact or_left_comm

theorem keepFirst_map (key : α → String) (known : List String) (f : β → α) (items : List β) :
    keepFirst key known (items.map f) = (keepFirst (fun b => key (f b)) known items).map f := by
  induction items generalizing known with
  | nil => rfl
  | cons b rest ih =>
      rw [List.map_cons, keepFirst, keepFirst]
      split
      · exact ih known
      · rw [ih, List.map_cons]

theorem keepFirst_sublist (key : α → String) (known : List String) (items : List α) :
    (keepFirst key known items).Sublist items := by
  induction items generalizing known with
  | nil => exact .slnil
  | cons a rest ih =>
      rw [keepFirst]
      split
      · exact (ih known).cons a
      · exact (ih _).cons_cons a

/-- What is kept under a key is what a search by the key finds first, unless it is taken. -/
theorem mem_keepFirst_iff :
    a ∈ keepFirst key known items ↔ key a ∉ known ∧ items.find? (key · = key a) = some a := by
  induction items generalizing known with
  | nil => simp [keepFirst]
  | cons first rest ih =>
      rw [keepFirst]
      by_cases hkey : key first = key a
      · rw [List.find?_cons_of_pos (by simpa using hkey), Option.some.injEq]
        split
        · rw [ih]
          exact ⟨fun ha => absurd (hkey ▸ ‹key first ∈ known›) ha.1,
            fun ha => absurd (hkey ▸ ‹key first ∈ known›) ha.1⟩
        · rw [List.mem_cons, ih, List.mem_cons, hkey]
          constructor
          · rintro (rfl | ha)
            · exact ⟨‹_›, rfl⟩
            · exact absurd (.inl rfl) ha.1
          · exact fun ha => .inl ha.2.symm
      · have hother : a ≠ first := fun h => hkey (h ▸ rfl)
        rw [List.find?_cons_of_neg (by simpa using hkey)]
        split
        · exact ih
        · rw [List.mem_cons, ih, List.mem_cons]
          simp [hother, Ne.symm hkey]

/-- What is kept has no key that is taken. -/
theorem ne_key_of_mem_keepFirst {name : String} (kept : a ∈ keepFirst key known items)
    (taken : name ∈ known) : name ≠ key a :=
  fun hname => (mem_keepFirst_iff.mp kept).1 (hname ▸ taken)

theorem keys_keepFirst_nodup (key : α → String) (known : List String) (items : List α) :
    ((keepFirst key known items).map key).Nodup := by
  induction items generalizing known with
  | nil => exact .nil
  | cons a rest ih =>
      rw [keepFirst]
      split
      · exact ih known
      · refine List.nodup_cons.mpr ⟨fun hagain => ?_, ih _⟩
        obtain ⟨other, hother, hkey⟩ := List.mem_map.mp hagain
        exact ne_key_of_mem_keepFirst hother List.mem_cons_self hkey.symm

/-- What is kept stands in the order in which keys come up. -/
theorem keepFirst_pairwise (key : α → String) (known : List String) (items : List α) :
    (keepFirst key known items).Pairwise fun a later =>
      (items.map key).idxOf (key a) < (items.map key).idxOf (key later) := by
  induction items generalizing known with
  | nil => exact .nil
  | cons first rest ih =>
      -- Any other key comes up one place later than it does in the rest.
      have hlater {name : String} (hother : key first ≠ name) :
          ((first :: rest).map key).idxOf name = (rest.map key).idxOf name + 1 := by
        rw [List.map_cons, List.idxOf_cons_ne _ hother]
      have hrest {taken : List String} (htaken : key first ∈ taken) :
          (keepFirst key taken rest).Pairwise fun a later =>
            ((first :: rest).map key).idxOf (key a) <
              ((first :: rest).map key).idxOf (key later) := by
        refine (ih taken).imp_of_mem fun {a later} ha haLater hbefore => ?_
        rw [hlater (ne_key_of_mem_keepFirst ha htaken),
          hlater (ne_key_of_mem_keepFirst haLater htaken)]
        exact Nat.succ_lt_succ hbefore
      rw [keepFirst]
      split
      · exact hrest ‹_›
      · refine List.pairwise_cons.mpr ⟨fun a ha => ?_, hrest List.mem_cons_self⟩
        rw [hlater (ne_key_of_mem_keepFirst ha List.mem_cons_self), List.map_cons,
          List.idxOf_cons_self]
        exact Nat.succ_pos _

/-- Keys that are taken may as well be left out afterwards. -/
theorem keepFirst_eq_filter (key : α → String) (known : List String) (items : List α) :
    keepFirst key known items = (keepFirst key [] items).filter fun a => key a ∉ known := by
  induction items generalizing known with
  | nil => rfl
  | cons first rest ih =>
      have hfirst : keepFirst key [] (first :: rest) =
          first :: (keepFirst key [] rest).filter fun a => key a ∉ [key first] := by
        rw [keepFirst, if_neg List.not_mem_nil, ih]
      rw [hfirst, keepFirst]
      by_cases hknown : key first ∈ known
      · rw [if_pos hknown, List.filter_cons_of_neg (by simpa using hknown), List.filter_filter, ih]
        refine List.filter_congr fun a _ => ?_
        by_cases hkey : key a = key first <;> simp [hkey, hknown]
      · rw [if_neg hknown, List.filter_cons_of_pos (by simpa using hknown), List.filter_filter, ih]
        congr 1
        refine List.filter_congr fun a _ => ?_
        simp [Bool.and_comm]

end KeepFirst

namespace Member

variable {members front back : List Member} {m : Member}

theorem mem_merge_iff :
    m ∈ merge members ↔ members.find? (·.name = m.name) = some m := by
  rw [merge, mem_keepFirst_iff]
  simp

theorem merge_sublist (members : List Member) : (merge members).Sublist members :=
  keepFirst_sublist _ [] members

/-- A merge has one member of a name. -/
theorem merge_names_nodup (members : List Member) : ((merge members).map (·.name)).Nodup :=
  keys_keepFirst_nodup _ [] members

/-- Members that come later and can be told from the earlier ones only add to a merge. -/
theorem filter_merge_append {kept : Member → Bool} (keeps : ∀ m ∈ front, kept m = true)
    (drops : ∀ m ∈ back, kept m = false) :
    (merge (front ++ back)).filter kept = merge front := by
  have hfront : (merge front).filter kept = merge front :=
    List.filter_eq_self.mpr fun m hm => keeps m ((merge_sublist front).subset hm)
  have hback : (keepFirst (·.name) ([] ++ front.map (·.name)) back).filter kept = [] := by
    refine List.filter_eq_nil_iff.mpr fun m hm => ?_
    rw [drops m ((keepFirst_sublist _ _ back).subset hm)]
    exact Bool.false_ne_true
  rw [merge, keepFirst_append, ← merge, List.filter_append, hfront, hback, List.append_nil]

/-! ## What a merge is like -/

/-- A list of members is the merge of another one if it has one member of every name there, which is
the first of that name, in the order in which the names come up. -/
structure IsMergeOf (merged members : List Member) : Prop where
  distinct : (merged.map (·.name)).Nodup
  /-- No name is lost and none is added. -/
  complete : ∀ name, (∃ m ∈ merged, m.name = name) ↔ ∃ m ∈ members, m.name = name
  first : ∀ m ∈ merged, members.find? (·.name = m.name) = some m
  ordered : merged.Pairwise fun m later =>
    (members.map (·.name)).idxOf m.name < (members.map (·.name)).idxOf later.name

namespace IsMergeOf

variable {merged merged' : List Member}

theorem mem_iff (isMerge : IsMergeOf merged members) :
    m ∈ merged ↔ members.find? (·.name = m.name) = some m := by
  refine ⟨isMerge.first m, fun hfound => ?_⟩
  obtain ⟨same, hsame, hname⟩ :=
    (isMerge.complete m.name).mpr ⟨m, List.mem_of_find?_eq_some hfound, rfl⟩
  have hfirst := isMerge.first same hsame
  rw [hname, hfound] at hfirst
  exact Option.some.inj hfirst ▸ hsame

/-- There is one merge of a list. -/
theorem unique (isMerge : IsMergeOf merged members) (isMerge' : IsMergeOf merged' members) :
    merged' = merged := by
  have hperm : merged'.Perm merged := by
    refine (List.perm_ext_iff_of_nodup (isMerge'.distinct.of_map _)
      (isMerge.distinct.of_map _)).mpr ?_
    exact fun m => isMerge'.mem_iff.trans isMerge.mem_iff.symm
  refine hperm.eq_of_pairwise (fun m later _ _ hbefore hbehind => ?_) isMerge'.ordered
    isMerge.ordered
  exact absurd hbehind (Nat.lt_asymm hbefore)

end IsMergeOf

/-- A merge has all names. -/
theorem exists_mem_merge_iff {name : String} :
    (∃ m ∈ merge members, m.name = name) ↔ ∃ m ∈ members, m.name = name := by
  constructor
  · rintro ⟨m, hm, hname⟩
    exact ⟨m, (merge_sublist members).subset hm, hname⟩
  · rintro ⟨m, hm, hname⟩
    obtain ⟨first, hfirst⟩ : ∃ first, members.find? (·.name = name) = some first :=
      Option.isSome_iff_exists.mp (List.find?_isSome.mpr ⟨m, hm, by simpa using hname⟩)
    have hsame : first.name = name := by simpa using List.find?_some hfirst
    exact ⟨first, mem_merge_iff.mpr (by rwa [hsame]), hsame⟩

theorem isMergeOf_merge (members : List Member) : IsMergeOf (merge members) members where
  distinct := merge_names_nodup members
  complete _ := exists_mem_merge_iff
  first _ := mem_merge_iff.mp
  ordered := keepFirst_pairwise _ [] members

/-! ## Laws of merging -/

/-- The merge of two lists is the merge of the first and what is new in the merge of the second. -/
theorem merge_append (front back : List Member) :
    merge (front ++ back) =
      merge front ++ (merge back).filter fun m => m.name ∉ (merge front).map (·.name) := by
  have hnames (name : String) :
      name ∈ [] ++ front.map (·.name) ↔ name ∈ (merge front).map (·.name) := by
    rw [List.nil_append, List.mem_map, List.mem_map]
    exact exists_mem_merge_iff.symm
  rw [merge, keepFirst_append, ← merge, keepFirst_congr hnames, keepFirst_eq_filter, ← merge]

/-- Members with names that there are already make no difference, whatever comes after them. -/
theorem merge_append_again {again : List Member}
    (repeats : ∀ m ∈ again, ∃ earlier ∈ front, earlier.name = m.name) :
    merge (front ++ again ++ back) = merge (front ++ back) := by
  have hnothing :
      ((merge again).filter fun m => m.name ∉ (merge front).map (·.name)) = [] := by
    refine List.filter_eq_nil_iff.mpr fun m hm => ?_
    have hknown : m.name ∈ (merge front).map (·.name) :=
      List.mem_map.mpr (exists_mem_merge_iff.mpr (repeats m ((merge_sublist again).subset hm)))
    simpa using hknown
  rw [merge_append (front ++ again), merge_append front again, hnothing, List.append_nil,
    merge_append front back]

end Member

end CodeInsight

import TypeFlow.Proofs.Types.Hierarchy

/-!
# Joins and subtypes

A join is below every type that all the joined types are below, and below no other type but itself
(`Declarations.isSubtype_join`). It is no upper bound of them, though: a union is taken apart where
it is the lower type, but not where it is the upper one. Of the joined types only the join itself
and `NoReturn` are below it.
-/

namespace TypeFlow.Types
variable {t t' : Types} {id a u join : TypeId} {ids : List TypeId}

/-! ### The only type without values -/

/-- No other type has the kind of `NoReturn`. -/
def OnlyNoReturn (t : Types) : Prop := ∀ id, t.kind id = .noReturn → id = .noReturn

namespace OnlyNoReturn

theorem gains {name : String} {container : Option TypeId} {kind : TypeKind} (h : t.OnlyNoReturn)
    (hg : t.Gains name container kind t') (hk : kind ≠ .noReturn) : t'.OnlyNoReturn := by
  intro id hid
  rw [hg.kind_eq] at hid
  split at hid
  · exact absurd hid hk
  · exact h id hid

theorem apply (h : t.OnlyNoReturn) (generic : TypeId) (args : List TypeId) :
    (t.apply generic args).2.OnlyNoReturn :=
  (interns_apply t generic args).preserves h fun _ hg => h.gains hg nofun

theorem modify {f : TypeEntry → TypeEntry} (h : t.OnlyNoReturn) (hf : TypeEntry.Extends f)
    (owner : TypeId) :
    (t.modify owner f hf).OnlyNoReturn := fun id hid => by
  rw [kind_modify] at hid
  exact h id hid

end OnlyNoReturn

theorem onlyNoReturn_initial : initial.OnlyNoReturn := fun id hk => by
  have hlt : id.index < initial.size :=
    Nat.lt_of_not_le fun hle => by rw [kind_of_le hle] at hk; cases hk
  have hall : ∀ i < initial.size, initial.kind ⟨i⟩ = .noReturn → i = TypeId.noReturn.index := by
    decide +kernel
  exact congrArg TypeId.mk (hall id.index hlt hk)

theorem Operation.onlyNoReturn (h : Operation t t') (ht : t.OnlyNoReturn) : t'.OnlyNoReturn := by
  cases h with
  | join => exact join_preserves ht fun _ hg => ht.gains hg nofun
  | metaclassOf => exact metaclassOf_preserves ht fun _ hg => ht.gains hg nofun
  | @applyGeneric generic type args _ h =>
    rw [show t' = (t.apply generic args).2 from congrArg Prod.snd (eq_apply_of_applyGeneric h)]
    exact ht.apply generic args
  | pointerTo => exact ht.apply _ _
  | includeModule owner => exact ht.modify _ owner
  | @declare container name kind hk =>
    have hpush :=
      ht.gains (gains_push t name (some container) kind) fun hn => by rw [hn] at hk; cases hk
    refine hpush.modify ?_ container
    exact ⟨fun _ => rfl, fun _ => rfl⟩
  | extend owner hf => exact ht.modify hf owner

theorem Operations.onlyNoReturn (h : Operations t t') (ht : t.OnlyNoReturn) : t'.OnlyNoReturn := by
  induction h with
  | refl => exact ht
  | tail _ h ih => exact h.onlyNoReturn ih

/-! ### What is below a type -/

theorem isAtomSubtype_self (t : Types) (id : TypeId) : t.isAtomSubtype id id = true :=
  isAtomSubtype_iff.mpr (.inl rfl)

theorem isSubtype_self (t : Types) (id : TypeId) : t.isSubtype id id = true :=
  isSubtype_iff.mpr (.inl rfl)

namespace Canonical

theorem isAtomSubtype_noReturn (h : t.Canonical) (u : TypeId) :
    t.isAtomSubtype .noReturn u = true :=
  isAtomSubtype_iff.mpr (.inr (.inl h.noReturn))

theorem isSubtype_noReturn (h : t.Canonical) (u : TypeId) : t.isSubtype .noReturn u = true :=
  isSubtype_iff.mpr (.inr fun m hm => by
    rw [h.atoms_noReturn, List.mem_singleton] at hm
    exact hm ▸ h.isAtomSubtype_noReturn u)

theorem eq_of_atoms_forall (h : t.Canonical) (hu : t.atoms u = [u])
    (hid : ∀ m ∈ t.atoms id, m = u) : id = u := by
  refine h.eq_of_atoms ((h.increasing_atoms id).eq_of_mem_iff (h.increasing_atoms u) fun m => ?_)
  rw [hu, List.mem_singleton]
  refine ⟨hid m, ?_⟩
  rintro rfl
  obtain ⟨a, ha⟩ := List.exists_mem_of_ne_nil _ (h.atoms_ne_nil id)
  exact hid a ha ▸ ha

end Canonical

/-- A union is above itself and `NoReturn` alone. -/
theorem Hierarchy.eq_of_isSubtype_union (hh : t.Hierarchy) (hcan : t.Canonical)
    (honly : t.OnlyNoReturn) {members : List TypeId} (hu : t.kind u = .union members)
    (hid : t.isSubtype id u = true) :
    id = u ∨ id = .noReturn := by
  refine (isSubtype_iff.mp hid).imp_right fun hatoms =>
    hcan.eq_of_atoms_forall hcan.atoms_noReturn fun m hm => ?_
  have hne : m ≠ u := fun h => hcan.not_union_of_mem_atoms hm members (h ▸ hu)
  exact honly m (hh.noReturn_of_union hu hne (hatoms m hm))

/-! ### Joins -/

/-- The type has the atoms of a join of the types. -/
def IsJoin (t : Types) (ids : List TypeId) (join : TypeId) : Prop :=
  t.atoms join = canonicalMembers (ids.flatMap t.atoms)

namespace IsJoin

theorem mem_atoms_iff (hj : t.IsJoin ids join) (ha : a ≠ .noReturn) :
    a ∈ t.atoms join ↔ ∃ id ∈ ids, a ∈ t.atoms id := by
  rw [hj, mem_canonicalMembers, List.mem_flatMap]
  exact and_iff_left (.inl ha)

theorem exists_of_mem_atoms (hj : t.IsJoin ids join) (ha : a ∈ t.atoms join) :
    ∃ id ∈ ids, a ∈ t.atoms id := by
  rw [hj, mem_canonicalMembers, List.mem_flatMap] at ha
  exact ha.1

/-- Only types that are equal, or `NoReturn`, have a join that is no union. -/
theorem eq_of_not_union (hj : t.IsJoin ids join) (hcan : t.Canonical) (hu : t.atoms join = [join])
    (hid : id ∈ ids) : id = join ∨ id = .noReturn := by
  by_cases hn : .noReturn ∈ t.atoms id
  · exact .inr (hcan.eq_noReturn_of_mem hn)
  · refine .inl (hcan.eq_of_atoms_forall hu fun m hm => ?_)
    have hne : m ≠ .noReturn := fun h => hn (h ▸ hm)
    have hmem := (hj.mem_atoms_iff hne).mpr ⟨id, hid, hm⟩
    rwa [hu, List.mem_singleton] at hmem

/-- A union of which nothing but itself and `NoReturn` is joined is the join. -/
theorem eq_of_forall_eq (hj : t.IsJoin ids join) (hcan : t.Canonical) (hu : u ∈ ids)
    (hne : u ≠ .noReturn) (hids : ∀ id ∈ ids, id = u ∨ id = .noReturn) : join = u := by
  refine hcan.eq_of_atoms (.trans hj (.trans ?_ (hcan.canonicalMembers_atoms u)))
  refine canonicalMembers_eq_iff.mpr fun a => ?_
  have hno : .noReturn ∉ t.atoms u := fun h => hne (hcan.eq_noReturn_of_mem h)
  rw [mem_canonicalMembers, mem_canonicalMembers, List.mem_flatMap]
  obtain ⟨b, hb⟩ := List.exists_mem_of_ne_nil _ (hcan.atoms_ne_nil u)
  have hbne : b ≠ .noReturn := fun h => hno (h ▸ hb)
  constructor
  · rintro ⟨⟨id, hid, ha⟩, hall⟩
    rcases hids id hid with rfl | rfl
    · exact ⟨ha, .inl fun h => hno (h ▸ ha)⟩
    · rw [hcan.atoms_noReturn, List.mem_singleton] at ha
      exact absurd (hall.resolve_left (not_not.mpr ha) b (List.mem_flatMap.mpr ⟨u, hu, hb⟩)) hbne
  · rintro ⟨ha, -⟩
    exact ⟨⟨u, hu, ha⟩, .inl fun h => hno (h ▸ ha)⟩

theorem isSubtype_iff_eq (hj : t.IsJoin ids join) (hh : t.Hierarchy) (hcan : t.Canonical)
    (honly : t.OnlyNoReturn) (hid : id ∈ ids) :
    t.isSubtype id join = true ↔ id = join ∨ id = .noReturn := by
  constructor
  · intro h
    rcases t.atoms_cases join with hu | ⟨-, hu⟩
    · exact hh.eq_of_isSubtype_union hcan honly hu h
    · exact hj.eq_of_not_union hcan hu hid
  · rintro (rfl | rfl)
    · exact t.isSubtype_self id
    · exact hcan.isSubtype_noReturn join

/-- What is above all the joined types is above their join. -/
theorem isSubtype_of_forall (hj : t.IsJoin ids join) (hh : t.Hierarchy) (hcan : t.Canonical)
    (honly : t.OnlyNoReturn) (hids : ∀ id ∈ ids, t.isSubtype id u = true) :
    t.isSubtype join u = true := by
  by_cases hex : u ∈ ids ∧ ∃ members, t.kind u = .union members
  · obtain ⟨hu, members, hk⟩ := hex
    have hne : u ≠ .noReturn := by
      rintro rfl
      rw [hcan.noReturn] at hk; cases hk
    have heq :=
      hj.eq_of_forall_eq hcan hu hne fun id hid =>
        hh.eq_of_isSubtype_union hcan honly hk (hids id hid)
    exact heq ▸ t.isSubtype_self u
  · refine isSubtype_iff.mpr (.inr fun a ha => ?_)
    obtain ⟨id, hid, ha⟩ := hj.exists_of_mem_atoms ha
    rcases isSubtype_iff.mp (hids id hid) with rfl | hatoms
    · -- the type is one of those joined, and no union
      rw [atoms_of_not_union fun members hk => hex ⟨hid, members, hk⟩, List.mem_singleton] at ha
      exact ha ▸ t.isAtomSubtype_self id
    · exact hatoms a ha

/-- What is above the join is above all that is joined, unless it is the join. -/
theorem isSubtype_of_ne (hj : t.IsJoin ids join) (hcan : t.Canonical)
    (h : t.isSubtype join u = true) (hne : join ≠ u) (hid : id ∈ ids) :
    t.isSubtype id u = true := by
  have hatoms := (isSubtype_iff.mp h).resolve_left hne
  refine isSubtype_iff.mpr (.inr fun a ha => ?_)
  by_cases hn : a = .noReturn
  · exact hn ▸ hcan.isAtomSubtype_noReturn u
  · exact hatoms a ((hj.mem_atoms_iff hn).mpr ⟨id, hid, ha⟩)

end IsJoin

/-- A join has its atoms for good. -/
theorem Lawful.isJoin (h : t.Lawful) (hids : ∀ id ∈ ids, id.index < t.size)
    (hops : Operations (t.join ids).2 t') (hj : (t.join ids).1 = some join) :
    t'.IsJoin ids join := by
  have hkeeps : t.KeepsKinds t' := (growsTo_join t ids).keepsKinds.trans hops.keepsKinds
  rw [IsJoin, hkeeps.flatMap_atoms_eq hids]
  exact h.atoms_join_of_operations hids hops hj

/-- Of the joined types only those that are the join and `NoReturn` are below it. It is below itself
and below the types that are above all those joined. -/
theorem Declarations.isSubtype_join (h : Declarations initial t) (hne : ids ≠ [])
    (hids : ∀ id ∈ ids, id.index < t.size) (hlater : Declarations (t.join ids).2 t') :
    ∃ join, (t.join ids).1 = some join ∧
      (∀ id ∈ ids, t'.isSubtype id join = true ↔ id = join ∨ id = .noReturn) ∧
      ∀ u, t'.isSubtype join u = true ↔ join = u ∨ ∀ id ∈ ids, t'.isSubtype id u = true := by
  have hlawful := h.operations.lawful lawful_initial
  have hall : Declarations initial t' := (h.tail (.join hids)).trans hlater
  have hh := hall.hierarchy
  have hcan := (hall.operations.lawful lawful_initial).canonical
  have honly := hall.operations.onlyNoReturn onlyNoReturn_initial
  obtain ⟨join, hjoin⟩ :=
    Option.ne_none_iff_exists'.mp fun hnone => hne (hlawful.canonical.join_eq_none_iff.mp hnone)
  have hj := hlawful.isJoin hids hlater.operations hjoin
  refine ⟨join, hjoin, fun id hid => hj.isSubtype_iff_eq hh hcan honly hid,
    fun u => ⟨fun hu => ?_, ?_⟩⟩
  · by_cases heq : join = u
    · exact .inl heq
    · exact .inr fun id hid => hj.isSubtype_of_ne hcan hu heq hid
  · rintro (rfl | hall)
    · exact t'.isSubtype_self join
    · exact hj.isSubtype_of_forall hh hcan honly hall

/-- The join of `Int32` and `Char`, which are both below `Value`. -/
theorem Declarations.isSubtype_join_number_or_char :
    Declarations initial initial ∧ [TypeId.int32, .char] ≠ [] ∧
      (∀ id ∈ [TypeId.int32, .char], id.index < initial.size) ∧
      ∃ join, (initial.join [.int32, .char]).1 = some join ∧
        (initial.join [.int32, .char]).2.isSubtype join .value = true ∧
        (initial.join [.int32, .char]).2.isSubtype .int32 join = false := by
  have hids : ∀ id ∈ [TypeId.int32, .char], id.index < initial.size := by decide +kernel
  obtain ⟨join, hj, hbelow, habove⟩ :=
    Declarations.isSubtype_join .refl (List.cons_ne_nil TypeId.int32 [.char]) hids .refl
  have hjoin : (initial.join [.int32, .char]).1 = some ⟨24⟩ := by decide +kernel
  obtain rfl := Option.some.inj (hj.symm.trans hjoin)
  refine ⟨.refl, List.cons_ne_nil _ _, hids, _, hj, (habove .value).mpr
    (.inr (by decide +kernel)), ?_⟩
  refine Bool.eq_false_iff.mpr fun h => ?_
  rcases (hbelow .int32 List.mem_cons_self).mp h with h | h <;> exact absurd h (by decide)

/-- `Int32` is not below the join of `Int32` and `Char`. -/
theorem not_isSubtype_join : ¬ ∀ t, Declarations initial t → ∀ ids : List TypeId, ids ≠ [] →
    (∀ id ∈ ids, id.index < t.size) → ∀ join, (t.join ids).1 = some join →
      (∀ id ∈ ids, (t.join ids).2.isSubtype id join = true) ∧
        ∀ u, (t.join ids).2.isSubtype join u = true ↔
          ∀ id ∈ ids, (t.join ids).2.isSubtype id u = true := fun h =>
  have hjoin : (initial.join [.int32, .char]).1 = some ⟨24⟩ := by decide +kernel
  have hall :=
    (h initial .refl [.int32, .char] (List.cons_ne_nil _ _) (by decide +kernel) ⟨24⟩ hjoin).1
  absurd (hall .int32 List.mem_cons_self) (by decide +kernel)

end TypeFlow.Types

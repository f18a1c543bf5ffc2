import TypeFlow.Proofs.Types.Precedes

/-!
# Comparisons that last

What is a subtype of what changes only when a type includes a module. So a narrowing gives the same
answer in every later table, as long as neither what it compares with nor what it narrows is a
module that some type includes there (`endures_apply`).
-/

namespace TypeFlow

namespace Types
variable {t t' : Types} {id of : TypeId} {ids : List TypeId}

/-- Some type includes it. -/
def Included (t : Types) (module : TypeId) : Prop :=
  ∃ owner, ∃ i ∈ (t.get owner).includes, i.module = module

/-- Neither the type nor a member of it is a module that some type includes. -/
structure Unshared (t : Types) (id : TypeId) : Prop where
  type : ¬ t.Included id
  members : ∀ m ∈ t.atoms id, ¬ t.Included m

theorem included_iff {module : TypeId} :
    t.Included module ↔ ∃ e ∈ t.entries.toList, ∃ i ∈ e.includes, i.module = module := by
  constructor
  · rintro ⟨owner, i, hi, heq⟩
    have hlt : owner.index < t.size := by
      by_contra hge
      rw [get_of_le (Nat.le_of_not_lt hge)] at hi; cases hi
    rw [get_of_lt hlt] at hi
    exact ⟨_, Array.mem_toList_iff.mpr (Array.getElem_mem hlt), i, hi, heq⟩
  · rintro ⟨e, he, i, hi, heq⟩
    obtain ⟨k, hk, rfl⟩ := Array.getElem_of_mem (Array.mem_toList_iff.mp he)
    have hget : t.get ⟨k⟩ = t.entries[k] := get_of_lt hk
    exact ⟨⟨k⟩, i, by rwa [hget], heq⟩

instance (t : Types) (module : TypeId) : Decidable (t.Included module) :=
  decidable_of_iff _ included_iff.symm

instance (t : Types) (id : TypeId) : Decidable (t.Unshared id) :=
  decidable_of_iff (¬ t.Included id ∧ ∀ m ∈ t.atoms id, ¬ t.Included m)
    ⟨fun h => ⟨h.1, h.2⟩, fun h => ⟨h.1, h.2⟩⟩

theorem Precedes.included (h : t.Precedes t') {module : TypeId} (hm : t.Included module) :
    t'.Included module :=
  let ⟨owner, i, hi, heq⟩ := hm
  ⟨owner, i, (h.includes owner).subset hi, heq⟩

theorem includes_eq_false (h : ¬ t.Included of) (id : TypeId) : t.includes id of = false := by
  have hwithin : ∀ fuel id, t.includesWithin of fuel id = false := fun fuel => by
    induction fuel with
    | zero => exact fun _ => rfl
    | succ fuel ih =>
      intro id
      rw [includesWithin, List.any_eq_false]
      intro i hi
      rw [ih, Bool.or_false, beq_iff_eq]
      rintro rfl
      refine h ?_
      unfold inclusions at hi
      split at hi
      · exact ⟨_, i, hi, rfl⟩
      · exact ⟨_, i, hi, rfl⟩
  exact hwithin t.size id

namespace KeepsKinds

theorem superclass_eq (h : t.KeepsKinds t') (hc : t.Closed) (hid : id.index < t.size) :
    t'.superclass id = t.superclass id := by
  unfold superclass; rw [h.kind_eq id hid]
  split
  · rfl
  · rw [h.kind_eq _ (hc.generic_lt ‹_›)]
  · rfl

theorem someWithin_eq (h : t.KeepsKinds t') (hc : t.Closed) (test : TypeId → Bool) (k : Nat)
    (hid : id.index < t.size) : t'.someWithin test k id = t.someWithin test k id := by
  induction k generalizing id with
  | zero => rfl
  | succ k ih =>
    rw [someWithin_succ, someWithin_succ, h.superclass_eq hc hid]
    cases hs : t.superclass id with
    | none => rfl
    | some parent => simp only [Option.elim, ih (hc.superclass_lt hs)]

end KeepsKinds

namespace Precedes

theorem isAtomSubtype_eq (h : t.Precedes t') (hc : t.Closed) (hid : id.index < t.size)
    (hof : ¬ t'.Included of) : t'.isAtomSubtype id of = t.isAtomSubtype id of := by
  have hsome := h.toKeepsKinds.someWithin_eq hc (fun a => a == of || false) t'.size hid
  rw [Types.someWithin_eq h.size_le] at hsome
  simp only [someWithin] at hsome
  unfold isAtomSubtype ancestors
  simp only [includes_eq_false hof, includes_eq_false fun hi => hof (h.included hi)]
  rw [h.kind_eq id hid, hsome]

theorem isSubtype_eq (h : t.Precedes t') (hc : t.Closed) (hid : id.index < t.size)
    (hof : ¬ t'.Included of) : t'.isSubtype id of = t.isSubtype id of := by
  unfold isSubtype
  rw [h.kind_eq id hid]
  congr 1
  split
  · rename_i members hk
    rw [Bool.eq_iff_iff, List.all_eq_true, List.all_eq_true]
    refine forall₂_congr fun m hm => ?_
    rw [h.isAtomSubtype_eq hc (hc.member_lt hk hm) hof]
  · exact h.isAtomSubtype_eq hc hid hof

end Precedes

/-- The members of a join are members of what is joined. -/
theorem exists_of_mem_atoms_join {join a : TypeId} (hs : t.Solid)
    (hids : ∀ id ∈ ids, id.index < t.size) (hj : (t.join ids).1 = some join)
    (ht : (t.join ids).2.KeepsKinds t') (ha : a ∈ t'.atoms join) :
    ∃ id ∈ ids, a ∈ t'.atoms id := by
  rw [ht.atoms_eq (hs.toClosed.join_lt hids hj), hs.canonical.atoms_join hj,
    mem_canonicalMembers] at ha
  obtain ⟨id, hid, hmem⟩ := List.mem_flatMap.mp ha.1
  exact ⟨id, hid, by rwa [((growsTo_join t ids).keepsKinds.trans ht).atoms_eq (hids id hid)]⟩

end Types

namespace Narrowing
open TypeFlow.Types

variable {t t' : Types} {id target : TypeId}

/-- In the table `t'`, which comes after the one that `f` leaves, `f` gives the same answer, and no
member of it is a module that some type includes there. -/
structure Endures (f : Types → Option TypeId × Types) (t t' : Types) : Prop where
  same : f t' = ((f t).1, t')
  members : ∀ a, (f t).1 = some a → ∀ m ∈ t'.atoms a, ¬ t'.Included m

theorem endures_join {ids : List TypeId} (hs : t.Solid) (hids : ∀ id ∈ ids, id.index < t.size)
    (ht : (t.join ids).2.KeepsKinds t')
    (hmembers : ∀ id ∈ ids, ∀ m ∈ t'.atoms id, ¬ t'.Included m) :
    Endures (·.join ids) t t' :=
  ⟨(lasts_join hids).2 t' ht, fun _ hj _ hm =>
    let ⟨id, hid, hm⟩ := exists_of_mem_atoms_join hs hids hj ht hm
    hmembers id hid _ hm⟩

/-- The members of a union are not unions. -/
theorem members_of_members {members : List TypeId} (hs : t.Solid) (ht : t.KeepsKinds t')
    (hid : id.index < t.size) (hk : t.kind id = .union members)
    (hmembers : ∀ m ∈ t'.atoms id, ¬ t'.Included m) :
    ∀ m ∈ members, ∀ a ∈ t'.atoms m, ¬ t'.Included a := fun m hm a ha => by
  have hmem : m ∈ t.atoms id := by rw [atoms_of_union hk]; exact hm
  rw [ht.atoms_eq (hs.toClosed.member_lt hk hm), atoms_of_not_union
    (hs.canonical.not_union_of_mem_atoms hmem), List.mem_singleton] at ha
  exact ha ▸ hmembers m (by rwa [ht.atoms_eq hid])

theorem applyIsA_of_not_union (h : ∀ members, t.kind id ≠ .union members) : applyIsA t id target =
    (if t.isSubtype id target then some id else if t.isSubtype target id then
      some target else none, t) := by
  unfold applyIsA
  split
  · exact absurd ‹_› (h _)
  · split
    · rfl
    · split <;> rfl

/-- Of a union those members stay that are what is compared with. -/
theorem endures_applyIsA_union {members : List TypeId} (hs : t.Solid) (hid : id.index < t.size)
    (hk : t.kind id = .union members) (ht : (applyIsA t id target).2.Precedes t')
    (htarget : ¬ t'.Included target) (hmembers : ∀ m ∈ t'.atoms id, ¬ t'.Included m) :
    Endures (applyIsA · id target) t t' := by
  have hat : applyIsA t id target = t.join (members.filter fun m => t.isSubtype m target) := by
    simp only [applyIsA, hk]
  have hids : ∀ m ∈ members.filter fun m => t.isSubtype m target, m.index < t.size := fun m hm =>
    hs.toClosed.member_lt hk (List.mem_filter.mp hm).1
  rw [hat] at ht
  have hprecedes : t.Precedes t' := (growsTo_join ..).precedes.trans ht
  have hfilter : members.filter (fun m => t'.isSubtype m target) = members.filter fun m =>
      t.isSubtype m target :=
    List.filter_congr fun m hm => hprecedes.isSubtype_eq hs.toClosed
      (hs.toClosed.member_lt hk hm) htarget
  have hjoin := endures_join hs hids ht.toKeepsKinds fun m hm =>
    members_of_members hs hprecedes.toKeepsKinds hid hk hmembers m (List.mem_filter.mp hm).1
  refine ⟨?_, fun a ha => hjoin.members a (hat ▸ ha)⟩
  simp only [applyIsA, hprecedes.kind_eq id hid, hk, hfilter]
  exact hjoin.same

theorem endures_applyIsA (hs : t.Solid) (hid : id.index < t.size) (htarget : target.index < t.size)
    (ht : (applyIsA t id target).2.Precedes t') (hunshared : t'.Unshared target)
    (hmembers : ∀ m ∈ t'.atoms id, ¬ t'.Included m) : Endures (applyIsA · id target) t t' := by
  by_cases hu : ∃ members, t.kind id = .union members
  · obtain ⟨members, hk⟩ := hu
    exact endures_applyIsA_union hs hid hk ht hunshared.type hmembers
  · have hne : ∀ members, t.kind id ≠ .union members := fun members hk => hu ⟨members, hk⟩
    have hat : applyIsA t id target = _ := applyIsA_of_not_union hne
    rw [hat] at ht
    have hprecedes : t.Precedes t' := ht
    have hself : ¬ t'.Included id :=
      hmembers id <| by
        rw [hprecedes.toKeepsKinds.atoms_eq hid, atoms_of_not_union hne]
        exact List.mem_singleton_self _
    refine ⟨?_, fun a ha => ?_⟩
    · rw [hat, applyIsA_of_not_union (by rwa [hprecedes.kind_eq id hid]),
        hprecedes.isSubtype_eq hs.toClosed hid hunshared.type,
          hprecedes.isSubtype_eq hs.toClosed htarget hself]
    · rw [hat] at ha
      dsimp only at ha
      split at ha
      · cases ha; exact hmembers
      · split at ha
        · cases ha; exact hunshared.members
        · cases ha

theorem endures_applyNotNil (hs : t.Solid) (hid : id.index < t.size)
    (ht : (applyNotNil t id).2.Precedes t') (hmembers : ∀ m ∈ t'.atoms id, ¬ t'.Included m) :
    Endures (applyNotNil · id) t t' := by
  refine ⟨(lasts_applyNotNil hs.toClosed hid).2 t' ht.toKeepsKinds, fun a ha => ?_⟩
  have hprecedes : t.KeepsKinds t' :=
    (lasts_applyNotNil hs.toClosed hid).1.keepsKinds.trans ht.toKeepsKinds
  revert ht ha
  unfold applyNotNil
  split
  · rename_i members hk
    intro ht ha
    refine (endures_join hs
      (fun m hm => hs.toClosed.member_lt hk (List.mem_filter.mp hm).1) ht.toKeepsKinds
      fun m hm => ?_).members a ha
    exact members_of_members hs hprecedes hid hk hmembers m (List.mem_filter.mp hm).1
  · intro _ ha
    split at ha <;> cases ha
    exact hmembers

mutual

/-- By recursion on the narrowing: what one part leaves, the next one narrows. -/
theorem endures_apply (f : Narrowing) : ∀ {t : Types} {id : TypeId}, t.Solid → id.index < t.size →
    (∀ target ∈ f.targets, target.index < t.size) → (f.apply t id).2.Precedes t' →
    (∀ target ∈ f.targets, t'.Unshared target) → (∀ m ∈ t'.atoms id, ¬ t'.Included m) →
      Endures (apply · id f) t t' := by
  intro t id hs hid hlt ht hunshared hmembers
  match f with
  | .notNil => exact endures_applyNotNil hs hid ht hmembers
  | .isA target =>
    exact endures_applyIsA hs hid (hlt target (List.mem_singleton_self _)) ht
      (hunshared target (List.mem_singleton_self _)) hmembers
  | .all parts => exact endures_applyAll parts hs hid hlt ht hunshared hmembers

theorem endures_applyAll (fs : List Narrowing) :
    ∀ {t : Types} {id : TypeId}, t.Solid → id.index < t.size →
    (∀ target ∈ targetsAll fs, target.index < t.size) → (applyAll t id fs).2.Precedes t' →
    (∀ target ∈ targetsAll fs, t'.Unshared target) → (∀ m ∈ t'.atoms id, ¬ t'.Included m) →
    Endures (applyAll · id fs) t t' := by
  intro t id hs hid hlt ht hunshared hmembers
  match fs with
  | [] => exact ⟨rfl, fun a ha => by cases ha; exact hmembers⟩
  | f :: rest =>
    obtain ⟨hf, hrest⟩ := List.forall_mem_append.mp hlt
    obtain ⟨huf, hurest⟩ := List.forall_mem_append.mp hunshared
    have hgrows := growsTo_apply f t id
    have hheld := held_apply f hs hid
    rcases hr : f.apply t id with ⟨_ | narrowed, t₁⟩ <;> rw [hr] at hheld hgrows
    · have hat : applyAll t id (f :: rest) = (none, t₁) := by rw [applyAll, hr]
      rw [hat] at ht
      have hfirst := endures_apply f hs hid hf (by rw [hr]; exact ht) huf hmembers
      refine ⟨?_, fun a ha => ?_⟩
      · rw [hat, applyAll, hfirst.same, hr]
      · rw [hat] at ha
        cases ha
    · have hat : applyAll t id (f :: rest) = applyAll t₁ narrowed rest := by rw [applyAll, hr]
      rw [hat] at ht
      have hlast : t₁.Precedes t' := (growsTo_applyAll ..).precedes.trans ht
      have hfirst := endures_apply f hs hid hf (by rw [hr]; exact hlast) huf hmembers
      have hafter := endures_applyAll rest hheld.solid (hheld.lt narrowed rfl)
        (fun target h => hgrows.lt (hrest target h)) ht hurest
        (hfirst.members narrowed (by rw [hr]))
      refine ⟨?_, fun a ha => hafter.members a (hat ▸ ha)⟩
      rw [hat, applyAll, hfirst.same, hr]
      exact hafter.same

end

end Narrowing

end TypeFlow

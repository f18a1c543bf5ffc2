import TypeFlow.Proofs.Types.Built
import TypeFlow.Proofs.Types.Subtyping

/-!
# Earlier tables

`t.Precedes t'`: the table `t` may have become `t'`. Types keep their kinds, and a type includes
what it included, with further modules after that. An answer `Lasts` when every later table gives it
again; a declaration may change what is a subtype of what, so that joins, pointers and metaclasses
last, and of the narrowings those that compare with no type.
-/

namespace TypeFlow

namespace Types
variable {t t' t'' : Types} {id : TypeId} {f : TypeEntry → TypeEntry}

structure Precedes (t t' : Types) : Prop extends t.KeepsKinds t' where
  includes : ∀ id, (t.get id).includes <+: (t'.get id).includes

theorem Precedes.refl (t : Types) : t.Precedes t := ⟨.refl t, fun _ => List.prefix_rfl⟩

theorem Precedes.trans (h : t.Precedes t') (h' : t'.Precedes t'') : t.Precedes t'' :=
  ⟨h.toKeepsKinds.trans h'.toKeepsKinds, fun id => (h.includes id).trans (h'.includes id)⟩

theorem GrowsTo.precedes (h : t.GrowsTo t') : t.Precedes t' := by
  refine ⟨h.keepsKinds, fun id => ?_⟩
  rw [h.declared_eq TypeEntry.includes (fun _ => rfl) fun _ _ _ => rfl]

theorem precedes_modify (hf : TypeEntry.Extends f) (hi : ∀ e, e.includes <+: (f e).includes)
    (t : Types) (id : TypeId) : t.Precedes (t.modify id f hf) := by
  refine ⟨keepsKinds_modify hf t id, fun other => ?_⟩
  rw [get_modify]; split
  · rename_i heq; rw [heq.1]; exact hi _
  · exact List.prefix_rfl

theorem precedes_setName (t : Types) (owner : TypeId) (name : String) (entry : Named) :
    t.Precedes (t.setName owner name entry) := by
  refine precedes_modify _ ?_ t owner
  exact fun _ => List.prefix_rfl

/-! ### Answers that last -/

theorem KeepsKinds.lt (h : t.KeepsKinds t') (hid : id.index < t.size) : id.index < t'.size :=
  Nat.lt_of_lt_of_le hid h.size_le

/-- `f` adds to the table at most, and in every table that comes after the one it leaves it gives
the same answer and adds nothing. -/
def Lasts {α : Type} (f : Types → α × Types) (t : Types) : Prop :=
  t.GrowsTo (f t).2 ∧ ∀ t', (f t).2.KeepsKinds t' → f t' = ((f t).1, t')

theorem lasts_pure {α : Type} (a : α) : Lasts (fun t => (a, t)) t := ⟨.refl t, fun _ _ => rfl⟩

theorem Lasts.congr {α : Type} {f g : Types → α × Types} (h : Lasts f t)
    (hg : ∀ t', t.KeepsKinds t' → g t' = f t') : Lasts g t := by
  have heq := hg t (.refl t)
  refine ⟨by rw [heq]; exact h.1, fun t' ht' => ?_⟩
  rw [heq] at ht' ⊢
  rw [hg t' (h.1.keepsKinds.trans ht')]
  exact h.2 t' ht'

theorem lasts_pointerTo (t : Types) (id : TypeId) : Lasts (·.pointerTo id) t :=
  ⟨growsTo_apply t .pointer [id], fun _ h => h.toRemembers.apply_eq⟩

theorem lasts_metaclassOf (hid : id.index < t.size) : Lasts (·.metaclassOf id) t :=
  ⟨growsTo_metaclassOf t id, fun _ h => h.toRemembers.metaclassOf_eq hid⟩

theorem lasts_join {ids : List TypeId} (hids : ∀ id ∈ ids, id.index < t.size) :
    Lasts (·.join ids) t := by
  refine ⟨growsTo_join t ids, fun t' h => ?_⟩
  have hatoms := ((growsTo_join t ids).keepsKinds.trans h).flatMap_atoms_eq hids
  revert h
  simp only [join, hatoms]
  split
  · exact fun _ => rfl
  · exact fun _ => rfl
  · intro h; simp only [h.toRemembers.unionOf_eq]

/-- An answer that is made of another one. -/
theorem Lasts.andThen {f g : Types → Option TypeId × Types}
    (next : TypeId → Types → Option TypeId × Types) (h : Lasts f t)
    (hnext : ∀ a, (f t).1 = some a → Lasts (next a) (f t).2)
    (hnone : ∀ t', f t' = (none, (f t').2) → g t' = (none, (f t').2))
    (hsome : ∀ t' a, f t' = (some a, (f t').2) → g t' = next a (f t').2) : Lasts g t := by
  cases hr : (f t).1 with
  | none =>
    have heq : g t = (none, (f t).2) := hnone t (by rw [← hr])
    refine ⟨by rw [heq]; exact h.1, fun t' ht' => ?_⟩
    rw [heq] at ht' ⊢
    have hlast := h.2 t' ht'
    rw [hnone t' (by rw [hlast, hr]), hlast]
  | some a =>
    have hn := hnext a hr
    have heq : g t = next a (f t).2 := hsome t a (by rw [← hr])
    refine ⟨by rw [heq]; exact h.1.trans hn.1, fun t' ht' => ?_⟩
    rw [heq] at ht' ⊢
    have hlast := h.2 t' (hn.1.keepsKinds.trans ht')
    rw [hsome t' a (by rw [hlast, hr]), hlast]
    exact hn.2 t' ht'

/-! ### Tables that answers leave -/

/-- A closed table whose unions are canonical. -/
structure Solid (t : Types) : Prop extends t.Closed, t.Lawful

theorem solid_initial : initial.Solid := ⟨closed_initial, lawful_initial⟩

namespace Solid

theorem gains {name : String} {container : Option TypeId} {kind : TypeKind} (h : t.Solid)
    (hg : t.Gains name container kind t') (hk : ∀ m ∈ kind.mentions, m.index < t.size)
    (hu : kind.isUnion = false) : t'.Solid :=
  ⟨h.toClosed.gains hg hk, h.toLawful.gains hg hu⟩

theorem apply {generic : TypeId} {args : List TypeId} (h : t.Solid)
    (hgeneric : generic.index < t.size) (hargs : ∀ a ∈ args, a.index < t.size) :
    (t.apply generic args).2.Solid where
  toClosed := h.toClosed.apply fun m hm => (List.mem_cons.mp hm).elim (· ▸ hgeneric) (hargs m)
  toLawful := h.toLawful.apply generic args

theorem pointerTo (h : t.Solid) (hid : id.index < t.size) : (t.pointerTo id).2.Solid :=
  h.apply (Nat.lt_trans (by decide) h.toClosed.builtins) fun a ha => by
    rwa [List.mem_singleton.mp ha]

theorem metaclassOf (h : t.Solid) (hid : id.index < t.size) : (t.metaclassOf id).2.Solid :=
  ⟨h.toClosed.metaclassOf hid, h.toLawful.metaclassOf id⟩

theorem join {ids : List TypeId} (h : t.Solid) (hids : ∀ id ∈ ids, id.index < t.size) :
    (t.join ids).2.Solid :=
  ⟨h.toClosed.join hids, h.toLawful.join hids⟩

end Solid

end Types

/-! ### Narrowings -/

namespace Narrowing
open TypeFlow.Types

variable {t : Types} {id target : TypeId}

theorem lasts_applyNotNil (hc : t.Closed) (hid : id.index < t.size) :
    Lasts (applyNotNil · id) t := by
  by_cases hu : ∃ members, t.kind id = .union members
  · obtain ⟨members, hk⟩ := hu
    have hjoin : Lasts (·.join (members.filter (· ≠ TypeId.nil))) t :=
      lasts_join fun m hm => hc.member_lt hk (List.mem_filter.mp hm).1
    refine hjoin.congr fun t' ht' => ?_
    simp only [applyNotNil, ht'.kind_eq id hid, hk]
  · refine (lasts_pure (if id = .nil then none else some id)).congr fun t' ht' => ?_
    unfold applyNotNil
    rw [ht'.kind_eq id hid]
    split
    · exact absurd ⟨_, ‹_›⟩ hu
    · split <;> rfl

mutual

/-- A narrowing that compares with no type gives the same answer whatever is declared later. -/
theorem lasts_apply (f : Narrowing) : ∀ {t : Types} {id : TypeId}, t.Closed → id.index < t.size →
    f.targets = [] → Lasts (apply · id f) t := by
  intro t id hc hid hf
  match f with
  | .notNil => exact lasts_applyNotNil hc hid
  | .isA target => cases hf
  | .all parts => exact lasts_applyAll parts hc hid hf

theorem lasts_applyAll (fs : List Narrowing) :
    ∀ {t : Types} {id : TypeId}, t.Closed → id.index < t.size →
    targetsAll fs = [] → Lasts (applyAll · id fs) t := by
  intro t id hc hid hf
  match fs with
  | [] => exact lasts_pure (some id)
  | f :: rest =>
    obtain ⟨hf, hrest⟩ := List.append_eq_nil_iff.mp hf
    have hn := narrows_apply f hc hid (by simp [hf])
    refine (lasts_apply f hc hid hf).andThen (fun a t => applyAll t a rest) (fun a ha => ?_)
      (fun t' h' => by rw [applyAll, h']) (fun t' a h' => by rw [applyAll, h'])
    exact lasts_applyAll rest hn.closed (hn.lt a ha) hrest

end

/-! ### Narrowed types are there -/

/-- The answer is a type of the table that is left, which is solid. -/
structure Held (r : Option TypeId × Types) : Prop where
  solid : r.2.Solid
  lt : ∀ id, r.1 = some id → id.index < r.2.size

theorem held_join {ids : List TypeId} (hs : t.Solid) (hids : ∀ id ∈ ids, id.index < t.size) :
    Held (t.join ids) :=
  ⟨hs.join hids, fun _ h => hs.toClosed.join_lt hids h⟩

theorem held_some (hs : t.Solid) (hid : id.index < t.size) : Held (some id, t) :=
  ⟨hs, fun _ h => by cases h; exact hid⟩

theorem held_none (hs : t.Solid) : Held (none, t) := ⟨hs, fun _ h => nomatch h⟩

/-- What is no type of the table is a subtype of nothing else. -/
theorem lt_of_isSubtype {of : TypeId} (h : t.isSubtype id of = true) (hne : id ≠ of) :
    id.index < t.size := by
  by_contra hle
  have hle : t.size ≤ id.index := Nat.le_of_not_lt hle
  have hancestors : t.ancestors id = [] := by
    unfold ancestors
    cases t.size <;> simp [ancestorsWithin, superclass_of_le hle]
  have hincludes : t.includes id of = false := by
    unfold includes
    cases t.size <;> simp [includesWithin, inclusions_of_le hle]
  have hbeq : (id == of) = false := beq_false_of_ne hne
  unfold isSubtype isAtomSubtype at h
  rw [kind_of_le hle] at h
  simp [hbeq, hancestors, hincludes] at h

/-- Whatever it compares with, a narrowing answers a type of the table. -/
theorem held_applyIsA (hs : t.Solid) (hid : id.index < t.size) : Held (applyIsA t id target) := by
  unfold applyIsA
  split
  · exact held_join hs fun m hm => hs.toClosed.member_lt ‹_› (List.mem_filter.mp hm).1
  · split
    · exact held_some hs hid
    · rename_i hnot
      split
      · rename_i hsub
        refine held_some hs (lt_of_isSubtype hsub ?_)
        rintro rfl
        exact hnot hsub
      · exact held_none hs

theorem held_applyNotNil (hs : t.Solid) (hid : id.index < t.size) : Held (applyNotNil t id) := by
  unfold applyNotNil
  split
  · exact held_join hs fun m hm => hs.toClosed.member_lt ‹_› (List.mem_filter.mp hm).1
  · split
    · exact held_none hs
    · exact held_some hs hid

mutual

theorem held_apply (f : Narrowing) : ∀ {t : Types} {id : TypeId}, t.Solid → id.index < t.size →
    Held (f.apply t id) := by
  intro t id hs hid
  match f with
  | .notNil => exact held_applyNotNil hs hid
  | .isA target => exact held_applyIsA hs hid
  | .all parts => exact held_applyAll parts hs hid

theorem held_applyAll (fs : List Narrowing) :
    ∀ {t : Types} {id : TypeId}, t.Solid → id.index < t.size →
    Held (applyAll t id fs) := by
  intro t id hs hid
  match fs with
  | [] => exact held_some hs hid
  | f :: rest =>
    have h := held_apply f hs hid
    rw [applyAll]
    rcases hr : f.apply t id with ⟨_ | narrowed, t'⟩ <;> rw [hr] at h
    · exact h
    · exact held_applyAll rest h.solid (h.lt narrowed rfl)

end

end Narrowing

end TypeFlow

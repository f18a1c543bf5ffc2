import Mathlib.Logic.Relation
import TypeFlow.Proofs.Types.Canonical
import TypeFlow.Proofs.Types.Kinds
import TypeFlow.Types.Ancestry

/-!
# Tables that are built

A table is `Built` when operations on types lead to it from the initial one: joins, metaclasses,
instances of generic classes, pointers, inclusions, declarations of named types and whatever else is
declared inside a type. Every operation leaves the kinds of the types that are there as they are and
keeps the table canonical, so that a join is known by the set of its members for good
(`Built.join_canonical`): what order the types come in, how often, and which of them have been
joined before makes no difference, and neither does anything that happens to the table in between.
-/

namespace TypeFlow

/-- The kinds of the types that have a name of their own and are declared with it. -/
def TypeKind.isDeclared : TypeKind → Bool
  | .classType _ | .moduleType _ | .lib _ | .alias _ | .cStruct _ | .cUnion _ | .cEnum _ => true
  | .program | .applied _ _ | .union _ | .metaclass _ | .noReturn => false

theorem TypeKind.isUnion_of_isDeclared {kind : TypeKind} (h : kind.isDeclared = true) :
    kind.isUnion = false := by
  cases kind <;> simp_all [TypeKind.isDeclared, TypeKind.isUnion]

namespace Types
variable {t t' t'' : Types} {id : TypeId} {ids : List TypeId}

inductive Operation (t : Types) : Types → Prop where
  | join {ids : List TypeId} : (∀ id ∈ ids, id.index < t.size) → Operation t (t.join ids).2
  | metaclassOf (id : TypeId) : Operation t (t.metaclassOf id).2
  | applyGeneric {generic type : TypeId} {args : List TypeId} {t' : Types} :
      t.applyGeneric generic args = .ok (type, t') → Operation t t'
  | pointerTo (id : TypeId) : Operation t (t.pointerTo id).2
  | includeModule (owner : TypeId) (inclusion : Inclusion) : Operation t
      (t.includeModule owner inclusion)
  | declare (container : TypeId) (name : String) {kind : TypeKind} :
      kind.isDeclared = true → Operation t (t.declare container name kind).2
  /-- Methods, macros, constants, functions and instance variables of a type. -/
  | extend (owner : TypeId) {f : TypeEntry → TypeEntry} (hf : TypeEntry.Extends f) :
      Operation t (t.modify owner f hf)

abbrev Operations : Types → Types → Prop := Relation.ReflTransGen Operation

def Built (t : Types) : Prop := Operations initial t

/-! ### What operations keep -/

theorem Operation.keepsKinds (h : Operation t t') : t.KeepsKinds t' := by
  cases h with
  | join => exact (growsTo_join t _).keepsKinds
  | metaclassOf id => exact (growsTo_metaclassOf t id).keepsKinds
  | @applyGeneric generic type args _ h =>
    rw [show t' = (t.apply generic args).2 from congrArg Prod.snd (eq_apply_of_applyGeneric h)]
    exact (growsTo_apply t generic args).keepsKinds
  | pointerTo id => exact (settles_pointerTo t id).1.keepsKinds
  | includeModule owner => exact keepsKinds_modify _ t owner
  | declare container name => exact keepsKinds_declare t container name _
  | extend owner hf => exact keepsKinds_modify hf t owner

theorem Operations.keepsKinds (h : Operations t t') : t.KeepsKinds t' := by
  induction h with
  | refl => exact .refl t
  | tail _ h ih => exact ih.trans h.keepsKinds

/-- What the laws of joins rest on. -/
structure Lawful (t : Types) : Prop where
  canonical : t.Canonical
  held : t.MembersHeld

theorem lawful_initial : initial.Lawful := ⟨canonical_initial, closed_initial.membersHeld⟩

namespace Lawful

theorem gains {name : String} {container : Option TypeId} {kind : TypeKind} (h : t.Lawful)
    (hg : t.Gains name container kind t') (hk : kind.isUnion = false) : t'.Lawful where
  canonical := h.canonical.gains_of_not_union h.held hg hk
  held := h.held.gains hg fun members hu => by rw [hu] at hk; cases hk

theorem apply (h : t.Lawful) (generic : TypeId) (args : List TypeId) :
    (t.apply generic args).2.Lawful :=
  (interns_apply t generic args).preserves h fun _ hg => h.gains hg rfl

theorem metaclassOf (h : t.Lawful) (id : TypeId) : (t.metaclassOf id).2.Lawful :=
  metaclassOf_preserves h fun _ hg => h.gains hg rfl

theorem join (h : t.Lawful) (hids : ∀ id ∈ ids, id.index < t.size) : (t.join ids).2.Lawful :=
  ⟨h.canonical.join h.held hids, h.held.join hids⟩

/-- Changes inside of entries leave their kinds, and what is remembered, as they are. -/
theorem modify {f : TypeEntry → TypeEntry} (h : t.Lawful) (hf : TypeEntry.Extends f)
    (owner : TypeId) : (t.modify owner f hf).Lawful := by
  have hk : ∀ id, (t.modify owner f hf).kind id = t.kind id := kind_modify hf t owner
  obtain ⟨⟨hnr, hinc, htwo, hnot, hflat, hcached⟩, hb, hlt⟩ := h
  refine ⟨⟨?_, ?_, ?_, ?_, ?_, fun id members h => ?_⟩, ?_, ?_⟩
  case refine_6 => rw [hk] at h; exact hcached id members h
  all_goals simpa only [hk, size_modify]

theorem setName (h : t.Lawful) (owner : TypeId) (name : String) (entry : Named) :
    (t.setName owner name entry).Lawful :=
  h.modify _ owner

end Lawful

theorem Operation.lawful (h : Operation t t') (ht : t.Lawful) : t'.Lawful := by
  cases h with
  | join hids => exact ht.join hids
  | metaclassOf id => exact ht.metaclassOf id
  | @applyGeneric generic type args _ h =>
    rw [show t' = (t.apply generic args).2 from congrArg Prod.snd (eq_apply_of_applyGeneric h)]
    exact ht.apply generic args
  | pointerTo id => exact ht.apply .pointer [id]
  | includeModule owner => exact ht.modify _ owner
  | @declare container name kind hk =>
    have hg := gains_push t name (some container) kind
    exact (ht.gains hg (TypeKind.isUnion_of_isDeclared hk)).setName container name _
  | extend owner => exact ht.modify _ owner

theorem Operations.lawful (h : Operations t t') (ht : t.Lawful) : t'.Lawful := by
  induction h with
  | refl => exact ht
  | tail _ h ih => exact h.lawful ih

theorem Built.lawful (h : t.Built) : t.Lawful := Operations.lawful h lawful_initial

/-! ### Joins -/

/-- The types that make up the join: what the joined types are made of, and `NoReturn` only where
there is nothing else. -/
def IsMember (t : Types) (ids : List TypeId) (a : TypeId) : Prop :=
  (∃ id ∈ ids, a ∈ t.atoms id) ∧ (a ≠ .noReturn ∨ ∀ id ∈ ids, ∀ b ∈ t.atoms id, b = .noReturn)

/-- Joins the lists, one after the other. -/
def joinEach (t : Types) : List (List TypeId) → List TypeId × Types
  | [] => ([], t)
  | ids :: rest =>
    ((t.join ids).1.toList ++ ((t.join ids).2.joinEach rest).1, ((t.join ids).2.joinEach rest).2)

theorem isMember_iff {a : TypeId} :
    t.IsMember ids a ↔ a ∈ canonicalMembers (ids.flatMap t.atoms) := by
  simp only [IsMember, mem_canonicalMembers, List.mem_flatMap, forall_exists_index, and_imp]
  exact and_congr_right fun _ =>
    or_congr_right ⟨fun h b id hid => h id hid b, fun h id hid b => h b id hid⟩

theorem KeepsKinds.atoms_eq (h : t.KeepsKinds t') (hid : id.index < t.size) :
    t'.atoms id = t.atoms id := by
  rw [atoms, atoms, h.kind_eq id hid]

theorem KeepsKinds.flatMap_atoms_eq (h : t.KeepsKinds t') (hids : ∀ id ∈ ids, id.index < t.size) :
    ids.flatMap t'.atoms = ids.flatMap t.atoms :=
  congrArg List.flatten (List.map_congr_left fun id hid => h.atoms_eq (hids id hid))

theorem join_congr {ids' : List TypeId}
    (h : canonicalMembers (ids.flatMap t.atoms) = canonicalMembers (ids'.flatMap t.atoms)) :
    t.join ids = t.join ids' := by
  rw [Types.join, Types.join, h]

theorem Lawful.atoms_join_of_operations (h : t.Lawful) (hids : ∀ id ∈ ids, id.index < t.size)
    (hops : Operations (t.join ids).2 t') {u : TypeId} (hu : (t.join ids).1 = some u) :
    t'.atoms u = canonicalMembers (ids.flatMap t.atoms) :=
  (hops.keepsKinds.atoms_eq (h.held.join_lt hids hu)).trans (h.canonical.atoms_join hu)

/-- The joins of lists have the members of the lists. -/
theorem Lawful.atoms_joinEach (h : t.Lawful) {idss : List (List TypeId)}
    (hids : ∀ ids ∈ idss, ∀ id ∈ ids, id.index < t.size)
    (hops : Operations (t.joinEach idss).2 t') : Operations t (t.joinEach idss).2 ∧
      (t.joinEach idss).1.flatMap t'.atoms = (idss.map fun ids => ids.flatMap t.atoms).flatMap
        canonicalMembers := by
  induction idss generalizing t with
  | nil => exact ⟨.refl, rfl⟩
  | cons ids rest ih =>
    have hids' := hids ids List.mem_cons_self
    have hop : Operation t (t.join ids).2 := .join hids'
    have hkeeps := hop.keepsKinds
    have hrest : ∀ ids' ∈ rest, ∀ id ∈ ids', id.index < t.size :=
      fun ids' h => hids ids' (List.mem_cons_of_mem _ h)
    obtain ⟨hops', hatoms⟩ := ih (h.join hids')
      (fun ids' hi id hid => Nat.lt_of_lt_of_le (hrest ids' hi id hid) hkeeps.size_le) hops
    refine ⟨.head hop hops', ?_⟩
    have hfirst : (t.join ids).1.toList.flatMap t'.atoms = canonicalMembers
        (ids.flatMap t.atoms) := by
      cases hj : (t.join ids).1 with
      | none => rw [h.canonical.join_eq_none_iff.mp hj]; rfl
      | some u => simpa using h.atoms_join_of_operations hids' (hops'.trans hops) hj
    rw [joinEach, List.flatMap_append, hfirst, hatoms, List.map_cons, List.flatMap_cons]
    congr 2
    exact List.map_congr_left fun ids' hi => hkeeps.flatMap_atoms_eq (hrest ids' hi)

/-- A join of joins is the join of everything that was joined. -/
theorem Lawful.join_joinEach (h : t.Lawful) {idss : List (List TypeId)}
    (hids : ∀ ids ∈ idss, ∀ id ∈ ids, id.index < t.size)
    (hops : Operations (t.joinEach idss).2 t') :
    t'.join (t.joinEach idss).1 = t'.join idss.flatten := by
  obtain ⟨hops', hatoms⟩ := h.atoms_joinEach hids hops
  have hkeeps := Operations.keepsKinds (hops'.trans hops)
  have hall : ∀ id ∈ idss.flatten, id.index < t.size := fun id hid => by
    obtain ⟨ids, hi, hid⟩ := List.mem_flatten.mp hid
    exact hids ids hi id hid
  refine join_congr ?_
  rw [hatoms, canonicalMembers_flatMap, hkeeps.flatMap_atoms_eq hall,
    ← List.flatMap_def, ← List.flatMap_id,
    List.flatMap_assoc]
  rfl

theorem get_join (hid : id.index < t.size) : (t.join ids).2.get id = t.get id := by
  unfold join; split
  · rfl
  · rfl
  · exact get_unionOf hid

/-- A join is known by its members, which are those of the joined types in increasing order, and the
table remembers it by them, as it does every union that it has. -/
theorem Built.join_canonical (h : t.Built) (hne : ids ≠ []) (hids : ∀ id ∈ ids, id.index < t.size) :
    ∃ u, (t.join ids).1 = some u ∧ u.index < (t.join ids).2.size ∧
      Increasing ((t.join ids).2.atoms u) ∧
      (∀ a, a ∈ (t.join ids).2.atoms u ↔ t.IsMember ids a) ∧
      (∀ a ∈ (t.join ids).2.atoms u, ∀ members, (t.join ids).2.kind a ≠ .union members) ∧
      (∀ t' ids', Operations (t.join ids).2 t' → (∀ id ∈ ids', id.index < t'.size) →
        (∀ a, t'.IsMember ids' a ↔ t.IsMember ids a) → t'.join ids' = (some u, t')) ∧
      (∀ idss t', idss.flatten = ids → Operations (t.joinEach idss).2 t' →
        t'.join (t.joinEach idss).1 = t'.join ids) ∧
      (∀ members v, (t.join ids).2.unions.get? members = some v ↔
        (t.join ids).2.kind v = .union members) ∧
      ∀ id : TypeId, id.index < t.size → (t.join ids).2.get id = t.get id := by
  have ht := h.lawful
  obtain ⟨u, hu⟩ :=
    Option.ne_none_iff_exists'.mp fun hnone => hne (ht.canonical.join_eq_none_iff.mp hnone)
  have hjoin := ht.join hids
  have hatoms := ht.canonical.atoms_join hu
  refine ⟨u, hu, ht.held.join_lt hids hu, hjoin.canonical.increasing_atoms u, fun a => ?_,
    fun a ha => hjoin.canonical.not_union_of_mem_atoms ha, fun t' ids' hops hids' hmem => ?_,
    fun idss t' hflat hops => ?_, fun members v => hjoin.canonical.unions_iff, fun id => get_join⟩
  · rw [hatoms, isMember_iff]
  · have hatoms' := ht.atoms_join_of_operations hids hops hu
    refine (hops.lawful hjoin).canonical.join_eq ?_
    rw [hatoms']
    exact canonicalMembers_eq_iff.mpr fun a => by rw [← isMember_iff, ← isMember_iff, hmem]
  · subst hflat
    exact ht.join_joinEach (fun ids hi id hid => hids id (List.mem_flatten.mpr ⟨ids, hi, hid⟩)) hops

/-- The initial table with a class `Foo` and the join of `Int32` and `Nil`. -/
def withFoo : Types :=
  ((initial.declare .program "Foo" (plainClass .reference)).2.join [.int32, .nil]).2

/-- That join, `NoReturn` and `Foo`. -/
def mixed : List TypeId := [⟨25⟩, .noReturn, ⟨24⟩]

theorem built_withFoo : withFoo.Built := by
  have hdeclare : Operations initial (initial.declare .program "Foo" (plainClass .reference)).2 :=
    .single (.declare .program "Foo" rfl)
  exact hdeclare.tail (.join (by decide +kernel))

/-- The join is found again after `Foo` has got a metaclass, from other types and in another
order. -/
theorem Built.join_canonical_mixed :
    withFoo.Built ∧ mixed ≠ [] ∧ (∀ id ∈ mixed, id.index < withFoo.size) ∧
    ∃ u, (withFoo.join mixed).1 = some u ∧
      (∀ a, a ∈ (withFoo.join mixed).2.atoms u ↔ withFoo.IsMember mixed a) ∧
      (((withFoo.join mixed).2.metaclassOf ⟨24⟩).2.join [⟨24⟩, .nil, .int32, .nil]).1 = some u := by
  have hne : mixed ≠ [] := List.cons_ne_nil _ _
  have hlt : ∀ id ∈ mixed, id.index < withFoo.size := by decide +kernel
  obtain ⟨u, hu, -, -, hmem, -, hagain, -⟩ := built_withFoo.join_canonical hne hlt
  have hsame : canonicalMembers ([⟨24⟩, .nil, .int32, .nil].flatMap
        ((withFoo.join mixed).2.metaclassOf ⟨24⟩).2.atoms) =
      canonicalMembers (mixed.flatMap withFoo.atoms) := by decide +kernel
  refine ⟨built_withFoo, hne, hlt, u, hu, hmem, ?_⟩
  rw [hagain _ [⟨24⟩, .nil, .int32, .nil] (.single (.metaclassOf ⟨24⟩))
    (by decide +kernel) fun a => ?_]
  rw [isMember_iff, isMember_iff, hsame]

end Types

end TypeFlow

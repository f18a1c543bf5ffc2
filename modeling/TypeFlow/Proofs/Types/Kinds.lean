import TypeFlow.Proofs.Types.Growth

/-!
# Declaring keeps kinds

Unlike what is interned, a declaration changes entries that are there. It leaves them their kinds
and metaclasses, though, and what is known: an atom of a type stays one, and what was looked up
once is found again.
-/

namespace TypeFlow.Types

structure KeepsKinds (t t' : Types) : Prop extends t.Remembers t' where
  size_le : t.size ≤ t'.size
  kind_eq : ∀ id : TypeId, id.index < t.size → t'.kind id = t.kind id

variable {t t' t'' : Types} {id owner : TypeId} {f : TypeEntry → TypeEntry}

namespace KeepsKinds

theorem refl (t : Types) : t.KeepsKinds t := ⟨⟨fun _ _ h => h⟩, Nat.le_refl _, fun _ _ => rfl⟩

theorem trans (h : t.KeepsKinds t') (h' : t'.KeepsKinds t'') : t.KeepsKinds t'' :=
  ⟨⟨fun kind id hk => h'.known kind id (h.known kind id hk)⟩, Nat.le_trans h.size_le h'.size_le,
    fun id hid => (h'.kind_eq id (Nat.lt_of_lt_of_le hid h.size_le)).trans (h.kind_eq id hid)⟩

theorem mem_atoms {a : TypeId} (h : t.KeepsKinds t') (ha : a.index < t.size) (hm : a ∈ t.atoms id) :
    a ∈ t'.atoms id := by
  rcases Nat.lt_or_ge id.index t.size with hid | hid
  · rwa [atoms, h.kind_eq id hid]
  · -- beyond the table a type is its only atom
    have hk := kind_of_le hid
    rw [atoms, hk, List.mem_singleton] at hm
    subst hm
    exact absurd ha (Nat.not_lt.mpr hid)

end KeepsKinds

theorem GrowsTo.keepsKinds (h : t.GrowsTo t') : t.KeepsKinds t' :=
  ⟨h.toRemembers, h.size_le, fun _ hid => h.kind_eq hid⟩

/-! ### Changes to an entry -/

@[simp] theorem size_modify (t : Types) (id : TypeId) (f : TypeEntry → TypeEntry)
    (hf : TypeEntry.Extends f) : (t.modify id f hf).size = t.size :=
  Array.size_modify

theorem get_modify (t : Types) (id other : TypeId) (f : TypeEntry → TypeEntry)
    (hf : TypeEntry.Extends f) :
    (t.modify id f hf).get other =
      if other = id ∧ id.index < t.size then f (t.get id) else t.get other :=
  getD_modify ..

theorem modify_field {β : Type} {hf : TypeEntry.Extends f} (field : TypeEntry → β)
    (hfield : ∀ e, field (f e) = field e) (id other : TypeId) :
    field ((t.modify id f hf).get other) = field (t.get other) := by
  rw [get_modify]; split
  · rename_i h; rw [hfield, h.1]
  · rfl

theorem kind_modify (hf : TypeEntry.Extends f) (t : Types) (id other : TypeId) :
    (t.modify id f hf).kind other = t.kind other :=
  modify_field TypeEntry.kind hf.kind id other

theorem keepsKinds_modify (hf : TypeEntry.Extends f) (t : Types) (id : TypeId) :
    t.KeepsKinds (t.modify id f hf) where
  toRemembers :=
    .of_eq rfl rfl fun other _ => modify_field TypeEntry.metaclass hf.metaclass id other
  size_le := Nat.le_of_eq (size_modify ..).symm
  kind_eq other _ := kind_modify hf t id other

theorem keepsKinds_push (t : Types) (name : String) (container : Option TypeId) (kind : TypeKind) :
    t.KeepsKinds (t.push name container kind).2 :=
  (growsTo_push t name container kind).keepsKinds

theorem keepsKinds_setName (t : Types) (owner : TypeId) (name : String) (entry : Named) :
    t.KeepsKinds (t.setName owner name entry) :=
  keepsKinds_modify _ t owner

theorem keepsKinds_declare (t : Types) (owner : TypeId) (name : String) (kind : TypeKind) :
    t.KeepsKinds (t.declare owner name kind).2 :=
  (keepsKinds_push t name (some owner) kind).trans (keepsKinds_setName _ owner name _)

end TypeFlow.Types

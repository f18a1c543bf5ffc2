import TypeFlow.Proofs.Types.Kinds

/-!
# Names that stay

`t.KeepsNames t'`: what a name stands for in a type, and the signature of a function, is the same in
`t'`. A table that grows keeps its names, and so does one in which a free name is given to
something.
-/

namespace TypeFlow.Types
variable {t t' t'' : Types} {owner : TypeId} {name : String} {f : TypeEntry → TypeEntry}

structure KeepsNames (t t' : Types) : Prop where
  named : ∀ owner name entry, (t.get owner).types.get? name = some entry →
    (t'.get owner).types.get? name = some entry
  signature : ∀ owner name signature, (t.get owner).funs.get? name = some signature →
    (t'.get owner).funs.get? name = some signature

/-- The name stands for nothing in the type. -/
def IsFree (t : Types) (owner : TypeId) (name : String) : Prop :=
  (t.get owner).types.get? name = none

theorem KeepsNames.refl (t : Types) : t.KeepsNames t := ⟨fun _ _ _ h => h, fun _ _ _ h => h⟩

theorem KeepsNames.trans (h : t.KeepsNames t') (h' : t'.KeepsNames t'') : t.KeepsNames t'' where
  named owner name entry hn := h'.named owner name entry (h.named owner name entry hn)
  signature owner name signature hn :=
    h'.signature owner name signature (h.signature owner name signature hn)

theorem GrowsTo.keepsNames (h : t.GrowsTo t') : t.KeepsNames t' where
  named owner name entry hn := by
    rwa [h.declared_eq TypeEntry.types (fun _ => rfl) fun _ _ _ => rfl]
  signature owner name signature hn := by
    rwa [h.declared_eq TypeEntry.funs (fun _ => rfl) fun _ _ _ => rfl]

theorem keepsNames_modify (hf : TypeEntry.Extends f) (htypes : ∀ e, (f e).types = e.types)
    (hfuns : ∀ e, (f e).funs = e.funs) (t : Types) (owner : TypeId) :
    t.KeepsNames (t.modify owner f hf) where
  named other name entry hn := by rwa [modify_field TypeEntry.types htypes]
  signature other name signature hn := by rwa [modify_field TypeEntry.funs hfuns]

/-- A free name may be given to anything after names have been kept for a while. -/
theorem KeepsNames.setName (h : t.KeepsNames t') (hfree : t.IsFree owner name) (entry : Named) :
    t.KeepsNames (t'.setName owner name entry) := by
  have hfuns : ∀ other,
      ((t'.setName owner name entry).get other).funs = (t'.get other).funs := fun other => by
    refine modify_field TypeEntry.funs ?_ owner other
    exact fun _ => rfl
  refine ⟨fun other key found hn => ?_, fun other key signature hn => ?_⟩
  · have hkept := h.named other key found hn
    rw [Types.setName, get_modify]
    split
    · rename_i hat
      obtain ⟨rfl, -⟩ := hat
      have hne : key ≠ name := fun heq => by
        rw [heq, show (t.get other).types.get? name = none from hfree] at hn
        cases hn
      rwa [OrderedMap.get?_insert_of_ne _ _ hne]
    · exact hkept
  · rw [hfuns]
    exact h.signature other key signature hn

theorem KeepsNames.declare (h : t.KeepsNames t') (hfree : t.IsFree owner name) (kind : TypeKind) :
    t.KeepsNames (t'.declare owner name kind).2 :=
  (h.trans (growsTo_push t' name (some owner) kind).keepsNames).setName hfree _

/-- A function that is declared again has the signature that it had. -/
theorem keepsNames_addFun {signature : Signature}
    (h : ∀ previous, (t.get owner).funs.get? name = some previous → previous = signature) :
    t.KeepsNames (t.addFun owner name signature) := by
  have htypes : ∀ other,
      ((t.addFun owner name signature).get other).types = (t.get other).types := fun other => by
    refine modify_field TypeEntry.types ?_ owner other
    exact fun _ => rfl
  refine ⟨fun other key found hn => by rwa [htypes], fun other key previous hn => ?_⟩
  rw [addFun, get_modify]
  split
  · rename_i hat
    obtain ⟨rfl, -⟩ := hat
    rw [OrderedMap.get?_insert]
    split
    · rename_i heq
      rw [h previous (heq ▸ hn)]
    · exact hn
  · exact hn

end TypeFlow.Types

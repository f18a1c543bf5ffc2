import TypeFlow.Proofs.Program.Changes
import TypeFlow.Proofs.Types.Named

/-!
# Registered methods

A method is found where it has been registered, and nothing but method definitions is registered:
`Program.Registers` says so of what a change adds, and it keeps `Program.MethodsOnly`. Types that
are added have no methods.

Most changes register no methods and keep all names (`Types.Respects`).
-/

namespace TypeFlow

namespace Construct
variable {α : Type} {c c' : Construct α}

def isMethodDef : Construct α → Bool
  | .methodDef .. => true
  | _ => false

theorem Shortens.isMethodDef_eq (h : c.Shortens c') : c'.isMethodDef = c.isMethodDef := by
  rcases h with rfl | ⟨items, count, rfl, rfl⟩ <;> rfl

end Construct

/-! ### Types -/

namespace Types
variable {t t' t'' : Types} {owner : TypeId} {f : TypeEntry → TypeEntry}

/-- No type gets methods. -/
def KeepsMethods (t t' : Types) : Prop :=
  ∀ owner key definition, (t'.get owner).defs.get? key = some definition →
    (t.get owner).defs.get? key = some definition

theorem KeepsMethods.refl (t : Types) : t.KeepsMethods t := fun _ _ _ h => h

theorem KeepsMethods.trans (h : t.KeepsMethods t') (h' : t'.KeepsMethods t'') :
    t.KeepsMethods t'' :=
  fun owner key definition hd => h owner key definition (h' owner key definition hd)

theorem GrowsTo.keepsMethods (h : t.GrowsTo t') : t.KeepsMethods t' := by
  intro owner key definition hd
  rwa [h.declared_eq TypeEntry.defs (fun _ => rfl) fun _ _ _ => rfl] at hd

theorem keepsMethods_modify (hf : TypeEntry.Extends f) (hdefs : ∀ e, (f e).defs = e.defs)
    (t : Types) (owner : TypeId) :
    t.KeepsMethods (t.modify owner f hf) := fun other key definition hd => by
  rwa [modify_field TypeEntry.defs hdefs] at hd

theorem keepsMethods_setName (t : Types) (owner : TypeId) (name : String) (entry : Named) :
    t.KeepsMethods (t.setName owner name entry) := by
  refine keepsMethods_modify _ ?_ t owner
  exact fun _ => rfl

theorem Act.keepsMethods (h : Act t t') : t.KeepsMethods t' := by
  intro owner key definition hd
  have hdefs : (t.get owner).defs = (t'.get owner).defs :=
    congrArg (·.1) (h.ofInstances_eq owner).symm
  rwa [hdefs]

theorem keepsMethods_of_acts (h : Relation.ReflTransGen Act t t') : t.KeepsMethods t' := by
  induction h with
  | refl => exact .refl t
  | tail _ hact ih => exact ih.trans hact.keepsMethods

/-- No type gets methods, and what is named or declared stays. -/
structure Respects (t t' : Types) : Prop where
  methods : t.KeepsMethods t'
  names : t.KeepsNames t'

theorem Respects.refl (t : Types) : t.Respects t := ⟨.refl t, .refl t⟩

theorem GrowsTo.respects (h : t.GrowsTo t') : t.Respects t' := ⟨h.keepsMethods, h.keepsNames⟩

theorem respects_modify (hf : TypeEntry.Extends f) (hdefs : ∀ e, (f e).defs = e.defs)
    (htypes : ∀ e, (f e).types = e.types) (hfuns : ∀ e, (f e).funs = e.funs) (t : Types)
    (owner : TypeId) : t.Respects (t.modify owner f hf) :=
  ⟨keepsMethods_modify hf hdefs t owner, keepsNames_modify hf htypes hfuns t owner⟩

theorem respects_addMacroDef (t : Types) (owner : TypeId) (key : MethodKey) (definition : ExprId) :
    t.Respects (t.addMacroDef owner key definition) := by
  refine respects_modify _ ?_ ?_ ?_ t owner <;> exact fun _ => rfl

theorem respects_includeModule (t : Types) (owner : TypeId) (inclusion : Inclusion) :
    t.Respects (t.includeModule owner inclusion) := by
  refine respects_modify _ ?_ ?_ ?_ t owner <;> intro e <;> split <;> rfl

/-- By induction on how far the search goes. -/
theorem exists_of_methodWithin {methods : TypeEntry → OrderedMap MethodKey ExprId} {key : MethodKey}
    {definition : ExprId} (fuel : Nat) (id : TypeId)
    (h : t.methodWithin methods key fuel id = some definition) :
    ∃ owner, (methods (t.get owner)).get? key = some definition := by
  induction fuel generalizing id with
  | zero => cases h
  | succ fuel ih =>
    rw [methodWithin] at h
    split at h
    · rename_i found hfound
      cases h
      exact ⟨id, hfound⟩
    · obtain ⟨source, -, hsource⟩ := List.exists_of_findSome?_eq_some h
      exact ih source hsource

theorem defs_initial (id : TypeId) : (initial.get id).defs = ∅ := by
  have hnone : ∀ e ∈ initial.entries.toList, e.defs = ∅ := by decide +kernel
  rcases Nat.lt_or_ge id.index initial.size with hlt | hge
  · rw [get_of_lt hlt]
    exact hnone _ (Array.mem_toList_iff.mpr (Array.getElem_mem hlt))
  · rw [get_of_le hge]; rfl

end Types

/-! ### Programs -/

namespace Program
variable {p p' : Program}

/-- What is registered is a method definition. -/
def MethodsOnly (p : Program) : Prop :=
  ∀ owner key definition, (p.types.get owner).defs.get? key = some definition →
    (p.construct definition).isMethodDef = true

/-- What has been registered since is a method definition. -/
def Registers (p p' : Program) : Prop :=
  ∀ owner key definition, (p'.types.get owner).defs.get? key = some definition →
    (p.types.get owner).defs.get? key = some definition ∨
      (p'.construct definition).isMethodDef = true

theorem registers_of_keeps (h : p.types.KeepsMethods p'.types) : p.Registers p' :=
  fun owner key definition hd => .inl (h owner key definition hd)

/-- No expression that is not there is a method definition. -/
theorem lt_of_isMethodDef {id : ExprId} (h : (p.construct id).isMethodDef = true) :
    id.index < p.exprs.size := by
  refine Nat.lt_of_not_le fun hle => ?_
  rw [construct, expr, Array.getElem?_eq_none hle] at h
  cases h

theorem Later.isMethodDef (h : p.Later p') {id : ExprId}
    (hid : (p.construct id).isMethodDef = true) : (p'.construct id).isMethodDef = true :=
  (h.construct id (lt_of_isMethodDef hid)).isMethodDef_eq.trans hid

theorem MethodsOnly.later (h : p.MethodsOnly) (hr : p.Registers p') (hlater : p.Later p') :
    p'.MethodsOnly := by
  intro owner key definition hd
  rcases hr owner key definition hd with hd | hmethod
  · exact hlater.isMethodDef (h owner key definition hd)
  · exact hmethod

theorem MethodsOnly.of_keeps (h : p.MethodsOnly) (hexprs : p'.exprs = p.exprs)
    (ht : p.types.KeepsMethods p'.types) : p'.MethodsOnly := by
  intro owner key definition hd
  rw [construct, expr, hexprs]
  exact h owner key definition (ht owner key definition hd)

theorem methodsOnly_initial : Program.initial.MethodsOnly := by
  intro owner key definition hd
  have hnone : (Program.initial.types.get owner).defs = ∅ := Types.defs_initial owner
  rw [hnone] at hd
  cases hd

/-- A method that is registered is found among those that there were, or it is the new one. -/
theorem registers_addMethod {definition : ExprId} (p : Program) (owner : TypeId) (key : MethodKey)
    (h : (p.construct definition).isMethodDef = true) :
    p.Registers (p.addMethod owner key definition) := by
  have hconstruct : (p.addMethod owner key definition).construct definition =
      p.construct definition := by
    unfold addMethod
    dsimp only
    split <;> rfl
  have hkeeps : (p.types.addMethod owner key definition).KeepsMethods
      (p.addMethod owner key definition).types := by
    unfold addMethod
    dsimp only
    split
    · refine Types.keepsMethods_modify ?_ ?_ _ owner
      · exact ⟨fun _ => rfl, fun _ => rfl⟩
      · exact fun _ => rfl
    · exact .refl _
  intro other name found hfound
  have hfound := hkeeps other name found hfound
  rw [Types.addMethod, Types.get_modify] at hfound
  split at hfound
  · rename_i hsame
    rw [OrderedMap.get?_insert] at hfound
    split at hfound
    · cases hfound
      exact .inr (hconstruct ▸ h)
    · exact .inl (hsame.1 ▸ hfound)
  · exact .inl hfound

end Program

end TypeFlow

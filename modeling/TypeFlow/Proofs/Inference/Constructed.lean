import TypeFlow.Proofs.Inference.Onward
import TypeFlow.Proofs.Program.Constructors

/-!
# Constructors that have been registered

`Registered constructors s`: the state is reached, and these are the constructors that have been
registered on the way. Every reached state has such a list (`Reached.registered`), and only what
registers a constructor changes the records of the classes (`Aside.sameRecords`), which are
therefore those of the list (`Registered.records`).
-/

namespace TypeFlow

/-! ### Records -/

namespace Types
variable {t t' t'' : Types} {f : TypeEntry → TypeEntry}

theorem superclass_congr (hkind : ∀ id, t'.kind id = t.kind id) (id : TypeId) :
    t'.superclass id = t.superclass id := by
  simp only [superclass, hkind]

theorem ancestors_congr (hsize : t'.size = t.size) (hkind : ∀ id, t'.kind id = t.kind id)
    (id : TypeId) :
    t'.ancestors id = t.ancestors id := by
  have hwithin : ∀ fuel id, t'.ancestorsWithin fuel id = t.ancestorsWithin fuel id := fun fuel => by
    induction fuel with
    | zero => exact fun _ => rfl
    | succ fuel ih =>
      intro id
      simp only [ancestorsWithin, superclass_congr hkind, ih]
  rw [ancestors, ancestors, hsize, hwithin]

/-- No class has got another constructor. -/
def SameRecords (t t' : Types) : Prop :=
  ∀ id, (t'.get id).assignedAtStart = (t.get id).assignedAtStart

theorem SameRecords.refl (t : Types) : t.SameRecords t := fun _ => rfl

theorem SameRecords.trans (h : t.SameRecords t') (h' : t'.SameRecords t'') : t.SameRecords t'' :=
  fun id => (h' id).trans (h id)

theorem GrowsTo.sameRecords (h : t.GrowsTo t') : t.SameRecords t' :=
  h.declared_eq TypeEntry.assignedAtStart (fun _ => rfl) fun _ _ _ => rfl

theorem sameRecords_modify (hf : TypeEntry.Extends f)
    (hrecord : ∀ e, (f e).assignedAtStart = e.assignedAtStart) (t : Types) (owner : TypeId) :
    t.SameRecords (t.modify owner f hf) := fun other =>
  modify_field TypeEntry.assignedAtStart hrecord owner other

theorem sameRecords_setName (t : Types) (owner : TypeId) (name : String) (entry : Named) :
    t.SameRecords (t.setName owner name entry) := by
  refine sameRecords_modify _ ?_ t owner
  exact fun _ => rfl

theorem sameRecords_addMethod (t : Types) (owner : TypeId) (key : MethodKey) (definition : ExprId) :
    t.SameRecords (t.addMethod owner key definition) := by
  refine sameRecords_modify _ ?_ t owner
  exact fun _ => rfl

theorem Act.sameRecords (h : Act t t') : t.SameRecords t' := fun owner =>
  congrArg (·.2.2) (h.ofInstances_eq owner)

end Types

theorem Program.isAssignedAtStart_congr {p p' : Program} (hsize : p'.types.size = p.types.size)
    (hkind : ∀ id, p'.types.kind id = p.types.kind id) (hrecords : p.types.SameRecords p'.types)
    (owner : TypeId) (name : String) :
    p'.isAssignedAtStart owner name = p.isAssignedAtStart owner name := by
  simp only [isAssignedAtStart, hkind, Types.ancestors_congr hsize hkind, hrecords _]

theorem Program.Adds.types_eq {p p' : Program} (h : p.Adds p') : p'.types = p.types := by
  induction h with
  | refl => rfl
  | add _ _ _ ih => exact ih

namespace Infer
variable {setting : Setting} {kept : Kept} {ok : Bool} {s s' : WalkState}

/-- A constructor of a class is registered. -/
def RegistersConstructor (s s' : WalkState) : Prop :=
  ∃ owner arity definition, owner.index < s.program.types.size ∧
    s' = s.withProgram (s.program.addMethod owner (Program.constructorName, arity) definition)

theorem Act.sameRecords (h : Act kept ok s s') (hno : ¬ RegistersConstructor s s') :
    s.program.types.SameRecords s'.program.types := by
  cases h with
  | types ht => exact ht.sameRecords
  | touch => exact .refl _
  | note hn => cases hn <;> exact .refl _
  | method _ owner key definition =>
    have hdefs := Types.sameRecords_addMethod s.program.types owner key definition
    show s.program.types.SameRecords (s.program.addMethod owner key definition).types
    by_cases hkey : key.1 = Program.constructorName
    · have howner : ¬ owner.index < s.program.types.size := fun hlt =>
        hno ⟨owner, key.2, definition, hlt, by rw [← hkey]⟩
      unfold Program.addMethod
      rw [if_pos hkey]
      refine hdefs.trans fun other => ?_
      rw [Types.get_modify, if_neg fun h => howner ?_]
      exact (Types.size_modify ..) ▸ h.2
    · unfold Program.addMethod
      rw [if_neg hkey]
      exact hdefs
  | constant => exact Types.sameRecords_setName s.program.types _ _ _
  | derive | bindSlot =>
    exact (Network.Extends.outcome_bindNode s.program.toNetwork _ _).types.sameRecords
  | giveType | fixResult =>
    exact (Network.Extends.keeps_setType s.program.toNetwork _ _ _ (.refl _)).types.sameRecords
  | instanceVar _ owner name =>
    show s.program.types.SameRecords (s.program.instanceVarNode owner name).2.types
    unfold Program.instanceVarNode
    split
    · exact .refl _
    · refine Types.sameRecords_modify ?_ ?_ _ owner
      · exact ⟨fun _ => rfl, fun _ => rfl⟩
      · exact fun _ => rfl
  | breakNode _ block =>
    show s.program.types.SameRecords (s.program.breakNodeOf block).2.types
    unfold Program.breakNodeOf
    split <;> exact .refl _
  | _ => exact .refl _

end Infer

/-! ### Registered constructors -/

namespace WalkState
open Infer Program
variable {s s' : WalkState} {constructors : List Constructor} {setting : Setting}
  {kept : Kept} {ok : Bool}

/-- What is done at a time, other than to register a constructor. -/
inductive Aside : WalkState → WalkState → Prop where
  | act {kept : Kept} {ok : Bool} {s s' : WalkState} : Act kept ok s s' →
      ¬ RegistersConstructor s s' → Aside s s'
  | call {call : ExprId} {ok : Bool} {s s' : WalkState} : CallAct call ok s s' → Aside s s'
  | frame (s : WalkState) (frame : Frame) : Aside s (s.withFrame frame)
  | evaluate (s : WalkState) (id : ConstantId) : Aside s
      (s.withProgram (s.program.beginConstant id))
  | evaluated (s : WalkState) (id : ConstantId) : Aside s (s.withProgram (s.program.endConstant id))
  | visit (s : WalkState) (call : ExprId) (scope : TypeId) : Aside s
      (s.withProgram (s.program.noteScope call scope))
  | lower (s : WalkState) (tree : Tree) : Aside s (s.withProgram (s.program.lower tree).2)
  | settle (s : WalkState) : Aside s (s.withProgram s.program.settleUntyped.2)

theorem Aside.sameRecords (h : Aside s s') : s.program.types.SameRecords s'.program.types := by
  cases h with
  | act h hno => exact h.sameRecords hno
  | @call call _ _ _ h =>
    cases h with
    | stay | take => exact .refl _
    | rebind targets =>
      have hext := Network.Extends.outcome_bindNode (unbound s call targets).program.toNetwork
          (s.program.nodeOf call) targets
      rw [withProgram_program, afterwards, onNetwork_eq]
      exact hext.types.sameRecords
  | lower _ tree =>
    exact fun id => by rw [withProgram_program, (s.program.adds_lower tree).1.types_eq]
  | _ => exact .refl _

/-- The state is reached, and these are the constructors that have been registered on the way, in
order. -/
inductive Registered : List Constructor → WalkState → Prop where
  | start : Registered [] ⟨{}, {}⟩
  | constructor {constructors : List Constructor} {s : WalkState} (owner : TypeId) (arity : Nat)
      (definition : ExprId) :
      Registered constructors s → owner.index < s.program.types.size →
        Registered (constructors ++ [⟨owner, definition, s.program⟩])
          (s.withProgram (s.program.addMethod owner (constructorName, arity) definition))
  | aside {constructors : List Constructor} {s s' : WalkState} : Registered constructors s →
      Aside s s' → s'.Reached →
      Registered constructors s'

theorem Reached.act (h : s.Reached) (hact : Act kept ok s s') : s'.Reached :=
  have hrun : Runs ⟨.standard, {}⟩ kept ok s s' := .act hact
  .runs h hrun

theorem Registered.reached (h : Registered constructors s) : s.Reached := by
  induction h with
  | start => exact .start
  | @«constructor» constructors s owner arity definition _ _ ih =>
    have hact : Act none true s _ := .method s owner (constructorName, arity) definition
    exact ih.act hact
  | aside _ _ h => exact h

theorem records_initial : Records [] Types.initial := fun owner => by
  have hnone : ∀ e ∈ Types.initial.entries.toList, e.assignedAtStart = none := by decide +kernel
  have hrecord : (Types.initial.get owner).assignedAtStart = none := by
    rcases Nat.lt_or_ge owner.index Types.initial.size with hlt | hge
    · rw [Types.get_of_lt hlt]
      exact hnone _ (Array.mem_toList_iff.mpr (Array.getElem_mem hlt))
    · rw [Types.get_of_le hge]; rfl
  rw [hrecord]
  exact ⟨by simp, nofun⟩

theorem Registered.records (h : Registered constructors s) :
    Records constructors s.program.types := by
  induction h with
  | start => exact records_initial
  | «constructor» owner arity definition h howner ih =>
    exact ih.addMethod h.reached.sound.program arity howner
  | aside _ h _ ih => exact fun owner => h.sameRecords owner ▸ ih owner

/-- Every step either registers a constructor or leaves the records. -/
theorem Registered.act (h : Registered constructors s) (hact : Act kept ok s s') :
    ∃ constructors', Registered constructors' s' := by
  by_cases hregisters : RegistersConstructor s s'
  · obtain ⟨owner, arity, definition, howner, rfl⟩ := hregisters
    exact ⟨_, .constructor owner arity definition h howner⟩
  · exact ⟨_, h.aside (.act hact hregisters) (h.reached.act hact)⟩

/-- By induction on the run. -/
theorem Registered.runs (hrun : Runs setting kept ok s s') (h : Registered constructors s) :
    ∃ constructors', Registered constructors' s' := by
  induction hrun generalizing constructors with
  | refl | failed => exact ⟨_, h⟩
  | act hact => exact h.act hact
  | trans _ _ ih ih' =>
    obtain ⟨_, h⟩ := ih h
    exact ih' h
  | evaluation hpending hrun ih =>
    have hend := Reached.runs h.reached (.evaluation hpending hrun)
    obtain ⟨_, h'⟩ := ih (h.aside (.evaluate _ _) (.evaluate h.reached hpending))
    exact ⟨_, h'.aside (.evaluated _ _) hend⟩
  | region r hr hrun ih =>
    have hend := Reached.runs h.reached (.region r hr hrun)
    obtain ⟨_, h'⟩ := ih (h.aside (.frame _ _) (.enter r h.reached hr))
    exact ⟨_, h'.aside (.frame _ _) hend⟩
  | resolution hcall _ hcall' _ ih =>
    obtain ⟨_, h⟩ := ih (h.aside (.call hcall) (.call h.reached hcall))
    exact ⟨_, h.aside (.call hcall') (.call h.reached hcall')⟩
  | visit scope hlt _ _ _ ih ih' =>
    obtain ⟨_, h⟩ := ih (h.aside (.visit _ _ scope) (.visit scope h.reached hlt))
    exact ih' h

theorem Reached.registered (h : s.Reached) : ∃ constructors, Registered constructors s := by
  induction h with
  | start => exact ⟨[], .start⟩
  | lower tree h ih =>
    obtain ⟨_, ih⟩ := ih
    exact ⟨_, ih.aside (.lower _ tree) (.lower tree h)⟩
  | settle h ih =>
    obtain ⟨_, ih⟩ := ih
    exact ⟨_, ih.aside (.settle _) (.settle h)⟩
  | enter r h hr ih =>
    obtain ⟨_, ih⟩ := ih
    exact ⟨_, ih.aside (.frame _ _) (.enter r h hr)⟩
  | evaluate h hpending ih =>
    obtain ⟨_, ih⟩ := ih
    exact ⟨_, ih.aside (.evaluate _ _) (.evaluate h hpending)⟩
  | visit scope h hlt ih =>
    obtain ⟨_, ih⟩ := ih
    exact ⟨_, ih.aside (.visit _ _ scope) (.visit scope h hlt)⟩
  | call h hcall ih =>
    obtain ⟨_, ih⟩ := ih
    exact ⟨_, ih.aside (.call hcall) (.call h hcall)⟩
  | runs _ hrun ih =>
    obtain ⟨_, ih⟩ := ih
    exact ih.runs hrun

end WalkState

end TypeFlow

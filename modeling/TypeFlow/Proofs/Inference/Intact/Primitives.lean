import TypeFlow.Proofs.Inference.Intact.Declarations

/-!
# Expressions of types and built-in methods leave intact states
-/

namespace TypeFlow.Infer
variable {setting : Setting} {X : List NodeId} {L : List Duty} {s s' : WalkState}
  {walk : Step} {id : ExprId}

theorem leaves_walkEither (hw : Finishes setting walk) {left right : ExprId}
    (hs : s.Intact X (.single id :: .whole left :: .whole right :: L)) :
    LeavesIntact setting s (walkEither walk id left right) X (.done id :: L) := by
  have hleft : s.program.Has left := hs.has_of_mem (by simp)
  have hright : s.program.Has right := hs.has_of_mem (by simp)
  unfold walkEither
  refine (hw.next hs).bind fun _ s₁ hl₁ hs₁ _ => (hw.next hs₁).bind fun _ s₂ hl₂ hs₂ _ => ?_
  refine leaves_read (outcome_nodeOf left)
    (leaves_read (outcome_nodeOf right) (leaves_derive hs₂ ?_))
  exact List.forall_mem_cons.mpr ⟨hs₂.node_lt (hl₂.lt (hl₁.lt hleft)),
    List.forall_mem_singleton.mpr (hs₂.node_lt (hl₂.lt (hl₁.lt hright)))⟩

theorem leaves_walkTypeUnion (hw : Finishes setting walk) {members : List ExprId}
    (hs : s.Intact X (.single id :: (members.map Duty.whole ++ L))) :
    LeavesIntact setting s (walkTypeUnion walk id members) X (.done id :: L) := by
  unfold walkTypeUnion
  refine (leaves_denotedTypes hw hs).bind fun types s₁ _ hs₁ htypes => ?_
  have hjoin : Leaves setting s₁ (updateTypes fun t => t.join types) X
      (.single id :: L) fun union s' =>
      ∀ type ∈ union, InTable type s' :=
    leaves_updateTypes hs₁ (Types.acts_join types) (hs₁.whole.join htypes) fun _ h =>
      hs₁.whole.toClosed.join_lt htypes h
  refine hjoin.bind fun union s₂ _ hs₂ hunion => ?_
  split
  · exact leaves_giveMetaclass hs₂ (hunion _ rfl)
  · exact leaves_defectAt ..

theorem leaves_walkGenericInstance (hw : Finishes setting walk) {name : ExprId} {args : List ExprId}
    (hs : s.Intact X (.single id :: .whole name :: (args.map Duty.whole ++ L))) :
    LeavesIntact setting s (walkGenericInstance walk id name args) X (.done id :: L) := by
  unfold walkGenericInstance
  refine (leaves_denotedPart hw hs).bind fun generic s₁ _ hs₁ hgeneric => ?_
  refine (leaves_denotedTypes hw hs₁).bind fun types s₂ hl₂ hs₂ htypes =>
    leaves_read outcome_types ?_
  split
  · rename_i type t happly
    have hwhole := hs₂.whole.apply (hl₂.kinds.lt hgeneric) htypes
    have hlt : (s₂.program.types.apply generic types).1.index <
        (s₂.program.types.apply generic types).2.size :=
      (Types.interns_apply _ generic types).lt
    rw [← Types.eq_apply_of_applyGeneric happly] at hwhole hlt
    obtain ⟨hl, hp⟩ := hs₂.program.acts (acts_applyGeneric happly) hwhole
    exact leaves_after (outcome_modifyProgram _) hl
      (leaves_giveMetaclass (hs₂.withProgram hl hp) hlt)
  · exact leaves_problemAt ..

theorem leaves_walkIsA (hw : Finishes setting walk) {object type : ExprId}
    (hs : s.Intact X (.single id :: .whole object :: .whole type :: L)) :
    LeavesIntact setting s (walkIsA walk id object type) X (.done id :: L) := by
  unfold walkIsA
  refine (hw.next hs).bind fun _ s₁ _ hs₁ _ =>
    (leaves_denotedPart hw hs₁).bind fun target s₂ _ hs₂ htarget => ?_
  refine (leaves_giveBuiltin hs₂ (by decide)).bind fun _ s₃ hl₃ hs₃ _ =>
    leaves_read (outcome_construct object) ?_
  split
  · refine leaves_setExprGuard hs₃ id fun g hg => ?_
    cases hg
    refine Guard.within_singleton _ fun other hother => ?_
    rw [List.mem_singleton.mp hother]
    exact hl₃.kinds.lt htarget
  · exact leaves_pure hs₃ trivial

theorem leaves_walkTypeOf (hw : Finishes setting walk) {values : List ExprId}
    (hs : s.Intact X (.single id :: (values.map Duty.whole ++ L))) :
    LeavesIntact setting s (walkTypeOf walk id values) X (.done id :: L) := by
  have hvalues : ∀ i ∈ values, s.program.Has i := fun i hi => hs.has_of_mem (by simp [hi])
  unfold walkTypeOf
  refine (hw.all hs).bind fun _ s₁ hl₁ hs₁ _ => leaves_read outcome_program (leaves_derive hs₁ ?_)
  exact List.forall_mem_map.mpr fun i hi => hs₁.node_lt (hl₁.lt (hvalues i hi))

theorem leaves_walkPointerOf (hw : Finishes setting walk) {target : ExprId}
    (hs : s.Intact X (.single id :: .whole target :: L)) :
    LeavesIntact setting s (walkPointerOf walk id target) X (.done id :: L) := by
  have htail : ∀ slot s₁, s₁.Intact X (.done target :: .single id :: L) →
      slot.index < s₁.program.graph.size →
      LeavesIntact setting s₁ (do deriveFrom target [slot]; deriveFrom id [slot]) X
        (.done id :: L) := by
    intro slot s₁ hs₁ hslot
    refine (leaves_deriveFrom hs₁ (List.forall_mem_singleton.mpr hslot)).bind
      fun _ s₂ hl₂ hs₂ _ => ?_
    exact leaves_derive hs₂.tail
      (List.forall_mem_singleton.mpr (Nat.lt_of_lt_of_le hslot hl₂.nodes_le))
  unfold walkPointerOf
  refine leaves_read (outcome_construct target) ?_
  dsimp only
  split
  · exact (leaves_localVar hs.swap.finish _).bind fun slot s₁ _ hs₁ hspare =>
      htail slot s₁ hs₁ hspare.lt
  · exact (leaves_instanceVar hs.swap.finish target _).bind fun slot s₁ _ hs₁ hspare =>
      htail slot s₁ hs₁ hspare.lt
  · refine (hw _ _ _ _ hs.swap).bind fun _ s₁ _ hs₁ _ => leaves_read (outcome_nodeOf target) ?_
    exact htail _ s₁ hs₁ (hs₁.node_lt hs₁.has)

/-! ### Fields -/

theorem leaves_selfField (hs : s.Intact X L) (id : ExprId) (name : String) :
    Leaves setting s (selfField id name) X L InTable := by
  unfold selfField
  refine (leaves_typeOfSelf hs).bind fun scope s₁ _ hs₁ _ => leaves_read outcome_types ?_
  dsimp only
  split
  · rename_i type hfield
    refine leaves_pure hs₁ ?_
    split at hfield
    · exact hs₁.whole.field_lt (.inl ‹_›) hfield
    · exact hs₁.whole.field_lt (.inr ‹_›) hfield
    · cases hfield
  · exact leaves_problemAt ..

theorem leaves_operand (hs : s.Intact X L) (id : ExprId) (name : String) :
    Leaves setting s (operand id name) X L fun node s' => node.index < s'.program.graph.size := by
  unfold operand
  refine leaves_read outcome_frame ?_
  split
  · rename_i node hnode
    exact leaves_pure hs (hs.var_spare hnode).lt
  · exact leaves_defectAt ..

theorem leaves_walkFieldGet (hs : s.Intact X (.single id :: L)) (name : String) :
    LeavesIntact setting s (walkFieldGet id name) X (.done id :: L) :=
  (leaves_selfField hs id name).bind fun _ _ _ hs' htype => leaves_giveType hs' htype

theorem leaves_walkFieldSet (hs : s.Intact X (.single id :: L)) (name : String) :
    LeavesIntact setting s (walkFieldSet id name) X (.done id :: L) := by
  unfold walkFieldSet
  refine (leaves_selfField hs id name).bind fun field s₁ _ hs₁ hfield => ?_
  refine (leaves_operand hs₁ id "value").bind fun _ s₂ hl₂ hs₂ _ => leaves_read outcome_program ?_
  have hgive : LeavesIntact setting s₂ (giveType id field) X (.done id :: L) :=
    leaves_giveType hs₂ (hl₂.kinds.lt hfield)
  dsimp only
  split
  · exact leaves_check fun _ => hgive
  · exact hgive

/-! ### Allocation -/

theorem leaves_requireAllocatable (hs : s.Intact X L) (id : ExprId) (type : TypeId) :
    LeavesIntact setting s (requireAllocatable id type) X L := by
  unfold requireAllocatable
  refine leaves_read outcome_types ?_
  dsimp only
  split
  · refine leaves_check fun _ => ?_
    split
    · exact leaves_problemAt ..
    · exact leaves_pure hs trivial
  · exact leaves_pure hs trivial

theorem leaves_walkClassOfSelf (hs : s.Intact X (.single id :: L)) :
    LeavesIntact setting s (walkClassOfSelf id) X (.done id :: L) :=
  (leaves_typeOfSelf hs).bind fun _ _ _ hs' hscope => leaves_giveMetaclass hs' hscope

theorem leaves_walkAllocate (hs : s.Intact X (.single id :: L)) :
    LeavesIntact setting s (walkAllocate id) X (.done id :: L) := by
  unfold walkAllocate
  refine (leaves_typeOfSelf hs).bind fun scope s₁ _ hs₁ hscope => leaves_read outcome_types ?_
  refine (leaves_requireAllocatable hs₁ id _).bind fun _ s₂ hl₂ hs₂ _ => leaves_giveType hs₂ ?_
  exact hl₂.kinds.lt (hs₁.whole.described_lt hscope)

/-! ### Pointers -/

theorem leaves_selfPointer (hs : s.Intact X L) (id : ExprId) :
    Leaves setting s (selfPointer id) X L fun pointer s' => InTable pointer.1 s' ∧
      InTable pointer.2 s' := by
  unfold selfPointer
  refine (leaves_typeOfSelf hs).bind fun scope s₁ _ hs₁ hscope => leaves_read outcome_program ?_
  dsimp only
  split
  · rename_i hkind
    split
    · split
      · exact leaves_pure hs₁ ⟨hs₁.whole.described_lt hscope, hs₁.whole.arg_lt hkind
          (List.mem_cons_self ..)⟩
      · exact leaves_defectAt ..
    · exact leaves_problemAt ..
  · exact leaves_problemAt ..

theorem leaves_walkSamePointer (hs : s.Intact X (.single id :: L)) :
    LeavesIntact setting s (walkSamePointer id) X (.done id :: L) :=
  (leaves_selfPointer hs id).bind fun _ _ _ hs' h => leaves_giveType hs' h.1

theorem leaves_walkPointerGet (hs : s.Intact X (.single id :: L)) :
    LeavesIntact setting s (walkPointerGet id) X (.done id :: L) :=
  (leaves_selfPointer hs id).bind fun _ _ _ hs' h => leaves_giveType hs' h.2

theorem leaves_walkPointerSet (hs : s.Intact X (.single id :: L)) :
    LeavesIntact setting s (walkPointerSet id) X (.done id :: L) := by
  unfold walkPointerSet
  refine (leaves_selfPointer hs id).bind fun _ s₁ _ hs₁ _ => ?_
  exact (leaves_operand hs₁ id "value").bind fun node s₂ _ hs₂ hnode =>
    leaves_derive hs₂ (List.forall_mem_singleton.mpr hnode)

theorem leaves_walkPointerCast (hs : s.Intact X (.single id :: L)) :
    LeavesIntact setting s (walkPointerCast id) X (.done id :: L) := by
  unfold walkPointerCast
  refine (leaves_operand hs id "type").bind fun node s₁ _ hs₁ _ => leaves_read outcome_program ?_
  split
  · exact leaves_pure hs₁.finish trivial
  · rename_i type htype
    have hdescribed := hs₁.whole.described_lt (hs₁.program.orderly.linked.typed node type htype)
    have hpointer : Leaves setting s₁ (updateTypes fun t => t.pointerTo (t.described type)) X
        (.single id :: L) InTable :=
      leaves_updateTypes hs₁ (Types.acts_apply ..) (hs₁.whole.pointersTo hdescribed 1).1
        (hs₁.whole.pointersTo hdescribed 1).2
    exact hpointer.bind fun _ _ _ hs₂ hlt => leaves_giveType hs₂ hlt

end TypeFlow.Infer

import TypeFlow.Proofs.Inference.Intact.Names

/-!
# Variables leave intact states

Nodes of variables are spare: whoever may bind them, no expression that is still to be walked has
one.
-/

namespace TypeFlow.Infer
variable {setting : Setting} {X : List NodeId} {L : List Duty} {s s' : WalkState}
  {walk : Step} {id : ExprId}
  {node : NodeId}

/-! ### Instance variables and globals -/

theorem leaves_instanceVarHolder (hs : s.Intact X L) (id : ExprId) :
    LeavesIntact setting s (instanceVarHolder id) X L := by
  unfold instanceVarHolder
  refine (leaves_typeOfSelf hs).bind fun owner s' _ hs' _ => leaves_check fun _ =>
    leaves_read outcome_types ?_
  dsimp only
  split
  · exact leaves_read (outcome_nameOf _) (leaves_problemAt_bind ..)
  · exact leaves_pure hs' trivial

/-- The node of an instance variable may be bound to `Nil` when it is asked for. -/
theorem does_instanceVarFor {owner : TypeId} {name : String}
    (hd : (do ofBinding (← updateProgram fun p => p.instanceVarFor owner name)).Does
      setting s node s') :
    node = (s.program.instanceVarNode owner name).1 ∧
    (s' = s.withProgram (s.program.instanceVarNode owner name).2 ∨
      (bind (s.program.instanceVarNode owner name).1 [Program.nilNode]).Does setting
        (s.withProgram (s.program.instanceVarNode owner name).2) () s') := by
  rw [does_bind_of_ok (outcome_updateProgram _), Does, outcome_ofBinding] at hd
  unfold Program.instanceVarFor at hd
  generalize s.program.instanceVarNode owner name = r at hd ⊢
  obtain ⟨var, p⟩ := r
  dsimp only at hd ⊢
  split at hd
  · cases hd; exact ⟨rfl, .inl rfl⟩
  · unfold bind
    rw [Does, outcome_onNetwork, WalkState.withProgram_program]
    rcases hr : p.onNetwork (Binding.bind var [Program.nilNode]) with ⟨_ | a, p'⟩ <;>
      rw [hr] at hd <;> cases hd
    exact ⟨rfl, .inr rfl⟩

theorem leaves_instanceVar (hs : s.Intact X L) (id : ExprId) (name : String) :
    Leaves setting s (instanceVar id name) X L fun node s' => s'.program.Spare node := by
  unfold instanceVar
  refine (leaves_instanceVarHolder hs id).bind fun owner s₁ _ hs₁ _ => ⟨fun node s₂ hd => ?_⟩
  obtain ⟨rfl, hor⟩ := does_instanceVarFor hd
  obtain ⟨hl, hp, hspare⟩ := hs₁.program.instanceVarNode owner name
  have hs₂ := hs₁.withProgram hl hp
  rcases hor with rfl | hbind
  · exact ⟨hl, hs₂, hspare⟩
  · have hdeps : ∀ d ∈ [Program.nilNode],
        d.index < (s₁.program.instanceVarNode owner name).2.graph.size := fun d hd => by
      rw [List.mem_singleton.mp hd]; exact hs₂.nil_lt
    obtain ⟨hl', hs₃, -⟩ := (leaves_bind hs₂ hspare hdeps).does () s₂ hbind
    exact ⟨hl.trans hl', hs₃, hl'.spare hspare⟩

theorem leaves_globalVar (hs : s.Intact X L) (name : String) :
    Leaves setting s (globalVar name) X L fun node s' => s'.program.Spare node := by
  unfold globalVar
  refine leaves_read outcome_program ?_
  split
  · rename_i hn
    exact leaves_pure hs (hs.program.spare _ (.global hn))
  · refine (leaves_addVar hs).bind fun node s₁ _ hs₁ hspare => ?_
    exact (leaves_modifyProgram hs₁ (hs₁.program.global name hspare)).bind
      fun _ _ hl hs₂ _ => leaves_pure hs₂ (hl.spare hspare)

theorem leaves_walkInstanceVar (hs : s.Intact X (.single id :: L)) (name : String) :
    LeavesIntact setting s (walkInstanceVar id name) X (.done id :: L) :=
  (leaves_instanceVar hs id name).bind fun var s' _ hs' hspare => leaves_derive hs' fun d hd => by
    rw [List.mem_singleton.mp hd]; exact hspare.lt

theorem leaves_walkGlobalVar (hs : s.Intact X (.single id :: L)) (name : String) :
    LeavesIntact setting s (walkGlobalVar id name) X (.done id :: L) := by
  unfold walkGlobalVar
  refine leaves_read outcome_program ?_
  split
  · rename_i hn
    refine leaves_derive hs fun d hd => ?_
    rw [List.mem_singleton.mp hd]
    exact (hs.program.spare _ (.global hn)).lt
  · exact leaves_problemAt ..

/-- What is proved by a variable that has got a value. -/
theorem guardInTable_assigned {guard : Option Guard} (name : String) (h : GuardInTable guard s) :
    GuardInTable (Guard.both (some (.notNil name)) guard) s :=
  Guard.within_both (fun _ hg => by cases hg; exact Guard.within_notNil name) h

theorem leaves_walkVar (hs : s.Intact X (.single id :: L)) (name : String) :
    LeavesIntact setting s (walkVar id name) X (.done id :: L) := by
  unfold walkVar
  have hguard : ∀ {s' : WalkState} {var : NodeId}, s'.Intact X (.done id :: L) →
      LeavesIntact setting s' (do
      let carried := (← program).graph.guardOf var
      setExprGuard id (Guard.both (some (.notNil name)) carried)) X
        (.done id :: L) := fun {_ var} hs' =>
    leaves_read outcome_program
      (leaves_setExprGuard hs' id (guardInTable_assigned name (guardInTable_guardOf hs' var)))
  refine (leaves_localVar hs name).bind fun var s₁ _ hs₁ hvar => leaves_read outcome_frame ?_
  dsimp only
  split
  · rename_i f hf
    have htargets : ∀ target ∈ (Derivation.narrow f).targets,
        target.index < s₁.program.types.size :=
      hs₁.frame.guards.narrowingFor hf
    refine (leaves_addNode hs₁ htargets).bind fun narrowed s₂ hl₂ hs₂ hnarrowed => ?_
    refine (leaves_bind hs₂ hnarrowed ?_).bind fun _ s₃ hl₃ hs₃ _ => ?_
    · intro d hd
      rw [List.mem_singleton.mp hd]; exact (hl₂.spare hvar).lt
    refine (leaves_derive hs₃ ?_).bind fun _ s₄ _ hs₄ _ => hguard hs₄
    intro d hd
    rw [List.mem_singleton.mp hd]; exact (hl₃.spare hnarrowed).lt
  · refine (leaves_derive hs₁ ?_).bind fun _ s₂ _ hs₂ _ => hguard hs₂
    intro d hd
    rw [List.mem_singleton.mp hd]; exact hvar.lt

theorem leaves_walkDeclareVar (hw : Finishes setting walk) {type : ExprId}
    (hs : s.Intact X (.single id :: .whole type :: L)) (name : String) :
    LeavesIntact setting s (walkDeclareVar walk id name type) X (.done id :: L) := by
  unfold walkDeclareVar
  refine (leaves_denotedPart hw hs).bind fun type s₁ _ hs₁ htype => ?_
  refine (leaves_addValue hs₁ htype).bind fun declared s₂ _ hs₂ hdeclared => ?_
  refine (leaves_localVar hs₂ name).bind fun var s₃ hl₃ hs₃ hvar => ?_
  refine (leaves_bind hs₃ hvar ?_).bind fun _ s₄ hl₄ hs₄ _ => ?_
  · intro d hd
    rw [List.mem_singleton.mp hd]; exact (hl₃.spare hdeclared).lt
  refine (leaves_freeze hs₄ var).bind fun _ s₅ hl₅ hs₅ _ => leaves_derive hs₅ ?_
  intro d hd
  rw [List.mem_singleton.mp hd]; exact (hl₅.spare (hl₄.spare hvar)).lt

end TypeFlow.Infer

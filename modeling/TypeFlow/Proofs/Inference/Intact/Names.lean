import TypeFlow.Proofs.Inference.Intact.Steps

/-!
# Constants leave intact states

A constant that is declared keeps what its value has to be done with until it is read.
-/

namespace TypeFlow.Infer
variable {setting : Setting} {X : List NodeId} {L : List Duty} {s : WalkState}
  {walk : Step} {id : ExprId}

/-! ### Constants -/

theorem leaves_denotedType (hw : Finishes setting walk) (hs : s.Intact X (.whole id :: L)) :
    Leaves setting s (denotedType walk id) X L InTable := by
  unfold denotedType
  refine (hw.leaves hs).bind fun _ s' _ hs' _ => leaves_read outcome_program ?_
  split
  · rename_i htype
    split
    · exact leaves_pure hs' (hs'.whole.described_lt (hs'.program.typeOf_lt htype))
    · exact leaves_problemAt ..
  · exact leaves_problemAt ..

/-- The same for a part of an expression. -/
theorem leaves_denotedPart (hw : Finishes setting walk) {t : Duty}
    (hs : s.Intact X (t :: .whole id :: L)) :
    Leaves setting s (denotedType walk id) X (t :: L) InTable :=
  leaves_denotedType hw (hs.perm (.swap ..))

theorem leaves_denotedTypes (hw : Finishes setting walk) {t : Duty} {ids : List ExprId}
    (hs : s.Intact X (t :: (ids.map Duty.whole ++ L))) :
    Leaves setting s (ids.mapM (denotedType walk)) X (t :: L) fun types s' => ∀ type ∈ types,
      InTable type s' := by
  exact leaves_mapM (P := fun (type : TypeId) p => type.index < p.types.size)
    (fun hl => hl.kinds.lt)
    (fun id => [.whole id]) hs.each fun id _ s' M _ hs' => leaves_denotedType hw hs'

theorem leaves_evaluateConstant (hw : Finishes setting walk) (hs : s.Intact X L)
    (reference : ExprId) (const : ConstantId) :
    LeavesIntact setting s (evaluateConstant walk reference const) X L := by
  rcases hstate : (s.program.constant const).state with _ | _ | _
  · refine ⟨fun a s' hd => ?_⟩
    obtain ⟨hbegin, hp⟩ := hs.program.beginConstant hstate
    have hs₁ := hs.withProgram hbegin hp
    have hconst := hs.program.constant_within hstate
    have hvalue : LeavesIntact setting _
        (inFrame { scope := (s.program.constant const).scope, enclosing :=
          (s.program.constant const).enclosing }
          (walk (s.program.constant const).value)) X L :=
      leaves_inFrame hs₁ ⟨fun _ _ hn => (nomatch hn), fun _ hn => (nomatch hn),
        hconst.scope, hconst.enclosing,
          GuardStack.within_initial _⟩
        fun hs₂ => hw.leaves hs₂
    rcases hout : (inFrame _ (walk _)).outcome setting _ with ⟨result, s₂⟩
    rw [Does, outcome_evaluateConstant reference hstate hout] at hd
    cases result with
    | error e => cases e <;> cases hd
    | ok b =>
      cases hd
      obtain ⟨hl, hs₂, -⟩ := hvalue.does b s₂ hout
      obtain ⟨hend, hp₂⟩ := hs₂.program.endConstant const
      exact ⟨(hbegin.trans hl).trans hend, hs₂.withProgram hend hp₂, trivial⟩
  · unfold evaluateConstant
    refine leaves_read outcome_program ?_
    dsimp only
    rw [hstate]
    exact leaves_problemAt ..
  · unfold evaluateConstant
    refine leaves_read outcome_program ?_
    dsimp only
    rw [hstate]
    exact leaves_pure hs trivial

theorem leaves_evaluateRemaining (hw : Finishes setting walk) (hs : s.Intact X L) :
    LeavesIntact setting s (evaluateRemaining walk) X L := by
  unfold evaluateRemaining
  refine leaves_read outcome_program (leaves_each hs fun const _ s' _ hs' => ?_)
  refine leaves_read outcome_program ?_
  dsimp only
  split
  · exact leaves_evaluateConstant hw hs' _ const
  · exact leaves_pure hs' trivial

/-- The value of a constant is there; without the constant, the first expression stands for it. -/
theorem has_value (hs : s.Intact X L) (hid : s.program.Has id) (const : ConstantId) :
    s.program.Has (s.program.constant const).value := by
  rcases Nat.lt_or_ge const.index s.program.constants.size with hlt | hle
  · exact hs.program.sound.value_lt hlt
  · rw [Program.constant, Array.getElem?_eq_none hle]
    exact Nat.lt_of_le_of_lt (Nat.zero_le _) hid

theorem leaves_walkPath (hw : Finishes setting walk) (hs : s.Intact X (.single id :: L))
    (names : List String) (fromRoot : Bool) :
    LeavesIntact setting s (walkPath walk id names fromRoot) X (.done id :: L) := by
  unfold walkPath
  refine leaves_read outcome_types ((leaves_nameScope hs).bind fun scope s₁ hl₁ hs₁ _ => ?_)
  split
  · rename_i type hfound
    have htype : type.index < s.program.types.size := by
      split at hfound
      · exact hs.whole.resolveRootPath_lt hfound
      · exact hs.whole.resolvePath_lt hfound
    exact leaves_giveMetaclass hs₁ (hl₁.kinds.lt htype)
  · refine (leaves_evaluateConstant hw hs₁ id _).bind fun _ s₂ _ hs₂ _ =>
      leaves_read outcome_program ?_
    refine leaves_derive hs₂ fun d hd => ?_
    rw [List.mem_singleton.mp hd]
    exact hs₂.node_lt (has_value hs₂ hs₂.has _)
  · exact leaves_problemAt ..

/-- Nothing is changed to find out where a constant is declared. -/
theorem does_constantHolder {target : ExprId} {path : List String} {owner : TypeId} {s' : WalkState}
    (hd : (constantHolder target path).Does setting s owner s') : s' = s := by
  have hscope : ∃ scope, nameScope.outcome setting s = (.ok scope, s) := by
    unfold nameScope
    rw [outcome_bind, outcome_frame]
    dsimp only
    split
    · exact ⟨_, rfl⟩
    · exact ⟨_, outcome_innermostType⟩
  obtain ⟨scope, hscope⟩ := hscope
  unfold constantHolder at hd
  split at hd
  · cases hd; rfl
  · rw [does_bind_of_ok outcome_types, does_bind_of_ok hscope] at hd
    split at hd
    · cases hd; rfl
    · cases hd

end TypeFlow.Infer

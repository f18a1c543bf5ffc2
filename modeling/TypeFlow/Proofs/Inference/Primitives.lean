import TypeFlow.Proofs.Inference.Declared

/-!
# Expressions of types and built-in methods run
-/

namespace TypeFlow.Infer
variable {setting : Setting} {kept : Kept} {s s' : WalkState} {walk : Step} {id : ExprId}

theorem runnable_walkEither (hw : Walks setting walk) (hs : Ready kept s) {left right : ExprId}
    (hid : s.Plain id) (hleft : s.Has left) (hright : s.Has right) :
    Runnable setting kept s (walkEither walk id left right) := by
  unfold walkEither
  refine (hw kept s left hs hleft).bind hs fun _ s₁ hl₁ hs₁ _ => ?_
  refine (hw kept s₁ right hs₁ (hl₁.has hright)).bind hs₁ fun _ _ hl₂ _ _ => ?_
  refine goes_read (outcome_nodeOf left) (goes_read (outcome_nodeOf right) ?_)
  exact runnable_deriveFrom (hl₂.plain (hl₁.plain hid)) _

theorem runnable_denotedTypes (hw : Walks setting walk) (hs : Ready kept s) {ids : List ExprId}
    (hids : ∀ i ∈ ids, s.Has i) : Runnable setting kept s (ids.mapM (denotedType walk)) :=
  runnable_mapM ids hs fun i hi _ hl hs' => runnable_denotedType hw hs' (hl.has (hids i hi))

theorem runnable_giveMetaclass (hs : Ready kept s) (hid : s.Has id) (type : TypeId) :
    Runnable setting kept s (do giveType id (← metaclassOf type)) :=
  (runnable_metaclassOf type).bind hs fun _ _ hl _ _ => runnable_giveType (hl.has hid) _

theorem runnable_walkTypeUnion (hw : Walks setting walk) (hs : Ready kept s) {members : List ExprId}
    (hid : s.Has id) (hmembers : ∀ i ∈ members, s.Has i) :
    Runnable setting kept s (walkTypeUnion walk id members) := by
  unfold walkTypeUnion
  refine (runnable_denotedTypes hw hs hmembers).bind hs fun _ s₁ hl₁ hs₁ _ => ?_
  refine (runnable_updateTypes (Types.acts_join _)).bind hs₁ fun union s₂ hl₂ hs₂ _ => ?_
  split
  · exact runnable_giveMetaclass hs₂ (hl₂.has (hl₁.has hid)) _
  · exact goes_defectAt ..

theorem acts_applyGeneric {t t' : Types} {generic type : TypeId} {args : List TypeId}
    (h : t.applyGeneric generic args = .ok (type, t')) : Relation.ReflTransGen Types.Act t t' := by
  have happly := Types.acts_apply (t := t) generic args
  rwa [← Types.eq_apply_of_applyGeneric h] at happly

theorem runnable_walkGenericInstance (hw : Walks setting walk) (hs : Ready kept s) {name : ExprId}
    {args : List ExprId} (hid : s.Has id) (hname : s.Has name) (hargs : ∀ i ∈ args, s.Has i) :
    Runnable setting kept s (walkGenericInstance walk id name args) := by
  unfold walkGenericInstance
  refine (runnable_denotedType hw hs hname).bind hs fun _ s₁ hl₁ hs₁ _ => ?_
  refine (runnable_denotedTypes hw hs₁ (hl₁.has_all hargs)).bind hs₁ fun _ s₂ hl₂ hs₂ _ => ?_
  refine goes_read outcome_types ?_
  split
  · rename_i happly
    refine Goes.bind (goes_of_ok (Q := fun _ _ => True) (outcome_modifyProgram _)
      (runs_types (acts_applyGeneric happly)) trivial) hs₂ fun _ s₃ hl₃ hs₃ _ => ?_
    exact runnable_giveMetaclass hs₃ (hl₃.has (hl₂.has (hl₁.has hid))) _
  · exact goes_problemAt ..

theorem runnable_walkIsA (hw : Walks setting walk) (hs : Ready kept s) {object type : ExprId}
    (hid : s.Has id) (hobject : s.Has object) (htype : s.Has type) :
    Runnable setting kept s (walkIsA walk id object type) := by
  unfold walkIsA
  refine (hw kept s object hs hobject).bind hs fun _ s₁ hl₁ hs₁ _ => ?_
  refine (runnable_denotedType hw hs₁ (hl₁.has htype)).bind hs₁ fun _ s₂ hl₂ hs₂ _ => ?_
  refine (runnable_giveType (hl₂.has (hl₁.has hid)) _).bind hs₂ fun _ _ _ _ _ => ?_
  refine goes_read (outcome_construct object) ?_
  split
  · exact runnable_setExprGuard ..
  · exact runnable_pure _

theorem runnable_walkTypeOf (hw : Walks setting walk) (hs : Ready kept s) {values : List ExprId}
    (hid : s.Plain id) (hvalues : ∀ i ∈ values, s.Has i) :
    Runnable setting kept s (walkTypeOf walk id values) := by
  unfold walkTypeOf
  refine (hw.all hs hvalues).bind hs fun _ _ hl _ _ => ?_
  exact goes_read outcome_program (runnable_deriveFrom (hl.plain hid) _)

theorem runnable_walkPointerOf (hw : Walks setting walk) (hs : Ready kept s) {target : ExprId}
    (hid : s.Plain id) (htarget : s.Has target) :
    Runnable setting kept s (walkPointerOf walk id target) := by
  have htail : ∀ slot s₁, s.Later s₁ → Ready kept s₁ → s₁.program.Derives target [slot] →
      Runnable setting kept s₁
        (do deriveFrom target [slot]; deriveFrom id [slot]) := fun slot s₁ hl₁ hs₁ hd =>
    (runnable_derive (hl₁.has htarget) hd).bind hs₁ fun _ _ hl₂ _ _ =>
      runnable_deriveFrom (hl₂.plain (hl₁.plain hid)) _
  unfold walkPointerOf
  refine goes_read (outcome_construct target) ?_
  dsimp only
  split
  · rename_i hvar
    have htarget : s.Plain target := ⟨htarget, by rw [hvar]; rfl⟩
    exact (goes_localVar hs _).bind hs fun slot s₁ hl₁ hs₁ _ =>
      htail slot s₁ hl₁ hs₁ (.plain (hl₁.plain htarget).isCall)
  · rename_i hvar
    have htarget : s.Plain target := ⟨htarget, by rw [hvar]; rfl⟩
    exact (goes_instanceVar hs target _).bind hs fun slot s₁ hl₁ hs₁ _ =>
      htail slot s₁ hl₁ hs₁ (.plain (hl₁.plain htarget).isCall)
  · refine (hw kept s target hs htarget).bind hs fun _ s₁ hl₁ hs₁ _ => ?_
    exact goes_read (outcome_nodeOf target) (htail _ s₁ hl₁ hs₁ (.itself (by simp)))

/-! ### Fields -/

theorem runnable_selfField (hs : Ready kept s) (id : ExprId) (name : String) :
    Runnable setting kept s (selfField id name) := by
  unfold selfField
  refine runnable_typeOfSelf.bind hs fun _ _ _ _ _ => goes_read outcome_types ?_
  dsimp only
  split
  · exact runnable_pure _
  · exact goes_problemAt ..

theorem runnable_operand (id : ExprId) (name : String) :
    Runnable setting kept s (operand id name) := by
  unfold operand
  refine goes_read outcome_frame ?_
  split
  · exact runnable_pure _
  · exact goes_defectAt ..

theorem runnable_walkFieldGet (hs : Ready kept s) (hid : s.Has id) (name : String) :
    Runnable setting kept s (walkFieldGet id name) :=
  (runnable_selfField hs id name).bind hs fun _ _ hl _ _ => runnable_giveType (hl.has hid) _

theorem runnable_walkFieldSet (hs : Ready kept s) (hid : s.Has id) (name : String) :
    Runnable setting kept s (walkFieldSet id name) := by
  unfold walkFieldSet
  refine (runnable_selfField hs id name).bind hs fun field s₁ hl₁ hs₁ _ => ?_
  refine (runnable_operand id "value").bind hs₁ fun _ s₂ hl₂ _ _ => goes_read outcome_program ?_
  have hgive : Runnable setting kept s₂ (giveType id field) :=
    runnable_giveType (hl₂.has (hl₁.has hid)) _
  dsimp only
  split
  · exact goes_check hgive
  · exact hgive

/-! ### Allocation -/

theorem runnable_requireAllocatable (id : ExprId) (type : TypeId) :
    Runnable setting kept s (requireAllocatable id type) := by
  unfold requireAllocatable
  refine goes_read outcome_types ?_
  dsimp only
  split
  · refine goes_check ?_
    split
    · exact goes_problemAt ..
    · exact runnable_pure _
  · exact runnable_pure _

theorem runnable_walkClassOfSelf (hs : Ready kept s) (hid : s.Has id) :
    Runnable setting kept s (walkClassOfSelf id) :=
  runnable_typeOfSelf.bind hs fun _ _ hl hs' _ => runnable_giveMetaclass hs' (hl.has hid) _

theorem runnable_walkAllocate (hs : Ready kept s) (hid : s.Has id) :
    Runnable setting kept s (walkAllocate id) := by
  unfold walkAllocate
  refine runnable_typeOfSelf.bind hs fun _ s₁ hl₁ hs₁ _ => goes_read outcome_types ?_
  refine (runnable_requireAllocatable id _).bind hs₁ fun _ _ hl₂ _ _ => ?_
  exact runnable_giveType (hl₂.has (hl₁.has hid)) _

/-! ### Pointers -/

theorem runnable_selfPointer (hs : Ready kept s) (id : ExprId) :
    Runnable setting kept s (selfPointer id) := by
  unfold selfPointer
  refine runnable_typeOfSelf.bind hs fun _ _ _ _ _ => goes_read outcome_program ?_
  dsimp only
  split
  · split
    · split
      · exact runnable_pure _
      · exact goes_defectAt ..
    · exact goes_problemAt ..
  · exact goes_problemAt ..

theorem runnable_walkSamePointer (hs : Ready kept s) (hid : s.Has id) :
    Runnable setting kept s (walkSamePointer id) :=
  (runnable_selfPointer hs id).bind hs fun _ _ hl _ _ => runnable_giveType (hl.has hid) _

theorem runnable_walkPointerGet (hs : Ready kept s) (hid : s.Has id) :
    Runnable setting kept s (walkPointerGet id) :=
  (runnable_selfPointer hs id).bind hs fun _ _ hl _ _ => runnable_giveType (hl.has hid) _

theorem runnable_walkPointerSet (hs : Ready kept s) (hid : s.Plain id) :
    Runnable setting kept s (walkPointerSet id) := by
  unfold walkPointerSet
  refine (runnable_selfPointer hs id).bind hs fun _ s₁ hl₁ hs₁ _ => ?_
  refine (runnable_operand id "value").bind hs₁ fun _ _ hl₂ _ _ => ?_
  exact runnable_deriveFrom (hl₂.plain (hl₁.plain hid)) _

theorem runnable_walkPointerCast (hs : Ready kept s) (hid : s.Has id) :
    Runnable setting kept s (walkPointerCast id) := by
  unfold walkPointerCast
  refine (runnable_operand id "type").bind hs fun _ s₁ hl₁ hs₁ _ => goes_read outcome_program ?_
  split
  · exact runnable_pure _
  · refine (runnable_updateTypes (Types.acts_apply ..)).bind hs₁ fun _ _ hl₂ _ _ => ?_
    exact runnable_giveType (hl₂.has (hl₁.has hid)) _

end TypeFlow.Infer

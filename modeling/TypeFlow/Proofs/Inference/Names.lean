import TypeFlow.Proofs.Inference.Steps

/-!
# Constants, variables and assignments run

What is walked here has been lowered before: types and values by what they are parts of, and the
values of constants by where these were declared.
-/

namespace TypeFlow.Infer
variable {setting : Setting} {kept : Kept} {s s' : WalkState} {walk : Step} {id : ExprId}

/-! ### Constants -/

theorem runnable_denotedType (hw : Walks setting walk) (hs : Ready kept s) (hid : s.Has id) :
    Runnable setting kept s (denotedType walk id) := by
  unfold denotedType
  refine (hw kept s id hs hid).bind hs fun _ s' _ hs' _ => ?_
  refine goes_read outcome_program ?_
  split
  · split
    · exact runnable_pure _
    · exact goes_problemAt ..
  · exact goes_problemAt ..

/-- A step runs in a frame without variables. -/
theorem runnable_bareFrame {x : Infer Unit} (hs : Ready kept s) (scope : Option TypeId)
    (enclosing : List TypeId) (hx : ∀ s', s.Later s' → Ready none s' → Runnable setting none s' x) :
    Runnable setting kept s (inFrame { scope, enclosing } x) := by
  have hfits : (Region.own { scope, enclosing }).Fits s :=
    ⟨fun _ _ h => (nomatch h), fun _ h => nomatch h⟩
  exact runnable_inFrame hs hfits fun hs' => hx _ (.withFrame ..) hs'

theorem outcome_observing (x : Infer Unit) : outcome (evaluateConstant.observing x) setting s =
    (.ok (x.outcome setting s).1, (x.outcome setting s).2) := rfl

/-- However the walk of its value ends, a pending constant is done afterwards. -/
theorem outcome_evaluateConstant {const : ConstantId} (reference : ExprId)
    {result : Except Failure Unit} (hpending : (s.program.constant const).state = .pending)
    (hvalue : (inFrame { scope := (s.program.constant const).scope, enclosing :=
      (s.program.constant const).enclosing }
      (walk (s.program.constant const).value)).outcome setting
        (s.withProgram (s.program.beginConstant const)) = (result, s')) :
    (evaluateConstant walk reference const).outcome setting s =
      (result.mapError (mapFailure (chain (s.program.constant const).value
          (s.program.location (s.program.constant const).value)
          (.evaluatingConstant (s.program.qualifiedName const)))),
        s'.withProgram (s'.program.endConstant const)) := by
  unfold evaluateConstant
  rw [outcome_bind, outcome_program]
  dsimp only
  rw [hpending]
  dsimp only
  rw [outcome_bind, outcome_modifyProgram]
  dsimp only
  rw [outcome_bind, outcome_locationOf]
  dsimp only
  rw [outcome_bind, outcome_observing]
  rw [show { s.program.setConstantState const .evaluating with evaluating :=
    const :: s.program.evaluating } = s.program.beginConstant const from rfl, hvalue]
  dsimp only
  rw [outcome_bind, outcome_modifyProgram]
  rcases result with (_ | _) | _ <;> rfl

theorem runnable_constantValue (hw : Walks setting walk) (hs : Ready kept s) {const : ConstantId}
    (hpending : (s.program.constant const).state = .pending) :
    Runnable setting kept (s.withProgram (s.program.beginConstant const))
      (inFrame { scope := (s.program.constant const).scope, enclosing :=
          (s.program.constant const).enclosing }
        (walk (s.program.constant const).value)) := by
  have hvalue : s.Has (s.program.constant const).value := by
    refine hs.sound.program.value_lt (Nat.lt_of_not_le fun hle => ?_)
    rw [Program.constant, Array.getElem?_eq_none hle] at hpending
    cases hpending
  obtain ⟨hl, hp⟩ := hs.sound.program.beginConstant const
  obtain ⟨hl, hsound⟩ := hs.sound.withProgram hl hp
  refine runnable_bareFrame ⟨hsound, hs.within⟩ _ _ fun s' hl' hs' => ?_
  exact hw none s' _ hs' (hl'.has (hl.has hvalue))

theorem runnable_evaluateConstant (hw : Walks setting walk) (hs : Ready kept s) (reference : ExprId)
    (const : ConstantId) : Runnable setting kept s (evaluateConstant walk reference const) := by
  rcases hstate : (s.program.constant const).state with _ | _ | _
  · have hvalue := goes_iff.mp (runnable_constantValue hw hs hstate)
    rcases hout : (inFrame _ (walk _)).outcome setting _ with ⟨result, s'⟩
    rw [hout] at hvalue
    have hends := outcome_evaluateConstant reference hstate hout
    cases result with
    | error e => exact goes_of_error hends (.evaluation hstate hvalue)
    | ok a => exact goes_of_ok hends (.evaluation hstate hvalue.1) trivial
  · unfold evaluateConstant
    refine goes_read outcome_program ?_
    dsimp only
    rw [hstate]
    exact goes_problemAt ..
  · unfold evaluateConstant
    refine goes_read outcome_program ?_
    dsimp only
    rw [hstate]
    exact runnable_pure _

theorem runnable_evaluateRemaining (hw : Walks setting walk) (hs : Ready kept s) :
    Runnable setting kept s (evaluateRemaining walk) := by
  unfold evaluateRemaining
  refine goes_read outcome_program (runnable_forM _ hs fun const _ s' _ hs' => ?_)
  refine goes_read outcome_program ?_
  dsimp only
  split
  · exact runnable_evaluateConstant hw hs' _ const
  · exact runnable_pure _

theorem runnable_walkPath (hw : Walks setting walk) (hs : Ready kept s) (hid : s.Plain id)
    (names : List String) (fromRoot : Bool) :
    Runnable setting kept s (walkPath walk id names fromRoot) := by
  unfold walkPath
  refine goes_read outcome_types (runnable_nameScope.bind hs fun _ s' hl hs' _ => ?_)
  split
  · exact (runnable_metaclassOf _).bind hs' fun _ _ hl' _ _ =>
      runnable_giveType (hl'.has (hl.has hid.has)) _
  · refine (runnable_evaluateConstant hw hs' id _).bind hs' fun _ s'' hl' _ _ => ?_
    exact goes_read outcome_program (runnable_deriveFrom (hl'.plain (hl.plain hid)) _)
  · exact goes_problemAt ..

theorem runnable_constantHolder (hs : Ready kept s) (target : ExprId) (path : List String) :
    Runnable setting kept s (constantHolder target path) := by
  unfold constantHolder
  split
  · exact runnable_innermostType
  · refine goes_read outcome_types (runnable_nameScope.bind hs fun _ _ _ _ _ => ?_)
    split
    · exact runnable_pure _
    · exact goes_problemAt ..

theorem runnable_declareConstant (hs : Ready kept s) {target value : ExprId} (hid : s.Plain id)
    (htarget : s.Plain target) (hvalue : s.Has value) (names : List String) :
    Runnable setting kept s (declareConstant id target names value) := by
  unfold declareConstant
  split
  · exact goes_defectAt ..
  · refine (runnable_constantHolder hs target _).bind hs fun _ s' hl hs' _ => ?_
    refine goes_read outcome_types (goes_check (goes_read outcome_frame ?_))
    refine Goes.bind (goes_act (Q := fun _ _ => True) (outcome_modifyProgram _)
      (.constant ?_ rfl) trivial) hs' fun _ s'' hl' hs'' _ => ?_
    · exact hl.has hvalue
    · refine goes_read (outcome_nodeOf value) ?_
      refine (runnable_deriveFrom (hl'.plain (hl.plain htarget)) _).bind hs'' fun _ _ hl'' _ _ => ?_
      exact runnable_deriveFrom (hl''.plain (hl'.plain (hl.plain hid))) _

/-! ### Variables -/

theorem runnable_walkVar (hs : Ready kept s) (hid : s.Plain id) (name : String) :
    Runnable setting kept s (walkVar id name) := by
  unfold walkVar
  refine (goes_localVar hs name).bind hs fun var s' hl hs' _ => goes_read outcome_frame ?_
  dsimp only
  split
  · refine (goes_addNode hs' _).bind hs' fun _ s₂ hl₂ hs₂ hslot => ?_
    refine (runnable_bind hslot _).bind hs₂ fun _ _ hl₃ hs₃ _ => ?_
    refine (runnable_deriveFrom (hl₃.plain (hl₂.plain (hl.plain hid))) _).bind
      hs₃ fun _ _ _ _ _ => ?_
    exact goes_read outcome_program (runnable_setExprGuard ..)
  · refine (runnable_deriveFrom (hl.plain hid) _).bind hs' fun _ _ _ _ _ => ?_
    exact goes_read outcome_program (runnable_setExprGuard ..)

theorem runnable_instanceVarHolder (hs : Ready kept s) (id : ExprId) :
    Runnable setting kept s (instanceVarHolder id) := by
  unfold instanceVarHolder
  refine runnable_typeOfSelf.bind hs fun _ _ _ _ _ => goes_check (goes_read outcome_types ?_)
  dsimp only
  split
  · exact goes_read (outcome_nameOf _) (goes_problemAt_bind ..)
  · exact runnable_pure _

theorem goes_instanceVar (hs : Ready kept s) (id : ExprId) (name : String) :
    Goes setting kept s (instanceVar id name) fun node s' => s'.program.Slot node := by
  unfold instanceVar
  refine (runnable_instanceVarHolder hs id).bind hs fun owner s' _ hs' _ => ?_
  have hvar : Act kept true s' _ := .instanceVar s' owner name
  have hslot := hs'.sound.program.slot_instanceVarNode owner name
  obtain ⟨-, hp⟩ := hs'.sound.program.instanceVarNode owner name
  simp only [goes_iff, outcome_bind, outcome_updateProgram, outcome_ofBinding]
  unfold Program.instanceVarFor
  generalize s'.program.instanceVarNode owner name = r at hvar hslot hp
  obtain ⟨node, p⟩ := r
  dsimp only at hvar hslot hp ⊢
  by_cases hassigned : p.isAssignedAtStart owner name = true
  · simp only [hassigned, if_true]
    exact ⟨.act hvar, hslot⟩
  · -- the variable may be read before it is set
    obtain ⟨hl, -⟩ := hp.bind hslot.ne_nil [Program.nilNode]
    have hbind : Act kept _ (s'.withProgram p) _ := .bindSlot [Program.nilNode] hslot
    revert hbind hl
    unfold wentWell afterwards
    rw [WalkState.withProgram_program, if_neg hassigned]
    rcases p.onNetwork (Binding.bind node [Program.nilNode]) with ⟨_ | a, p⟩
    · exact fun _ hbind => .trans (.act hvar) (.act hbind)
    · exact fun hl hbind => ⟨.trans (.act hvar) (.act hbind), hl.slot hslot⟩

theorem runnable_walkInstanceVar (hs : Ready kept s) (hid : s.Plain id) (name : String) :
    Runnable setting kept s (walkInstanceVar id name) :=
  (goes_instanceVar hs id name).bind hs fun _ _ hl _ _ => runnable_deriveFrom (hl.plain hid) _

theorem runnable_walkGlobalVar (hid : s.Plain id) (name : String) :
    Runnable setting kept s (walkGlobalVar id name) := by
  unfold walkGlobalVar
  refine goes_read outcome_program ?_
  split
  · exact runnable_deriveFrom hid _
  · exact goes_problemAt ..

theorem goes_globalVar (hs : Ready kept s) (name : String) :
    Goes setting kept s (globalVar name) fun node s' => s'.program.Slot node := by
  unfold globalVar
  refine goes_read outcome_program ?_
  split
  · rename_i hn
    exact goes_pure (hs.sound.program.slots _ (.global hn))
  · refine (goes_addVar hs).bind hs fun node s' _ hs' hslot => ?_
    have hinsert : Runnable setting kept s'
        (modifyProgram fun p => { p with globals := p.globals.insert name node }) :=
      goes_act (outcome_modifyProgram _) (.global name hslot) trivial
    exact hinsert.bind hs' fun _ _ hl _ _ => goes_pure (hl.program.slot hslot)

theorem runnable_walkDeclareVar (hw : Walks setting walk) (hs : Ready kept s) {type : ExprId}
    (hid : s.Plain id) (htype : s.Has type) (name : String) :
    Runnable setting kept s (walkDeclareVar walk id name type) := by
  unfold walkDeclareVar
  refine (runnable_denotedType hw hs htype).bind hs fun _ s₁ hl₁ hs₁ _ => ?_
  refine (goes_addValue hs₁ _).bind hs₁ fun _ s₂ hl₂ hs₂ _ => ?_
  refine (goes_localVar hs₂ name).bind hs₂ fun var s₃ hl₃ hs₃ hslot => ?_
  refine (runnable_bind hslot _).bind hs₃ fun _ s₄ hl₄ hs₄ _ => ?_
  refine (runnable_touch (.freeze _ var)).bind hs₄ fun _ _ hl₅ _ _ => ?_
  exact runnable_deriveFrom (hl₅.plain (hl₄.plain (hl₃.plain (hl₂.plain (hl₁.plain hid))))) _

/-! ### Assignments -/

theorem goes_targetVar (hs : Ready kept s) (target : ExprId) (sourceGuard : Option Guard)
    (c : Construct ExprId) : Goes setting kept s (bindTarget.targetVar target sourceGuard c)
      fun r s' => s'.program.Slot r.1 ∧ c.isCall = false := by
  unfold bindTarget.targetVar
  split
  · refine (goes_localVar hs _).bind hs fun var s' _ hs' hslot => ?_
    exact (runnable_setGuard var _).bind hs' fun _ _ hl _ _ =>
      goes_pure ⟨hl.program.slot hslot, rfl⟩
  · exact (goes_instanceVar hs target _).bind hs fun _ _ _ _ hslot => goes_pure ⟨hslot, rfl⟩
  · exact (goes_globalVar hs _).bind hs fun _ _ _ _ hslot => goes_pure ⟨hslot, rfl⟩
  · exact goes_problemAt ..

theorem runnable_bindTarget (hs : Ready kept s) {target : ExprId} (htarget : s.Has target)
    (source : NodeId) (sourceGuard : Option Guard) :
    Runnable setting kept s (bindTarget target source sourceGuard) := by
  unfold bindTarget
  refine goes_read (outcome_construct target) ?_
  refine (goes_targetVar hs target sourceGuard _).bind hs fun r s₁ hl₁ hs₁ ⟨hslot, hplain⟩ => ?_
  obtain ⟨var, guard⟩ := r
  refine (runnable_deriveFrom (hl₁.plain ⟨htarget, hplain⟩) _).bind hs₁ fun _ s₂ hl₂ hs₂ _ => ?_
  exact (runnable_bind (hl₂.program.slot hslot) _).bind hs₂ fun _ _ _ _ _ => runnable_pure _

theorem runnable_assigning {x : Infer Unit} {target : ExprId} (hx : Runnable setting kept s x) :
    Runnable setting kept s (assigning id target x) := by
  unfold assigning
  exact goes_read (outcome_locationOf id) (goes_read outcome_program hx.mapError)

theorem runnable_walkAssign (hw : Walks setting walk) (hs : Ready kept s) {target value : ExprId}
    (hid : s.Plain id) (htarget : s.Has target) (hvalue : s.Has value) :
    Runnable setting kept s (walkAssign walk id target value) := by
  unfold walkAssign
  refine goes_read (outcome_construct target) ?_
  split
  · rename_i hpath
    exact runnable_declareConstant hs hid ⟨htarget, by rw [hpath]; rfl⟩ hvalue _
  · refine (hw kept s value hs hvalue).bind hs fun _ s₁ hl₁ hs₁ _ => ?_
    refine goes_read (outcome_nodeOf value)
      (goes_read (outcome_guardOf value) (runnable_assigning ?_))
    refine (runnable_deriveFrom (hl₁.plain hid) _).bind hs₁ fun _ s₂ hl₂ hs₂ _ => ?_
    refine goes_read (outcome_nodeOf id) ?_
    refine (runnable_bindTarget hs₂ (hl₂.has (hl₁.has htarget)) _ _).bind hs₂ fun _ _ _ _ _ => ?_
    split
    · exact runnable_setExprGuard ..
    · exact runnable_pure _

theorem runnable_walkMultiAssign (hw : Walks setting walk) (hs : Ready kept s)
    {targets values : List ExprId} (hid : s.Plain id) (htargets : ∀ i ∈ targets, s.Has i)
    (hvalues : ∀ i ∈ values, s.Has i) :
    Runnable setting kept s (walkMultiAssign walk id targets values) := by
  have hzip : ∀ pair ∈ targets.zip values, s.Has pair.1 ∧ s.Has pair.2 := fun pair hp =>
    ⟨htargets _ (List.of_mem_zip hp).1, hvalues _ (List.of_mem_zip hp).2⟩
  unfold walkMultiAssign
  refine goes_check ?_
  refine (runnable_forM _ hs fun pair hp s' hl hs' => ?_).bind hs fun _ s₁ hl₁ hs₁ _ => ?_
  · refine goes_read (outcome_construct _) ?_
    split
    · exact runnable_pure _
    · exact hw kept s' _ hs' (hl.has (hzip pair hp).2)
  · refine (runnable_forM _ hs₁ fun pair hp s' hl hs' => ?_).bind hs₁ fun _ s₂ hl₂ _ _ => ?_
    · have htarget : s'.Has pair.1 := hl.has (hl₁.has (hzip pair hp).1)
      have hvalue : s'.Has pair.2 := hl.has (hl₁.has (hzip pair hp).2)
      refine goes_read (outcome_construct _) ?_
      split
      · rename_i hpath
        exact runnable_declareConstant hs' (hl.plain (hl₁.plain hid))
          ⟨htarget, by rw [hpath]; rfl⟩ hvalue _
      · refine goes_read (outcome_nodeOf _) (goes_read (outcome_guardOf _) ?_)
        exact (runnable_bindTarget hs' htarget _ _).bind hs' fun _ _ _ _ _ => runnable_pure _
    · exact runnable_giveType (hl₂.has (hl₁.has hid.has)) _

end TypeFlow.Infer

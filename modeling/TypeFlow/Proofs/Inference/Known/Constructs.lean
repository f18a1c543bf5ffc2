import TypeFlow.Proofs.Inference.Known.Steps

/-!
# Constructs uphold what is proper

What is done for each construct upholds what is proper if the walk of its parts does. What it binds
are nodes of expressions, and nodes that it has asked for: those of variables, and new ones.
-/

namespace TypeFlow.Infer
variable {α : Type} {setting : Setting} {s : WalkState} {walk : Step} {node : NodeId}

/-! ### Constants -/

theorem proceeds_constantHolder (target : ExprId) (path : List String) :
    Proceeds setting s (constantHolder target path) := by
  unfold constantHolder
  split
  · exact proceeds_of_reads reads_innermostType
  · refine upholds_read reads_types (upholds_read reads_nameScope ?_)
    split
    · exact proceeds_pure _
    · exact upholds_problemAt ..

theorem proceeds_addConstant (c : Constant) :
    Proceeds setting s (modifyProgram fun p => p.addConstant c) := by
  refine upholds_updateProgram (fun hp => ?_) fun _ => trivial
  have ht :=
    Types.keepsVars_setName s.program.types c.owner c.name (.const ⟨s.program.constants.size⟩)
  obtain ⟨hages, hproper⟩ := hp.types ht
  obtain ⟨hages', hproper'⟩ := hproper.records (p := s.program.addConstant c) rfl rfl rfl rfl
  exact ⟨hages.trans hages', hproper'⟩

theorem proceeds_declareConstant (id target : ExprId) (names : List String) (value : ExprId) :
    Proceeds setting s (declareConstant id target names value) := by
  unfold declareConstant
  split
  · exact upholds_defectAt ..
  · refine (proceeds_constantHolder target _).bind fun owner s _ _ _ => upholds_read reads_types ?_
    dsimp only
    refine upholds_check
      (upholds_read reads_frame ((proceeds_addConstant _).bind fun _ _ _ _ _ => ?_))
    refine upholds_read (reads_nodeOf value) ((proceeds_deriveFrom ..).bind fun _ _ _ _ _ => ?_)
    exact proceeds_deriveFrom ..

section
variable (hw : ∀ id s, Proceeds setting s (walk id))
include hw

theorem proceeds_denotedType (id : ExprId) : Proceeds setting s (denotedType walk id) := by
  refine (hw id s).bind fun _ _ _ _ _ => upholds_read reads_program ?_
  split
  · split
    · exact proceeds_pure _
    · exact upholds_problemAt ..
  · exact upholds_problemAt ..

/-- The value of a constant is walked in a frame without variables. -/
theorem proceeds_evaluateConstant (reference : ExprId) (const : ConstantId) :
    Proceeds setting s (evaluateConstant walk reference const) := by
  rcases hstate : (s.program.constant const).state with _ | _ | _
  · have hbegin : s.Proper → s.Ages (s.withProgram (s.program.beginConstant const)) ∧
        (s.withProgram (s.program.beginConstant const)).Proper :=
          fun hp => hp.records rfl rfl rfl rfl
    have hvalue : Proceeds setting (s.withProgram (s.program.beginConstant const))
        (inFrame { scope := (s.program.constant const).scope, enclosing :=
          (s.program.constant const).enclosing }
          (walk (s.program.constant const).value)) := proceeds_inFrame (hw _ _) nofun nofun
    rcases hout : (inFrame _ (walk _)).outcome setting _ with ⟨result, m⟩
    refine ⟨fun hp => ?_, fun _ _ _ _ => trivial⟩
    rw [outcome_evaluateConstant reference hstate hout]
    obtain ⟨hages, hp₁⟩ := hbegin hp
    have hvalue := hvalue.state hp₁
    rw [hout] at hvalue
    obtain ⟨hages', hp₂⟩ := hvalue.2.records (p := m.program.endConstant const) rfl rfl rfl rfl
    exact ⟨hages.trans (hvalue.1.trans hages'), hp₂⟩
  all_goals
    unfold evaluateConstant
    refine upholds_read reads_program ?_
    dsimp only
    rw [hstate]
  · exact upholds_problemAt ..
  · exact proceeds_pure _

theorem proceeds_evaluateRemaining : Proceeds setting s (evaluateRemaining walk) := by
  refine upholds_read reads_program (proceeds_forM _ fun const s => upholds_read reads_program ?_)
  dsimp only
  split
  · exact proceeds_evaluateConstant hw _ const
  · exact proceeds_pure _

theorem proceeds_walkPath (id : ExprId) (names : List String) (fromRoot : Bool) :
    Proceeds setting s (walkPath walk id names fromRoot) := by
  refine upholds_read reads_types (upholds_read reads_nameScope ?_)
  split
  · exact (proceeds_metaclassOf _).bind fun _ _ _ _ _ => proceeds_giveType ..
  · refine (proceeds_evaluateConstant hw id _).bind fun _ _ _ _ _ => upholds_read reads_program ?_
    exact proceeds_deriveFrom ..
  · exact upholds_problemAt ..

end

/-! ### Variables -/

theorem proceeds_walkVar (id : ExprId) (name : String) : Proceeds setting s (walkVar id name) := by
  have hguard : ∀ var s, Proceeds setting s (do
      let carried := (← program).graph.guardOf var
      setExprGuard id (Guard.both (some (.notNil name)) carried)) := fun var s =>
    upholds_read reads_program (proceeds_setExprGuard ..)
  refine (upholds_localVar name).bind fun var _ _ _ _ => upholds_read reads_frame ?_
  dsimp only
  split
  · refine (upholds_addNode _).bind fun narrowed _ _ _ hn =>
      (proceeds_bind hn _).bind fun _ _ _ _ _ => ?_
    exact (proceeds_deriveFrom ..).bind fun _ _ _ _ _ => hguard var _
  · exact (proceeds_deriveFrom ..).bind fun _ _ _ _ _ => hguard var _

/-- The node may be bound to `Nil` before it is answered. -/
theorem upholds_instanceVarFor (owner : TypeId) (name : String) :
    Upholds setting s (do ofBinding (← updateProgram fun p => p.instanceVarFor owner name))
      fun node s' => s'.Loose node := by
  have hfor : s.Proper → s.Ages (s.withProgram (s.program.instanceVarFor owner name).2) ∧
      (s.withProgram (s.program.instanceVarFor owner name).2).Proper ∧
        ∀ node, (s.program.instanceVarFor owner name).1 = .ok node →
          (s.withProgram (s.program.instanceVarFor owner name).2).Loose node := by
    intro hp
    obtain ⟨hages, hproper, hloose⟩ := hp.instanceVarNode owner name
    unfold Program.instanceVarFor
    generalize s.program.instanceVarNode owner name = r at hages hproper hloose
    obtain ⟨var, p⟩ := r
    dsimp only at hages hproper hloose ⊢
    split
    · exact ⟨hages, hproper, fun node hn => by cases hn; exact hloose⟩
    · have hbound := hproper.bind hloose [Program.nilNode]
      simp only [WalkState.withProgram_program, WalkState.withProgram_withProgram,
        afterwards] at hbound
      generalize p.onNetwork (Binding.bind var [Program.nilNode]) = bound at hbound
      obtain ⟨result, p'⟩ := bound
      obtain ⟨hages', hproper'⟩ := hbound
      refine ⟨hages.trans hages', hproper', fun node hn => ?_⟩
      rcases result with e | a <;> cases hn
      exact hages'.loose hloose
  refine (upholds_updateProgram (fun hp => ⟨(hfor hp).1, (hfor hp).2.1⟩) fun hp =>
    (hfor hp).2.2).bind fun r _ _ _ hr => upholds_ofBinding hr

theorem upholds_instanceVar (id : ExprId) (name : String) :
    Upholds setting s (instanceVar id name) fun node s' => s'.Loose node := by
  have hholder : Proceeds setting s (instanceVarHolder id) := by
    refine proceeds_typeOfSelf.bind fun owner _ _ _ _ => upholds_check (upholds_read reads_types ?_)
    split
    · exact upholds_read (reads_nameOf _) (upholds_problemAt_bind ..)
    · exact proceeds_pure _
  exact hholder.bind fun owner _ _ _ _ => upholds_instanceVarFor owner name

theorem proceeds_walkInstanceVar (id : ExprId) (name : String) :
    Proceeds setting s (walkInstanceVar id name) :=
  (upholds_instanceVar id name).bind fun _ _ _ _ _ => proceeds_deriveFrom ..

theorem proceeds_walkGlobalVar (id : ExprId) (name : String) :
    Proceeds setting s (walkGlobalVar id name) := by
  refine upholds_read reads_program ?_
  split
  · exact proceeds_deriveFrom ..
  · exact upholds_problemAt ..

theorem proceeds_walkDeclareVar (hw : ∀ id s, Proceeds setting s (walk id)) (id : ExprId)
    (name : String) (type : ExprId) : Proceeds setting s (walkDeclareVar walk id name type) := by
  refine (proceeds_denotedType hw type).bind fun _ _ _ _ _ =>
    (upholds_addValue _).bind fun _ _ _ _ _ => ?_
  refine (upholds_localVar name).bind fun var _ _ _ hn =>
    (proceeds_bind hn.toLoose _).bind fun _ _ _ _ _ => ?_
  exact (proceeds_freeze _).bind fun _ _ _ _ _ => proceeds_deriveFrom ..

/-! ### Assignments -/

theorem upholds_targetVar (target : ExprId) (sourceGuard : Option Guard) (c : Construct ExprId) :
    Upholds setting s (bindTarget.targetVar target sourceGuard c) fun r s' => s'.Loose r.1 := by
  unfold bindTarget.targetVar
  split
  · refine (upholds_localVar _).bind fun var _ _ _ hn =>
      (proceeds_setGuard ..).bind fun _ _ hl _ _ => ?_
    exact upholds_pure fun _ => hl.loose hn.toLoose
  · exact (upholds_instanceVar ..).bind fun _ _ _ _ hn => upholds_pure fun _ => hn
  · exact (upholds_globalVar _).bind fun _ _ _ _ hn => upholds_pure fun _ => hn
  · exact upholds_problemAt ..

theorem proceeds_bindTarget (target : ExprId) (source : NodeId) (sourceGuard : Option Guard) :
    Proceeds setting s (bindTarget target source sourceGuard) := by
  refine upholds_read (reads_construct target)
    ((upholds_targetVar target sourceGuard _).bind fun r _ _ _ hn => ?_)
  refine (proceeds_deriveFrom ..).bind fun _ _ hl _ _ =>
    (proceeds_bind (hl.loose hn) _).bind fun _ _ _ _ _ => ?_
  exact proceeds_pure _

section
variable (hw : ∀ id s, Proceeds setting s (walk id))
include hw

theorem proceeds_walkAssign (id target value : ExprId) :
    Proceeds setting s (walkAssign walk id target value) := by
  refine upholds_read (reads_construct target) ?_
  split
  · exact proceeds_declareConstant ..
  · refine (hw value s).bind fun _ _ _ _ _ => upholds_read (reads_nodeOf value)
      (upholds_read (reads_guardOf value) ?_)
    refine upholds_read (reads_locationOf id) (upholds_read reads_program (Upholds.mapError ?_ _))
    refine (proceeds_deriveFrom ..).bind fun _ _ _ _ _ => upholds_read (reads_nodeOf id) ?_
    refine (proceeds_bindTarget ..).bind fun guard _ _ _ _ => ?_
    split
    · exact proceeds_setExprGuard ..
    · exact proceeds_pure _

theorem proceeds_walkMultiAssign (id : ExprId) (targets values : List ExprId) :
    Proceeds setting s (walkMultiAssign walk id targets values) := by
  unfold walkMultiAssign
  dsimp only
  refine upholds_check ?_
  refine (proceeds_forM _ fun pair s => ?_).bind fun _ _ _ _ _ =>
    (proceeds_forM _ fun pair s => ?_).bind fun _ _ _ _ _ => ?_
  · refine upholds_read (reads_construct _) ?_
    split
    · exact proceeds_pure _
    · exact hw _ s
  · refine upholds_read (reads_construct _) ?_
    split
    · exact proceeds_declareConstant ..
    · refine upholds_read (reads_nodeOf _) (upholds_read (reads_guardOf _) ?_)
      exact (proceeds_bindTarget ..).bind fun _ _ _ _ _ => proceeds_pure _
  · exact proceeds_giveType ..

end

/-! ### Sequences and merging -/

/-- The variable gets a node that has just been added. -/
theorem proceeds_mergeWithNil (name : String) : Proceeds setting s (mergeWithNil name) := by
  refine upholds_read reads_frame ?_
  split
  · exact proceeds_pure _
  · refine upholds_addVar.bind fun merged _ _ _ hn =>
      (proceeds_bind hn.toLoose _).bind fun _ _ hl _ _ => ?_
    exact proceeds_insertVar name (hl.joining hn)

theorem proceeds_mergeCreatedVars (before : List String) (paths : List (Option ExprId)) :
    Proceeds setting s (mergeCreatedVars before paths) :=
  upholds_read reads_program
    (upholds_read reads_frame (proceeds_forM _ fun name _ => proceeds_mergeWithNil name))

section
variable (hw : ∀ id s, Proceeds setting s (walk id))
include hw

theorem proceeds_walkStatements (id : ExprId) (walked : Nat) (statements : List ExprId) :
    Proceeds setting s (walkStatements walk id walked statements) := by
  induction statements generalizing s walked with
  | nil => exact proceeds_pure _
  | cons statement rest ih =>
    cases rest with
    | nil => exact (hw statement s).bind fun _ _ _ _ _ => proceeds_pure _
    | cons next rest =>
      refine (hw statement s).bind fun _ s₁ _ _ _ => upholds_read (reads_typeOf statement) ?_
      split
      · refine Upholds.bind (Q := fun _ _ => True) ?_ fun _ _ _ _ _ => proceeds_pure _
        exact upholds_updateProgram (fun hp => hp.truncate id (walked + 1)) fun _ => trivial
      · exact ih (walked + 1)

theorem proceeds_walkSequence (id : ExprId) (items : List ExprId) :
    Proceeds setting s (walkSequence walk id items) :=
  (proceeds_walkStatements hw id 0 items).bind fun _ _ _ _ _ => upholds_read (reads_partNode _)
    (proceeds_deriveFrom ..)

/-! ### Conditionals and loops -/

theorem proceeds_walkBranches (id cond : ExprId) (onTrue onFalse : Option ExprId)
    (operator : Option ShortCircuit) :
    Proceeds setting s (walkBranches walk id cond onTrue onFalse operator) := by
  refine (hw cond s).bind fun _ _ _ _ _ => upholds_read (reads_guardOf cond)
    (upholds_read reads_frame ?_)
  refine (proceeds_option _ fun branch _ =>
    proceeds_underGuard _ (hw branch)).bind fun _ _ _ _ _ => ?_
  refine (proceeds_option _ hw).bind fun _ _ _ _ _ => upholds_read reads_program ?_
  refine (proceeds_deriveFrom ..).bind fun _ _ _ _ _ => upholds_read reads_program ?_
  extract_lets combined stop finish
  have hfinish : ∀ u s, Proceeds setting s (finish u) := by
    intro u s
    unfold finish
    split
    · split
      · exact (proceeds_modifyFrame rfl rfl).bind fun _ _ _ _ _ => proceeds_pure _
      · exact proceeds_pure _
    · exact proceeds_pure _
  split
  · exact (proceeds_setExprGuard ..).bind fun u _ _ _ _ => hfinish u _
  · exact hfinish () _

theorem proceeds_walkConditional (id cond : ExprId) (onTrue onFalse : Option ExprId)
    (operator : Option ShortCircuit) :
    Proceeds setting s (walkConditional walk id cond onTrue onFalse operator) :=
  (proceeds_walkBranches hw id cond onTrue onFalse operator).bind fun _ _ _ _ _ =>
    proceeds_mergeCreatedVars ..

theorem proceeds_walkLoop (id cond : ExprId) (body : Option ExprId) :
    Proceeds setting s (walkLoop walk id cond body) := by
  have hbody : Proceeds setting s (walkLoopBody walk id cond body) := by
    refine (hw cond s).bind fun _ _ _ _ _ => upholds_read (reads_guardOf cond)
      (upholds_read reads_frame ?_)
    refine (proceeds_inLoop id fun _ => proceeds_underGuard _ fun _ =>
      proceeds_option _ hw).bind fun _ _ _ _ _ => ?_
    exact proceeds_pure _
  refine hbody.bind fun _ _ _ _ _ => (proceeds_mergeCreatedVars ..).bind fun _ _ _ _ _ =>
    upholds_read reads_program ?_
  exact proceeds_giveType ..

theorem proceeds_walkBreak (id : ExprId) (values : List ExprId) :
    Proceeds setting s (walkBreak walk id values) := by
  refine (proceeds_forM values hw).bind fun _ _ _ _ _ => upholds_read reads_frame ?_
  dsimp only
  split
  · exact (proceeds_records rfl rfl rfl rfl).bind fun _ _ _ _ _ => proceeds_giveType ..
  · refine (upholds_breakNodeOf _).bind fun _ _ _ _ hn => upholds_read (reads_resultNodes values) ?_
    exact (proceeds_bind hn _).bind fun _ _ _ _ _ => proceeds_giveType ..
  · exact upholds_problemAt_bind ..

theorem proceeds_walkReturn (id : ExprId) (values : List ExprId) :
    Proceeds setting s (walkReturn walk id values) := by
  refine upholds_of_proper fun hp => upholds_read reads_frame ?_
  split
  · exact upholds_problemAt ..
  · rename_i result hresult
    have hn := hp.loose result (.result hresult)
    refine (proceeds_forM values hw).bind fun _ _ hl _ _ =>
      upholds_read (reads_resultNodes values) ?_
    exact (proceeds_bind (hl.loose hn) _).bind fun _ _ _ _ _ => proceeds_giveType ..

/-! ### Blocks -/

omit hw in
theorem proceeds_checkYield (id : ExprId) (values : List ExprId) (position : Nat)
    (expected : List TypeId) : Proceeds setting s (checkYield id values position expected) := by
  induction expected generalizing s position with
  | nil => exact proceeds_pure _
  | cons expected rest ih =>
    unfold checkYield
    dsimp only
    split
    · split
      · exact upholds_read (reads_nameOf _) (upholds_problemAt_bind ..)
      · exact ih _
    · refine upholds_read (reads_typeOf _) ?_
      split
      · exact ih _
      · split
        · exact upholds_read (reads_nameOf _)
            (upholds_read (reads_nameOf _) (upholds_problemAt_bind ..))
        · exact upholds_read (reads_nodeOf _) ((proceeds_freeze _).bind fun _ _ _ _ _ => ih _)

theorem proceeds_walkYield (id : ExprId) (values : List ExprId) :
    Proceeds setting s (walkYield walk id values) := by
  refine upholds_read reads_frame ?_
  split
  · exact upholds_problemAt ..
  · refine (proceeds_forM values hw).bind fun _ _ _ _ _ => upholds_read (reads_construct _) ?_
    split
    · refine upholds_read reads_frame ((proceeds_checkYield ..).bind fun _ _ _ _ _ =>
        Upholds.bind (Q := fun _ _ => True) ?_ fun _ _ _ _ _ => ?_)
      · exact proceeds_forM _ fun pair s => upholds_read (reads_partNode _) (proceeds_deriveFrom ..)
      · exact upholds_read (reads_partNode _) (proceeds_deriveFrom ..)
    · exact upholds_defectAt ..

omit hw in
/-- Parameters are variables. -/
theorem joining_blockVars (hs : s.Proper) (params : List ExprId) {vars : OrderedMap String NodeId}
    (hvars : ∀ name node, vars.get? name = some node → s.Joining node) {name : String}
    {node : NodeId} (hn : (blockVars s.program vars params).get? name = some node) :
    s.Joining node := by
  induction params generalizing vars with
  | nil => exact hvars name node hn
  | cons param rest ih =>
    refine ih (fun other found hfound => ?_) hn
    dsimp only at hfound
    split at hfound
    · rename_i hc
      rw [OrderedMap.get?_insert] at hfound
      split at hfound
      · cases hfound
        exact hs.joining_nodeOf hc
      · exact hvars other found hfound
    · exact hvars other found hfound

theorem proceeds_walkBlock (id : ExprId) (params : List ExprId) (body : Option ExprId) :
    Proceeds setting s (walkBlock walk id params body) := by
  refine upholds_read reads_program (Upholds.bind (Q := fun _ _ => True) ?_ fun _ _ _ _ _ => ?_)
  · refine (proceeds_option _ hw).within (fun hp => ?_) fun s' hp hages hp' => ?_
    · exact hp.of_frame (fun _ _ => joining_blockVars hp params fun _ _ => hp.joining) fun _ hn =>
        hp.loose _ (.result hn)
    · exact hp'.of_frame (fun _ _ hn => hages.joining (hp.joining hn)) fun _ hn =>
        hp'.loose _ (.result hn)
  · exact upholds_read (reads_partNode _) (proceeds_deriveFrom ..)

end

end TypeFlow.Infer

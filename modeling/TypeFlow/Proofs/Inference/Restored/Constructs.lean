import TypeFlow.Proofs.Inference.Restored.Steps

/-!
# Constructs give their context back

What is done for each construct restores its context if the walk of its parts does. Branches, loops
and blocks merge or drop the variables that they create, and leave those alone that there were
before.
-/

namespace TypeFlow.Infer
variable {α : Type} {setting : Setting} {walk : Step}

/-! ### Constants -/

theorem restores_denotedType (hw : ∀ id, Restores setting (walk id)) (id : ExprId) :
    Restores setting (denotedType walk id) := by
  refine (hw id).bind fun _ => restores_read (fun _ => rfl) fun p => ?_
  split
  · split
    · exact restores_pure _
    · exact restores_problemAt ..
  · exact restores_problemAt ..

theorem restores_observing {x : Infer Unit} (hx : Restores setting x) :
    Restores setting (evaluateConstant.observing x) :=
  ⟨hx.restored⟩

theorem restores_evaluateConstant (hw : ∀ id, Restores setting (walk id)) (reference : ExprId)
    (const : ConstantId) : Restores setting (evaluateConstant walk reference const) := by
  refine restores_read (fun _ => rfl) fun p => ?_
  dsimp only
  split
  · exact restores_pure _
  · exact restores_problemAt ..
  · refine restores_change (fun _ => rfl) fun _ => restores_read (fun _ => rfl) fun place => ?_
    refine (restores_observing (restores_inFrame _ (hw _).keepsDepth)).bind fun outcome => ?_
    refine restores_change (fun _ => rfl) fun _ => ?_
    split
    · exact restores_pure _
    · exact restores_fail _
    · exact restores_throw _

theorem restores_walkPath (hw : ∀ id, Restores setting (walk id)) (id : ExprId)
    (names : List String) (fromRoot : Bool) :
    Restores setting (walkPath walk id names fromRoot) := by
  refine restores_read (fun _ => rfl) fun t => restores_nameScope.bind fun scope => ?_
  split
  · exact (restores_metaclassOf _).bind fun _ => restores_giveType ..
  · refine (restores_evaluateConstant hw id _).bind fun _ =>
      restores_read (fun _ => rfl) fun _ => ?_
    exact restores_deriveFrom ..
  · exact restores_problemAt ..

theorem restores_constantHolder (target : ExprId) (path : List String) :
    Restores setting (constantHolder target path) := by
  unfold constantHolder
  split
  · exact restores_of_state_eq fun _ => rfl
  · refine restores_read (fun _ => rfl) fun t => restores_nameScope.bind fun scope => ?_
    split
    · exact restores_pure _
    · exact restores_problemAt ..

theorem restores_declareConstant (id target : ExprId) (names : List String) (value : ExprId) :
    Restores setting (declareConstant id target names value) := by
  unfold declareConstant
  split
  · exact restores_defectAt ..
  · refine (restores_constantHolder target _).bind fun owner =>
      restores_read (fun _ => rfl) fun t => ?_
    dsimp only
    refine restores_check (restores_read (fun _ => rfl) fun f => ?_)
    refine restores_change (fun _ => rfl) fun _ => restores_read (fun _ => rfl) fun node => ?_
    exact (restores_deriveFrom ..).bind fun _ => restores_deriveFrom ..

/-! ### Variables -/

theorem restores_walkVar (id : ExprId) (name : String) : Restores setting (walkVar id name) := by
  have hguard : ∀ var, Restores setting (do
      let carried := (← program).graph.guardOf var
      setExprGuard id (Guard.both (some (.notNil name)) carried)) := fun var =>
    restores_read (fun _ => rfl) fun _ => restores_setExprGuard ..
  refine (restores_localVar name).bind fun var => restores_read (fun _ => rfl) fun f => ?_
  dsimp only
  split
  · refine restores_change (fun _ => rfl) fun narrowed => (restores_bind ..).bind fun _ => ?_
    exact (restores_deriveFrom ..).bind fun _ => hguard var
  · exact (restores_deriveFrom ..).bind fun _ => hguard var

theorem restores_instanceVar (id : ExprId) (name : String) :
    Restores setting (instanceVar id name) := by
  have hholder : Restores setting (instanceVarHolder id) := by
    refine restores_typeOfSelf.bind fun owner =>
      restores_check (restores_read (fun _ => rfl) fun t => ?_)
    dsimp only
    split
    · exact restores_read (fun _ => rfl) fun _ =>
        (restores_problemAt ..).bind fun _ => restores_pure _
    · exact restores_pure _
  refine hholder.bind fun owner => (restores_updateProgram fun p => ?_).bind fun r =>
    restores_ofBinding r
  unfold Program.instanceVarFor Program.instanceVarNode
  dsimp only
  split <;> split <;> rfl

theorem restores_walkInstanceVar (id : ExprId) (name : String) :
    Restores setting (walkInstanceVar id name) :=
  (restores_instanceVar id name).bind fun _ => restores_deriveFrom ..

theorem restores_walkGlobalVar (id : ExprId) (name : String) :
    Restores setting (walkGlobalVar id name) := by
  refine restores_read (fun _ => rfl) fun p => ?_
  split
  · exact restores_deriveFrom ..
  · exact restores_problemAt ..

theorem restores_globalVar (name : String) : Restores setting (globalVar name) := by
  refine restores_read (fun _ => rfl) fun p => ?_
  split
  · exact restores_pure _
  · exact restores_addVar.bind fun _ => restores_change (fun _ => rfl) fun _ => restores_pure _

theorem restores_walkDeclareVar (hw : ∀ id, Restores setting (walk id)) (id : ExprId)
    (name : String) (type : ExprId) : Restores setting (walkDeclareVar walk id name type) := by
  refine (restores_denotedType hw type).bind fun _ => (restores_addValue _).bind fun _ => ?_
  refine (restores_localVar name).bind fun _ => (restores_bind ..).bind fun _ => ?_
  exact (restores_modifyGraph _).bind fun _ => restores_deriveFrom ..

theorem restores_bindTarget (target : ExprId) (source : NodeId) (sourceGuard : Option Guard) :
    Restores setting (bindTarget target source sourceGuard) := by
  refine restores_read (fun _ => rfl) fun c => Restores.bind ?_ fun r => ?_
  · unfold bindTarget.targetVar
    split
    · refine (restores_localVar _).bind fun _ => ?_
      exact (restores_setGuard ..).bind fun _ => restores_pure _
    · exact (restores_instanceVar ..).bind fun _ => restores_pure _
    · exact (restores_globalVar _).bind fun _ => restores_pure _
    · exact restores_problemAt ..
  · exact (restores_deriveFrom ..).bind fun _ => (restores_bind ..).bind fun _ => restores_pure _

theorem restores_walkAssign (hw : ∀ id, Restores setting (walk id)) (id target value : ExprId) :
    Restores setting (walkAssign walk id target value) := by
  refine restores_read (fun _ => rfl) fun c => ?_
  split
  · exact restores_declareConstant ..
  · refine (hw value).bind fun _ => restores_read (fun _ => rfl) fun node =>
      restores_read (fun _ => rfl) fun _ => ?_
    refine restores_read (fun _ => rfl) fun _ => restores_read (fun _ => rfl) fun _ =>
      Restores.mapError ?_ _
    refine (restores_deriveFrom ..).bind fun _ => restores_read (fun _ => rfl) fun _ => ?_
    refine (restores_bindTarget ..).bind fun guard => ?_
    split
    · exact restores_setExprGuard ..
    · exact restores_pure _

theorem restores_walkMultiAssign (hw : ∀ id, Restores setting (walk id)) (id : ExprId)
    (targets values : List ExprId) : Restores setting (walkMultiAssign walk id targets values) := by
  unfold walkMultiAssign
  dsimp only
  refine restores_check ?_
  refine (restores_forM _ fun pair _ => ?_).bind fun _ =>
    (restores_forM _ fun pair _ => ?_).bind fun _ => ?_
  · refine restores_read (fun _ => rfl) fun c => ?_
    split
    · exact restores_pure _
    · exact hw _
  · refine restores_read (fun _ => rfl) fun c => ?_
    split
    · exact restores_declareConstant ..
    · refine restores_read (fun _ => rfl) fun _ => restores_read (fun _ => rfl) fun _ => ?_
      exact (restores_bindTarget ..).bind fun _ => restores_pure _
  · exact restores_giveType ..

/-! ### Sequences and merging -/

theorem restores_walkStatements (hw : ∀ id, Restores setting (walk id)) (id : ExprId) (walked : Nat)
    (statements : List ExprId) : Restores setting (walkStatements walk id walked statements) := by
  induction statements generalizing walked with
  | nil => exact restores_pure _
  | cons statement rest ih =>
    cases rest with
    | nil => exact (hw statement).bind fun _ => restores_pure _
    | cons next rest =>
      refine (hw statement).bind fun _ => restores_read (fun _ => rfl) fun type => ?_
      split
      · exact restores_change (fun _ => rfl) fun _ => restores_pure _
      · exact ih _

theorem restores_walkSequence (hw : ∀ id, Restores setting (walk id)) (id : ExprId)
    (items : List ExprId) : Restores setting (walkSequence walk id items) := by
  refine (restores_walkStatements hw id 0 items).bind fun _ =>
    restores_read (fun _ => rfl) fun _ => ?_
  exact restores_deriveFrom ..

/-- A variable that there was not at first is given another node. -/
theorem restored_mergeWithNil {s m : WalkState} (h : s.Restored m) {name : String}
    (hname : name ∉ s.frame.vars.keys) : s.Restored ((mergeWithNil name).outcome setting m).2 := by
  unfold mergeWithNil
  rw [outcome_bind, outcome_frame]
  dsimp only
  split
  · exact h
  · rename_i old _
    rw [outcome_bind, outcome_addVar]
    dsimp only
    have hm : s.Restored (m.withProgram m.program.addVar.2) := ⟨h.frame, h.depth⟩
    have hrestores : Restores setting (bind m.program.addVar.1 [old, Program.nilNode]) :=
      restores_bind ..
    have hbind := hrestores.restored (m.withProgram m.program.addVar.2)
    rw [outcome_bind]
    rcases hd : (bind m.program.addVar.1 [old, Program.nilNode]).outcome setting
      (m.withProgram m.program.addVar.2) with ⟨_ | ⟨⟩, m'⟩ <;> rw [hd] at hbind
    · exact hm.trans hbind
    · exact ⟨(hm.trans hbind).frame.insert hname _, (hm.trans hbind).depth⟩

/-- By induction on the variables that are merged. -/
theorem restored_forM_mergeWithNil {s m : WalkState} (h : s.Restored m) {names : List String}
    (hnames : ∀ name ∈ names, name ∉ s.frame.vars.keys) :
    s.Restored ((names.forM mergeWithNil).outcome setting m).2 := by
  induction names generalizing m with
  | nil => exact h
  | cons name rest ih =>
    have hname : s.Restored ((mergeWithNil name).outcome setting m).2 :=
      restored_mergeWithNil h (hnames name (by simp))
    rw [show (name :: rest).forM mergeWithNil = (mergeWithNil name >>= fun _ =>
      rest.forM mergeWithNil) from rfl, outcome_bind]
    rcases hd : (mergeWithNil name).outcome setting m with ⟨_ | ⟨⟩, m'⟩ <;> rw [hd] at hname
    · exact hname
    · exact ih hname fun other hother => hnames other (List.mem_cons_of_mem _ hother)

/-- A step answers the variables that there are at some point of it, and they are merged except
those. -/
theorem Restores.merging {x : Infer (List String)} (hx : Restores setting x)
    (hbefore : ∀ s before s', x.Does setting s before s' → s.frame.vars.keys ⊆ before)
    (paths : List (Option ExprId)) :
    Restores setting (x >>= fun before => mergeCreatedVars before paths) := by
  refine ⟨fun s => ?_⟩
  have hx := hx.restored s
  rw [outcome_bind]
  rcases h : x.outcome setting s with ⟨_ | before, m⟩ <;> rw [h] at hx
  · exact hx
  · have hkept := hbefore s before m h
    dsimp only
    unfold mergeCreatedVars
    rw [outcome_bind, outcome_program]
    dsimp only
    rw [outcome_bind, outcome_frame]
    dsimp only
    refine restored_forM_mergeWithNil hx fun name hname hmem => ?_
    have hnew := (List.mem_filter.mp (List.mem_filter.mp hname).1).2
    exact of_decide_eq_true hnew (hkept hmem)

/-! ### Conditionals and loops -/

/-- Whatever else it does, the step answers `a`. -/
structure Answers (setting : Setting) (a : α) (x : Infer α) : Prop where
  eq : ∀ s b s', x.Does setting s b s' → b = a

theorem answers_pure (a : α) : Answers setting a (pure a) :=
  ⟨fun _ _ _ hd => (does_pure.mp hd).1.symm⟩

theorem answers_bind {β : Type} {a : α} {x : Infer β} {f : β → Infer α}
    (hf : ∀ b, Answers setting a (f b)) : Answers setting a (x >>= f) := by
  refine ⟨fun s b s' hd => ?_⟩
  obtain ⟨c, m, -, hd⟩ := does_bind.mp hd
  exact (hf c).eq m b s' hd

theorem answers_when {a : α} {c : Prop} [Decidable c] {x y : Infer α} (hx : Answers setting a x)
    (hy : Answers setting a y) : Answers setting a (if c then x else y) := by
  split
  · exact hx
  · exact hy

/-- A step walks a condition and answers the variables that there are then. -/
theorem subset_of_answers {x : Infer Unit} {f : Option Guard → Frame → Infer (List String)}
    {cond : ExprId} (hx : Restores setting x)
    (hf : ∀ guard frame, Answers setting frame.vars.keys (f guard frame)) {s s' : WalkState}
    {before : List String}
    (hd : (x >>= fun _ => guardOf cond >>= fun guard => frame >>= f guard).Does
      setting s before s') :
    s.frame.vars.keys ⊆ before := by
  obtain ⟨⟨⟩, m, hcond, hd⟩ := does_bind.mp hd
  have hm := hx.restored s
  rw [show x.outcome setting s = (.ok (), m) from hcond] at hm
  rw [does_bind_of_ok (outcome_guardOf cond), does_bind_of_ok outcome_frame] at hd
  rw [(hf _ _).eq m before s' hd]
  exact OrderedMap.keys_subset_of_prefix hm.frame.vars

theorem restores_walkBranches (hw : ∀ id, Restores setting (walk id)) (id cond : ExprId)
    (onTrue onFalse : Option ExprId) (operator : Option ShortCircuit) :
    Restores setting (walkBranches walk id cond onTrue onFalse operator) := by
  refine (hw cond).bind fun _ => restores_read (fun _ => rfl) fun guard =>
    restores_read (fun _ => rfl) fun f => ?_
  refine (restores_option _ fun branch => restores_underGuard guard (hw branch)).bind fun _ => ?_
  refine (restores_option _ hw).bind fun _ => restores_read (fun _ => rfl) fun p => ?_
  refine (restores_deriveFrom ..).bind fun _ => restores_read (fun _ => rfl) fun p => ?_
  extract_lets combined stop finish
  have hfinish : ∀ u, Restores setting (finish u) := by
    intro u
    unfold finish
    split
    · split
      · exact Restores.bind (restores_modifyFrame fun frame =>
          { Frame.Restored.refl frame with guards := .single .. })
          fun _ => restores_pure _
      · exact restores_pure _
    · exact restores_pure _
  split
  · exact (restores_setExprGuard ..).bind hfinish
  · exact hfinish ()

theorem answers_walkBranches (hw : ∀ id, Restores setting (walk id)) {id cond : ExprId}
    {onTrue onFalse : Option ExprId} {operator : Option ShortCircuit} {s s' : WalkState}
    {before : List String}
    (hd : (walkBranches walk id cond onTrue onFalse operator).Does setting s before s') :
    s.frame.vars.keys ⊆ before := by
  refine subset_of_answers (hw cond) (fun guard frame => ?_) hd
  refine answers_bind fun _ => answers_bind fun _ => answers_bind fun _ => answers_bind fun _ => ?_
  refine answers_bind fun _ => ?_
  extract_lets combined stop finish
  have hfinish : ∀ u, Answers setting frame.vars.keys (finish u) := by
    intro u
    unfold finish
    split
    · exact answers_when (answers_bind fun _ => answers_pure _) (answers_pure _)
    · exact answers_pure _
  exact answers_when (answers_bind hfinish) (hfinish ())

theorem restores_walkConditional (hw : ∀ id, Restores setting (walk id)) (id cond : ExprId)
    (onTrue onFalse : Option ExprId) (operator : Option ShortCircuit) :
    Restores setting (walkConditional walk id cond onTrue onFalse operator) :=
  (restores_walkBranches hw id cond onTrue onFalse operator).merging
    (fun _ _ _ hd => answers_walkBranches hw hd) [onTrue, onFalse]

theorem restores_walkLoop (hw : ∀ id, Restores setting (walk id)) (id cond : ExprId)
    (body : Option ExprId) : Restores setting (walkLoop walk id cond body) := by
  have hbody : Restores setting (walkLoopBody walk id cond body) := by
    refine (hw cond).bind fun _ => restores_read (fun _ => rfl) fun guard =>
      restores_read (fun _ => rfl) fun f => ?_
    refine (restores_inLoop id (restores_underGuard guard (restores_option _ hw))).bind fun _ => ?_
    exact restores_pure _
  have hmerged := hbody.merging (fun _ _ _ hd => subset_of_answers (hw cond)
    (fun guard frame => answers_bind fun _ => answers_pure _) hd) [body, none]
  unfold walkLoop
  rw [← bind_assoc]
  exact hmerged.bind fun _ => restores_read (fun _ => rfl) fun p => restores_giveType ..

theorem restores_resultNodes (values : List ExprId) : Restores setting (resultNodes values) :=
  restores_of_state_eq fun _ => rfl

theorem restores_walkBreak (hw : ∀ id, Restores setting (walk id)) (id : ExprId)
    (values : List ExprId) : Restores setting (walkBreak walk id values) := by
  refine (restores_forM values fun value _ => hw value).bind fun _ =>
    restores_read (fun _ => rfl) fun f => ?_
  dsimp only
  split
  · exact restores_change (fun _ => rfl) fun _ => restores_giveType ..
  · refine restores_change (fun p => ?_) fun _ => (restores_resultNodes values).bind fun _ => ?_
    · unfold Program.breakNodeOf
      split <;> rfl
    · exact (restores_bind ..).bind fun _ => restores_giveType ..
  · exact (restores_problemAt ..).bind fun _ => restores_giveType ..

theorem restores_walkReturn (hw : ∀ id, Restores setting (walk id)) (id : ExprId)
    (values : List ExprId) : Restores setting (walkReturn walk id values) := by
  refine restores_read (fun _ => rfl) fun f => ?_
  split
  · exact restores_problemAt ..
  · refine (restores_forM values fun value _ => hw value).bind fun _ =>
      (restores_resultNodes values).bind fun _ => ?_
    exact (restores_bind ..).bind fun _ => restores_giveType ..

/-! ### Blocks -/

theorem restores_checkYield (id : ExprId) (values : List ExprId) (position : Nat)
    (expected : List TypeId) : Restores setting (checkYield id values position expected) := by
  induction expected generalizing position with
  | nil => exact restores_pure _
  | cons expected rest ih =>
    unfold checkYield
    dsimp only
    split
    · split
      · exact restores_read (fun _ => rfl) fun _ => (restores_problemAt ..).bind fun _ => ih _
      · exact ih _
    · refine restores_read (fun _ => rfl) fun type => ?_
      split
      · exact ih _
      · split
        · refine restores_read (fun _ => rfl) fun _ => restores_read (fun _ => rfl) fun _ => ?_
          exact (restores_problemAt ..).bind fun _ => restores_read (fun _ => rfl) fun _ =>
            (restores_modifyGraph _).bind fun _ => ih _
        · exact restores_read (fun _ => rfl) fun _ => (restores_modifyGraph _).bind fun _ => ih _

theorem restores_walkYield (hw : ∀ id, Restores setting (walk id)) (id : ExprId)
    (values : List ExprId) : Restores setting (walkYield walk id values) := by
  refine restores_read (fun _ => rfl) fun f => ?_
  split
  · exact restores_problemAt ..
  · refine (restores_forM values fun value _ => hw value).bind fun _ =>
      restores_read (fun _ => rfl) fun c => ?_
    split
    · refine restores_read (fun _ => rfl) fun f => (restores_checkYield ..).bind fun _ =>
        Restores.bind ?_ fun _ => ?_
      · exact restores_forM _ fun pair _ => restores_read (fun _ => rfl) fun _ =>
          restores_deriveFrom ..
      · exact restores_read (fun _ => rfl) fun _ => restores_deriveFrom ..
    · exact restores_defectAt ..

/-- The variables are those that there were before the block. -/
theorem restores_walkBlock (hw : ∀ id, Restores setting (walk id)) (id : ExprId)
    (params : List ExprId) (body : Option ExprId) :
    Restores setting (walkBlock walk id params body) := by
  refine restores_read (fun _ => rfl) fun p => Restores.bind ?_ fun _ =>
    restores_read (fun _ => rfl) fun _ => ?_
  · refine restores_within (restores_option _ hw) fun before after h => ?_
    exact { h with insideBlock := rfl, loops := rfl, vars := List.prefix_rfl }
  · exact restores_deriveFrom ..

end TypeFlow.Infer

import TypeFlow.Proofs.Inference.Composed.Declarations
import TypeFlow.Proofs.Program.Lowered

/-!
# A walk is composed of steps

Methods, macros and pending calls are walked in the middle of a walk, in surroundings of their own.
So whatever is walked, from whatever state, is composed of steps (`composed_walk`). In particular it
takes a course (`takes_walk`), as long as the normalizer takes nothing from the program but names
for temporary variables.
-/

namespace TypeFlow.Infer
variable {α : Type} {setting : Setting} {fuel : Nat} {s s' : WalkState}

/-! ### Method instances -/

theorem composed_paramVars (params : List (String × TypeId)) (vars : OrderedMap String NodeId) :
    Composed setting s (paramVars params vars) := by
  induction params generalizing s vars with
  | nil => exact .pure _ _
  | cons param rest ih => exact (composed_addValue param.2).bind fun _ _ _ => ih _

section
variable (hw : ∀ id s, Composed setting s (walk fuel id))
include hw

theorem composed_declaredType (id : ExprId) (unknown : Problem) :
    Composed setting s (declaredType (walk fuel) id unknown) := by
  refine (composed_copyExpr id).bind fun copy s _ => (hw copy s).bind fun _ _ _ =>
    .read reads_program ?_
  split
  · exact .pure _ _
  · exact composed_problemAt ..

theorem composed_fixResult (result : NodeId) (returnType : Option ExprId) :
    Composed setting s (fixResult (walk fuel) result returnType) := by
  cases returnType with
  | none => exact .pure _ _
  | some returnType =>
    refine (composed_declaredType hw returnType _).bind fun type _ _ =>
      (composed_setType ..).bind fun _ _ _ => ?_
    exact composed_freeze _

theorem composed_bodyNode (body : Option ExprId) :
    Composed setting s (bodyNode (walk fuel) body) := by
  cases body with
  | none => exact .pure _ _
  | some body =>
    refine (composed_copyExpr body).bind fun copy s _ => (hw copy s).bind fun _ _ _ => ?_
    exact composed_of_reads (reads_nodeOf copy)

theorem composed_typeMethod (result : NodeId) (body returnType : Option ExprId)
    (blockParam : Option (BlockParam ExprId)) :
    Composed setting s (typeMethod (walk fuel) result body returnType blockParam) := by
  have hyields : ∀ s, Composed setting s (typeYields (walk fuel) blockParam) := by
    intro s
    cases blockParam with
    | none => exact .pure _ _
    | some blockParam =>
      refine (composed_mapM _ fun input s => composed_declaredType hw input _).bind fun _ _ _ => ?_
      exact .frame _ rfl rfl
  refine (composed_fixResult hw result returnType).bind fun _ s _ =>
    (hyields s).bind fun _ _ _ => ?_
  refine (composed_bodyNode hw body).bind fun value _ _ => .read reads_program ?_
  exact (composed_bind ..).mapError (.placedAt _)

theorem composed_methodResult (call : ExprId) (owner : TypeId) {definition : ExprId}
    {key : MethodKey} (hfound : ∃ holder, s.program.types.findMethod holder key = some definition)
    (args : List TypeId) (block : Option ExprId) :
    Composed setting s (methodResult (walk fuel) call owner definition args block) := by
  rcases hmemo : s.memo.instances.get? ⟨owner, definition, args, block⟩ with _ | result
  · cases hc : s.program.construct definition with
    | methodDef receiver name params body returnType blockParam =>
      refine Composes.instance hmemo hc ?_
      refine (composed_paramVars ..).bind fun vars s _ => .read reads_types (Composes.doing ?_ _ _)
      exact composed_inFrame _ ⟨rfl, rfl⟩ (composed_typeMethod hw ..)
    | _ =>
      obtain ⟨holder, hfound⟩ := hfound
      obtain ⟨registrant, hregistered⟩ := Types.exists_of_methodWithin _ holder hfound
      exact Composes.stray hmemo ⟨registrant, key, hregistered⟩ fun _ _ _ _ _ _ h =>
        nomatch hc.symm.trans h
  · exact Composes.recalled hmemo

end

/-! ### Calls -/

theorem composed_allocation (call : ExprId) (type : TypeId) :
    Composed setting s (allocation call type) :=
  (composed_requireAllocatable call type).bind fun _ _ _ => .value _ type

theorem composed_checkArguments (call : ExprId) (method : String) (position : Nat)
    (pairs : List (TypeId × TypeId)) :
    Composed setting s (checkArguments call method position pairs) := by
  induction pairs generalizing s position with
  | nil => exact .pure _ _
  | cons pair rest ih =>
    obtain ⟨actual, expected⟩ := pair
    unfold checkArguments
    dsimp only
    split
    · exact .read (reads_nameOf _) (.read (reads_nameOf _) (composed_problemAt_bind ..))
    · exact ih _

theorem composed_externalCall (call : ExprId) (lib : TypeId) (name : String) (signature : Signature)
    (args : List TypeId) : Composed setting s (externalCall call lib name signature args) :=
  .read (reads_nameOf _)
    (composed_check ((composed_checkArguments ..).bind fun _ _ _ => .value _ _))

theorem composed_fieldCall (call : ExprId) (receiver : TypeId) (fields : OrderedMap String TypeId)
    (name : String) (args : List TypeId) :
    Composed setting s (fieldCall call receiver fields name args) := by
  have hvalue :
      ∀ type, Composed setting s (do return some (← knownValue type) : Infer (Option NodeId)) :=
    fun type => (Composes.value _ type).bind fun _ _ _ => .pure _ _
  unfold fieldCall
  split
  · exact hvalue _
  · split
    · exact .pure _ _
    · split
      · exact .pure _ _
      · dsimp only
        split
        · exact .read reads_types (composed_problemAt_bind ..)
        · exact hvalue _
  · exact .pure _ _

theorem exists_of_selectDef {t : Types} {r : Resolution} {receiver : TypeId} {definition : ExprId}
    (h : selectDef t r receiver = some definition) :
    ∃ holder, t.findMethod holder (r.name, r.args.length) = some definition := by
  unfold selectDef at h
  dsimp only at h
  split at h
  · rename_i found hfound
    cases h
    exact ⟨receiver, hfound⟩
  · split at h
    · exact ⟨.program, h⟩
    · cases h

section
variable (hw : ∀ id s, Composed setting s (walk fuel id))
include hw

theorem composed_construction (call : ExprId) (type : TypeId) (args : List TypeId) :
    Composed setting s (construction (walk fuel) call type args) := by
  refine (composed_allocation call type).bind fun node _ _ => .read reads_types ?_
  dsimp only
  split
  · rename_i definition hfound
    exact (composed_methodResult hw call type ⟨type, hfound⟩ args none).bind fun _ _ _ => .pure _ _
  · exact composed_check (.pure _ _)

theorem composed_builtinCall (r : Resolution) (receiver : TypeId) :
    Composed setting s (builtinCall (walk fuel) r receiver) := by
  refine .read reads_types ?_
  split
  · split
    · exact (composed_allocation ..).bind fun _ _ _ => .pure _ _
    · split
      · exact (composed_construction hw ..).bind fun _ _ _ => .pure _ _
      · split
        · split
          · exact (composed_externalCall ..).bind fun _ _ _ => .pure _ _
          · exact .pure _ _
        · exact .pure _ _
  · exact composed_fieldCall ..
  · exact composed_fieldCall ..
  · exact .pure _ _

theorem composed_targetFor (r : Resolution) (receiver : TypeId) :
    Composed setting s (targetFor (walk fuel) r receiver) := by
  refine (composed_builtinCall hw r receiver).bind fun target _ _ => ?_
  split
  · exact .pure _ _
  · refine .read reads_types ?_
    split
    · rename_i definition hfound
      exact composed_methodResult hw r.call receiver (exists_of_selectDef hfound) r.args r.block
    · exact composed_problemAt ..

theorem composed_targetsFor (r : Resolution) (targets : List NodeId) (receivers : List TypeId) :
    Composed setting s (targetsFor (walk fuel) r targets receivers) := by
  induction receivers generalizing s targets with
  | nil => exact .pure _ _
  | cons receiver rest ih => exact (composed_targetFor hw r receiver).bind fun _ _ _ => ih _

theorem composed_bindToTargets (call : ExprId) :
    Composed setting s (bindToTargets (walk fuel) call) := by
  refine .read reads_program ?_
  split
  · exact .pure _ _
  · split
    · split
      · exact .pure _ _
      · dsimp only
        split
        · exact .pure _ _
        · refine (composed_targetsFor hw ..).bind fun targets _ _ => ?_
          split
          · exact .rebind _ _ _
          · exact (composed_breakNodeOf _).bind fun _ _ _ => .rebind _ _ _
    · exact .pure _ _

theorem composed_resolve (call : ExprId) : Composed setting s (resolve (walk fuel) call) := by
  have hbind : ∀ s, Composed setting s
      (do if (← read).tools.resolvesCalls then bindToTargets (walk fuel) call) := by
    intro s
    refine .read reads_read ?_
    split
    · exact composed_bindToTargets hw call
    · exact .pure _ _
  refine .read reads_program ?_
  dsimp only
  split
  · refine .bind ?_ fun _ s _ => hbind s
    exact .journal s fun _ => ⟨rfl, rfl⟩
  · exact hbind s

theorem composed_resolvePending (count : Nat) :
    Composed setting s (resolvePending (walk fuel) count) := by
  induction count generalizing s with
  | zero => exact .throw _ nofun
  | succ count ih =>
    refine .read reads_program ?_
    split
    · exact .pure _ _
    · rename_i hnext
      refine .bind ?_ fun _ _ _ => (composed_resolve hw _).bind fun _ _ _ => ih
      exact composed_change (.take hnext) rfl rfl rfl rfl rfl (.refl _)

end

/-! ### Expansions -/

theorem composed_lowerTree (tree : Tree) : Composed setting s (lowerTree tree) := by
  refine (composed_grows (s.program.adds_lower tree).1.grows fun h =>
    h.lower tree).bind fun r _ hd => ?_
  split
  · exact .pure _ _
  · have hr := congrArg Prod.fst hd
    exact composed_fail
      (Diagnostic.causes_of_isInternal (Program.isInternal_of_lower (Except.ok.inj hr)))

theorem does_expanderFor {definition : ExprId} {args : List ExprId} {expander : Expander}
    (hd : (expanderFor definition args).Does setting s expander s') :
    s'.program = s.program ∧ s'.frame = s.frame ∧
      s'.session.expanders.get? (keyOf s.program definition args) = some expander := by
  rcases hkept : s.session.expanders.get? (keyOf s.program definition args) with _ | kept
  · rw [Does, outcome_expanderFor_of_none hkept] at hd
    cases hd
    exact ⟨rfl, rfl, OrderedMap.get?_insert_self ..⟩
  · rw [Does, outcome_expanderFor_of_some hkept] at hd
    cases hd
    exact ⟨rfl, rfl, hkept⟩

theorem reads_macroFor (receiver : Option ExprId) (name : String) (args : List ExprId) :
    Reads setting s (macroFor receiver name args)
      (if receiver.isSome ∨ name = "super" then none
        else macroOf s.program.types s.nameScope name args.length) := by
  intro m
  unfold macroFor
  split
  · rfl
  · rw [outcome_bind, outcome_types]
    dsimp only
    rw [outcome_bind, reads_nameScope m]
    rfl

section
variable (hw : ∀ id s, Composed setting s (walk fuel id))
include hw

/-- What has been done before the tree is walked has not changed how deep the expansions are. -/
theorem composed_typeExpansion (source file : String)
    (hdepth : setting.tools.Discreet →
      s.program.expansionDepth < setting.options.maxExpansionDepth) :
    Composed setting s (typeExpansion (walk fuel) source file) := by
  have hparse : Composed setting s (parseGenerated source file) := by
    refine .read reads_frame (.bind ?_ fun _ _ _ => .read reads_read ?_)
    · exact .journal s fun _ => ⟨rfl, rfl⟩
    · split
      · exact .pure _ _
      · exact composed_fail rfl
  refine hparse.bind fun tree s₁ hd₁ =>
    .read reads_read ((Composes.normalize s₁ tree).bind fun tree s₂ hd₂ => ?_)
  refine (composed_lowerTree tree).bind fun generated s₃ hd₃ =>
    Composes.bind ?_ fun _ _ _ => .pure _ _
  refine .deeper (fun hdiscreet => ?_) (hw generated _)
  rw [(composed_lowerTree tree).depth_of_does hdiscreet hd₃,
    (Composes.normalize s₁ _).depth_of_does hdiscreet hd₂,
    hparse.depth_of_does hdiscreet hd₁]
  exact hdepth hdiscreet

theorem composed_expandCall {call definition : ExprId} (name : String) {args : List ExprId}
    (hkey : s.OwnKey call (keyOf s.program definition args)) :
    Composed setting s (expandCall (walk fuel) call definition name args) := by
  refine .read reads_read (.read reads_program ?_)
  dsimp only
  split
  · exact composed_problemAt_bind ..
  · rename_i hdepth
    refine (Composes.expander s definition args).bind fun expander s₁ hd₁ => ?_
    obtain ⟨hprogram, hframe, hkept⟩ := does_expanderFor hd₁
    have hkey₁ : s₁.OwnKey call (keyOf s.program definition args) := hkey.of_eq hprogram hframe
    refine (Composes.expand hkey₁ hkept).bind fun source s₂ hd₂ => .read (reads_locationOf _) ?_
    have hdepth₂ : s₂.program.expansionDepth < setting.options.maxExpansionDepth := by
      rw [← show ((expand expander call).outcome setting s₁).2 = s₂ from
        congrArg Prod.snd hd₂, state_expand]
      exact hprogram ▸ Nat.lt_of_not_le hdepth
    refine ((composed_typeExpansion hw source _ fun _ => hdepth₂).mapError (.expansion ..)).bind
      fun generated s₃ _ => ?_
    refine .bind ?_ fun _ _ _ => .read (reads_nodeOf _) (composed_deriveFrom ..)
    exact composed_change (.note (.expansion _ call generated)) rfl rfl rfl rfl rfl (.refl _)

theorem composed_walkCall {id : ExprId} {receiver : Option ExprId} {name : String}
    {args : List ExprId} {block : Option ExprId}
    (hc : s.program.construct id = .call receiver name args block) :
    Composed setting s (walkCall (walk fuel) id receiver name args block) := by
  refine composed_typeOfSelf.bind fun scope s₁ hd₁ => .bind ?_ fun _ s₂ hd₂ => ?_
  · exact composed_change (.scope s₁ id scope) rfl rfl rfl rfl rfl (.refl _)
  have hc₂ : s₂.program.construct id = .call receiver name args block := by
    rw [Does, outcome_typeOfSelf] at hd₁
    cases hd₁
    cases hd₂
    exact hc
  refine .read (reads_macroFor receiver name args) ?_
  split
  · rename_i hfound
    split at hfound
    · cases hfound
    · rename_i hnamed
      have hnone : receiver = none := Option.not_isSome_iff_eq_none.mp fun h => hnamed (.inl h)
      exact composed_expandCall hw name ⟨name, args, block, hnone ▸ hc₂, hfound, rfl⟩
  · refine .bind (composed_forM _ fun input _ s => .read (reads_nodeOf _) ?_) fun _ _ _ => ?_
    · exact composed_modifyGraph (.observe s _ id)
    · refine (composed_resolve hw id).bind fun _ _ _ =>
        (composed_option receiver hw).bind fun _ _ _ => ?_
      refine (composed_forM args fun arg _ => hw arg).bind fun _ _ _ => ?_
      exact composed_option block fun block s => (hw block s).doing ..

end

/-! ### The walk -/

theorem composed_walkConstruct (hw : ∀ id s, Composed setting s (walk fuel id)) {id : ExprId}
    {c : Construct ExprId} (hc : s.program.construct id = c) :
    Composed setting s (walkConstruct (walk fuel) id c) := by
  cases c with
  | nop | nilLiteral | boolLiteral | charLiteral | numberLiteral | stringLiteral =>
    exact composed_giveType ..
  | symbolLiteral =>
    refine .bind ?_ fun _ _ _ => composed_giveType ..
    exact composed_change (.note (.symbol ..)) rfl rfl rfl rfl rfl (.refl _)
  | sequence => exact composed_walkSequence hw hc
  | var => exact composed_walkVar ..
  | instanceVar => exact composed_walkInstanceVar ..
  | globalVar => exact composed_walkGlobalVar ..
  | path => exact composed_walkPath hw ..
  | declareVar => exact composed_walkDeclareVar hw ..
  | assign => exact composed_walkAssign hw ..
  | multiAssign => exact composed_walkMultiAssign hw ..
  | conditional => exact composed_walkConditional hw ..
  | loop => exact composed_walkLoop hw ..
  | breakOut => exact composed_walkBreak hw ..
  | returnFrom => exact composed_walkReturn hw ..
  | yieldTo => exact composed_walkYield hw ..
  | call => exact composed_walkCall hw hc
  | block => exact composed_walkBlock hw ..
  | methodDef => exact composed_walkMethodDef hw (by rw [hc]; rfl) ..
  | macroDef => exact composed_walkMacroDef hw ..
  | classDef => exact composed_walkClassDef hw ..
  | moduleDef => exact composed_walkModuleDef hw ..
  | includeModule => exact composed_walkInclude hw ..
  | libDef => exact composed_walkLibDef hw ..
  | funDef => exact composed_walkFunDef hw ..
  | aliasDef => exact composed_walkAliasDef hw ..
  | structDef | unionDef => exact composed_walkFieldsDef hw ..
  | enumDef => exact composed_walkEnumDef ..
  | structGet | unionGet => exact composed_walkFieldGet ..
  | structSet | unionSet => exact composed_walkFieldSet ..
  | classOfSelf => exact composed_walkClassOfSelf ..
  | allocate => exact composed_walkAllocate ..
  | eitherValue => exact composed_walkEither hw ..
  | typeUnion => exact composed_walkTypeUnion hw ..
  | genericInstance => exact composed_walkGenericInstance hw ..
  | isA => exact composed_walkIsA hw ..
  | typeOf => exact composed_walkTypeOf hw ..
  | pointerOf => exact composed_walkPointerOf hw ..
  | pointerMalloc | pointerRealloc | pointerAdd => exact composed_walkSamePointer ..
  | pointerGetValue => exact composed_walkPointerGet ..
  | pointerSetValue => exact composed_walkPointerSet ..
  | pointerCast => exact composed_walkPointerCast ..

/-- By induction on how deep the walk may go. -/
theorem composed_walk (fuel : Nat) (id : ExprId) (s : WalkState) :
    Composed setting s (walk fuel id) := by
  induction fuel generalizing id s with
  | zero => exact .throw _ nofun
  | succ fuel ih =>
    refine .read (reads_construct id) (.read (reads_locationOf id) ?_)
    refine ((composed_walkConstruct ih rfl).mapError (.placedAt _)).bind fun _ _ _ => ?_
    exact composed_resolvePending ih fuel

/-! ### Courses -/

theorem takes_walk (htidy : setting.tools.Tidy) (fuel : Nat) (id : ExprId) (s : WalkState) :
    Takes setting s (walk fuel id) :=
  (composed_walk fuel id s).takes htidy

theorem takes_evaluateRemaining (htidy : setting.tools.Tidy) (fuel : Nat) :
    Takes setting s (evaluateRemaining (walk fuel)) :=
  (composed_evaluateRemaining fun id s => composed_walk fuel id s).takes htidy

end TypeFlow.Infer

import TypeFlow.Proofs.Inference.Composed.Walk
import TypeFlow.Proofs.Inference.Known.Declarations

/-!
# A walk upholds what is proper

Calls are bound to the results of methods, to nodes for known values and to where breaks out of
their blocks lead; what is bound is the node of the call. The results of methods are nodes of their
own, and so are the parameters that a method starts with. So a walk leads from a proper state to a
proper one (`WalkState.walk_proper`), as long as the normalizer takes nothing from the program but
names for temporary variables.
-/

namespace TypeFlow

/-- No nodes, and no expressions but the reserved one. -/
theorem WalkState.proper_initial : (⟨{}, {}⟩ : WalkState).Proper := by
  refine ⟨fun node hn => ⟨?_, nofun⟩, Program.formed_initial, nofun, nofun⟩
  cases hn with
  | expr id hid => cases hid; exact Nat.zero_lt_one
  | kept hk =>
    cases hk with
    | @instanceVar owner name hk =>
      have hnone : (Program.initial.types.get owner).instanceVars = ∅ :=
        Program.Sound.instanceVars_initial owner
      exact nomatch hnone ▸ hk
    | global hk | breakNode hk => cases hk
  | var hn | result hn | «instance» hn => cases hn

namespace Infer
variable {α : Type} {setting : Setting} {s : WalkState}

section
variable {walk : Step}

/-! ### Method instances -/

theorem proceeds_knownValue (type : TypeId) : Proceeds setting s (knownValue type) := by
  rcases hvalue : s.memo.values.get? type with _ | node
  · exact upholds_of_outcome (outcome_knownValue_of_none hvalue)
      (fun hp => hp.addKnown type) fun _ => trivial
  · exact upholds_of_outcome (outcome_knownValue_of_some hvalue)
      (fun hp => ⟨.refl s, hp⟩) fun _ => trivial

/-- Each parameter has a new node. -/
theorem upholds_paramVars (params : List (String × TypeId)) {vars : OrderedMap String NodeId}
    (hvars : ∀ name node, vars.get? name = some node → s.Joining node) :
    Upholds setting s (paramVars params vars) fun vars s' => ∀ name node,
      vars.get? name = some node → s'.Joining node := by
  induction params generalizing s vars with
  | nil => exact upholds_pure fun _ => hvars
  | cons param rest ih =>
    refine (upholds_addValue param.2).bind fun node s' hages _ hn => ih fun other found hfound => ?_
    rw [OrderedMap.get?_insert] at hfound
    split at hfound
    · cases hfound; exact hn
    · exact hages.joining (hvars other found hfound)

section
variable (hw : ∀ id s, Proceeds setting s (walk id))
include hw

theorem proceeds_declaredType (id : ExprId) (unknown : Problem) :
    Proceeds setting s (declaredType walk id unknown) := by
  refine (proceeds_copyExpr id).bind fun copy s _ _ _ => (hw copy s).bind fun _ _ _ _ _ =>
    upholds_read reads_program ?_
  split
  · exact proceeds_pure _
  · exact upholds_problemAt ..

theorem proceeds_fixResult {result : NodeId} (hn : s.Loose result) (returnType : Option ExprId) :
    Proceeds setting s (fixResult walk result returnType) := by
  cases returnType with
  | none => exact proceeds_pure ()
  | some returnType =>
    refine (proceeds_declaredType hw returnType _).bind fun type _ hages _ _ => ?_
    exact (proceeds_setType (hages.loose hn) type).bind fun _ _ _ _ _ => proceeds_freeze _

theorem proceeds_bodyNode (body : Option ExprId) : Proceeds setting s (bodyNode walk body) := by
  cases body with
  | none => exact proceeds_pure _
  | some body =>
    refine (proceeds_copyExpr body).bind fun copy s _ _ _ => (hw copy s).bind fun _ _ _ _ _ => ?_
    exact proceeds_of_reads (reads_nodeOf copy)

theorem proceeds_typeMethod {result : NodeId} (hn : s.Loose result)
    (body returnType : Option ExprId) (blockParam : Option (BlockParam ExprId)) :
    Proceeds setting s (typeMethod walk result body returnType blockParam) := by
  have hyields : ∀ s, Proceeds setting s (typeYields walk blockParam) := by
    intro s
    cases blockParam with
    | none => exact proceeds_pure ()
    | some blockParam =>
      refine (proceeds_mapM _ fun input _ =>
        proceeds_declaredType hw input _).bind fun _ _ _ _ _ => ?_
      exact proceeds_modifyFrame rfl rfl
  refine (proceeds_fixResult hw hn returnType).bind fun _ s₁ h₁ _ _ =>
    (hyields s₁).bind fun _ s₂ h₂ _ _ => ?_
  refine (proceeds_bodyNode hw body).bind fun value s₃ h₃ _ _ => upholds_read reads_program ?_
  exact (proceeds_bind (h₃.loose (h₂.loose (h₁.loose hn))) [value]).mapError _

/-- The method is typed in a frame with its parameters and its result. -/
theorem proceeds_methodResult (call : ExprId) (owner : TypeId) (definition : ExprId)
    (args : List TypeId) (block : Option ExprId) :
    Proceeds setting s (methodResult walk call owner definition args block) := by
  refine upholds_of_ok outcome_get ?_
  split
  · exact proceeds_pure _
  · refine upholds_read (reads_construct _) ?_
    split
    · rename_i name params body returnType blockParam _
      refine upholds_addVar.bind fun result s₁ _ _ hresult =>
        (proceeds_insertInstance _ hresult.toLoose).bind fun _ s₂ h₂ _ _ => ?_
      refine (upholds_paramVars _ fun _ _ hn => by cases hn).bind fun vars s₃ h₃ _ hvars =>
        upholds_read reads_types ?_
      have hn : s₃.Loose result := h₃.loose (h₂.loose hresult.toLoose)
      refine Upholds.bind (Q := fun _ _ => True) (Upholds.doing ?_ ..) fun _ _ _ _ _ =>
        proceeds_pure _
      have hmethod : ∀ f, Proceeds setting (s₃.withFrame f)
          (typeMethod walk result body returnType blockParam) :=
        fun f => proceeds_typeMethod (s := s₃.withFrame f) hw ⟨hn.lt, hn.unknown⟩ ..
      refine proceeds_inFrame (hmethod _) hvars fun node hnode => ?_
      cases hnode
      exact hn
    · exact upholds_defectAt ..

end

/-! ### Calls -/

theorem proceeds_allocation (call : ExprId) (type : TypeId) :
    Proceeds setting s (allocation call type) :=
  (proceeds_requireAllocatable call type).bind fun _ _ _ _ _ => proceeds_knownValue type

theorem proceeds_checkArguments (call : ExprId) (method : String) (position : Nat)
    (pairs : List (TypeId × TypeId)) :
    Proceeds setting s (checkArguments call method position pairs) := by
  induction pairs generalizing s position with
  | nil => exact proceeds_pure ()
  | cons pair rest ih =>
    obtain ⟨actual, expected⟩ := pair
    unfold checkArguments
    dsimp only
    split
    · exact upholds_read (reads_nameOf _)
        (upholds_read (reads_nameOf _) (upholds_problemAt_bind ..))
    · exact ih _

theorem proceeds_externalCall (call : ExprId) (lib : TypeId) (name : String) (signature : Signature)
    (args : List TypeId) : Proceeds setting s (externalCall call lib name signature args) :=
  upholds_read (reads_nameOf _)
    (upholds_check ((proceeds_checkArguments ..).bind fun _ _ _ _ _ => proceeds_knownValue _))

theorem proceeds_fieldCall (call : ExprId) (receiver : TypeId) (fields : OrderedMap String TypeId)
    (name : String) (args : List TypeId) :
    Proceeds setting s (fieldCall call receiver fields name args) := by
  have hvalue :
      ∀ type, Proceeds setting s (do return some (← knownValue type) : Infer (Option NodeId)) :=
    fun type => (proceeds_knownValue type).bind fun _ _ _ _ _ => proceeds_pure _
  unfold fieldCall
  split
  · exact hvalue _
  · split
    · exact proceeds_pure _
    · split
      · exact proceeds_pure _
      · dsimp only
        split
        · exact upholds_read reads_types (upholds_problemAt_bind ..)
        · exact hvalue _
  · exact proceeds_pure _

/-- Only the node of the call is bound. -/
theorem proceeds_rebind (call : ExprId) (targets : List NodeId) :
    Proceeds setting s (rebind call targets) := by
  refine upholds_of_proper fun hp => upholds_read (reads_nodeOf call) (upholds_of_ok outcome_get ?_)
  dsimp only
  split
  · refine Upholds.bind (Q := fun _ _ => True) ?_ fun _ s₁ h₁ _ _ => ?_
    · exact upholds_of_outcome (outcome_modifyGraph _) (fun hp => hp.unbind _ _) fun _ => trivial
    · refine (proceeds_noteTargets call targets).bind fun _ s₂ h₂ _ _ =>
        upholds_read (reads_locationOf call) ?_
      exact (proceeds_bind (h₂.loose (h₁.loose (hp.nodeOf call))) targets).mapError _
  · exact proceeds_pure ()

section
variable (hw : ∀ id s, Proceeds setting s (walk id))
include hw

theorem proceeds_construction (call : ExprId) (type : TypeId) (args : List TypeId) :
    Proceeds setting s (construction walk call type args) := by
  refine (proceeds_allocation call type).bind fun node _ _ _ _ => upholds_read reads_types ?_
  dsimp only
  split
  · exact (proceeds_methodResult hw ..).bind fun _ _ _ _ _ => proceeds_pure _
  · exact upholds_check (proceeds_pure _)

theorem proceeds_builtinCall (r : Resolution) (receiver : TypeId) :
    Proceeds setting s (builtinCall walk r receiver) := by
  refine upholds_read reads_types ?_
  split
  · split
    · exact (proceeds_allocation ..).bind fun _ _ _ _ _ => proceeds_pure _
    · split
      · exact (proceeds_construction hw ..).bind fun _ _ _ _ _ => proceeds_pure _
      · split
        · split
          · exact (proceeds_externalCall ..).bind fun _ _ _ _ _ => proceeds_pure _
          · exact proceeds_pure _
        · exact proceeds_pure _
  · exact proceeds_fieldCall ..
  · exact proceeds_fieldCall ..
  · exact proceeds_pure _

theorem proceeds_targetFor (r : Resolution) (receiver : TypeId) :
    Proceeds setting s (targetFor walk r receiver) := by
  refine (proceeds_builtinCall hw r receiver).bind fun target _ _ _ _ => ?_
  split
  · exact proceeds_pure _
  · refine upholds_read reads_types ?_
    split
    · exact proceeds_methodResult hw ..
    · exact upholds_problemAt ..

theorem proceeds_targetsFor (r : Resolution) (targets : List NodeId) (receivers : List TypeId) :
    Proceeds setting s (targetsFor walk r targets receivers) := by
  induction receivers generalizing s targets with
  | nil => exact proceeds_pure _
  | cons receiver rest ih => exact (proceeds_targetFor hw r receiver).bind fun _ _ _ _ _ => ih _

theorem proceeds_bindToTargets (call : ExprId) : Proceeds setting s (bindToTargets walk call) := by
  refine upholds_read reads_program ?_
  split
  · exact proceeds_pure _
  · split
    · split
      · exact proceeds_pure _
      · dsimp only
        split
        · exact proceeds_pure _
        · refine (proceeds_targetsFor hw ..).bind fun targets _ _ _ _ => ?_
          split
          · exact proceeds_rebind ..
          · exact (upholds_breakNodeOf _).bind fun _ _ _ _ _ => proceeds_rebind ..
    · exact proceeds_pure _

theorem proceeds_resolve (call : ExprId) : Proceeds setting s (resolve walk call) := by
  have hbind : ∀ s, Proceeds setting s
      (do if (← read).tools.resolvesCalls then bindToTargets walk call) := by
    intro s
    refine upholds_read reads_read ?_
    split
    · exact proceeds_bindToTargets hw call
    · exact proceeds_pure _
  refine upholds_read reads_program ?_
  dsimp only
  split
  · exact (proceeds_modifyJournal _).bind fun _ s _ _ _ => hbind s
  · exact hbind s

theorem proceeds_resolvePending (count : Nat) : Proceeds setting s (resolvePending walk count) := by
  induction count generalizing s with
  | zero => exact upholds_throw _
  | succ count ih =>
    refine upholds_read reads_program ?_
    split
    · exact proceeds_pure _
    · rename_i hnext
      refine Upholds.bind (Q := fun _ _ => True) ?_ fun _ _ _ _ _ =>
        (proceeds_resolve hw _).bind fun _ _ _ _ _ => ih
      obtain ⟨rest, -, rfl⟩ := FlowGraph.nextCall?_eq_some hnext
      exact proceeds_modifyGraph (f := fun _ => _) ⟨Nat.le_refl _, fun _ _ => ⟨rfl, rfl, rfl⟩⟩

end

/-! ### Expansions -/

theorem proceeds_lowerTree (tree : Tree) : Proceeds setting s (lowerTree tree) := by
  refine Upholds.bind (Q := fun _ _ => True) ?_ fun r _ _ _ _ => ?_
  · exact upholds_updateProgram
      (fun hp => hp.grows (s.program.adds_lower tree).1.grows) fun _ => trivial
  · split
    · exact proceeds_pure _
    · exact upholds_fail _

theorem proceeds_parseGenerated (source file : String) :
    Proceeds setting s (parseGenerated source file) := by
  refine upholds_read reads_frame ((proceeds_modifyJournal _).bind fun _ _ _ _ _ =>
    upholds_read reads_read ?_)
  split
  · exact proceeds_pure _
  · exact upholds_fail _

theorem proceeds_expanderFor (definition : ExprId) (args : List ExprId) :
    Proceeds setting s (expanderFor definition args) := by
  refine upholds_of_ok outcome_get ?_
  dsimp only
  split
  · exact proceeds_pure _
  · refine upholds_read reads_read ((proceeds_modifyJournal _).bind fun _ s _ _ _ => ?_)
    exact Upholds.bind (Q := fun _ _ => True) (proceeds_of_eq (a := ()) rfl rfl rfl rfl rfl)
      fun _ _ _ _ _ => proceeds_pure _

theorem proceeds_expand (expander : Expander) (call : ExprId) :
    Proceeds setting s (expand expander call) := by
  refine (proceeds_modifyJournal _).bind fun _ _ _ _ _ => upholds_read reads_program ?_
  split
  · exact proceeds_pure _
  · exact upholds_fail _

theorem proceeds_normalize (htidy : setting.tools.Tidy) (tree : Tree) :
    Proceeds setting s (updateProgram fun p => setting.tools.normalize p tree) := by
  obtain ⟨count, hcount⟩ := htidy s.program tree
  refine upholds_updateProgram (fun hp => ?_) fun _ => trivial
  rw [hcount]
  exact hp.records rfl rfl rfl rfl

theorem proceeds_inExpansion {x : Infer α} (hx : ∀ s, Proceeds setting s x) :
    Proceeds setting s (inExpansion x) := by
  have hdepth : ∀ {s : WalkState} (depth : Nat), s.Proper → s.Ages (atDepth s depth) ∧
      (atDepth s depth).Proper :=
    fun depth hp => hp.records rfl rfl rfl rfl
  refine ⟨fun hp => ?_, fun _ _ _ _ => trivial⟩
  rw [outcome_inExpansion]
  obtain ⟨hages, hp₁⟩ := hdepth (s.program.expansionDepth + 1) hp
  obtain ⟨hages', hp₂⟩ := (hx _).state hp₁
  exact ⟨hages.trans (hages'.trans (hdepth _ hp₂).1), (hdepth _ hp₂).2⟩

section
variable (htidy : setting.tools.Tidy) (hw : ∀ id s, Proceeds setting s (walk id))
include htidy hw

theorem proceeds_typeExpansion (source file : String) :
    Proceeds setting s (typeExpansion walk source file) := by
  refine (proceeds_parseGenerated source file).bind fun tree _ _ _ _ => upholds_read reads_read ?_
  refine (proceeds_normalize htidy tree).bind fun tree _ _ _ _ =>
    (proceeds_lowerTree tree).bind fun generated _ _ _ _ => ?_
  exact (proceeds_inExpansion (hw generated)).bind fun _ _ _ _ _ => proceeds_pure _

theorem proceeds_expandCall (call definition : ExprId) (name : String) (args : List ExprId) :
    Proceeds setting s (expandCall walk call definition name args) := by
  refine upholds_read reads_read (upholds_read reads_program ?_)
  refine upholds_check ((proceeds_expanderFor definition args).bind fun expander _ _ _ _ => ?_)
  refine (proceeds_expand expander call).bind fun source _ _ _ _ =>
    upholds_read (reads_locationOf _) ?_
  refine ((proceeds_typeExpansion htidy hw source _).mapError _).bind fun generated _ _ _ _ => ?_
  refine (proceeds_records rfl rfl rfl rfl).bind fun _ _ _ _ _ => upholds_read (reads_nodeOf _)
    (proceeds_deriveFrom ..)

theorem proceeds_walkCall (id : ExprId) (receiver : Option ExprId) (name : String)
    (args : List ExprId) (block : Option ExprId) :
    Proceeds setting s (walkCall walk id receiver name args block) := by
  refine proceeds_typeOfSelf.bind fun scope _ _ _ _ =>
    (proceeds_records rfl rfl rfl rfl).bind fun _ _ _ _ _ => ?_
  refine upholds_read (reads_macroFor receiver name args) ?_
  split
  · exact proceeds_expandCall htidy hw ..
  · refine Upholds.bind (Q := fun _ _ => True) ?_ fun _ _ _ _ _ => ?_
    · exact proceeds_forM _ fun input s => upholds_read (reads_nodeOf _)
        (proceeds_modifyGraph (FlowGraph.Touch.observe ..).keepsNodes)
    · refine (proceeds_resolve hw id).bind fun _ _ _ _ _ =>
        (proceeds_option receiver hw).bind fun _ _ _ _ _ => ?_
      refine (proceeds_forM args hw).bind fun _ _ _ _ _ => ?_
      exact proceeds_option block fun block s => (hw block s).doing ..

/-! ### The walk -/

theorem proceeds_walkConstruct (id : ExprId) (c : Construct ExprId) :
    Proceeds setting s (walkConstruct walk id c) := by
  cases c with
  | nop | nilLiteral | boolLiteral | charLiteral | numberLiteral | stringLiteral =>
    exact proceeds_giveType ..
  | symbolLiteral =>
    exact (proceeds_records rfl rfl rfl rfl).bind fun _ _ _ _ _ => proceeds_giveType ..
  | sequence => exact proceeds_walkSequence hw ..
  | var => exact proceeds_walkVar ..
  | instanceVar => exact proceeds_walkInstanceVar ..
  | globalVar => exact proceeds_walkGlobalVar ..
  | path => exact proceeds_walkPath hw ..
  | declareVar => exact proceeds_walkDeclareVar hw ..
  | assign => exact proceeds_walkAssign hw ..
  | multiAssign => exact proceeds_walkMultiAssign hw ..
  | conditional => exact proceeds_walkConditional hw ..
  | loop => exact proceeds_walkLoop hw ..
  | breakOut => exact proceeds_walkBreak hw ..
  | returnFrom => exact proceeds_walkReturn hw ..
  | yieldTo => exact proceeds_walkYield hw ..
  | call => exact proceeds_walkCall htidy hw ..
  | block => exact proceeds_walkBlock hw ..
  | methodDef => exact proceeds_walkMethodDef hw ..
  | macroDef => exact proceeds_walkMacroDef hw ..
  | classDef => exact proceeds_walkClassDef hw ..
  | moduleDef => exact proceeds_walkModuleDef hw ..
  | includeModule => exact proceeds_walkInclude hw ..
  | libDef => exact proceeds_walkLibDef hw ..
  | funDef => exact proceeds_walkFunDef hw ..
  | aliasDef => exact proceeds_walkAliasDef hw ..
  | structDef | unionDef => exact proceeds_walkFieldsDef hw ..
  | enumDef => exact proceeds_walkEnumDef ..
  | structGet | unionGet => exact proceeds_walkFieldGet ..
  | structSet | unionSet => exact proceeds_walkFieldSet ..
  | classOfSelf => exact proceeds_walkClassOfSelf ..
  | allocate => exact proceeds_walkAllocate ..
  | eitherValue => exact proceeds_walkEither hw ..
  | typeUnion => exact proceeds_walkTypeUnion hw ..
  | genericInstance => exact proceeds_walkGenericInstance hw ..
  | isA => exact proceeds_walkIsA hw ..
  | typeOf => exact proceeds_walkTypeOf hw ..
  | pointerOf => exact proceeds_walkPointerOf hw ..
  | pointerMalloc | pointerRealloc | pointerAdd => exact proceeds_walkSamePointer ..
  | pointerGetValue => exact proceeds_walkPointerGet ..
  | pointerSetValue => exact proceeds_walkPointerSet ..
  | pointerCast => exact proceeds_walkPointerCast ..

end

end

/-- By induction on how deep the walk may go. -/
theorem proceeds_walk (htidy : setting.tools.Tidy) (fuel : Nat) (id : ExprId) (s : WalkState) :
    Proceeds setting s (walk fuel id) := by
  induction fuel generalizing id s with
  | zero => exact upholds_throw _
  | succ fuel ih =>
    refine upholds_read (reads_construct id) (upholds_read (reads_locationOf id) ?_)
    refine ((proceeds_walkConstruct htidy ih id _).mapError _).bind fun _ _ _ _ _ => ?_
    exact proceeds_resolvePending ih fuel

end Infer

/-- However a walk ends, what nothing is bound to has stayed so. -/
theorem WalkState.walk_proper {setting : Setting} {s : WalkState} (hs : s.Proper)
    (htidy : setting.tools.Tidy) (fuel : Nat) (id : ExprId) :
    ((Infer.walk fuel id).outcome setting s).2.Proper :=
  ((Infer.proceeds_walk htidy fuel id s).state hs).2

end TypeFlow

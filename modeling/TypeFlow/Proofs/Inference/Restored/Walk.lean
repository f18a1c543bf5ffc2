import TypeFlow.Proofs.Inference.Restored.Declarations
import TypeFlow.Proofs.Inference.Walked

/-!
# A walk gives its context back

Methods, macros and pending calls are walked in the middle of a walk, each in surroundings of its
own (`restores_resolve`, `restores_expandCall`). So a walk that ends, however it does, ends where it
was started (`walk_restored`), in every state and at every depth.
-/

namespace TypeFlow

/-- Normalizing generated code does not change how many expansions are being typed. -/
def Toolchain.KeepsDepth (tools : Toolchain) : Prop :=
  ∀ p tree, (tools.normalize p tree).2.expansionDepth = p.expansionDepth

theorem Toolchain.keepsDepth_standard : standard.KeepsDepth := fun _ _ => rfl

theorem Toolchain.Tidy.keepsDepth {tools : Toolchain} (h : tools.Tidy) :
    tools.KeepsDepth := fun p tree => by
  obtain ⟨count, heq⟩ := h p tree
  rw [heq]

/-! ### Adding expressions -/

namespace Program
variable {p p' : Program}

theorem Adds.expansionDepth_eq (h : p.Adds p') : p'.expansionDepth = p.expansionDepth := by
  induction h with
  | refl => rfl
  | add location _ _ ih => exact ih

theorem expansionDepth_mapM {f : ExprId → StateM Program ExprId}
    (hf : ∀ id p, ((f id).run p).2.expansionDepth = p.expansionDepth) (ids : List ExprId)
    (p : Program) :
    ((ids.mapM f).run p).2.expansionDepth = p.expansionDepth := by
  induction ids generalizing p with
  | nil => rfl
  | cons id ids ih =>
    rw [List.mapM_cons]
    exact (ih ((f id).run p).2).trans (hf id p)

theorem expansionDepth_copyWithin (fuel : Nat) (id : ExprId) (p : Program) :
    ((copyWithin fuel id).run p).2.expansionDepth = p.expansionDepth := by
  induction fuel generalizing id p with
  | zero => rfl
  | succ fuel ih =>
    have hparts := expansionDepth_mapM ih (p.expr id).construct.children p
    rw [← Construct.children_traverse, StateT.run_map] at hparts
    exact hparts

end Program

namespace Infer
variable {α : Type} {setting : Setting} {walk : Step}

theorem restores_copyExpr (id : ExprId) : Restores setting (updateProgram fun p => p.copyExpr id) :=
  restores_updateProgram fun p => Program.expansionDepth_copyWithin (id.index + 1) id p

/-! ### Method instances -/

theorem restores_knownValue (type : TypeId) : Restores setting (knownValue type) := by
  refine restores_read (fun _ => rfl) fun s => ?_
  split
  · exact restores_pure _
  · exact (restores_addValue type).bind fun _ =>
      (restores_modifyMemo _).bind fun _ => restores_pure _

theorem restores_declaredType (hw : ∀ id, Restores setting (walk id)) (id : ExprId)
    (unknown : Problem) : Restores setting (declaredType walk id unknown) := by
  refine (restores_copyExpr id).bind fun copy => (hw copy).bind fun _ =>
    restores_read (fun _ => rfl) fun p => ?_
  split
  · exact restores_pure _
  · exact restores_problemAt ..

theorem restores_fixResult (hw : ∀ id, Restores setting (walk id)) (result : NodeId)
    (returnType : Option ExprId) : Restores setting (fixResult walk result returnType) := by
  cases returnType with
  | none => exact restores_pure _
  | some returnType =>
    refine (restores_declaredType hw returnType _).bind fun type =>
      (restores_onNetwork _).bind fun _ => ?_
    exact restores_modifyGraph _

theorem restores_bodyNode (hw : ∀ id, Restores setting (walk id)) (body : Option ExprId) :
    Restores setting (bodyNode walk body) := by
  cases body with
  | none => exact restores_pure _
  | some body =>
    refine (restores_copyExpr body).bind fun copy => (hw copy).bind fun _ => ?_
    exact restores_of_state_eq fun _ => rfl

/-- The frame is one of the method's own: what the method says it yields is put into it. -/
theorem keepsDepth_typeMethod (hw : ∀ id, Restores setting (walk id)) (result : NodeId)
    (body returnType : Option ExprId) (blockParam : Option (BlockParam ExprId)) :
    KeepsDepth setting (typeMethod walk result body returnType blockParam) := by
  have hyields : KeepsDepth setting (typeYields walk blockParam) := by
    cases blockParam with
    | none => exact (restores_pure _).keepsDepth
    | some blockParam =>
      refine (restores_mapM _ fun input => restores_declaredType hw input _).keepsDepth.bind
        fun _ => ?_
      exact ⟨fun _ => rfl⟩
  refine (restores_fixResult hw result returnType).keepsDepth.bind fun _ => hyields.bind fun _ => ?_
  refine ((restores_bodyNode hw body).bind fun value => ?_).keepsDepth
  exact restores_read (fun _ => rfl) fun p => (restores_bind ..).mapError _

theorem restores_paramVars (params : List (String × TypeId)) (vars : OrderedMap String NodeId) :
    Restores setting (paramVars params vars) := by
  induction params generalizing vars with
  | nil => exact restores_pure _
  | cons param rest ih => exact Restores.bind (restores_addValue param.2) fun _ => ih _

theorem restores_methodResult (hw : ∀ id, Restores setting (walk id)) (call : ExprId)
    (owner : TypeId) (definition : ExprId) (args : List TypeId) (block : Option ExprId) :
    Restores setting (methodResult walk call owner definition args block) := by
  refine restores_read (fun _ => rfl) fun s => ?_
  split
  · exact restores_pure _
  · refine restores_read (fun _ => rfl) fun c => ?_
    split
    · refine restores_addVar.bind fun result => (restores_modifyMemo _).bind fun _ => ?_
      refine (restores_paramVars ..).bind fun vars => restores_read (fun _ => rfl) fun t => ?_
      refine Restores.bind ?_ fun _ => restores_pure _
      exact (restores_inFrame _ (keepsDepth_typeMethod hw ..)).doing ..
    · exact restores_defectAt ..

/-! ### Calls -/

theorem restores_allocation (call : ExprId) (type : TypeId) :
    Restores setting (allocation call type) :=
  (restores_requireAllocatable call type).bind fun _ => restores_knownValue type

theorem restores_construction (hw : ∀ id, Restores setting (walk id)) (call : ExprId)
    (type : TypeId) (args : List TypeId) : Restores setting (construction walk call type args) := by
  refine (restores_allocation call type).bind fun node => restores_read (fun _ => rfl) fun t => ?_
  dsimp only
  split
  · exact (restores_methodResult hw ..).bind fun _ => restores_pure _
  · exact restores_check (restores_pure _)

theorem restores_checkArguments (call : ExprId) (method : String) (position : Nat)
    (pairs : List (TypeId × TypeId)) :
    Restores setting (checkArguments call method position pairs) := by
  induction pairs generalizing position with
  | nil => exact restores_pure _
  | cons pair rest ih =>
    obtain ⟨actual, expected⟩ := pair
    unfold checkArguments
    dsimp only
    split
    · refine restores_read (fun _ => rfl) fun _ => restores_read (fun _ => rfl) fun _ => ?_
      exact (restores_problemAt ..).bind fun _ => ih _
    · exact ih _

theorem restores_externalCall (call : ExprId) (lib : TypeId) (name : String) (signature : Signature)
    (args : List TypeId) : Restores setting (externalCall call lib name signature args) := by
  refine restores_read (fun _ => rfl) fun _ => restores_check ?_
  exact (restores_checkArguments ..).bind fun _ => restores_knownValue _

theorem restores_fieldCall (call : ExprId) (receiver : TypeId) (fields : OrderedMap String TypeId)
    (name : String) (args : List TypeId) :
    Restores setting (fieldCall call receiver fields name args) := by
  have hvalue :
      ∀ type, Restores setting (do return some (← knownValue type) : Infer (Option NodeId)) :=
    fun type => Restores.bind (restores_knownValue type) fun _ => restores_pure _
  unfold fieldCall
  split
  · exact hvalue _
  · split
    · exact restores_pure _
    · split
      · exact restores_pure _
      · dsimp only
        split
        · exact restores_read (fun _ => rfl) fun _ => (restores_problemAt ..).bind fun _ => hvalue _
        · exact hvalue _
  · exact restores_pure _

theorem restores_builtinCall (hw : ∀ id, Restores setting (walk id)) (r : Resolution)
    (receiver : TypeId) : Restores setting (builtinCall walk r receiver) := by
  refine restores_read (fun _ => rfl) fun t => ?_
  split
  · split
    · exact (restores_allocation ..).bind fun _ => restores_pure _
    · split
      · exact (restores_construction hw ..).bind fun _ => restores_pure _
      · split
        · split
          · exact (restores_externalCall ..).bind fun _ => restores_pure _
          · exact restores_pure _
        · exact restores_pure _
  · exact restores_fieldCall ..
  · exact restores_fieldCall ..
  · exact restores_pure _

theorem restores_targetFor (hw : ∀ id, Restores setting (walk id)) (r : Resolution)
    (receiver : TypeId) : Restores setting (targetFor walk r receiver) := by
  refine (restores_builtinCall hw r receiver).bind fun target => ?_
  split
  · exact restores_pure _
  · refine restores_read (fun _ => rfl) fun t => ?_
    split
    · exact restores_methodResult hw ..
    · exact restores_problemAt ..

theorem restores_targetsFor (hw : ∀ id, Restores setting (walk id)) (r : Resolution)
    (targets : List NodeId) (receivers : List TypeId) :
    Restores setting (targetsFor walk r targets receivers) := by
  induction receivers generalizing targets with
  | nil => exact restores_pure _
  | cons receiver rest ih => exact Restores.bind (restores_targetFor hw r receiver) fun _ => ih _

theorem restores_rebind (call : ExprId) (targets : List NodeId) :
    Restores setting (rebind call targets) := by
  refine restores_read (fun _ => rfl) fun node => restores_read (fun _ => rfl) fun s => ?_
  dsimp only
  split
  · refine (restores_modifyGraph _).bind fun _ => (restores_modifyMemo _).bind fun _ => ?_
    exact restores_read (fun _ => rfl) fun _ => (restores_bind ..).mapError _
  · exact restores_pure _

theorem restores_breakNodeOf (block : ExprId) :
    Restores setting (updateProgram fun p => p.breakNodeOf block) := by
  refine restores_updateProgram fun p => ?_
  unfold Program.breakNodeOf
  split <;> rfl

theorem restores_bindToTargets (hw : ∀ id, Restores setting (walk id)) (call : ExprId) :
    Restores setting (bindToTargets walk call) := by
  refine restores_read (fun _ => rfl) fun p => ?_
  split
  · exact restores_pure _
  · split
    · split
      · exact restores_pure _
      · dsimp only
        split
        · exact restores_pure _
        · refine (restores_targetsFor hw ..).bind fun targets => ?_
          split
          · exact restores_rebind ..
          · exact (restores_breakNodeOf _).bind fun _ => restores_rebind ..
    · exact restores_pure _

theorem restores_resolve (hw : ∀ id, Restores setting (walk id)) (call : ExprId) :
    Restores setting (resolve walk call) := by
  have hbind :
      Restores setting (do if (← read).tools.resolvesCalls then bindToTargets walk call) := by
    refine restores_read (fun _ => rfl) fun setting => ?_
    split
    · exact restores_bindToTargets hw call
    · exact restores_pure _
  refine restores_read (fun _ => rfl) fun p => ?_
  dsimp only
  split
  · exact (restores_modifyJournal _).bind fun _ => hbind
  · exact hbind

theorem restores_resolvePending (hw : ∀ id, Restores setting (walk id)) (fuel : Nat) :
    Restores setting (resolvePending walk fuel) := by
  induction fuel with
  | zero => exact restores_throw _
  | succ fuel ih =>
    refine restores_read (fun _ => rfl) fun p => ?_
    split
    · exact restores_pure _
    · exact restores_change (fun _ => rfl) fun _ => (restores_resolve hw _).bind fun _ => ih

/-! ### Expansions -/

theorem restores_lowerTree (tree : Tree) : Restores setting (lowerTree tree) := by
  refine restores_change (fun p => (p.adds_lower tree).1.expansionDepth_eq) fun r => ?_
  split
  · exact restores_pure _
  · exact restores_fail _

/-- One expansion more while the step is taken, and one less again after it. -/
theorem restores_inExpansion {x : Infer α} (hx : Restores setting x) :
    Restores setting (inExpansion x) := by
  refine ⟨fun s => ?_⟩
  rw [outcome_inExpansion]
  obtain ⟨hframe, hdepth⟩ := hx.restored (atDepth s (s.program.expansionDepth + 1))
  refine ⟨hframe, ?_⟩
  show (x.outcome setting (atDepth s (s.program.expansionDepth + 1))).2.program.expansionDepth - 1 =
    _
  rw [hdepth]
  exact Nat.add_sub_cancel ..

theorem restores_typeExpansion (hdepth : setting.tools.KeepsDepth)
    (hw : ∀ id, Restores setting (walk id)) (source file : String) :
    Restores setting (typeExpansion walk source file) := by
  have hparse : Restores setting (parseGenerated source file) := by
    refine restores_read (fun _ => rfl) fun f => (restores_modifyJournal _).bind fun _ => ?_
    refine restores_read (fun _ => rfl) fun tools => ?_
    split
    · exact restores_pure _
    · exact restores_fail _
  have hnormalize : ∀ tree, Restores setting (do
      let normalize := (← read).tools.normalize
      updateProgram fun p => normalize p tree) := fun tree =>
        ⟨fun s => ⟨.refl _, hdepth s.program tree⟩⟩
  have hlowered : ∀ tree, Restores setting (do
      let generated ← lowerTree tree
      inExpansion (walk generated)
      return generated) := fun tree =>
    Restores.bind (restores_lowerTree tree) fun generated =>
      (restores_inExpansion (hw generated)).bind fun _ => restores_pure _
  refine hparse.bind fun tree => ?_
  have := (hnormalize tree).bind hlowered
  rwa [bind_assoc] at this

theorem restores_expandCall (hdepth : setting.tools.KeepsDepth)
    (hw : ∀ id, Restores setting (walk id)) (call definition : ExprId) (name : String)
    (args : List ExprId) :
    Restores setting (expandCall walk call definition name args) := by
  have hexpander : Restores setting (expanderFor definition args) := by
    refine restores_read (fun _ => rfl) fun s => ?_
    dsimp only
    split
    · exact restores_pure _
    · refine restores_read (fun _ => rfl) fun tools => (restores_modifyJournal _).bind fun _ => ?_
      exact Restores.bind ⟨fun _ => ⟨.refl _, rfl⟩⟩ fun _ => restores_pure _
  have hexpand : ∀ expander, Restores setting (expand expander call) := by
    intro expander
    refine (restores_modifyJournal _).bind fun _ => restores_read (fun _ => rfl) fun p => ?_
    split
    · exact restores_pure _
    · exact restores_fail _
  refine restores_read (fun _ => rfl) fun setting =>
    restores_read (fun _ => rfl) fun p => restores_check ?_
  refine hexpander.bind fun expander => (hexpand expander).bind fun source =>
    restores_read (fun _ => rfl) fun _ => ?_
  refine ((restores_typeExpansion hdepth hw source _).mapError _).bind fun generated => ?_
  exact restores_change (fun _ => rfl) fun _ => restores_read (fun _ => rfl) fun _ =>
    restores_deriveFrom ..

theorem restores_walkCall (hdepth : setting.tools.KeepsDepth)
    (hw : ∀ id, Restores setting (walk id)) (id : ExprId) (receiver : Option ExprId) (name : String)
    (args : List ExprId) (block : Option ExprId) :
    Restores setting (walkCall walk id receiver name args block) := by
  have hmacro : Restores setting (macroFor receiver name args) := by
    unfold macroFor
    split
    · exact restores_pure _
    · exact restores_read (fun _ => rfl) fun _ => restores_nameScope.bind fun _ => restores_pure _
  refine restores_typeOfSelf.bind fun scope => restores_change (fun _ => rfl) fun _ =>
    hmacro.bind fun m => ?_
  split
  · exact restores_expandCall hdepth hw ..
  · refine (restores_forM _ fun input _ => restores_read (fun _ => rfl) fun _ =>
      restores_modifyGraph _).bind fun _ => (restores_resolve hw id).bind fun _ => ?_
    refine (restores_option receiver hw).bind fun _ =>
      (restores_forM args fun arg _ => hw arg).bind fun _ => ?_
    exact restores_option block fun block => (hw block).doing ..

/-! ### The walk -/

theorem restores_walkConstruct (hdepth : setting.tools.KeepsDepth)
    (hw : ∀ id, Restores setting (walk id)) (id : ExprId) (c : Construct ExprId) :
    Restores setting (walkConstruct walk id c) := by
  cases c with
  | nop | nilLiteral | boolLiteral | charLiteral | numberLiteral | stringLiteral =>
    exact restores_giveType ..
  | symbolLiteral => exact restores_change (fun _ => rfl) fun _ => restores_giveType ..
  | sequence => exact restores_walkSequence hw ..
  | var => exact restores_walkVar ..
  | instanceVar => exact restores_walkInstanceVar ..
  | globalVar => exact restores_walkGlobalVar ..
  | path => exact restores_walkPath hw ..
  | declareVar => exact restores_walkDeclareVar hw ..
  | assign => exact restores_walkAssign hw ..
  | multiAssign => exact restores_walkMultiAssign hw ..
  | conditional => exact restores_walkConditional hw ..
  | loop => exact restores_walkLoop hw ..
  | breakOut => exact restores_walkBreak hw ..
  | returnFrom => exact restores_walkReturn hw ..
  | yieldTo => exact restores_walkYield hw ..
  | call => exact restores_walkCall hdepth hw ..
  | block => exact restores_walkBlock hw ..
  | methodDef => exact restores_walkMethodDef hw ..
  | macroDef => exact restores_walkMacroDef hw ..
  | classDef => exact restores_walkClassDef hw ..
  | moduleDef => exact restores_walkModuleDef hw ..
  | includeModule => exact restores_walkInclude hw ..
  | libDef => exact restores_walkLibDef hw ..
  | funDef => exact restores_walkFunDef hw ..
  | aliasDef => exact restores_walkAliasDef hw ..
  | structDef | unionDef => exact restores_walkFieldsDef hw ..
  | enumDef => exact restores_walkEnumDef ..
  | structGet | unionGet => exact restores_walkFieldGet ..
  | structSet | unionSet => exact restores_walkFieldSet ..
  | classOfSelf => exact restores_walkClassOfSelf ..
  | allocate => exact restores_walkAllocate ..
  | eitherValue => exact restores_walkEither hw ..
  | typeUnion => exact restores_walkTypeUnion hw ..
  | genericInstance => exact restores_walkGenericInstance hw ..
  | isA => exact restores_walkIsA hw ..
  | typeOf => exact restores_walkTypeOf hw ..
  | pointerOf => exact restores_walkPointerOf hw ..
  | pointerMalloc | pointerRealloc | pointerAdd => exact restores_walkSamePointer ..
  | pointerGetValue => exact restores_walkPointerGet ..
  | pointerSetValue => exact restores_walkPointerSet ..
  | pointerCast => exact restores_walkPointerCast ..

/-- By induction on how deep the walk may go. -/
theorem restores_walk (hdepth : setting.tools.KeepsDepth) (fuel : Nat) (id : ExprId) :
    Restores setting (Infer.walk fuel id) := by
  induction fuel generalizing id with
  | zero => exact restores_throw _
  | succ fuel ih =>
    refine restores_read (fun _ => rfl) fun c => restores_read (fun _ => rfl) fun place => ?_
    refine ((restores_walkConstruct hdepth ih id c).mapError _).bind fun _ => ?_
    exact restores_resolvePending ih fuel

end Infer

/-! ### What there is at the end -/

theorem GuardStack.assume_below {guards : GuardStack} (hne : guards.frames ≠ []) (guard : Guard) :
    (guards.assume guard).frames ≠ [] ∧ (guards.assume guard).depth = guards.depth ∧
      (guards.assume guard).frames.tail = guards.frames.tail := by
  obtain ⟨_ | ⟨top, rest⟩⟩ := guards
  · exact absurd rfl hne
  · exact ⟨nofun, rfl, rfl⟩

/-- Taking guards to hold leaves what lies below the innermost region alone. -/
theorem GuardStack.Assumes.below {guards guards' : GuardStack} (h : guards.Assumes guards')
    (hne : guards.frames ≠ []) :
    guards'.depth = guards.depth ∧ guards'.frames.tail = guards.frames.tail := by
  obtain ⟨more, rfl⟩ := h
  induction more generalizing guards with
  | nil => exact ⟨rfl, rfl⟩
  | cons guard more ih =>
    obtain ⟨hne', hdepth, htail⟩ := assume_below hne guard
    obtain ⟨hdepth', htail'⟩ := ih hne'
    exact ⟨hdepth'.trans hdepth, htail'.trans htail⟩

open Infer in
/-- A walk of any expression, in any state and however it ends, ends in the surroundings it was
started in. Below the innermost region the guards are the same, and the variables that there were
still have their nodes and come first. There is always an innermost region: the stack of guards
starts with one, and only a region's own entry is popped. -/
theorem WalkState.walk_restored {setting : Setting} (hdepth : setting.tools.KeepsDepth)
    {s s' : WalkState} (hguards : s.frame.guards.frames ≠ []) {fuel : Nat} {id : ExprId}
    {result : Except Failure Unit} (h : (Infer.walk fuel id).outcome setting s = (result, s')) :
    (s'.frame.scope = s.frame.scope ∧ s'.frame.result = s.frame.result ∧
      s'.frame.block = s.frame.block ∧
      s'.frame.yieldTypes = s.frame.yieldTypes ∧ s'.frame.insideBlock = s.frame.insideBlock ∧
      s'.frame.enclosing = s.frame.enclosing ∧ s'.frame.loops = s.frame.loops) ∧
    (s'.frame.guards.depth = s.frame.guards.depth ∧
      s'.frame.guards.frames.tail = s.frame.guards.frames.tail) ∧
    s'.program.expansionDepth = s.program.expansionDepth ∧
    (∀ name node, s.frame.vars.get? name = some node → s'.frame.vars.get? name = some node) ∧
    s.frame.vars.entries <+: s'.frame.vars.entries := by
  have hrestored := (restores_walk hdepth fuel id).restored s
  rw [h] at hrestored
  obtain ⟨hframe, hexpansions⟩ := hrestored
  refine ⟨⟨hframe.scope, hframe.result, hframe.block, hframe.yieldTypes,
    hframe.insideBlock, hframe.enclosing,
    hframe.loops⟩, hframe.guards.below hguards, hexpansions, fun name node hnode => ?_, hframe.vars⟩
  exact OrderedMap.get?_of_prefix hframe.vars hnode

namespace WalkState

/-- `while a; class Foo; nil.foo; end; end`, where `nil` has no such method. -/
def failingLoop : Tree :=
  .loop (.var "a") (some (.classDef "Foo" none (some (.call (some .nil) "foo" []))))

/-- Inside of a type, of a loop and of two regions, with a variable. -/
def withinInt32 : Frame :=
  { vars := .singleton "a" Program.nilNode, enclosing := [.int32, .program], loops := [⟨9⟩],
    guards := ⟨[∅, .notNil "b"]⟩ }

/-- The walk fails in the body of the class, and its loop, class and region are left. -/
theorem walk_restored_failingLoop :
    Toolchain.standard.KeepsDepth ∧ withinInt32.guards.frames ≠ [] ∧ ∃ e s',
    (Infer.walk 9 ⟨4⟩).outcome ⟨.standard, {}⟩
        ((lowered failingLoop).withFrame withinInt32) = (.error e, s') ∧
      (s'.program.types.get .int32).types.contains "Foo" = true ∧
      s'.frame.scope = none ∧ s'.frame.enclosing = [.int32, .program] ∧ s'.frame.loops = [⟨9⟩] ∧
      s'.frame.guards.frames.tail = [.notNil "b"] ∧ s'.program.expansionDepth = 0 ∧
      s'.frame.vars.get? "a" = some Program.nilNode := by
  have hguards : ((lowered failingLoop).withFrame withinInt32).frame.guards.frames ≠ [] := by decide
  have hend : let r :=
    (Infer.walk 9 ⟨4⟩).outcome ⟨.standard, {}⟩ ((lowered failingLoop).withFrame withinInt32)
      r.1.isOk = false ∧ (r.2.program.types.get .int32).types.contains "Foo" =
        true := by decide +kernel
  rcases hout : (Infer.walk 9 ⟨4⟩).outcome ⟨.standard, {}⟩
    ((lowered failingLoop).withFrame withinInt32)
    with ⟨e | ⟨⟩, s'⟩ <;> rw [hout] at hend
  · obtain ⟨⟨hscope, -, -, -, -, henclosing, hloops⟩, ⟨-, htail⟩, hdepth, hvars, -⟩ :=
      walk_restored Toolchain.keepsDepth_standard hguards hout
    refine ⟨Toolchain.keepsDepth_standard, hguards, e, s', rfl, hend.2, hscope, henclosing,
      hloops, htail, hdepth, ?_⟩
    exact hvars "a" _ rfl
  · cases hend.1

end WalkState

end TypeFlow

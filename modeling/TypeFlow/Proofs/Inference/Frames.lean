import TypeFlow.Proofs.Inference.Outcomes

/-!
# Steps that leave the frame alone

Resolving calls goes through frames of its own and leaves the one it is started in as it is, however
it ends (`keepsFrame_resolvePending`). Nothing about the walk matters for this.
-/

namespace TypeFlow.Infer
variable {α β : Type}

structure KeepsFrame (x : Infer α) : Prop where
  frame_eq : ∀ setting s, (x.outcome setting s).2.frame = s.frame

theorem KeepsFrame.does {x : Infer α} (h : KeepsFrame x) {setting : Setting} {s s' : WalkState}
    {a : α} (hd : x.Does setting s a s') : s'.frame = s.frame := by
  have := h.frame_eq setting s
  rwa [show x.outcome setting s = _ from hd] at this

theorem keepsFrame_pure (a : α) : KeepsFrame (pure a : Infer α) := ⟨fun _ _ => rfl⟩

theorem keepsFrame_throw (e : Failure) : KeepsFrame (throw e : Infer α) := ⟨fun _ _ => rfl⟩

theorem keepsFrame_problemAt (id : ExprId) (problem : Problem) :
    KeepsFrame (problemAt id problem : Infer α) :=
  ⟨fun _ _ => rfl⟩

theorem keepsFrame_defectAt (id : ExprId) (defect : Defect) :
    KeepsFrame (defectAt id defect : Infer α) :=
  ⟨fun _ _ => rfl⟩

theorem KeepsFrame.bind {x : Infer α} {f : α → Infer β} (hx : KeepsFrame x)
    (hf : ∀ a, KeepsFrame (f a)) : KeepsFrame (x >>= f) := by
  refine ⟨fun setting s => ?_⟩
  have hx := hx.frame_eq setting s
  rw [outcome_bind]
  rcases h : x.outcome setting s with ⟨_ | a, s'⟩ <;> rw [h] at hx
  · exact hx
  · exact ((hf a).frame_eq setting s').trans hx

theorem keepsFrame_get : KeepsFrame get := ⟨fun _ _ => rfl⟩
theorem keepsFrame_read : KeepsFrame read := ⟨fun _ _ => rfl⟩
theorem keepsFrame_program : KeepsFrame program := ⟨fun _ _ => rfl⟩
theorem keepsFrame_types : KeepsFrame types := ⟨fun _ _ => rfl⟩
theorem keepsFrame_nodeOf (id : ExprId) : KeepsFrame (nodeOf id) := ⟨fun _ _ => rfl⟩
theorem keepsFrame_construct (id : ExprId) : KeepsFrame (construct id) := ⟨fun _ _ => rfl⟩
theorem keepsFrame_locationOf (id : ExprId) : KeepsFrame (locationOf id) := ⟨fun _ _ => rfl⟩
theorem keepsFrame_nameOf (id : TypeId) : KeepsFrame (nameOf id) := ⟨fun _ _ => rfl⟩

theorem keepsFrame_updateProgram (f : Program → α × Program) : KeepsFrame (updateProgram f) :=
  ⟨fun _ _ => rfl⟩

theorem keepsFrame_modifyGraph (f : FlowGraph → FlowGraph) : KeepsFrame (modifyGraph f) :=
  ⟨fun _ _ => rfl⟩

theorem keepsFrame_modifyMemo (f : CallMemo → CallMemo) : KeepsFrame (modifyMemo f) :=
  ⟨fun _ _ => rfl⟩

theorem keepsFrame_modifyJournal (f : Journal → Journal) : KeepsFrame (modifyJournal f) :=
  ⟨fun _ _ => rfl⟩

theorem keepsFrame_onNetwork (change : Binding α) : KeepsFrame (onNetwork change) := by
  refine ⟨fun setting s => ?_⟩
  rw [outcome_onNetwork]
  rfl

theorem keepsFrame_giveType (id : ExprId) (type : TypeId) : KeepsFrame (giveType id type) :=
  (keepsFrame_nodeOf id).bind fun _ => keepsFrame_onNetwork _

theorem keepsFrame_deriveFrom (id : ExprId) (deps : List NodeId) :
    KeepsFrame (deriveFrom id deps) :=
  (keepsFrame_nodeOf id).bind fun _ => keepsFrame_onNetwork _

theorem KeepsFrame.mapError {x : Infer α} (hx : KeepsFrame x) (f : Diagnostic → Diagnostic) :
    KeepsFrame (mapError f x) := by
  refine ⟨fun setting s => ?_⟩
  rw [outcome_mapError]
  exact hx.frame_eq setting s

theorem keepsFrame_inFrame (f : Frame) (x : Infer α) : KeepsFrame (inFrame f x) := by
  refine ⟨fun setting s => ?_⟩
  unfold inFrame
  rw [outcome_within]
  rfl

theorem keepsFrame_check {c : Prop} [Decidable c] {f : Unit → Infer β} {id : ExprId}
    {problem : Problem} (hf : KeepsFrame (f ())) :
    KeepsFrame (if c then problemAt id problem >>= f else f ()) := by
  split
  · refine ⟨fun setting s => ?_⟩
    rw [outcome_bind, outcome_problemAt]
  · exact hf

/-! ### Resolving calls -/

variable (walk : Step)

theorem keepsFrame_knownValue (type : TypeId) : KeepsFrame (knownValue type) := by
  refine keepsFrame_get.bind fun s => ?_
  split
  · exact keepsFrame_pure _
  · refine (keepsFrame_updateProgram _).bind fun _ => (keepsFrame_modifyMemo _).bind fun _ => ?_
    exact keepsFrame_pure _

theorem keepsFrame_paramVars (params : List (String × TypeId)) (vars : OrderedMap String NodeId) :
    KeepsFrame (paramVars params vars) := by
  induction params generalizing vars with
  | nil => exact keepsFrame_pure _
  | cons param rest ih => exact (keepsFrame_updateProgram _).bind fun _ => ih _

theorem keepsFrame_methodResult (call : ExprId) (owner : TypeId) (definition : ExprId)
    (args : List TypeId) (block : Option ExprId) :
    KeepsFrame (methodResult walk call owner definition args block) := by
  refine keepsFrame_get.bind fun s => ?_
  split
  · exact keepsFrame_pure _
  · refine (keepsFrame_construct definition).bind fun c => ?_
    split
    · refine (keepsFrame_updateProgram _).bind fun _ => (keepsFrame_modifyMemo _).bind fun _ => ?_
      refine (keepsFrame_paramVars _ _).bind fun _ => keepsFrame_types.bind fun _ => ?_
      refine KeepsFrame.bind ?_ fun _ => keepsFrame_pure _
      exact (keepsFrame_locationOf call).bind fun _ => (keepsFrame_inFrame _ _).mapError _
    · exact keepsFrame_defectAt ..

theorem keepsFrame_requireAllocatable (id : ExprId) (type : TypeId) :
    KeepsFrame (requireAllocatable id type) := by
  refine keepsFrame_types.bind fun t => ?_
  dsimp only
  split
  · refine keepsFrame_check ?_
    split
    · exact keepsFrame_problemAt ..
    · exact keepsFrame_pure _
  · exact keepsFrame_pure _

theorem keepsFrame_allocation (call : ExprId) (type : TypeId) : KeepsFrame (allocation call type) :=
  (keepsFrame_requireAllocatable call type).bind fun _ => keepsFrame_knownValue type

theorem keepsFrame_construction (call : ExprId) (type : TypeId) (args : List TypeId) :
    KeepsFrame (construction walk call type args) := by
  refine (keepsFrame_allocation call type).bind fun _ => keepsFrame_types.bind fun t => ?_
  dsimp only
  split
  · exact (keepsFrame_methodResult walk ..).bind fun _ => keepsFrame_pure _
  · exact keepsFrame_check (keepsFrame_pure _)

theorem keepsFrame_checkArguments (call : ExprId) (method : String) (position : Nat)
    (pairs : List (TypeId × TypeId)) : KeepsFrame (checkArguments call method position pairs) := by
  induction pairs generalizing position with
  | nil => exact keepsFrame_pure _
  | cons pair rest ih =>
    obtain ⟨actual, expected⟩ := pair
    unfold checkArguments
    dsimp only
    split
    · refine (keepsFrame_nameOf _).bind fun _ => (keepsFrame_nameOf _).bind fun _ => ?_
      exact (keepsFrame_problemAt ..).bind fun _ => ih _
    · exact ih _

theorem keepsFrame_externalCall (call : ExprId) (lib : TypeId) (name : String)
    (signature : Signature) (args : List TypeId) :
    KeepsFrame (externalCall call lib name signature args) := by
  refine (keepsFrame_nameOf lib).bind fun _ => keepsFrame_check ?_
  exact (keepsFrame_checkArguments ..).bind fun _ => keepsFrame_knownValue _

theorem keepsFrame_fieldCall (call : ExprId) (receiver : TypeId) (fields : OrderedMap String TypeId)
    (name : String) (args : List TypeId) :
    KeepsFrame (fieldCall call receiver fields name args) := by
  have hvalue : ∀ type : TypeId,
      KeepsFrame (do return some (← knownValue type) : Infer (Option NodeId)) :=
    fun type => (keepsFrame_knownValue type).bind fun _ => keepsFrame_pure _
  unfold fieldCall
  split
  · exact hvalue _
  · split
    · exact keepsFrame_pure _
    · split
      · exact keepsFrame_pure _
      · dsimp only
        split
        · exact keepsFrame_types.bind fun _ => (keepsFrame_problemAt ..).bind fun _ => hvalue _
        · exact hvalue _
  · exact keepsFrame_pure _

theorem keepsFrame_builtinCall (r : Resolution) (receiver : TypeId) :
    KeepsFrame (builtinCall walk r receiver) := by
  refine keepsFrame_types.bind fun t => ?_
  split
  · split
    · exact (keepsFrame_allocation ..).bind fun _ => keepsFrame_pure _
    · split
      · exact (keepsFrame_construction walk ..).bind fun _ => keepsFrame_pure _
      · split
        · split
          · exact (keepsFrame_externalCall ..).bind fun _ => keepsFrame_pure _
          · exact keepsFrame_pure _
        · exact keepsFrame_pure _
  · exact keepsFrame_fieldCall ..
  · exact keepsFrame_fieldCall ..
  · exact keepsFrame_pure _

theorem keepsFrame_targetFor (r : Resolution) (receiver : TypeId) :
    KeepsFrame (targetFor walk r receiver) := by
  refine (keepsFrame_builtinCall walk r receiver).bind fun target => ?_
  split
  · exact keepsFrame_pure _
  · refine keepsFrame_types.bind fun t => ?_
    split
    · exact keepsFrame_methodResult walk ..
    · exact keepsFrame_problemAt ..

theorem keepsFrame_targetsFor (r : Resolution) (targets : List NodeId) (receivers : List TypeId) :
    KeepsFrame (targetsFor walk r targets receivers) := by
  induction receivers generalizing targets with
  | nil => exact keepsFrame_pure _
  | cons receiver rest ih => exact (keepsFrame_targetFor walk r receiver).bind fun _ => ih _

theorem keepsFrame_rebind (call : ExprId) (targets : List NodeId) :
    KeepsFrame (rebind call targets) := by
  refine (keepsFrame_nodeOf call).bind fun _ => keepsFrame_get.bind fun _ => ?_
  dsimp only
  split
  · refine (keepsFrame_modifyGraph _).bind fun _ => (keepsFrame_modifyMemo _).bind fun _ => ?_
    exact (keepsFrame_locationOf call).bind fun _ => (keepsFrame_onNetwork _).mapError _
  · exact keepsFrame_pure _

theorem keepsFrame_bindToTargets (call : ExprId) : KeepsFrame (bindToTargets walk call) := by
  refine keepsFrame_program.bind fun p => ?_
  split
  · exact keepsFrame_pure _
  · split
    · split
      · exact keepsFrame_pure _
      · dsimp only
        split
        · exact keepsFrame_pure _
        · refine (keepsFrame_targetsFor walk ..).bind fun _ => ?_
          split
          · exact keepsFrame_rebind ..
          · exact (keepsFrame_updateProgram _).bind fun _ => keepsFrame_rebind ..
    · exact keepsFrame_pure _

theorem keepsFrame_resolve (call : ExprId) : KeepsFrame (resolve walk call) := by
  have hbind : KeepsFrame (do if (← read).tools.resolvesCalls then bindToTargets walk call) := by
    refine keepsFrame_read.bind fun _ => ?_
    split
    · exact keepsFrame_bindToTargets walk call
    · exact keepsFrame_pure _
  refine keepsFrame_program.bind fun p => ?_
  dsimp only
  split
  · exact (keepsFrame_modifyJournal _).bind fun _ => hbind
  · exact hbind

theorem keepsFrame_resolvePending (fuel : Nat) : KeepsFrame (resolvePending walk fuel) := by
  induction fuel with
  | zero => exact keepsFrame_throw _
  | succ fuel ih =>
    refine keepsFrame_program.bind fun p => ?_
    split
    · exact keepsFrame_pure _
    · exact (keepsFrame_updateProgram _).bind fun _ => (keepsFrame_resolve walk _).bind fun _ => ih

end TypeFlow.Infer

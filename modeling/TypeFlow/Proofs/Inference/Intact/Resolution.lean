import TypeFlow.Inference.Resolution
import TypeFlow.Proofs.Inference.Intact.Steps
import TypeFlow.Proofs.Program.Unread

/-!
# Resolving calls leaves states intact

A method is typed by walking copies, which nobody else is to walk. Its result is excused until it is
bound: it may get the type that the method declares before, and may have been bound by then, since
the copy of what declares the type may return.
-/

namespace TypeFlow.Infer
variable {setting : Setting} {X : List NodeId} {L : List Duty} {s s' : WalkState}
  {walk : Step} {id call : ExprId}
  {node : NodeId} {type : TypeId}

/-- The node is one of the graph. -/
abbrev InGraph (node : NodeId) (s : WalkState) : Prop := node.index < s.program.graph.size

/-! ### What is remembered -/

theorem leaves_modifyMemo {f : CallMemo → CallMemo} (hs : s.Intact X L)
    (hm : (f s.memo).Within s.program) : LeavesIntact setting s (modifyMemo f) X L :=
  leaves_of_outcome (outcome_modifyMemo f) (.refl _) ⟨hs.program, hs.frame, hm⟩ trivial

theorem leaves_knownValue (hs : s.Intact X L) (ht : InTable type s) :
    Leaves setting s (knownValue type) X L InGraph := by
  unfold knownValue
  refine leaves_read outcome_get ?_
  split
  · rename_i node hnode
    exact leaves_pure hs (hs.memo.values type node hnode)
  · refine (leaves_addValue hs ht).bind fun node s₁ _ hs₁ hspare => ?_
    refine (leaves_modifyMemo hs₁ ⟨hs₁.memo.instances, fun other n hn => ?_⟩).bind
      fun _ s₂ hl₂ hs₂ _ => ?_
    · rw [OrderedMap.get?_insert] at hn
      split at hn
      · cases hn; exact hspare.lt
      · exact hs₁.memo.values other n hn
    · exact leaves_pure hs₂ (hl₂.spare hspare).lt

/-! ### Method instances -/

/-- A copy is walked. -/
theorem leaves_copyExpr (hs : s.Intact X L) (hid : s.program.Has id) :
    Leaves setting s (updateProgram fun p => p.copyExpr id) X L fun copy s' =>
      s'.Intact X (.whole copy :: L) := by
  obtain ⟨hl, hp⟩ := hs.program.plants (Program.plants_copyExpr hs.program.forest hid)
  have hs' := hs.withProgram hl hp
  exact leaves_of_outcome (outcome_updateProgram _) hl hs'.tail hs'

theorem leaves_declaredType (hw : Finishes setting walk) (hs : s.Intact X L)
    (hid : s.program.Has id) (unknown : Problem) :
    Leaves setting s (declaredType walk id unknown) X L InTable := by
  unfold declaredType
  refine (leaves_copyExpr hs hid).bind fun copy s₁ _ _ hs₁ => ?_
  refine (hw.leaves hs₁).bind fun _ s₂ _ hs₂ _ => leaves_read outcome_program ?_
  split
  · rename_i htype
    exact leaves_pure hs₂ (hs₂.whole.described_lt (hs₂.program.typeOf_lt htype))
  · exact leaves_problemAt ..

theorem leaves_setExcused (hs : s.Intact X L) (hn : s.program.Spare node) (hexcused : node ∈ X)
    (ht : InTable type s) : LeavesIntact setting s (onNetwork (Binding.setType node type)) X L := by
  refine ⟨fun a s' hd => ?_⟩
  obtain ⟨n, hset, rfl⟩ := does_onNetwork.mp hd
  obtain ⟨hl, hp⟩ := hs.program.setType hn.ne_nil (hs.program.avoids_spare hn) hset
    (Binding.orderly_setType_excused hs.program.orderly hexcused ht hset)
  exact ⟨hl, hs.withProgram hl hp, trivial⟩

theorem leaves_fixResult (hw : Finishes setting walk) (hs : s.Intact X L)
    (hn : s.program.Spare node) (hexcused : node ∈ X) {returnType : Option ExprId}
    (hreturn : ∀ i ∈ returnType, s.program.Has i) :
    LeavesIntact setting s (fixResult walk node returnType) X L := by
  unfold fixResult
  split
  · exact leaves_pure hs trivial
  · refine (leaves_declaredType hw hs (hreturn _ rfl) _).bind fun type s₁ hl₁ hs₁ ht => ?_
    refine (leaves_setExcused hs₁ (hl₁.spare hn) hexcused ht).bind fun _ s₂ _ hs₂ _ => ?_
    exact leaves_freeze hs₂ node

theorem leaves_typeYields (hw : Finishes setting walk) (hs : s.Intact X L)
    {blockParam : Option (BlockParam ExprId)}
    (hinputs : ∀ p ∈ blockParam, ∀ i ∈ p.inputs, s.program.Has i) :
    LeavesIntact setting s (typeYields walk blockParam) X L := by
  unfold typeYields
  split
  · exact leaves_pure hs trivial
  · rename_i p
    have hinput : ∀ i ∈ p.inputs, ∀ s' M, s.program.Later s'.program → s'.Intact X ([] ++ M) →
        Leaves setting s' (declaredType walk i .blockInputUnknown) X M
          fun _ _ => True := fun i hi s' M hl hs' =>
      (leaves_declaredType hw hs' (hl.lt (hinputs p rfl i hi)) _).imp fun _ _ _ hs'' _ =>
        ⟨hs'', trivial⟩
    have hnone : p.inputs.flatMap (fun _ => ([] : List Duty)) = [] := by simp
    refine (leaves_mapM (P := fun _ _ => True) (fun _ _ => trivial) (fun _ => [])
      (by rwa [hnone]) hinput).bind fun types s₁ _ hs₁ _ => leaves_modifyFrame hs₁ ?_
    exact ⟨hs₁.frame.vars, hs₁.frame.result, hs₁.frame.scope, hs₁.frame.enclosing, hs₁.frame.guards⟩

theorem leaves_bodyNode (hw : Finishes setting walk) (hs : s.Intact X L) {body : Option ExprId}
    (hbody : ∀ i ∈ body, s.program.Has i) : Leaves setting s (bodyNode walk body) X L InGraph := by
  unfold bodyNode
  split
  · exact leaves_pure hs hs.nil_lt
  · refine (leaves_copyExpr hs (hbody _ rfl)).bind fun copy s₁ _ _ hs₁ => ?_
    refine (hw _ _ _ _ hs₁).bind fun _ s₂ _ hs₂ _ => ?_
    exact leaves_of_outcome (outcome_nodeOf copy) (.refl _) hs₂.tail (hs₂.node_lt hs₂.has)

/-- The result is bound in the end, whatever has become of it until then. -/
theorem leaves_typeMethod (hw : Finishes setting walk) (hs : s.Intact X L)
    (hn : s.program.Spare node) {body returnType : Option ExprId}
    {blockParam : Option (BlockParam ExprId)} (hbody : ∀ i ∈ body, s.program.Has i)
    (hreturn : ∀ i ∈ returnType, s.program.Has i)
    (hinputs : ∀ p ∈ blockParam, ∀ i ∈ p.inputs, s.program.Has i) :
    LeavesIntact setting s (typeMethod walk node body returnType blockParam) X L := by
  unfold typeMethod
  have hexcused : s.Intact (node :: X) L :=
    hs.duties (hs.program.mono fun _ => List.mem_cons_of_mem _)
  refine (leaves_fixResult hw hexcused hn (List.mem_cons_self ..) hreturn).bind
    fun _ s₁ hl₁ hs₁ _ => ?_
  refine (leaves_typeYields hw hs₁ fun p hp i hi => hl₁.lt (hinputs p hp i hi)).bind
    fun _ s₂ hl₂ hs₂ _ => ?_
  refine (leaves_bodyNode hw hs₂ fun i hi => hl₂.lt (hl₁.lt (hbody i hi))).bind
    fun value s₃ hl₃ hs₃ hvalue => leaves_read outcome_program ?_
  exact (leaves_rebindSpare hs₃ (hl₃.spare (hl₂.spare (hl₁.spare hn)))
    (List.forall_mem_singleton.mpr hvalue)).mapError

theorem leaves_paramVars (hs : s.Intact X L) {params : List (String × TypeId)}
    {vars : OrderedMap String NodeId} (hparams : ∀ param ∈ params, InTable param.2 s)
    (hvars : ∀ name node, vars.get? name = some node → s.program.Spare node) :
    Leaves setting s (paramVars params vars) X L fun vars s' =>
      ∀ name node, vars.get? name = some node → s'.program.Spare node := by
  induction params generalizing s vars with
  | nil => exact leaves_pure hs hvars
  | cons param rest ih =>
    obtain ⟨hparam, hrest⟩ := List.forall_mem_cons.mp hparams
    refine (leaves_addValue hs hparam).bind fun node s₁ hl₁ hs₁ hspare =>
      ih hs₁ ?_ fun other n hn => ?_
    · exact fun param hp => hl₁.kinds.lt (hrest param hp)
    · rw [OrderedMap.get?_insert] at hn
      split at hn
      · cases hn; exact hspare
      · exact hl₁.spare (hvars other n hn)

/-- A body is typed in a frame of its own, with the parameters as its variables. -/
theorem leaves_inMethod (hw : Finishes setting walk) (hs : s.Intact X L) {receiver : Option ExprId}
    {name : String} {params : List String} {body returnType : Option ExprId}
    {blockParam : Option (BlockParam ExprId)}
    (hparts :
      ∀ part ∈ (Construct.methodDef receiver name params body returnType blockParam).children,
      s.program.Has part)
    {vars : OrderedMap String NodeId}
    (hvars : ∀ name node, vars.get? name = some node → s.program.Spare node)
    {owner : TypeId} (howner : InTable owner s) {result : NodeId} (hresult : s.program.Spare result)
    (block : Option ExprId) :
    LeavesIntact setting s (inFrame { vars, scope := some owner, result := some result, block }
      (typeMethod walk result body returnType blockParam)) X L := by
  have hwithin :
      Frame.Within { vars, scope := some owner, result := some result, block } s.program := by
    refine ⟨hvars, fun _ hn => ?_, fun _ ht => ?_, fun _ ht => ?_, GuardStack.within_initial _⟩
    · cases hn; exact hresult
    · cases ht; exact howner
    · rw [List.mem_singleton.mp ht]; exact hs.builtin_lt (by decide)
  refine leaves_inFrame hs hwithin fun hs' => leaves_typeMethod hw hs' hresult ?_ ?_ ?_
  · exact fun i hi => hparts i (by simp [Construct.children, Option.mem_toList.mpr hi])
  · exact fun i hi => hparts i (by simp [Construct.children, Option.mem_toList.mpr hi])
  · rintro p hp i hi
    cases hp
    exact hparts i (by simp [Construct.children, hi])

theorem leaves_methodResult (hw : Finishes setting walk) (hs : s.Intact X L) (call : ExprId)
    {owner : TypeId} (howner : InTable owner s) (definition : ExprId) {args : List TypeId}
    (hargs : ∀ a ∈ args, InTable a s) (block : Option ExprId) :
    Leaves setting s (methodResult walk call owner definition args block) X L InGraph := by
  unfold methodResult
  refine leaves_read outcome_get ?_
  split
  · rename_i node hnode
    exact leaves_pure hs (hs.memo.instances _ node hnode).lt
  · refine leaves_read (outcome_construct definition) ?_
    split
    · rename_i receiver name params body returnType blockParam hc
      refine (leaves_addVar hs).bind fun result s₁ hl₁ hs₁ hspare => ?_
      refine (leaves_modifyMemo hs₁ ⟨fun other n hn => ?_, hs₁.memo.values⟩).bind
        fun _ s₂ hl₂ hs₂ _ => ?_
      · rw [OrderedMap.get?_insert] at hn
        split at hn
        · cases hn; exact hspare
        · exact hs₁.memo.instances other n hn
      have hlt : ∀ {t : TypeId}, InTable t s → InTable t s₂ :=
        fun ht => hl₂.kinds.lt (hl₁.kinds.lt ht)
      have hparams : ∀ param ∈ ("self", owner) :: params.zip args, InTable param.2 s₂ := by
        refine List.forall_mem_cons.mpr ⟨hlt howner, fun param hp => hlt (hargs _ ?_)⟩
        exact (List.of_mem_zip hp).2
      refine (leaves_paramVars hs₂ hparams fun _ _ hn => by cases hn).bind
        fun vars s₃ hl₃ hs₃ hvars => ?_
      refine leaves_read outcome_types ?_
      have hresult : s₃.program.Spare result := hl₃.spare (hl₂.spare hspare)
      have hmethod :=
        leaves_inMethod hw hs₃ (fun part hp => hl₃.lt (hl₂.lt (hl₁.lt (hs.has_part hc hp)))) hvars
        (hl₃.kinds.lt (hlt howner)) hresult block
      exact hmethod.doing.bind fun _ s₄ hl₄ hs₄ _ => leaves_pure hs₄ (hl₄.spare hresult).lt
    · exact leaves_defectAt ..

end TypeFlow.Infer

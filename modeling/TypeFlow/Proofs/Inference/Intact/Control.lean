import TypeFlow.Proofs.Inference.Branches
import TypeFlow.Proofs.Inference.Intact.Assignments

/-!
# Control flow leaves intact states

Parameters of blocks get their values from whoever yields, whether the block has been walked or not;
they are not among the parts that a block is walked by.
-/

namespace TypeFlow.Infer
variable {setting : Setting} {X : List NodeId} {L : List Duty} {s s' : WalkState}
  {walk : Step} {id : ExprId}

theorem leaves_walkStatements (hw : Finishes setting walk) {t : Duty} {statements : List ExprId}
    (walked : Nat) (hs : s.Intact X (t :: (statements.map Duty.whole ++ L))) :
    Leaves setting s (walkStatements walk id walked statements) X (t :: L)
      fun last s' => ∀ i ∈ last, s'.program.Has i := by
  induction statements generalizing s walked with
  | nil => exact leaves_pure hs fun _ h => nomatch h
  | cons statement rest ih =>
    have hhas : s.program.Has statement := hs.swap.has
    cases rest with
    | nil =>
      exact (hw.next hs).bind fun _ s₁ hl₁ hs₁ _ => leaves_pure hs₁ fun i hi => by
        cases hi; exact hl₁.lt hhas
    | cons next rest =>
      unfold walkStatements
      refine (hw.next hs).bind fun _ s₁ hl₁ hs₁ _ => leaves_read (outcome_typeOf statement) ?_
      split
      · have hdropped : s₁.Intact X (t :: L) :=
          hs₁.sublist (.cons_cons t (List.sublist_append_right ..))
        refine (leaves_modifyProgram hdropped (hdropped.program.truncate id _)).bind
          fun _ s₂ hl₂ hs₂ _ => ?_
        exact leaves_pure hs₂ fun i hi => by cases hi; exact hl₂.lt (hl₁.lt hhas)
      · exact ih _ hs₁

theorem leaves_walkSequence (hw : Finishes setting walk) {items : List ExprId}
    (hs : s.Intact X (.single id :: (items.map Duty.whole ++ L))) :
    LeavesIntact setting s (walkSequence walk id items) X (.done id :: L) := by
  unfold walkSequence
  refine (leaves_walkStatements hw 0 hs).bind fun last s₁ _ hs₁ hlast =>
    leaves_read (outcome_partNode last) ?_
  exact leaves_derive hs₁ (List.forall_mem_singleton.mpr (hs₁.partNode_lt hlast))

/-! ### Merging -/

theorem leaves_mergeWithNil (hs : s.Intact X L) (name : String) :
    LeavesIntact setting s (mergeWithNil name) X L := by
  unfold mergeWithNil
  refine leaves_read outcome_frame ?_
  split
  · exact leaves_pure hs trivial
  · rename_i old hold
    have hlt := (hs.var_spare hold).lt
    refine (leaves_addVar hs).bind fun merged s₁ hl₁ hs₁ hspare => ?_
    refine (leaves_bind hs₁ hspare ?_).bind fun _ s₂ hl₂ hs₂ _ => leaves_modifyFrame hs₂
      ⟨fun other node hn => ?_, hs₂.frame.result, hs₂.frame.scope,
        hs₂.frame.enclosing, hs₂.frame.guards⟩
    · exact List.forall_mem_cons.mpr ⟨Nat.lt_of_lt_of_le hlt hl₁.nodes_le,
        List.forall_mem_singleton.mpr hs₁.nil_lt⟩
    · rw [OrderedMap.get?_insert] at hn
      split at hn
      · cases hn; exact hl₂.spare hspare
      · exact hs₂.var_spare hn

theorem leaves_mergeCreatedVars (hs : s.Intact X L) (before : List String)
    (paths : List (Option ExprId)) : LeavesIntact setting s (mergeCreatedVars before paths) X L :=
  leaves_read outcome_program (leaves_read outcome_frame
    (leaves_each hs fun name _ _ _ hs' => leaves_mergeWithNil hs' name))

/-! ### Conditionals and loops -/

theorem Finishes.optionalUnder (h : Finishes setting walk) {guard : Option Guard}
    (hguard : GuardInTable guard s) {t : Duty} {o : Option ExprId}
    (hs : s.Intact X (t :: (o.toList.map Duty.whole ++ L))) :
    LeavesIntact setting s (o.forM fun branch => underGuard guard (walk branch)) X (t :: L) := by
  cases o with
  | none => exact leaves_pure hs trivial
  | some branch => exact leaves_underGuard hs hguard fun _ _ hs' => h.next hs'

/-- What a conditional proves compares with what its parts compare with. -/
theorem guardInTable_combinedGuard (hs : s.Intact X L) (operator : Option ShortCircuit)
    (onTrue onFalse : Option ExprId) :
    GuardInTable (combinedGuard operator (onTrue.bind s.program.guardOf)
      (onFalse.bind s.program.guardOf)) s := by
  have hpart : ∀ o : Option ExprId, GuardInTable (o.bind s.program.guardOf) s := fun o g hg => by
    obtain ⟨id, -, hg⟩ := Option.bind_eq_some_iff.mp hg
    exact guardInTable_guardOf hs _ g hg
  unfold combinedGuard
  split
  · exact Guard.within_both (hpart onTrue) (hpart onFalse)
  · exact fun _ hg => nomatch hg
  · exact fun _ hg => nomatch hg

theorem leaves_walkConditional (hw : Finishes setting walk) {cond : ExprId}
    {onTrue onFalse : Option ExprId} (hs : s.Intact X (.single id :: .whole cond ::
      (onTrue.toList.map Duty.whole ++ (onFalse.toList.map Duty.whole ++ L))))
    (operator : Option ShortCircuit) :
    LeavesIntact setting s (walkConditional walk id cond onTrue onFalse operator) X
      (.done id :: L) := by
  have htrue : ∀ i ∈ onTrue, s.program.Has i :=
    fun i hi => hs.has_of_mem (by simp [Option.mem_def.mp hi])
  have hfalse : ∀ i ∈ onFalse, s.program.Has i :=
    fun i hi => hs.has_of_mem (by simp [Option.mem_def.mp hi])
  suffices hbranches : LeavesIntact setting s (walkBranches walk id cond onTrue onFalse operator) X
      (.done id :: L) from
    hbranches.bind fun before s' _ hs' _ => leaves_mergeCreatedVars hs' before _
  unfold walkBranches
  refine (hw.next hs).bind fun _ s₁ hl₁ hs₁ _ => leaves_read (outcome_guardOf cond)
    (leaves_read outcome_frame ?_)
  have hcond := guardInTable_guardOf hs₁ (s₁.program.nodeOf cond)
  refine (hw.optionalUnder hcond hs₁).bind fun _ s₂ hl₂ hs₂ _ => ?_
  refine (hw.optional hs₂).bind fun _ s₃ hl₃ hs₃ _ => leaves_read outcome_program ?_
  have hl : s.program.Later s₃.program := (hl₁.trans hl₂).trans hl₃
  have hnodes : ∀ d ∈ [s₃.program.partNode onTrue, s₃.program.partNode onFalse],
      d.index < s₃.program.graph.size :=
    List.forall_mem_cons.mpr ⟨hs₃.partNode_lt fun i hi => hl.lt (htrue i hi),
      List.forall_mem_singleton.mpr (hs₃.partNode_lt fun i hi => hl.lt (hfalse i hi))⟩
  refine (leaves_derive hs₃ hnodes).bind fun _ s₄ hl₄ hs₄ _ => leaves_read outcome_program ?_
  have hcombined := guardInTable_combinedGuard hs₄ operator onTrue onFalse
  refine leaves_when hs₄ (fun _ => leaves_setExprGuard hs₄ id hcombined) fun s₅ hl₅ hs₅ => ?_
  dsimp only
  split
  · rename_i hguard
    have hassumed := hcond.later ((hl₂.trans hl₃).trans (hl₄.trans hl₅)) _ hguard
    refine leaves_when hs₅ (fun _ => leaves_modifyFrame hs₅ ?_) fun s₆ _ hs₆ =>
      leaves_pure hs₆ trivial
    exact ⟨hs₅.frame.vars, hs₅.frame.result, hs₅.frame.scope, hs₅.frame.enclosing,
      hs₅.frame.guards.assume hassumed⟩
  · exact leaves_pure hs₅ trivial

theorem leaves_walkLoopBody (hw : Finishes setting walk) {cond : ExprId} {body : Option ExprId}
    (hs : s.Intact X (.single id :: .whole cond :: (body.toList.map Duty.whole ++ L))) :
    LeavesIntact setting s (walkLoopBody walk id cond body) X (.single id :: L) := by
  unfold walkLoopBody
  refine (hw.next hs).bind fun _ s₁ hl₁ hs₁ _ => leaves_read (outcome_guardOf cond)
    (leaves_read outcome_frame ?_)
  refine Leaves.bind (leaves_inLoop hs₁ fun s' hp hs' => ?_) fun _ s₂ _ hs₂ _ =>
    leaves_pure hs₂ trivial
  have hcond : GuardInTable (s₁.program.guardOf cond) s' :=
    fun g hg => hp ▸ guardInTable_guardOf hs₁ _ g hg
  exact leaves_underGuard hs' hcond fun s'' _ hs'' => hw.optional hs''

theorem leaves_walkLoop (hw : Finishes setting walk) {cond : ExprId} {body : Option ExprId}
    (hs : s.Intact X (.single id :: .whole cond :: (body.toList.map Duty.whole ++ L))) :
    LeavesIntact setting s (walkLoop walk id cond body) X (.done id :: L) :=
  (leaves_walkLoopBody hw hs).bind fun before s₁ _ hs₁ _ =>
    (leaves_mergeCreatedVars hs₁ before _).bind
    fun _ s₂ _ hs₂ _ => leaves_read outcome_program (leaves_giveBuiltin hs₂ (by split <;> decide))

/-! ### Leaving constructs -/

theorem resultNodes_lt (hs : s.Intact X L) {values : List ExprId}
    (hvalues : ∀ i ∈ values, s.program.Has i) :
    ∀ d ∈ (if values.isEmpty then [Program.nilNode] else values.map s.program.nodeOf),
      d.index < s.program.graph.size := by
  split
  · exact List.forall_mem_singleton.mpr hs.nil_lt
  · exact List.forall_mem_map.mpr fun i hi => hs.node_lt (hvalues i hi)

theorem leaves_walkBreak (hw : Finishes setting walk) {values : List ExprId}
    (hs : s.Intact X (.single id :: (values.map Duty.whole ++ L))) :
    LeavesIntact setting s (walkBreak walk id values) X (.done id :: L) := by
  have hvalues : ∀ i ∈ values, s.program.Has i := fun i hi => hs.has_of_mem (by simp [hi])
  unfold walkBreak
  refine (hw.all hs).bind fun _ s₁ hl₁ hs₁ _ => leaves_read outcome_frame ?_
  dsimp only
  split
  · exact (leaves_note hs₁ (.brokenLoop _ _)).bind fun _ _ _ hs₂ _ =>
      leaves_giveBuiltin hs₂ (by decide)
  · refine (leaves_breakNodeOf hs₁ _).bind fun _ s₂ hl₂ hs₂ hspare =>
      leaves_read (outcome_resultNodes values) ?_
    refine (leaves_bind hs₂ hspare (resultNodes_lt hs₂ fun i hi =>
      hl₂.lt (hl₁.lt (hvalues i hi)))).bind fun _ _ _ hs₃ _ => leaves_giveBuiltin hs₃ (by decide)
  · exact leaves_problemAt_bind ..

theorem leaves_walkReturn (hw : Finishes setting walk) {values : List ExprId}
    (hs : s.Intact X (.single id :: (values.map Duty.whole ++ L))) :
    LeavesIntact setting s (walkReturn walk id values) X (.done id :: L) := by
  have hvalues : ∀ i ∈ values, s.program.Has i := fun i hi => hs.has_of_mem (by simp [hi])
  unfold walkReturn
  refine leaves_read outcome_frame ?_
  split
  · exact leaves_problemAt ..
  · rename_i result hresult
    refine (hw.all hs).bind fun _ s₁ hl₁ hs₁ _ => leaves_read (outcome_resultNodes values) ?_
    refine (leaves_bind hs₁ (hl₁.spare (hs.frame.result _ hresult)) ?_).bind
      fun _ _ _ hs₂ _ => leaves_giveBuiltin hs₂ (by decide)
    exact resultNodes_lt hs₁ fun i hi => hl₁.lt (hvalues i hi)

/-! ### Blocks -/

theorem leaves_checkYield (hs : s.Intact X L) (id : ExprId) (values : List ExprId) (position : Nat)
    (expected : List TypeId) :
    LeavesIntact setting s (checkYield id values position expected) X L := by
  induction expected generalizing s position with
  | nil => exact leaves_pure hs trivial
  | cons expected rest ih =>
    unfold checkYield
    dsimp only
    split
    · split
      · exact leaves_read (outcome_nameOf _) (leaves_problemAt_bind ..)
      · exact ih hs _
    · refine leaves_read (outcome_typeOf _) ?_
      split
      · exact ih hs _
      · split
        · exact leaves_read (outcome_nameOf _)
            (leaves_read (outcome_nameOf _) (leaves_problemAt_bind ..))
        · exact leaves_read (outcome_nodeOf _)
            ((leaves_freeze hs _).bind fun _ _ _ hs' _ => ih hs' _)

theorem leaves_bindParams (hs : s.Intact X L) {block : ExprId} {params : List ExprId}
    {body : Option ExprId} (hblock : s.program.construct block = .block params body)
    {values : List ExprId} (hvalues : ∀ i ∈ values, s.program.Has i) :
    LeavesIntact setting s (bindParams params values) X L := by
  unfold bindParams
  refine leaves_each hs fun pair hp s' hl hs' => ?_
  obtain ⟨param, position⟩ := pair
  have hparam : param ∈ params := (List.mem_zipIdx' hp).2 ▸ List.getElem_mem _
  have hhas : s.program.Has param := hs.has_part hblock (List.mem_append_left _ hparam)
  refine leaves_read (outcome_partNode _) (leaves_deriveParameter hs' (hl.lt hhas)
    (hl.isParameter ⟨block, params, body, hblock, hparam⟩)
      (List.forall_mem_singleton.mpr (hs'.partNode_lt ?_)))
  exact fun i hi => hl.lt (hvalues i (List.mem_of_getElem? hi))

theorem leaves_walkYield (hw : Finishes setting walk) {values : List ExprId}
    (hs : s.Intact X (.single id :: (values.map Duty.whole ++ L))) :
    LeavesIntact setting s (walkYield walk id values) X (.done id :: L) := by
  have hvalues : ∀ i ∈ values, s.program.Has i := fun i hi => hs.has_of_mem (by simp [hi])
  unfold walkYield
  refine leaves_read outcome_frame ?_
  split
  · exact leaves_problemAt ..
  · refine (hw.all hs).bind fun _ s₁ hl₁ hs₁ _ => leaves_read (outcome_construct _) ?_
    split
    · rename_i params body hblock
      refine leaves_read outcome_frame ((leaves_checkYield hs₁ ..).bind fun _ s₂ hl₂ hs₂ _ => ?_)
      have hblock₂ := hl₂.construct_block hblock
      refine (leaves_bindParams hs₂ hblock₂ fun i hi => hl₂.lt (hl₁.lt (hvalues i hi))).bind
        fun _ s₃ hl₃ hs₃ _ => ?_
      refine leaves_read (outcome_partNode _)
        (leaves_derive hs₃ (List.forall_mem_singleton.mpr (hs₃.partNode_lt ?_)))
      exact fun i hi =>
        hl₃.lt (hs₂.has_part hblock₂ (List.mem_append_right _ (Option.mem_toList.mpr hi)))
    · exact leaves_defectAt ..

/-- The parameters of a block are variables, and have spare nodes. -/
theorem spare_blockVars (hs : s.Intact X L) {block : ExprId} {params : List ExprId}
    {body : Option ExprId} (hblock : s.program.construct block = .block params body)
    {vars : OrderedMap String NodeId}
    (hvars : ∀ name node, vars.get? name = some node → s.program.Spare node) :
    ∀ name node, (blockVars s.program vars params).get? name = some node →
      s.program.Spare node := by
  have hparams : ∀ param ∈ params, s.program.Has param ∧
      s.program.IsParameter param := fun param hp =>
    ⟨hs.has_part hblock (List.mem_append_left _ hp), block, params, body, hblock, hp⟩
  clear hblock
  unfold blockVars
  induction params generalizing vars with
  | nil => exact hvars
  | cons param rest ih =>
    refine ih (fun name node hn => ?_) fun i hi => hparams i (List.mem_cons_of_mem _ hi)
    dsimp only at hn
    split at hn
    · rename_i own hown
      rw [OrderedMap.get?_insert] at hn
      split at hn
      · cases hn
        obtain ⟨hhas, hpar⟩ := hparams param (by simp)
        exact hs.program.sound.spare_parameter hhas hown hpar
      · exact hvars name node hn
    · exact hvars name node hn

theorem leaves_walkBlock (hw : Finishes setting walk) {params : List ExprId} {body : Option ExprId}
    (hs : s.Intact X (.single id :: (body.toList.map Duty.whole ++ L)))
    (hblock : s.program.construct id = .block params body) :
    LeavesIntact setting s (walkBlock walk id params body) X (.done id :: L) := by
  have hbody : ∀ i ∈ body, s.program.Has i :=
    fun i hi => hs.has_of_mem (by simp [Option.mem_def.mp hi])
  unfold walkBlock
  refine leaves_read outcome_program ?_
  refine Leaves.bind
    (leaves_within (L := .single id :: L) (hw.optional (hs.withFrame ?_)) fun s' hl hs' => ?_)
    fun _ s₁ hl₁ hs₁ _ => ?_
  · exact ⟨spare_blockVars hs hblock hs.frame.vars, hs.frame.result,
      hs.frame.scope, hs.frame.enclosing, hs.frame.guards⟩
  · exact ⟨fun name node hn => hl.spare (hs.frame.vars name node hn),
      hs'.frame.result, hs'.frame.scope, hs'.frame.enclosing, hs'.frame.guards⟩
  · refine leaves_read (outcome_partNode _)
      (leaves_derive hs₁ (List.forall_mem_singleton.mpr (hs₁.partNode_lt ?_)))
    exact fun i hi => hl₁.lt (hbody i hi)

end TypeFlow.Infer

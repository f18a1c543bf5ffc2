import TypeFlow.Proofs.Inference.Frames
import TypeFlow.Proofs.Inference.Names

/-!
# Control flow runs

Merging a variable with `Nil` gives it another node, so that it must not be one of those that the
walk has to keep. These were there before the construct, and only variables that it has created are
merged.
-/

namespace TypeFlow.Infer
variable {setting : Setting} {kept : Kept} {s s' : WalkState} {walk : Step} {id : ExprId}

theorem runnable_walkStatements (hw : Walks setting walk) (hs : Ready kept s) (id : ExprId)
    (walked : Nat) {statements : List ExprId} (hids : ∀ i ∈ statements, s.Has i) :
    Runnable setting kept s (walkStatements walk id walked statements) := by
  induction statements generalizing s walked with
  | nil => exact runnable_pure _
  | cons statement rest ih =>
    have hstatement := hw kept s statement hs (hids statement (by simp))
    cases rest with
    | nil => exact hstatement.bind hs fun _ _ _ _ _ => runnable_pure _
    | cons next rest =>
      unfold walkStatements
      refine hstatement.bind hs fun _ s₁ hl₁ hs₁ _ => goes_read (outcome_typeOf statement) ?_
      split
      · refine Goes.bind (goes_act (Q := fun _ _ => True) (outcome_modifyProgram _)
          (.truncate ..) trivial) hs₁ ?_
        exact fun _ _ _ _ _ => runnable_pure _
      · exact ih hs₁ _ fun i hi => hl₁.has (hids i (List.mem_cons_of_mem _ hi))

theorem runnable_walkSequence (hw : Walks setting walk) (hs : Ready kept s) {items : List ExprId}
    (hid : s.Plain id) (hitems : ∀ i ∈ items, s.Has i) :
    Runnable setting kept s (walkSequence walk id items) := by
  unfold walkSequence
  refine (runnable_walkStatements hw hs id 0 hitems).bind hs fun _ _ hl _ _ => ?_
  exact goes_read (outcome_partNode _) (runnable_deriveFrom (hl.plain hid) _)

/-! ### Merging -/

theorem runnable_mergeWithNil (hs : Ready kept s) {name : String} (hf : kept.Frees name) :
    Runnable setting kept s (mergeWithNil name) := by
  unfold mergeWithNil
  refine goes_read outcome_frame ?_
  split
  · exact runnable_pure _
  · refine (goes_addVar hs).bind hs fun merged s₁ _ hs₁ hslot => ?_
    refine (runnable_bind hslot _).bind hs₁ fun _ s₂ hl₂ _ _ => ?_
    exact goes_act (outcome_modifyFrame _) (.local hf (hl₂.program.slot hslot)) trivial

/-- The variables that are to be kept are among those of any state on the way. -/
theorem Ready.frees_of_notMem (hs : Ready kept s) {name : String} (h : name ∉ s.frame.vars.keys) :
    kept.Frees name :=
  hs.frees (Decidable.not_not.mp fun hne => h (OrderedMap.mem_keys.mpr hne))

theorem runnable_mergeCreatedVars (hs : Ready kept s) {before : List String}
    (hbefore : ∀ name, name ∉ before → kept.Frees name) (paths : List (Option ExprId)) :
    Runnable setting kept s (mergeCreatedVars before paths) := by
  unfold mergeCreatedVars
  refine goes_read outcome_program (goes_read outcome_frame ?_)
  refine runnable_forM _ hs fun name hname s' _ hs' => runnable_mergeWithNil hs' (hbefore name ?_)
  simpa using (List.mem_filter.mp (List.mem_filter.mp hname).1).2

/-! ### Conditionals and loops -/

/-- The condition has been walked, and the variables that there are then were taken down. -/
structure AfterCondition (setting : Setting) (walk : Step) (kept : Kept)
    (cond : ExprId) (s s₁ : WalkState) (before : List String) : Prop where
  does : (walk cond).Does setting s () s₁
  runs : Runs setting kept true s s₁
  before_eq : before = s₁.frame.vars.keys

theorem AfterCondition.frees {cond : ExprId} {s₁ : WalkState} {before : List String}
    (h : AfterCondition setting walk kept cond s s₁ before) (hs : Ready kept s) :
    ∀ name, name ∉ before → kept.Frees name :=
  fun _ hname => (h.runs.ready hs).2.frees_of_notMem (h.before_eq ▸ hname)

/-- How the branches of a conditional are walked, from the state `s₁` after its condition: what that
proves holds in the one, and for what comes after both if the other never completes. -/
structure WalksBranches (setting : Setting) (walk : Step) (kept : Kept) (id cond : ExprId)
    (onTrue onFalse : Option ExprId) (s₁ s₂ s₃ s₄ s' : WalkState) : Prop where
  walkTrue : (onTrue.forM fun branch => underGuard (s₁.program.guardOf cond)
    (walk branch)).Does setting s₁ () s₂
  walkFalse : (onFalse.forM walk).Does setting s₂ () s₃
  runsTrue : Runs setting kept true s₁ s₂
  runsFalse : Runs setting kept true s₂ s₃
  derive : (deriveFrom id [s₃.program.partNode onTrue, s₃.program.partNode onFalse]).Does
    setting s₃ () s₄
  frame : s'.frame = s₃.frame ∨ ∃ branch other guard, onTrue = some branch ∧ onFalse = some other ∧
    s₁.program.guardOf cond = some guard ∧ s₄.program.typeOf other = some .noReturn ∧
      s'.frame = { s₃.frame with guards := s₃.frame.guards.assume guard }

theorem goes_walkBranches (hw : Walks setting walk) (hs : Ready kept s) {cond : ExprId}
    {onTrue onFalse : Option ExprId} (hid : s.Plain id) (hcond : s.Has cond)
    (htrue : ∀ i ∈ onTrue, s.Has i) (hfalse : ∀ i ∈ onFalse, s.Has i)
    (operator : Option ShortCircuit) :
    Goes setting kept s (walkBranches walk id cond onTrue onFalse operator) fun before s' =>
      ∃ s₁, AfterCondition setting walk kept cond s s₁ before ∧
        ∃ s₂ s₃ s₄, WalksBranches setting walk kept id cond onTrue onFalse s₁ s₂ s₃ s₄ s' := by
  unfold walkBranches
  refine (hw kept s cond hs hcond).traced.bind hs fun _ s₁ hl₁ hs₁ h₁ => ?_
  refine goes_read (outcome_guardOf cond) (goes_read outcome_frame ?_)
  refine (runnable_option _ fun i hi => ?_).traced.bind hs₁ fun _ s₂ hl₂ hs₂ h₂ => ?_
  · exact runnable_underGuard hs₁ fun s' hl' hs' =>
      hw kept s' i hs' (hl'.has (hl₁.has (htrue i hi)))
  refine (hw.optional hs₂ fun i hi => hl₂.has (hl₁.has (hfalse i hi))).traced.bind hs₂
    fun _ s₃ hl₃ hs₃ h₃ => goes_read outcome_program ?_
  refine (runnable_deriveFrom (hl₃.plain (hl₂.plain (hl₁.plain hid))) _).traced.bind hs₃
    fun _ s₄ _ hs₄ h₄ => goes_read outcome_program ?_
  obtain ⟨hd₁, hr₁, -⟩ := h₁
  obtain ⟨hd₂, hr₂, -⟩ := h₂
  obtain ⟨hd₃, hr₃, -⟩ := h₃
  obtain ⟨hd₄, -, -⟩ := h₄
  have hframe₄ := (keepsFrame_deriveFrom id _).does hd₄
  have hend : ∀ s₅, (s₅.frame = s₃.frame ∨ ∃ branch other guard, onTrue = some branch ∧
      onFalse = some other ∧
      s₁.program.guardOf cond = some guard ∧ s₄.program.typeOf other = some .noReturn ∧
        s₅.frame = { s₃.frame with guards := s₃.frame.guards.assume guard }) →
      Goes setting kept s₅ (return s₁.frame.vars.keys : Infer _) fun before s' =>
        ∃ s₁, AfterCondition setting walk kept cond s s₁ before ∧
          ∃ s₂ s₃ s₄, WalksBranches setting walk kept id cond onTrue onFalse s₁
            s₂ s₃ s₄ s' := fun s₅ hframe =>
    goes_pure ⟨s₁, ⟨hd₁, hr₁, rfl⟩, s₂, s₃, s₄, hd₂, hd₃, hr₂, hr₃, hd₄, hframe⟩
  refine goes_when (P := fun s₅ => s₅.frame = s₃.frame) (fun _ => ?_) (fun _ => hframe₄) hs₄
    fun s₅ hs₅ hframe₅ => ?_
  · exact goes_act (outcome_setExprGuard ..) (.touch (.setGuard ..)) hframe₄
  split
  · rename_i branch other guard hguard
    refine goes_when (fun hnever => ?_) (fun _ => .inl hframe₅) hs₅ fun s₆ _ => hend s₆
    refine goes_act (outcome_modifyFrame _) (.assume s₅ _)
      (.inr ⟨branch, other, guard, rfl, rfl, hguard, hnever, ?_⟩)
    rw [WalkState.withFrame_frame, hframe₅]
  · exact hend s₅ (.inl hframe₅)

theorem runnable_walkConditional (hw : Walks setting walk) (hs : Ready kept s) {cond : ExprId}
    {onTrue onFalse : Option ExprId} (hid : s.Plain id) (hcond : s.Has cond)
    (htrue : ∀ i ∈ onTrue, s.Has i) (hfalse : ∀ i ∈ onFalse, s.Has i)
    (operator : Option ShortCircuit) :
    Runnable setting kept s (walkConditional walk id cond onTrue onFalse operator) := by
  unfold walkConditional
  refine (goes_walkBranches hw hs hid hcond htrue hfalse operator).bind hs
    fun before s' _ hs' hwalked => ?_
  obtain ⟨s₁, hcond, -⟩ := hwalked
  exact runnable_mergeCreatedVars hs' (hcond.frees hs) _

theorem goes_walkLoopBody (hw : Walks setting walk) (hs : Ready kept s) {cond : ExprId}
    {body : Option ExprId} (hcond : s.Has cond) (hbody : ∀ i ∈ body, s.Has i) :
    Goes setting kept s (walkLoopBody walk id cond body) fun before s' =>
      ∃ s₁, AfterCondition setting walk kept cond s s₁ before ∧
        (inLoop id (underGuard (s₁.program.guardOf cond) (body.forM walk))).Does setting s₁ () s' ∧
          Runs setting kept true s₁ s' := by
  unfold walkLoopBody
  refine (hw kept s cond hs hcond).traced.bind hs fun _ s₁ hl₁ hs₁ ⟨hd₁, hr₁, _⟩ => ?_
  refine goes_read (outcome_guardOf cond) (goes_read outcome_frame ?_)
  refine (runnable_inLoop hs₁ fun s' hl' hs' => ?_).traced.bind hs₁ fun _ s₂ _ _ ⟨hd₂, hr₂, _⟩ => ?_
  · refine runnable_underGuard hs' fun s'' hl'' hs'' => hw.optional hs'' fun i hi => ?_
    exact hl''.has (hl'.has (hl₁.has (hbody i hi)))
  · exact goes_pure ⟨s₁, ⟨hd₁, hr₁, rfl⟩, hd₂, hr₂⟩

theorem runnable_walkLoop (hw : Walks setting walk) (hs : Ready kept s) {cond : ExprId}
    {body : Option ExprId} (hid : s.Has id) (hcond : s.Has cond) (hbody : ∀ i ∈ body, s.Has i) :
    Runnable setting kept s (walkLoop walk id cond body) := by
  unfold walkLoop
  refine (goes_walkLoopBody hw hs hcond hbody).bind hs fun before s₂ hl₂ hs₂ hwalked => ?_
  obtain ⟨s₁, hcond, -⟩ := hwalked
  refine (runnable_mergeCreatedVars hs₂ (hcond.frees hs) _).bind hs₂ fun _ s₃ hl₃ hs₃ _ =>
    goes_read outcome_program ?_
  exact runnable_giveType (hl₃.has (hl₂.has hid)) _

/-! ### Leaving constructs -/

theorem outcome_resultNodes (values : List ExprId) : (resultNodes values).outcome setting s =
    (.ok (if values.isEmpty then [Program.nilNode] else values.map s.program.nodeOf), s) := rfl

theorem goes_breakNodeOf (hs : Ready kept s) (block : ExprId) :
    Goes setting kept s (updateProgram fun p => p.breakNodeOf block) fun node s' =>
      s'.program.Slot node :=
  goes_act (outcome_updateProgram _) (.breakNode s block) (hs.sound.program.slot_breakNodeOf block)

theorem runnable_walkBreak (hw : Walks setting walk) (hs : Ready kept s) {values : List ExprId}
    (hid : s.Has id) (hvalues : ∀ i ∈ values, s.Has i) :
    Runnable setting kept s (walkBreak walk id values) := by
  unfold walkBreak
  refine (hw.all hs hvalues).bind hs fun _ s₁ hl₁ hs₁ _ => goes_read outcome_frame ?_
  dsimp only
  split
  · refine (runnable_note (.brokenLoop _ _)).bind hs₁ fun _ _ hl₂ _ _ => ?_
    exact runnable_giveType (hl₂.has (hl₁.has hid)) _
  · refine (goes_breakNodeOf hs₁ _).bind hs₁ fun _ s₂ hl₂ hs₂ hslot => ?_
    refine goes_read (outcome_resultNodes values) ?_
    refine (runnable_bind hslot _).bind hs₂ fun _ _ hl₃ _ _ => ?_
    exact runnable_giveType (hl₃.has (hl₂.has (hl₁.has hid))) _
  · exact goes_problemAt_bind ..

theorem runnable_walkReturn (hw : Walks setting walk) (hs : Ready kept s) {values : List ExprId}
    (hid : s.Has id) (hvalues : ∀ i ∈ values, s.Has i) :
    Runnable setting kept s (walkReturn walk id values) := by
  unfold walkReturn
  refine goes_read outcome_frame ?_
  split
  · exact goes_problemAt ..
  · rename_i result hresult
    have hslot := hs.sound.result_slot hresult
    refine (hw.all hs hvalues).bind hs fun _ s₁ hl₁ hs₁ _ => ?_
    refine goes_read (outcome_resultNodes values) ?_
    refine (runnable_bind (hl₁.program.slot hslot) _).bind hs₁ fun _ _ hl₂ _ _ => ?_
    exact runnable_giveType (hl₂.has (hl₁.has hid)) _

/-! ### Blocks -/

theorem runnable_checkYield (hs : Ready kept s) (id : ExprId) (values : List ExprId)
    (position : Nat) (expected : List TypeId) :
    Runnable setting kept s (checkYield id values position expected) := by
  induction expected generalizing s position with
  | nil => exact runnable_pure _
  | cons expected rest ih =>
    unfold checkYield
    dsimp only
    split
    · split
      · exact goes_read (outcome_nameOf _) (goes_problemAt_bind ..)
      · exact ih hs _
    · refine goes_read (outcome_typeOf _) ?_
      split
      · exact ih hs _
      · split
        · refine goes_read (outcome_nameOf _) (goes_read (outcome_nameOf _) ?_)
          exact goes_problemAt_bind ..
        · refine goes_read (outcome_nodeOf _) ?_
          exact (runnable_touch (.freeze _ _)).bind hs fun _ _ _ hs' _ => ih hs' _

theorem runnable_bindParams (hs : Ready kept s) {block : ExprId} {params : List ExprId}
    {body : Option ExprId} (hblock : s.program.construct block = .block params body)
    (values : List ExprId) :
    Runnable setting kept s (bindParams params values) := by
  unfold bindParams
  refine runnable_forM _ hs fun pair hp s' hl hs' => ?_
  obtain ⟨param, position⟩ := pair
  have hparam : param ∈ params := (List.mem_zipIdx' hp).2 ▸ List.getElem_mem _
  have hhas : s.Has param := hs.parts hblock param (by simp [Construct.children, hparam])
  refine goes_read (outcome_partNode _) (runnable_derive (hl.has hhas) (.parameter ?_))
  exact hl.program.isParameter ⟨block, params, body, hblock, hparam⟩

theorem runnable_walkYield (hw : Walks setting walk) (hs : Ready kept s) {values : List ExprId}
    (hid : s.Plain id) (hvalues : ∀ i ∈ values, s.Has i) :
    Runnable setting kept s (walkYield walk id values) := by
  unfold walkYield
  refine goes_read outcome_frame ?_
  split
  · exact goes_problemAt ..
  · refine (hw.all hs hvalues).bind hs fun _ s₁ hl₁ hs₁ _ => goes_read (outcome_construct _) ?_
    split
    · rename_i params body hblock
      refine goes_read outcome_frame ?_
      refine (runnable_checkYield hs₁ ..).bind hs₁ fun _ s₂ hl₂ hs₂ _ => ?_
      have hblock₂ := hl₂.program.construct_block hblock
      refine (runnable_bindParams hs₂ hblock₂ values).bind hs₂ fun _ _ hl₃ _ _ => ?_
      exact goes_read (outcome_partNode _)
        (runnable_deriveFrom (hl₃.plain (hl₂.plain (hl₁.plain hid))) _)
    · exact goes_defectAt ..

/-- The parameters of a block are variables, and have nodes of their own. -/
theorem slot_blockVars (hs : Ready kept s) {vars : OrderedMap String NodeId} {params : List ExprId}
    (hvars : ∀ name node, vars.get? name = some node → s.program.Slot node)
    (hparams : ∀ i ∈ params, s.Has i) :
    ∀ name node, (blockVars s.program vars params).get? name = some node → s.program.Slot node := by
  unfold blockVars
  induction params generalizing vars with
  | nil => exact hvars
  | cons param rest ih =>
    refine ih ?_ fun i hi => hparams i (List.mem_cons_of_mem _ hi)
    intro name node hn
    dsimp only at hn
    split at hn
    · rename_i own hown
      rw [OrderedMap.get?_insert] at hn
      split at hn
      · cases hn
        exact hs.sound.program.slot_var (hparams param (by simp)) hown
      · exact hvars name node hn
    · exact hvars name node hn

theorem runnable_walkBlock (hw : Walks setting walk) (hs : Ready kept s) {params : List ExprId}
    {body : Option ExprId} (hid : s.Plain id) (hparams : ∀ i ∈ params, s.Has i)
    (hbody : ∀ i ∈ body, s.Has i) : Runnable setting kept s (walkBlock walk id params body) := by
  unfold walkBlock
  refine goes_read outcome_program ?_
  have hfits : (Region.block id (blockVars s.program s.frame.vars params)).Fits s :=
    slot_blockVars hs hs.sound.vars hparams
  have hready := Region.ready_enter hfits hs
  refine Goes.bind (Q := fun _ _ => True) ?_ hs fun _ _ hl _ _ => ?_
  · refine goes_within (.block id _) rfl (fun _ => rfl) hfits ?_
    exact hw.optional hready hbody
  · exact goes_read (outcome_partNode _) (runnable_deriveFrom (hl.plain hid) _)

end TypeFlow.Infer

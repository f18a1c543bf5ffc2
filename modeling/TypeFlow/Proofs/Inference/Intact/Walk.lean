import TypeFlow.Proofs.Inference.Intact.Calls
import TypeFlow.Proofs.Inference.Intact.Control
import TypeFlow.Proofs.Inference.Intact.Declarations
import TypeFlow.Proofs.Inference.Walked

/-!
# Walks leave states intact

Every construct does what is to be done with an expression (`leaves_walkConstruct`), and so does the
walk, however deep it may go (`finishes_walk`).
-/

namespace TypeFlow

theorem WalkState.Intact.sublistParts {s : WalkState} {X : List NodeId} {L : List Duty} {t : Duty}
    {ids parts : List ExprId} (h : s.Intact X (t :: (parts.map Duty.whole ++ L)))
    (hsub : ids.Sublist parts) :
    s.Intact X (t :: (ids.map Duty.whole ++ L)) :=
  h.sublist (.cons_cons _ ((hsub.map _).append (.refl _)))

namespace Infer
variable {α : Type} {setting : Setting} {X : List NodeId} {L M : List Duty}
  {s s' : WalkState} {walk : Step}
  {id call : ExprId}

/-! ### Expansions -/

theorem leaves_expanderFor (hs : s.Intact X L) (definition : ExprId) (args : List ExprId) :
    LeavesIntact setting s (expanderFor definition args) X L := by
  unfold expanderFor
  refine leaves_read outcome_get ?_
  dsimp only
  split
  · exact leaves_pure hs trivial
  · refine leaves_read outcome_read ((leaves_modifyJournal _ hs).bind fun _ s₁ _ hs₁ _ => ?_)
    exact leaves_of_outcome rfl (.refl _) ⟨hs₁.program, hs₁.frame, hs₁.memo⟩ trivial

theorem leaves_expand (hs : s.Intact X L) (expander : Expander) (call : ExprId) :
    LeavesIntact setting s (expand expander call) X L := by
  unfold expand
  refine (leaves_modifyJournal _ hs).bind fun _ s₁ _ hs₁ _ => leaves_read outcome_program ?_
  split
  · exact leaves_pure hs₁ trivial
  · exact leaves_fail _

theorem leaves_parseGenerated (hs : s.Intact X L) (source file : String) :
    LeavesIntact setting s (parseGenerated source file) X L := by
  unfold parseGenerated
  refine leaves_read outcome_frame ((leaves_modifyJournal _ hs).bind fun _ s₁ _ hs₁ _ => ?_)
  refine leaves_read outcome_read ?_
  split
  · exact leaves_pure hs₁ trivial
  · exact leaves_fail _

theorem leaves_normalize (htidy : setting.tools.Tidy) (hs : s.Intact X L) (tree : Tree) :
    LeavesIntact setting s (updateProgram fun p => setting.tools.normalize p tree) X L := by
  obtain ⟨count, hcount⟩ := htidy s.program tree
  refine leaves_updateProgram hs ?_ trivial
  rw [hcount]
  exact hs.program.note (.temporaries ..)

/-- A tree is lowered, which is to be walked. -/
theorem leaves_lowerTree (hs : s.Intact X L) (tree : Tree) :
    Leaves setting s (lowerTree tree) X L fun root s' => s'.Intact X (.whole root :: L) := by
  refine ⟨fun root s' hd => ?_⟩
  unfold lowerTree at hd
  rw [does_bind_of_ok (outcome_updateProgram _)] at hd
  rcases hlower : s.program.lower tree with ⟨e | lowered, p⟩ <;> rw [hlower] at hd
  · cases hd
  · cases hd
    obtain ⟨hl, hp⟩ := hs.program.plants (Program.plants_lower hs.program.forest hlower)
    have hs' := hs.withProgram hl hp
    exact ⟨hl, hs'.tail, hs'⟩

theorem leaves_inExpansion {x : Infer α} (hs : s.Intact X M)
    (hx : ∀ s' : WalkState, s'.Intact X M → LeavesIntact setting s' x X L) :
    LeavesIntact setting s (inExpansion x) X L := by
  refine ⟨fun a s' hd => ?_⟩
  obtain ⟨hl, hp⟩ := hs.program.note (.expansionDepth s.program (s.program.expansionDepth + 1))
  rw [Does, outcome_inExpansion] at hd
  obtain ⟨ha, rfl⟩ := Prod.mk.inj hd
  obtain ⟨hl₁, hs₁, -⟩ :=
    (hx (atDepth s (s.program.expansionDepth + 1)) (hs.withProgram hl hp)).does a _
    (Prod.ext ha rfl)
  obtain ⟨hl₂, hp₂⟩ := hs₁.program.note (.expansionDepth _ _)
  exact ⟨(hl.trans hl₁).trans hl₂, hs₁.withProgram hl₂ hp₂, trivial⟩

theorem leaves_typeExpansion (hw : Finishes setting walk) (htidy : setting.tools.Tidy)
    (hs : s.Intact X L) (source file : String) :
    Leaves setting s (typeExpansion walk source file) X L fun generated s' =>
      s'.program.Has generated := by
  unfold typeExpansion
  refine (leaves_parseGenerated hs source file).bind fun tree s₁ _ hs₁ _ =>
    leaves_read outcome_read ?_
  refine (leaves_normalize htidy hs₁ tree).bind fun tree s₂ _ hs₂ _ => ?_
  refine (leaves_lowerTree hs₂ tree).bind fun generated s₃ _ _ hs₃ => ?_
  refine (leaves_inExpansion hs₃ fun s' hs' => hw X L s' generated hs').bind fun _ s₄ _ hs₄ _ => ?_
  exact leaves_pure hs₄.tail hs₄.has

theorem leaves_expandCall (hw : Finishes setting walk) (htidy : setting.tools.Tidy)
    (hs : s.Intact X (.done call :: L)) (definition : ExprId) (name : String) (args : List ExprId) :
    LeavesIntact setting s (expandCall walk call definition name args) X (.done call :: L) := by
  unfold expandCall
  refine leaves_read outcome_read (leaves_read outcome_program (leaves_check fun _ => ?_))
  refine (leaves_expanderFor hs definition args).bind fun expander s₁ _ hs₁ _ => ?_
  refine (leaves_expand hs₁ expander call).bind fun source s₂ _ hs₂ _ =>
    leaves_read (outcome_locationOf call) ?_
  refine (leaves_typeExpansion hw htidy hs₂ source _).mapError.bind
    fun generated s₃ _ hs₃ hgenerated => ?_
  refine (leaves_note hs₃ (.expansion _ call generated)).bind fun _ s₄ hl₄ hs₄ _ => ?_
  refine leaves_read (outcome_nodeOf generated)
    (leaves_deriveFrom hs₄ (List.forall_mem_singleton.mpr ?_))
  exact hs₄.node_lt (hl₄.lt hgenerated)

theorem leaves_macroFor (hs : s.Intact X L) (receiver : Option ExprId) (name : String)
    (args : List ExprId) : LeavesIntact setting s (macroFor receiver name args) X L := by
  unfold macroFor
  split
  · exact leaves_pure hs trivial
  · exact leaves_read outcome_types ((leaves_nameScope hs).bind fun _ _ _ hs' _ =>
      leaves_pure hs' trivial)

/-! ### Calls -/

/-- The call is bound before its inputs are walked, and told of what they get. -/
theorem leaves_walkCall (hw : Finishes setting walk) (htidy : setting.tools.Tidy)
    {receiver block : Option ExprId}
    {args : List ExprId} (hs : s.Intact X (.single id :: (receiver.toList.map Duty.whole ++
      (args.map Duty.whole ++ (block.toList.map Duty.whole ++ L))))) (name : String) :
    LeavesIntact setting s (walkCall walk id receiver name args block) X (.done id :: L) := by
  unfold walkCall
  refine (leaves_typeOfSelf hs.finish).bind fun scope s₁ _ hs₁ hscope => ?_
  refine (leaves_modifyProgram hs₁ (hs₁.program.noteScope id hscope)).bind fun _ s₂ _ hs₂ _ => ?_
  refine (leaves_macroFor hs₂ receiver name args).bind fun definition s₃ _ hs₃ _ => ?_
  cases definition with
  | some definition =>
    refine leaves_expandCall hw htidy (hs₃.sublist (List.Sublist.cons_cons _ ?_))
      definition name args
    simp only [← List.append_assoc]
    exact List.sublist_append_right ..
  | none =>
    have hobserve : ∀ input ∈ receiver.toList ++ args, ∀ s',
        s₃.program.Later s'.program → s'.Intact X _ →
        LeavesIntact setting s'
          (do let node ← nodeOf input; modifyGraph fun g => g.addObserver node (.call id)) X
          (.done id :: (receiver.toList.map Duty.whole ++
            (args.map Duty.whole ++ (block.toList.map Duty.whole ++ L)))) := fun input _ s' _ hs' =>
      leaves_read (outcome_nodeOf input) (leaves_modifyProgram hs' ⟨.of_exprs rfl
        (FlowGraph.Touch.observe ..).keepsNodes.size_le (.refl _), hs'.program.observe _⟩)
    refine (leaves_each hs₃ hobserve).bind fun _ s₄ _ hs₄ _ =>
      (leaves_resolve hw hs₄).bind fun _ s₅ _ hs₅ _ => ?_
    refine (hw.optional hs₅).bind fun _ s₆ _ hs₆ _ => (hw.all hs₆).bind fun _ s₇ _ hs₇ _ => ?_
    cases block with
    | none => exact leaves_pure hs₇ trivial
    | some block => exact (hw.next hs₇).doing

/-! ### All constructs -/

theorem leaves_walkConstruct (hw : Finishes setting walk) (htidy : setting.tools.Tidy)
    (hs : s.Intact X (.whole id :: L)) {c : Construct ExprId} (hc : s.program.construct id = c) :
    LeavesIntact setting s (walkConstruct walk id c) X (.done id :: L) := by
  have hparts : s.Intact X (.single id :: (c.inner.map Duty.whole ++ L)) :=
    hc ▸ hs.duties hs.program.unfold
  cases c with
  | nop | nilLiteral | boolLiteral | charLiteral | stringLiteral =>
    exact leaves_giveBuiltin hparts (by decide)
  | numberLiteral value kind => exact leaves_giveBuiltin hparts (by cases kind <;> decide)
  | symbolLiteral =>
    exact (leaves_note hparts (.symbol ..)).bind fun _ _ _ hs' _ =>
      leaves_giveBuiltin hs' (by decide)
  | sequence => exact leaves_walkSequence hw hparts
  -- names
  | var => exact leaves_walkVar hparts _
  | instanceVar => exact leaves_walkInstanceVar hparts _
  | globalVar => exact leaves_walkGlobalVar hparts _
  | path => exact leaves_walkPath hw hparts _ _
  | declareVar => exact leaves_walkDeclareVar hw hparts _
  | assign => exact leaves_walkAssign hw hparts
  | multiAssign => exact leaves_walkMultiAssign hw hparts
  -- control flow
  | conditional =>
    exact leaves_walkConditional hw (by simpa [Construct.inner, Construct.children] using hparts) _
  | loop => exact leaves_walkLoop hw hparts
  | breakOut => exact leaves_walkBreak hw hparts
  | returnFrom => exact leaves_walkReturn hw hparts
  | yieldTo => exact leaves_walkYield hw hparts
  | call =>
    exact leaves_walkCall hw htidy (by simpa [Construct.inner, Construct.children] using hparts) _
  | block => exact leaves_walkBlock hw hparts hc
  -- declarations
  -- what a method or a macro is made of waits for its calls
  | methodDef =>
    exact leaves_walkMethodDef hw (hparts.sublistParts ((List.sublist_append_left ..).trans
      ((List.sublist_append_left ..).trans (List.sublist_append_left ..)))) _ _
  | macroDef => exact leaves_walkMacroDef hw (hparts.sublistParts (List.sublist_append_left ..)) _ _
  | classDef =>
    exact leaves_walkClassDef hw (by simpa [Construct.inner, Construct.children] using hparts) _ _ _
  | moduleDef => exact leaves_walkModuleDef hw hparts _ _
  | includeModule => exact leaves_walkInclude hw hparts
  | libDef => exact leaves_walkLibDef hw hparts _ _
  | funDef =>
    exact leaves_walkFunDef hw (by simpa [Construct.inner, Construct.children] using hparts) _ _ _
  | aliasDef => exact leaves_walkAliasDef hw hparts _ _
  | structDef | unionDef => exact leaves_walkFieldsDef hw hparts _ (fun _ => rfl) fun _ => rfl
  | enumDef => exact leaves_walkEnumDef hparts _ _
  -- primitives
  | structGet | unionGet => exact leaves_walkFieldGet hparts _
  | structSet | unionSet => exact leaves_walkFieldSet hparts _
  | classOfSelf => exact leaves_walkClassOfSelf hparts
  | allocate => exact leaves_walkAllocate hparts
  | eitherValue => exact leaves_walkEither hw hparts
  | typeUnion => exact leaves_walkTypeUnion hw hparts
  | genericInstance => exact leaves_walkGenericInstance hw hparts
  | isA => exact leaves_walkIsA hw hparts
  | typeOf => exact leaves_walkTypeOf hw hparts
  | pointerOf => exact leaves_walkPointerOf hw hparts
  | pointerMalloc | pointerRealloc | pointerAdd => exact leaves_walkSamePointer hparts
  | pointerGetValue => exact leaves_walkPointerGet hparts
  | pointerSetValue => exact leaves_walkPointerSet hparts
  | pointerCast => exact leaves_walkPointerCast hparts

/-- A walk does what is to be done with an expression, and resolves the calls that this has put into
the queue. -/
theorem finishes_walk (htidy : setting.tools.Tidy) (fuel : Nat) :
    Finishes setting (Infer.walk fuel) := by
  induction fuel with
  | zero => exact fun _ _ _ _ _ => leaves_throw _
  | succ fuel ih =>
    intro X L s id hs
    refine leaves_read (outcome_construct id) (leaves_read (outcome_locationOf id) ?_)
    exact (leaves_walkConstruct ih htidy hs rfl).mapError.bind fun _ s' _ hs' _ =>
      leaves_resolvePending ih fuel hs'

end Infer

end TypeFlow

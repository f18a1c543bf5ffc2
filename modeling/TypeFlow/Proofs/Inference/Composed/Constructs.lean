import TypeFlow.Proofs.Inference.Composed.Steps
import TypeFlow.Proofs.Inference.Evaluated

/-!
# Constructs are composed of steps

What is done for each construct is composed of steps if the walk of its parts is. Two changes need
to be looked at more closely: an assignment stores what its value proves, and a sequence only loses
statements after one that never completes.
-/

namespace TypeFlow.Infer
variable {α : Type} {setting : Setting} {tools : Set Toolchain} {fuel : Nat} {s s' : WalkState}

/-! ### Constants -/

theorem composed_constantHolder (target : ExprId) (path : List String) :
    Composed setting s (constantHolder target path) := by
  unfold constantHolder
  split
  · exact composed_of_reads reads_innermostType
  · refine .read reads_types (.read reads_nameScope ?_)
    split
    · exact .pure _ _
    · exact composed_problemAt ..

theorem declares_addConstant {p : Program} {c : Constant} (hc : c.state = .pending) :
    p.Declares (p.addConstant c) where
  size_le := by simp [Program.addConstant]
  state_eq id hid := by rw [Program.constant_addConstant, if_neg (Nat.ne_of_lt hid)]
  pending id hge hlt := by
    have hlast : id.index = p.constants.size := by simp [Program.addConstant] at hlt; omega
    rw [Program.constant_addConstant, if_pos hlast, hc]

theorem composed_declareConstant (id target : ExprId) (names : List String) (value : ExprId) :
    Composed setting s (declareConstant id target names value) := by
  unfold declareConstant
  split
  · exact composed_defectAt ..
  · refine (composed_constantHolder target _).bind fun owner s _ => .read reads_types ?_
    dsimp only
    refine composed_unless fun hfree => .read reads_frame ?_
    refine .bind ?_ fun _ _ _ => .read (reads_nodeOf value) ?_
    · refine .update ⟨fun _ => ⟨_, .single (.declare rfl)⟩, rfl, rfl, declares_addConstant rfl,
        fun _ => ?_, ?_, ?_⟩ rfl
      · exact Program.registers_of_keeps (Types.keepsMethods_setName _ _ _ _)
      · exact (Types.KeepsNames.refl _).setName (Option.not_isSome_iff_eq_none.mp hfree) _
      · exact fun h => h.of_exprs_eq rfl
    · exact (composed_deriveFrom ..).bind fun _ _ _ => composed_deriveFrom ..

section
variable (hw : ∀ id s, Composed setting s (walk fuel id))
include hw

theorem composed_denotedType (id : ExprId) : Composed setting s (denotedType (walk fuel) id) := by
  refine (hw id s).bind fun _ _ _ => .read reads_program ?_
  split
  · split
    · exact .pure _ _
    · exact composed_problemAt ..
  · exact composed_problemAt ..

theorem composed_evaluateConstant (reference : ExprId) (const : ConstantId) :
    Composed setting s (evaluateConstant (walk fuel) reference const) := by
  rcases hstate : (s.program.constant const).state with _ | _ | _
  · exact .evaluation hstate (composed_inFrame _ ⟨rfl, rfl⟩ (hw _ _))
  all_goals
    unfold evaluateConstant
    refine .read reads_program ?_
    dsimp only
    rw [hstate]
  · exact composed_problemAt ..
  · exact .pure s _

theorem composed_evaluateRemaining : Composed setting s (evaluateRemaining (walk fuel)) := by
  refine .read reads_program (composed_forM _ fun const _ s => .read reads_program ?_)
  dsimp only
  split
  · exact composed_evaluateConstant hw _ const
  · exact .pure _ _

theorem composed_walkPath (id : ExprId) (names : List String) (fromRoot : Bool) :
    Composed setting s (walkPath (walk fuel) id names fromRoot) := by
  refine .read reads_types (.read reads_nameScope ?_)
  split
  · exact (composed_metaclassOf _).bind fun _ _ _ => composed_giveType ..
  · refine (composed_evaluateConstant hw id _).bind fun _ _ _ => .read reads_program ?_
    exact composed_deriveFrom ..
  · exact composed_problemAt ..

end

/-! ### Variables -/

theorem composed_walkVar (id : ExprId) (name : String) : Composed setting s (walkVar id name) := by
  have hguard : ∀ var s, Composed setting s (do
      let carried := (← program).graph.guardOf var
      setExprGuard id (Guard.both (some (.notNil name)) carried)) := fun var s =>
    .read reads_program (composed_setExprGuard ..)
  refine (composed_localVar name).bind fun var _ _ => .read reads_frame ?_
  dsimp only
  split
  · refine (composed_addNode _).bind fun narrowed _ _ => (composed_bind ..).bind fun _ _ _ => ?_
    exact (composed_deriveFrom ..).bind fun _ _ _ => hguard var _
  · exact (composed_deriveFrom ..).bind fun _ _ _ => hguard var _

theorem composed_instanceVarFor (owner : TypeId) (name : String) :
    Composed setting s (updateProgram fun p => p.instanceVarFor owner name) := by
  have hvar : Quiet setting s (s.program.instanceVarNode owner name).2 := by
    unfold Program.instanceVarNode
    split
    · exact quiet_of_exprs ⟨[], .nil s⟩ rfl rfl rfl rfl (.refl _)
    · rename_i hnone
      refine quiet_of_exprs ⟨_, .single (.instanceVar hnone)⟩ rfl rfl rfl rfl
        (Types.respects_modify ?_ ?_ ?_ ?_ _ owner)
      · exact ⟨fun _ => rfl, fun _ => rfl⟩
      all_goals exact fun _ => rfl
  have hbroken : (s.program.instanceVarNode owner name).2.brokenLoops = s.program.brokenLoops := by
    unfold Program.instanceVarNode
    split <;> rfl
  suffices h : Quiet setting s (s.program.instanceVarFor owner name).2 ∧
      (s.program.instanceVarFor owner name).2.brokenLoops =
        s.program.brokenLoops from .update h.1 h.2
  unfold Program.instanceVarFor
  generalize s.program.instanceVarNode owner name = r at hvar hbroken
  obtain ⟨node, p⟩ := r
  dsimp only at hvar hbroken ⊢
  split
  · exact ⟨hvar, hbroken⟩
  · exact ⟨hvar.afterwards (.bind _ node [Program.nilNode]) (growsTo_bind p node _), hbroken⟩

theorem composed_instanceVar (id : ExprId) (name : String) :
    Composed setting s (instanceVar id name) := by
  have hholder : Composed setting s (instanceVarHolder id) := by
    refine composed_typeOfSelf.bind fun owner _ _ => composed_check (.read reads_types ?_)
    dsimp only
    split
    · exact .read (reads_nameOf _) (composed_problemAt_bind ..)
    · exact .pure _ _
  exact hholder.bind fun owner _ _ => (composed_instanceVarFor owner name).bind fun r _ _ =>
    composed_ofBinding r

theorem composed_walkInstanceVar (id : ExprId) (name : String) :
    Composed setting s (walkInstanceVar id name) :=
  (composed_instanceVar id name).bind fun _ _ _ => composed_deriveFrom ..

theorem composed_walkGlobalVar (id : ExprId) (name : String) :
    Composed setting s (walkGlobalVar id name) := by
  refine .read reads_program ?_
  split
  · exact composed_deriveFrom ..
  · exact composed_problemAt ..

theorem composed_globalVar (name : String) : Composed setting s (globalVar name) := by
  refine .read reads_program ?_
  split
  · exact .pure _ _
  · refine composed_addVar.bind fun var s _ => Composes.bind ?_ fun _ _ _ => .pure _ _
    exact composed_change (.global s name var) rfl rfl rfl rfl rfl (.refl _)

theorem composed_walkDeclareVar (hw : ∀ id s, Composed setting s (walk fuel id)) (id : ExprId)
    (name : String) (type : ExprId) :
    Composed setting s (walkDeclareVar (walk fuel) id name type) := by
  refine (composed_denotedType hw type).bind fun _ _ _ => (composed_addValue _).bind fun _ _ _ => ?_
  refine (composed_localVar name).bind fun _ _ _ => (composed_bind ..).bind fun _ _ _ => ?_
  exact (composed_freeze _).bind fun _ _ _ => composed_deriveFrom ..

/-! ### Assignments -/

/-- A variable has its slot once this is known. -/
theorem does_localVar {name : String} {slot : NodeId}
    (hd : (localVar name).Does setting s slot s') :
    s'.frame.vars.get? name = some slot ∧ s'.program.exprs = s.program.exprs ∧
      ∀ node, s'.program.graph.guardOf node = s.program.graph.guardOf node := by
  unfold localVar at hd
  rw [does_bind_of_ok outcome_frame] at hd
  split at hd
  · rename_i hslot
    obtain ⟨rfl, rfl⟩ := does_pure.mp hd
    exact ⟨hslot, rfl, fun _ => rfl⟩
  · rw [does_bind_of_ok outcome_addVar, does_bind_of_ok (outcome_modifyFrame _)] at hd
    obtain ⟨rfl, rfl⟩ := does_pure.mp hd
    refine ⟨OrderedMap.get?_insert_self .., rfl, fun node => ?_⟩
    show ((s.program.graph.addNode .identity).2.node node).guard = (s.program.graph.node node).guard
    rw [FlowGraph.node_addNode]
    split
    · rename_i hnew
      rw [FlowGraph.node_of_le (Nat.le_of_eq hnew.symm)]
      rfl
    · rfl

/-- What the value proves is stored with the variable that is assigned. -/
theorem composed_targetVar {target value : ExprId} {c : Construct ExprId}
    {sourceGuard : Option Guard} (hc : s.program.construct target = c)
    (hguard : s.program.guardOf value = sourceGuard) :
    Composed setting s (bindTarget.targetVar target sourceGuard c) := by
  unfold bindTarget.targetVar
  split
  · rename_i name
    refine (composed_localVar name).bind fun slot s₁ hd => Composes.bind ?_ fun _ _ _ => .pure _ _
    obtain ⟨hslot, hexprs, hguards⟩ := does_localVar hd
    have htarget : s₁.program.construct target = .var name := by
      rw [← hc, Program.construct, Program.construct, Program.expr, Program.expr, hexprs]
    have hvalue : s₁.program.guardOf value = sourceGuard := by
      rw [← hguard, Program.guardOf, hguards, Program.nodeOf, Program.expr, hexprs]
      rfl
    have hstore :
        Change {setting.tools} (.stores slot (Guard.both (some (.notNil name)) sourceGuard)) s₁
        (s₁.withProgram (s₁.program.modifyGraph
          (·.setGuard slot (Guard.both (some (.notNil name)) sourceGuard)))) := by
      rw [← hvalue]
      exact .store htarget hslot
    exact composed_modifyGraph hstore
  · exact (composed_instanceVar ..).bind fun _ _ _ => .pure _ _
  · exact (composed_globalVar _).bind fun _ _ _ => .pure _ _
  · exact composed_problemAt ..

theorem composed_bindTarget {target value : ExprId} {sourceGuard : Option Guard} (source : NodeId)
    (hguard : s.program.guardOf value = sourceGuard) :
    Composed setting s (bindTarget target source sourceGuard) := by
  refine .read (reads_construct target) ((composed_targetVar rfl hguard).bind fun r _ _ => ?_)
  exact (composed_deriveFrom ..).bind fun _ _ _ => (composed_bind ..).bind fun _ _ _ => .pure _ _

/-- Types are carried on, but no guards. -/
theorem does_deriveFrom {id : ExprId} {deps : List NodeId}
    (hd : (deriveFrom id deps).Does setting s () s') :
    s'.program.exprs = s.program.exprs ∧ ∀ node, s'.program.graph.guardOf node =
      s.program.graph.guardOf node := by
  rw [deriveFrom, does_bind_of_ok (outcome_nodeOf id)] at hd
  obtain ⟨n, hbind, rfl⟩ := does_onNetwork.mp hd
  refine ⟨rfl, fun node => ?_⟩
  have hguards :=
    Network.SameGuards.outcome_bindNode s.program.toNetwork (s.program.nodeOf id) deps node
  rwa [show (Binding.bind (s.program.nodeOf id) deps).outcome s.program.toNetwork =
    _ from hbind] at hguards

section
variable (hw : ∀ id s, Composed setting s (walk fuel id))
include hw

theorem composed_walkAssign (id target value : ExprId) :
    Composed setting s (walkAssign (walk fuel) id target value) := by
  refine .read (reads_construct target) ?_
  split
  · exact composed_declareConstant ..
  · refine (hw value s).bind fun _ s₁ _ =>
      .read (reads_nodeOf value) (.read (reads_guardOf value) ?_)
    refine .read (reads_locationOf id) (.read reads_program (.mapError (.conflict ..) ?_))
    refine (composed_deriveFrom ..).bind fun _ s₂ hd => .read (reads_nodeOf id) ?_
    obtain ⟨hexprs, hguards⟩ := does_deriveFrom hd
    have hvalue : s₂.program.guardOf value = s₁.program.guardOf value := by
      rw [Program.guardOf, Program.guardOf, hguards, Program.nodeOf, Program.nodeOf, Program.expr,
        Program.expr, hexprs]
    refine (composed_bindTarget _ hvalue).bind fun guard _ _ => ?_
    split
    · exact composed_setExprGuard ..
    · exact .pure _ _

theorem composed_walkMultiAssign (id : ExprId) (targets values : List ExprId) :
    Composed setting s (walkMultiAssign (walk fuel) id targets values) := by
  unfold walkMultiAssign
  dsimp only
  refine composed_check ?_
  refine (composed_forM _ fun pair _ s => ?_).bind fun _ _ _ =>
    (composed_forM _ fun pair _ s => ?_).bind fun _ _ _ => ?_
  · refine .read (reads_construct _) ?_
    split
    · exact .pure _ _
    · exact hw _ s
  · refine .read (reads_construct _) ?_
    split
    · exact composed_declareConstant ..
    · refine .read (reads_nodeOf _) (.read (reads_guardOf _) ?_)
      exact (composed_bindTarget _ rfl).bind fun _ _ _ => .pure _ _
  · exact composed_giveType ..

end

/-! ### Sequences and merging -/

/-- A sequence that is walked loses statements at its end only. -/
theorem Course.construct_sequence {deeds : List Deed} {id : ExprId} {items : List ExprId}
    (h : Course tools s deeds s') (hc : s.program.construct id = .sequence items) :
    ∃ count, s'.program.construct id = .sequence (items.take count) := by
  have hid : id.index < s.program.exprs.size := by
    by_contra hid
    rw [Program.construct, Program.expr, Array.getElem?_eq_none (Nat.le_of_not_lt hid)] at hc
    cases hc
  rcases h.later.construct id hid with heq | ⟨items', count, heq, heq'⟩
  · exact ⟨items.length, by rw [heq, hc, List.take_length]⟩
  · cases hc.symm.trans heq
    exact ⟨count, heq'⟩

/-- Nothing happens to a sequence that is no longer than that. -/
theorem truncate_eq_self {p : Program} {id : ExprId} {items : List ExprId} {count : Nat}
    (hc : p.construct id = .sequence items) (hle : items.length ≤ count) :
    p.truncate id count = p := by
  have hsame : (p.truncate id count).exprs = p.exprs := by
    refine Array.ext_getElem? fun i => ?_
    rw [Program.truncate, Array.getElem?_modify]
    split
    · rename_i hi
      subst hi
      rw [Program.construct, Program.expr] at hc
      rcases he : p.exprs[id.index]? with _ | e
      · rfl
      · rw [he] at hc
        obtain ⟨construct, location, node⟩ := e
        replace hc : construct = .sequence items := hc
        subst hc
        rw [Option.map_some]
        dsimp only
        rw [List.take_of_length_le hle]
    · rfl
  exact congrArg (fun exprs => { p with exprs }) hsame

theorem composed_mergeCreatedVars (before : List String) (paths : List (Option ExprId)) :
    Composed setting s (mergeCreatedVars before paths) := by
  refine .read reads_program (.read reads_frame (composed_forM _ fun name _ s => ?_))
  refine .read reads_frame ?_
  split
  · exact .pure _ _
  · exact composed_addVar.bind fun _ _ _ => (composed_bind ..).bind fun _ _ _ => .frame _ rfl rfl

section
variable (hw : ∀ id s, Composed setting s (walk fuel id))
include hw

/-- By induction on the statements that are left; the sequence may have lost some of them
meanwhile. -/
theorem composed_walkStatements {id : ExprId} {items done statements : List ExprId}
    (hitems : items = done ++ statements)
    (hc : setting.tools.Tidy → ∃ count, s.program.construct id = .sequence (items.take count)) :
    Composed setting s (walkStatements (walk fuel) id done.length statements) := by
  induction statements generalizing s done with
  | nil => exact .pure _ _
  | cons statement rest ih =>
    cases rest with
    | nil => exact (hw statement s).bind fun _ _ _ => .pure _ _
    | cons next rest =>
      refine (hw statement s).bind fun _ s₁ hd => .read (reads_typeOf statement) ?_
      have hc₁ : setting.tools.Tidy → ∃ count, s₁.program.construct id = .sequence
          (items.take count) := by
        intro htidy
        obtain ⟨count, hc⟩ := hc htidy
        obtain ⟨⟨deeds, hcourse⟩, -⟩ := (hw statement s).takes htidy
        rw [show (walk fuel statement).outcome setting s = _ from hd] at hcourse
        obtain ⟨count', hc₁⟩ := hcourse.construct_sequence hc
        exact ⟨min count' count, by rw [hc₁, List.take_take]⟩
      split
      · rename_i hnever
        have hregisters : s₁.program.Registers (s₁.program.truncate id (done.length + 1)) :=
          Program.registers_of_keeps (.refl _)
        refine .bind (.update ⟨fun htidy => ?_, rfl, rfl, Program.declares_of_eq rfl, fun _ =>
          hregisters, .refl _, fun h => h.truncate id _⟩ rfl) fun _ _ _ => .pure _ _
        obtain ⟨count, hc₁⟩ := hc₁ htidy
        rcases Nat.lt_or_ge (done.length + 1) (items.take count).length with hlt | hge
        · refine ⟨_, .single (.drop hc₁ ?_ hlt hnever)⟩
          have hcount : done.length < count :=
            Nat.lt_of_lt_of_le (Nat.lt_of_succ_lt hlt) (List.length_take_le ..)
          rw [List.getElem?_take_of_lt hcount, hitems, List.getElem?_append_right
            (Nat.le_refl _), Nat.sub_self]
          rfl
        · refine ⟨[], ?_⟩
          dsimp only
          rw [truncate_eq_self hc₁ hge]
          exact .nil s₁
      · have hnext : Composed setting s₁
            (walkStatements (walk fuel) id (done ++ [statement]).length (next :: rest)) :=
          ih (by rw [hitems, List.append_assoc]; rfl) hc₁
        rwa [List.length_append] at hnext

theorem composed_walkSequence {id : ExprId} {items : List ExprId}
    (hc : s.program.construct id = .sequence items) :
    Composed setting s (walkSequence (walk fuel) id items) := by
  have hstatements : Composed setting s (walkStatements (walk fuel) id 0 items) := by
    have hall : s.program.construct id = .sequence (items.take items.length) := by
      rw [List.take_length, hc]
    exact composed_walkStatements hw (show items = [] ++ items from rfl) fun _ => ⟨_, hall⟩
  exact hstatements.bind fun _ _ _ => .read (reads_partNode _) (composed_deriveFrom ..)

end

/-! ### Conditionals and loops -/

section
variable (hw : ∀ id s, Composed setting s (walk fuel id))
include hw

theorem composed_walkBranches (id cond : ExprId) (onTrue onFalse : Option ExprId)
    (operator : Option ShortCircuit) :
    Composed setting s (walkBranches (walk fuel) id cond onTrue onFalse operator) := by
  refine (hw cond s).bind fun _ _ _ => .read (reads_guardOf cond) (.read reads_frame ?_)
  refine (composed_option _ fun branch _ => composed_underGuard _ (hw branch)).bind fun _ _ _ => ?_
  refine (composed_option _ hw).bind fun _ _ _ => .read reads_program ?_
  refine (composed_deriveFrom ..).bind fun _ _ _ => .read reads_program ?_
  extract_lets combined stop finish
  have hfinish : ∀ u s, Composed setting s (finish u) := by
    intro u s
    unfold finish
    split
    · split
      · exact (Composes.frame _ rfl rfl).bind fun _ _ _ => .pure _ _
      · exact .pure _ _
    · exact .pure _ _
  split
  · exact (composed_setExprGuard ..).bind fun u _ _ => hfinish u _
  · exact hfinish () _

theorem composed_walkConditional (id cond : ExprId) (onTrue onFalse : Option ExprId)
    (operator : Option ShortCircuit) :
    Composed setting s (walkConditional (walk fuel) id cond onTrue onFalse operator) :=
  (composed_walkBranches hw id cond onTrue onFalse operator).bind fun _ _ _ =>
    composed_mergeCreatedVars ..

theorem composed_walkLoop (id cond : ExprId) (body : Option ExprId) :
    Composed setting s (walkLoop (walk fuel) id cond body) := by
  have hbody : Composed setting s (walkLoopBody (walk fuel) id cond body) := by
    refine (hw cond s).bind fun _ _ _ => .read (reads_guardOf cond) (.read reads_frame ?_)
    refine (composed_inLoop id fun _ => composed_underGuard _ fun _ =>
      composed_option _ hw).bind fun _ _ _ => ?_
    exact .pure _ _
  refine .loop (hbody.bind fun _ _ _ => (composed_mergeCreatedVars ..).bind fun _ _ _ =>
    .read reads_program ?_)
  exact composed_giveType ..

omit hw in
theorem composed_leaveBy (id : ExprId) (values : List ExprId) :
    Composed setting s (leaveBy id values) := by
  refine .breaks (.read reads_frame ?_)
  dsimp only
  split
  · refine .bind (.marks ?_) fun _ _ _ => composed_giveType ..
    exact quiet_of_exprs ⟨_, .single (.note (.brokenLoop _ _))⟩ rfl rfl rfl rfl (.refl _)
  · refine (composed_breakNodeOf _).bind fun _ _ _ => .read (reads_resultNodes values) ?_
    exact (composed_bind ..).bind fun _ _ _ => composed_giveType ..
  · exact composed_problemAt_bind ..

theorem composed_walkBreak (id : ExprId) (values : List ExprId) :
    Composed setting s (walkBreak (walk fuel) id values) :=
  (composed_forM values fun value _ => hw value).bind fun _ _ _ => composed_leaveBy id values

theorem composed_walkReturn (id : ExprId) (values : List ExprId) :
    Composed setting s (walkReturn (walk fuel) id values) := by
  refine .read reads_frame ?_
  split
  · exact composed_problemAt ..
  · refine (composed_forM values fun value _ => hw value).bind fun _ _ _ =>
      .read (reads_resultNodes values) ?_
    exact (composed_bind ..).bind fun _ _ _ => composed_giveType ..

end

/-! ### Blocks -/

theorem composed_checkYield (id : ExprId) (values : List ExprId) (position : Nat)
    (expected : List TypeId) : Composed setting s (checkYield id values position expected) := by
  induction expected generalizing s position with
  | nil => exact .pure _ _
  | cons expected rest ih =>
    unfold checkYield
    dsimp only
    split
    · split
      · exact .read (reads_nameOf _) (composed_problemAt_bind ..)
      · exact ih _
    · refine .read (reads_typeOf _) ?_
      split
      · exact ih _
      · split
        · exact .read (reads_nameOf _) (.read (reads_nameOf _) (composed_problemAt_bind ..))
        · exact .read (reads_nodeOf _) ((composed_freeze _).bind fun _ _ _ => ih _)

section
variable (hw : ∀ id s, Composed setting s (walk fuel id))
include hw

theorem composed_walkYield (id : ExprId) (values : List ExprId) :
    Composed setting s (walkYield (walk fuel) id values) := by
  refine .read reads_frame ?_
  split
  · exact composed_problemAt ..
  · refine (composed_forM values fun value _ => hw value).bind fun _ _ _ =>
      .read (reads_construct _) ?_
    split
    · refine .read reads_frame ((composed_checkYield ..).bind fun _ _ _ =>
        Composes.bind ?_ fun _ _ _ => ?_)
      · exact composed_forM _ fun pair _ s => .read (reads_partNode _) (composed_deriveFrom ..)
      · exact .read (reads_partNode _) (composed_deriveFrom ..)
    · exact composed_defectAt ..

theorem composed_walkBlock (id : ExprId) (params : List ExprId) (body : Option ExprId) :
    Composed setting s (walkBlock (walk fuel) id params body) := by
  refine .read reads_program (.bind ?_ fun _ _ _ => ?_)
  · exact composed_region (.block id (blockVars s.program s.frame.vars params)) trivial rfl rfl
      (composed_option _ hw)
  exact .read (reads_partNode _) (composed_deriveFrom ..)

end

end TypeFlow.Infer

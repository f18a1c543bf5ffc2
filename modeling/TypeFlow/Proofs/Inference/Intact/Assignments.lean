import TypeFlow.Proofs.Inference.Intact.Variables

/-!
# Assignments leave intact states

An assignment to constants gives its own type away while it depends on their values. It may, since
nothing has been done with these yet (`Program.Waits`): no other node that it binds on the way is
one of theirs (`Program.Spares`).
-/

namespace TypeFlow

namespace Construct

def isPath {α : Type} : Construct α → Bool
  | .path .. => true
  | _ => false

theorem isPath_eq_false {α : Type} {c : Construct α}
    (h : ∀ names fromRoot, c = .path names fromRoot → False) :
    c.isPath = false := by
  unfold isPath
  split
  · exact absurd rfl (h _ _)
  · rfl

theorem Shortens.isPath_eq {α : Type} {c c' : Construct α} (h : c.Shortens c') :
    c'.isPath = c.isPath := by
  rcases h with rfl | ⟨items, count, rfl, rfl⟩ <;> rfl

end Construct

namespace Program
variable {p p' p'' : Program} {m : NodeId}

/-- Neither expressions nor constants are added, and a node depends on what it did. -/
structure Spares (m : NodeId) (p p' : Program) : Prop where
  exprs : p'.exprs = p.exprs
  constants : p'.constants = p.constants
  dependencies : (p'.graph.node m).dependencies = (p.graph.node m).dependencies

theorem IsParameter.of_exprs_eq {id : ExprId} (h : p'.IsParameter id)
    (hexprs : p'.exprs = p.exprs) : p.IsParameter id := by
  obtain ⟨block, params, body, hc, hmem⟩ := h
  refine ⟨block, params, body, ?_, hmem⟩
  rwa [construct, expr, hexprs] at hc

namespace Spares

theorem refl (m : NodeId) (p : Program) : p.Spares m p := ⟨rfl, rfl, rfl⟩

theorem trans (h : Spares m p p') (h' : Spares m p' p'') : Spares m p p'' :=
  ⟨h'.exprs.trans h.exprs, h'.constants.trans h.constants, h'.dependencies.trans h.dependencies⟩

theorem nodeOf_eq (h : Spares m p p') (id : ExprId) : p'.nodeOf id = p.nodeOf id := by
  rw [nodeOf, nodeOf, expr, expr, h.exprs]

theorem isParameter (h : Spares m p p') {id : ExprId} (hpar : p'.IsParameter id) :
    p.IsParameter id :=
  hpar.of_exprs_eq h.exprs

theorem unread_eq (h : Spares m p p') : p'.unread = p.unread := by rw [unread, unread, h.constants]

end Spares

/-- Nodes of variables are not nodes of expressions, other than parameters of blocks. -/
theorem Spare.ne (h : p.Spare m) {id : ExprId} (hid : p.Has id) (hfree : ¬ p.IsParameter id) :
    p.nodeOf id ≠ m :=
  fun heq => hfree (h.parameter id hid heq)

theorem spares_addNode (p : Program) (derivation : Derivation) (m : NodeId) :
    p.Spares m (p.addNode derivation).2 := by
  refine ⟨rfl, rfl, ?_⟩
  show ((p.graph.addNode derivation).2.node m).dependencies = _
  rw [FlowGraph.node_addNode]
  split
  · rw [FlowGraph.node_of_le (Nat.le_of_eq ‹m.index = p.graph.size›.symm)]; rfl
  · rfl

theorem spares_instanceVarNode (p : Program) (owner : TypeId) (name : String) (m : NodeId) :
    p.Spares m (p.instanceVarNode owner name).2 := by
  unfold instanceVarNode
  split
  · exact .refl m p
  · exact (spares_addNode p .identity m).trans ⟨rfl, rfl, rfl⟩

/-- An expression depends on values of constants that have not been read, if on anything. -/
structure Waits (id : ExprId) (p : Program) : Prop where
  unread : ∀ d ∈ (p.graph.node (p.nodeOf id)).dependencies, ∃ value, Duty.whole value ∈
    p.unread ∧ d = p.nodeOf value
  free : ¬ p.IsParameter id

namespace Waits
variable {X : List NodeId} {L : List Duty} {id value : ExprId}

theorem of_single (h : p.Intact X (.single id :: L)) : p.Waits id := by
  refine ⟨fun d hd => ?_, h.awaits.free (.single id) (by simp) trivial⟩
  rw [(h.awaits.idle id ⟨.single id, by simp, trivial, rfl⟩).vacant.dependencies] at hd
  cases hd

theorem spares (h : p.Waits id) (hs : p.Spares (p.nodeOf id) p') : p'.Waits id := by
  refine ⟨fun d hd => ?_, mt hs.isParameter h.free⟩
  rw [hs.nodeOf_eq, hs.dependencies] at hd
  obtain ⟨value, hvalue, rfl⟩ := h.unread d hd
  exact ⟨value, hs.unread_eq ▸ hvalue, (hs.nodeOf_eq value).symm⟩

/-- Nothing has been done yet with what the expression depends on. -/
theorem untyped (h : p.Waits id) (hp : p.Intact X (.done id :: L)) :
    ∀ d ∈ (p.graph.node (p.nodeOf id)).dependencies, p.graph.typeOf d = none ∧ d ≠ p.nodeOf id := by
  intro d hd
  obtain ⟨value, hvalue, rfl⟩ := h.unread d hd
  have hawaited : p.Awaited ((.done id :: L) ++ p.unread) value :=
    ⟨.whole value, List.mem_append_right _ hvalue, trivial, .refl⟩
  exact ⟨(hp.awaits.idle value hawaited).vacant.type, hp.avoids_done value hawaited⟩

/-- The expression is given a type, although it depends on values. -/
theorem giveType (h : p.Waits id) (hp : p.Intact X (.done id :: L)) {a : TypeId} {n : Network}
    (ha : a.index < p.types.size) (hd : (Binding.setType (p.nodeOf id) a).Does p.toNetwork () n) :
    p.Later { p with toNetwork := n } ∧ Intact X (.done id :: L) { p with toNetwork := n } :=
  hp.setType (hp.sound.node_ne_nil id hp.has) hp.avoids_done hd
    (Binding.orderly_setType hp.orderly (h.untyped hp) ha hd)

end Waits

end Program

namespace Infer
variable {α β : Type} {setting : Setting} {X : List NodeId} {L : List Duty}
  {s s' : WalkState} {walk : Step}
  {id target : ExprId} {m node : NodeId} {deps : List NodeId} {x : Infer α}

/-- Carried through, the step leaves the dependencies of a node alone, and adds no expressions. -/
structure Sparing (setting : Setting) (m : NodeId) (s : WalkState) (x : Infer α) : Prop where
  does : ∀ a s', x.Does setting s a s' → s.program.Spares m s'.program

theorem sparing_of_outcome {a : α} (h : x.outcome setting s = (.ok a, s'))
    (hs : s.program.Spares m s'.program) : Sparing setting m s x := by
  refine ⟨fun b s'' hd => ?_⟩
  rw [Does, h] at hd
  cases hd; exact hs

theorem sparing_pure (a : α) : Sparing setting m s (pure a) := sparing_of_outcome rfl (.refl m _)

theorem Sparing.bind {f : α → Infer β} (h : Sparing setting m s x)
    (hf : ∀ a s', Sparing setting m s' (f a)) : Sparing setting m s (x >>= f) := by
  refine ⟨fun b s'' hd => ?_⟩
  obtain ⟨a, s', hx, hfa⟩ := does_bind.mp hd
  exact (h.does a s' hx).trans ((hf a s').does b s'' hfa)

theorem sparing_read {a : α} {f : α → Infer β} (h : x.outcome setting s = (.ok a, s))
    (hf : Sparing setting m s (f a)) : Sparing setting m s (x >>= f) :=
  ⟨fun b s' hd => hf.does b s' ((does_bind_of_ok h).mp hd)⟩

theorem sparing_problemAt_bind {f : α → Infer β} (id : ExprId) (problem : Problem) :
    Sparing setting m s (problemAt id problem >>= f) := by
  refine ⟨fun b s' hd => ?_⟩
  obtain ⟨a, s₁, hx, -⟩ := does_bind.mp hd
  rw [Does, outcome_problemAt] at hx
  cases hx

theorem Sparing.leaves {Q : α → WalkState → Prop} (hr : Sparing setting m s x)
    (h : Leaves setting s x X L Q) :
    Leaves setting s x X L fun a s' => Q a s' ∧ s.program.Spares m s'.program :=
  ⟨fun a s' hd => let ⟨hl, hs, hq⟩ := h.does a s' hd; ⟨hl, hs, hq, hr.does a s' hd⟩⟩

theorem sparing_addVar : Sparing setting m s addVar :=
  sparing_of_outcome outcome_addVar (Program.spares_addNode s.program .identity m)

/-- Another node is bound. -/
theorem sparing_bind (hne : m ≠ node) : Sparing setting m s (bind node deps) := by
  refine ⟨fun a s' hd => ?_⟩
  obtain ⟨n, hbind, rfl⟩ := does_onNetwork.mp hd
  have hext := Network.Extends.outcome_bindNode s.program.toNetwork node deps
  rw [hbind] at hext
  exact ⟨rfl, rfl, (hext.dependencies m).trans (FlowGraph.dependencies_link_of_ne hne deps)⟩

theorem sparing_deriveFrom (hne : m ≠ s.program.nodeOf id) :
    Sparing setting m s (deriveFrom id deps) :=
  sparing_read (outcome_nodeOf id) (sparing_bind hne)

theorem sparing_modifyFrame (f : Frame → Frame) : Sparing setting m s (modifyFrame f) :=
  sparing_of_outcome (outcome_modifyFrame f) (.refl m _)

theorem sparing_setGuard (guard : Option Guard) : Sparing setting m s (setGuard node guard) := by
  have hout : (setGuard node guard).outcome setting s =
      (.ok (), s.withProgram (s.program.modifyGraph fun g => g.setGuard node guard)) := rfl
  refine sparing_of_outcome hout ⟨rfl, rfl, ?_⟩
  exact FlowGraph.modify_field FlowNode.dependencies fun _ => rfl

theorem sparing_localVar (name : String) : Sparing setting m s (localVar name) := by
  unfold localVar
  refine sparing_read outcome_frame ?_
  split
  · exact sparing_pure _
  · exact sparing_addVar.bind fun _ _ => (sparing_modifyFrame _).bind fun _ _ => sparing_pure _

theorem sparing_globalVar (name : String) : Sparing setting m s (globalVar name) := by
  unfold globalVar
  refine sparing_read outcome_program ?_
  split
  · exact sparing_pure _
  · refine sparing_addVar.bind fun _ _ => Sparing.bind ?_ fun _ _ => sparing_pure _
    exact sparing_of_outcome (outcome_modifyProgram _) ⟨rfl, rfl, rfl⟩

theorem sparing_typeOfSelf : Sparing setting m s typeOfSelf := by
  unfold typeOfSelf
  refine sparing_read outcome_frame ?_
  split
  · exact sparing_pure _
  · exact sparing_read outcome_innermostType
      (sparing_of_outcome (outcome_updateTypes _) ⟨rfl, rfl, rfl⟩)

theorem sparing_instanceVarHolder (id : ExprId) : Sparing setting m s (instanceVarHolder id) := by
  unfold instanceVarHolder
  refine sparing_typeOfSelf.bind fun owner s' => ?_
  have hlib : Sparing setting m s' (do
      if (← types).isLibType owner then problemAt id (.instanceVarInside (← nameOf owner))
      return owner) := by
    refine sparing_read outcome_types ?_
    dsimp only
    split
    · exact sparing_read (outcome_nameOf _) (sparing_problemAt_bind ..)
    · exact sparing_pure _
  dsimp only
  split
  · exact sparing_problemAt_bind ..
  · exact hlib

/-- A step that changes nothing. -/
theorem leaves_unchanged {f : α → Infer β} {R : β → WalkState → Prop}
    (h : ∀ a s', x.Does setting s a s' → s' = s) (hf : ∀ a, Leaves setting s (f a) X L R) :
    Leaves setting s (x >>= f) X L R := by
  refine ⟨fun b s' hd => ?_⟩
  obtain ⟨a, s₁, hx, hfa⟩ := does_bind.mp hd
  obtain rfl := h a s₁ hx
  exact (hf a).does b s' hfa

/-! ### Targets -/

theorem sparing_instanceVar (hs : s.Intact X L) (hid : s.program.Has id)
    (hfree : ¬ s.program.IsParameter id) (target : ExprId) (name : String) :
    Sparing setting (s.program.nodeOf id) s (instanceVar target name) := by
  refine ⟨fun node s₂ hd => ?_⟩
  obtain ⟨owner, s₁, hholder, hvar⟩ := does_bind.mp hd
  have hspares :=
    (sparing_instanceVarHolder (m := s.program.nodeOf id) target).does owner s₁ hholder
  obtain ⟨hl, hs₁, -⟩ := (leaves_instanceVarHolder hs target).does owner s₁ hholder
  have hnode := hspares.trans (Program.spares_instanceVarNode s₁.program owner name _)
  obtain ⟨rfl, rfl | hbind⟩ := does_instanceVarFor hvar
  · exact hnode
  · obtain ⟨hl', hp, hspare⟩ := hs₁.program.instanceVarNode owner name
    refine hnode.trans ((sparing_bind ?_).does () s₂ hbind)
    rw [← hnode.nodeOf_eq]
    exact hspare.ne (hl'.lt (hl.lt hid)) (mt hnode.isParameter hfree)

/-- The node of a target is spare, and the node of another expression is left alone to get it. -/
theorem leaves_targetVar (hs : s.Intact X L) (hid : s.program.Has id)
    (hfree : ¬ s.program.IsParameter id) (target : ExprId) {sourceGuard : Option Guard}
    (hguard : GuardInTable sourceGuard s) (c : Construct ExprId) :
    Leaves setting s (bindTarget.targetVar target sourceGuard c) X L fun r s' =>
      s'.program.Spare r.1 ∧ GuardInTable r.2 s' ∧
      s.program.Spares (s.program.nodeOf id) s'.program := by
  have hnone : ∀ {s' : WalkState}, GuardInTable none s' := fun _ h => nomatch h
  unfold bindTarget.targetVar
  split
  · rename_i name
    refine ((sparing_localVar (m := s.program.nodeOf id) name).leaves
      (leaves_localVar hs name)).bind fun var s₁ hl₁ hs₁ ⟨hspare, hspares⟩ => ?_
    have hproved := guardInTable_assigned name (hguard.later hl₁)
    refine ((sparing_setGuard (m := s.program.nodeOf id) _).leaves
      (leaves_setGuard hs₁ var hproved)).bind fun _ s₂ hl₂ hs₂ ⟨_, hspares'⟩ =>
        leaves_pure hs₂ ⟨hl₂.spare hspare, hproved.later hl₂, hspares.trans hspares'⟩
  · rename_i name
    exact ((sparing_instanceVar hs hid hfree target name).leaves
      (leaves_instanceVar hs target name)).bind
      fun var s₁ _ hs₁ h => leaves_pure hs₁ ⟨h.1, hnone, h.2⟩
  · rename_i name
    exact ((sparing_globalVar name).leaves (leaves_globalVar hs name)).bind fun var s₁ _ hs₁ h =>
      leaves_pure hs₁ ⟨h.1, hnone, h.2⟩
  · exact leaves_problemAt ..

/-- A target is done with; another expression keeps its dependencies. -/
theorem leaves_bindTarget (hs : s.Intact X (.done id :: .whole target :: L))
    (hfree : ¬ s.program.IsParameter id) {source : NodeId}
    (hsource : source.index < s.program.graph.size) {sourceGuard : Option Guard}
    (hguard : GuardInTable sourceGuard s) :
    Leaves setting s (bindTarget target source sourceGuard) X (.done id :: L) fun proved s' =>
      GuardInTable proved s' ∧ s.program.Spares (s.program.nodeOf id) s'.program := by
  have hid : s.program.Has id := hs.has
  have hne : s.program.nodeOf id ≠ s.program.nodeOf target :=
    (hs.program.avoids_done target ⟨.whole target, by simp, trivial, .refl⟩).symm
  have htarget : s.Intact X (.done target :: .done id :: L) := hs.swap.finish
  unfold bindTarget
  refine leaves_read (outcome_construct target) ?_
  refine (leaves_targetVar htarget hid hfree target hguard _).bind
    fun r s₁ hl₁ hs₁ ⟨hspare, hproved, hspares⟩ => ?_
  obtain ⟨var, guard⟩ := r
  refine ((sparing_deriveFrom (m := s.program.nodeOf id) (by rwa [hspares.nodeOf_eq])).leaves
    (leaves_deriveFrom hs₁ (List.forall_mem_singleton.mpr hspare.lt))).bind
      fun _ s₂ hl₂ hs₂ ⟨_, hspares₂⟩ => ?_
  replace hspares₂ := hspares.trans hspares₂
  have hvar : s.program.nodeOf id ≠ var := by
    rw [← hspares₂.nodeOf_eq]
    exact (hl₂.spare hspare).ne (hl₂.lt (hl₁.lt hid)) (mt hspares₂.isParameter hfree)
  have hsource₂ := Nat.lt_of_lt_of_le hsource (hl₁.trans hl₂).nodes_le
  exact ((sparing_bind hvar).leaves
    (leaves_bind hs₂.tail (hl₂.spare hspare) (List.forall_mem_singleton.mpr hsource₂))).bind
    fun _ s₃ hl₃ hs₃ ⟨_, hspares₃⟩ =>
      leaves_pure hs₃ ⟨hproved.later (hl₂.trans hl₃), hspares₂.trans hspares₃⟩

/-! ### Constants -/

theorem waits_addConstant {p : Program} {c : Constant} (h : p.Waits id)
    (hpending : c.state = .pending) : (p.addConstant c).Waits id := by
  refine ⟨fun d hd => ?_, h.free⟩
  obtain ⟨value, hvalue, rfl⟩ := h.unread d hd
  refine ⟨value, ?_, rfl⟩
  rw [Program.unread_addConstant hpending]; exact List.mem_append_left _ hvalue

theorem waits_deriveFrom {value : ExprId} (hw : s.program.Waits id)
    (hvalue : .whole value ∈ s.program.unread)
    (hd : (deriveFrom id [s.program.nodeOf value]).Does setting s () s') : s'.program.Waits id := by
  obtain ⟨n, hbind, rfl⟩ := does_onNetwork.mp ((does_bind_of_ok (outcome_nodeOf id)).mp hd)
  have hext := Network.Extends.outcome_bindNode s.program.toNetwork (s.program.nodeOf id)
      [s.program.nodeOf value]
  rw [hbind] at hext
  refine ⟨fun d hd => ?_, hw.free⟩
  replace hd := (hext.dependencies (s.program.nodeOf id)) ▸ hd
  rcases (FlowGraph.mem_dependencies_link _).mp hd with hd | ⟨-, -, hd⟩
  · exact hw.unread d hd
  · exact ⟨value, hvalue, List.mem_singleton.mp hd⟩

/-- A constant is declared: the expression that declares it waits for its value. -/
theorem leaves_declareConstant {value : ExprId} {names : List String}
    (hs : s.Intact X (.done id :: .whole target :: .whole value :: L)) :
    Leaves setting s (declareConstant id target names value) X (.done id :: L) fun _ s' =>
      s.program.Waits id → s'.program.Waits id := by
  unfold declareConstant
  split
  · exact leaves_defectAt ..
  rename_i name _
  refine leaves_unchanged (fun _ _ => does_constantHolder) fun owner => ?_
  refine leaves_read outcome_types (leaves_check fun _ => leaves_read outcome_frame ?_)
  have hvalue := hs.third
  have hc : Constant.Within ⟨owner, name, value, s.frame.enclosing, s.frame.scope, .pending⟩
      s.program.types.size :=
    ⟨hs.frame.scope, hs.frame.enclosing⟩
  obtain ⟨hl, hp⟩ := hvalue.program.addConstant rfl hc
  refine leaves_after (outcome_modifyProgram _) hl (leaves_read (outcome_nodeOf value) ?_)
  have hs₁ := (hvalue.withProgram hl hp).swap
  generalize hp₁ : s.program.addConstant _ = p₁ at hl hs₁
  have hnode : ∀ d ∈ [p₁.nodeOf value], d.index < p₁.graph.size :=
    List.forall_mem_singleton.mpr (hs₁.node_lt (hl.lt hvalue.has))
  have hne : p₁.nodeOf id ≠ p₁.nodeOf target :=
    (hs₁.swap.program.avoids_done target ⟨.whole target, by simp, trivial, .refl⟩).symm
  refine ((sparing_deriveFrom (m := p₁.nodeOf id) hne).leaves
    (leaves_deriveFrom hs₁.finish hnode)).bind fun _ s₂ hl₂ hs₂ ⟨_, hspares⟩ => ⟨fun _ s₃ hd => ?_⟩
  obtain ⟨hl₃, hs₃, -⟩ :=
    (leaves_deriveFrom hs₂.tail fun d hd =>
      Nat.lt_of_lt_of_le (hnode d hd) hl₂.nodes_le).does _ _ hd
  refine ⟨hl₃, hs₃, fun hwaits => ?_⟩
  have hunread : .whole value ∈ p₁.unread := by
    rw [← hp₁, Program.unread_addConstant rfl]; simp
  have hwaits₁ : p₁.Waits id := hp₁ ▸ waits_addConstant hwaits rfl
  have hvalue₂ : s₂.program.nodeOf value = p₁.nodeOf value := hspares.nodeOf_eq value
  exact waits_deriveFrom (hwaits₁.spares hspares) (hspares.unread_eq ▸ hunread) (hvalue₂ ▸ hd)

/-! ### Assignments -/

theorem Leaves.assigning {x : Infer Unit} {Q : Unit → WalkState → Prop}
    (h : Leaves setting s x X L Q) (id target : ExprId) :
    Leaves setting s (assigning id target x) X L Q :=
  leaves_read (outcome_locationOf id) (leaves_read outcome_program h.mapError)

theorem leaves_walkAssign (hw : Finishes setting walk) {value : ExprId}
    (hs : s.Intact X (.single id :: .whole target :: .whole value :: L)) :
    LeavesIntact setting s (walkAssign walk id target value) X (.done id :: L) := by
  unfold walkAssign
  refine leaves_read (outcome_construct target) ?_
  split
  · exact (leaves_declareConstant hs.finish).imp fun _ _ _ hs' _ => ⟨hs', trivial⟩
  · refine (hw.leaves hs.third).bind fun _ s₁ hl₁ hs₁ _ => ?_
    refine leaves_read (outcome_nodeOf value)
      (leaves_read (outcome_guardOf value) (Leaves.assigning ?_ id target))
    have hfree : ¬ s₁.program.IsParameter id :=
      hs₁.program.awaits.free (.single id) (by simp) trivial
    have hnode : ∀ d ∈ [s₁.program.nodeOf value], d.index < s₁.program.graph.size :=
      List.forall_mem_singleton.mpr (hs₁.node_lt (hl₁.lt hs.third.has))
    have hderive : Leaves setting s₁ (deriveFrom id [s₁.program.nodeOf value]) X
        (.done id :: .whole target :: L) fun _ s' => ¬ s'.program.IsParameter id := by
      refine ⟨fun _ s₂ hd => ?_⟩
      obtain ⟨hl, hs₂, -⟩ := (leaves_derive hs₁ hnode).does _ _ hd
      obtain ⟨n, -, rfl⟩ := does_onNetwork.mp ((does_bind_of_ok (outcome_nodeOf id)).mp hd)
      exact ⟨hl, hs₂, mt (·.of_exprs_eq rfl) hfree⟩
    have hvalue := guardInTable_guardOf hs₁ (s₁.program.nodeOf value)
    refine hderive.bind fun _ s₂ hl₂ hs₂ hfree₂ => leaves_read (outcome_nodeOf id) ?_
    refine (leaves_bindTarget hs₂ hfree₂ (hs₂.node_lt hs₂.has) (hvalue.later hl₂)).bind
      fun guard s₃ _ hs₃ ⟨hproved, _⟩ => ?_
    split
    · exact leaves_setExprGuard hs₃ id hproved
    · exact leaves_pure hs₃ trivial

/-! ### Assignments to several targets -/

/-- What is left to be done for a target and its value, once the values of variables have been
walked. -/
def leftToAssign (p : Program) (pair : ExprId × ExprId) : List Duty :=
  [.whole pair.1, if (p.construct pair.1).isPath then .whole pair.2 else .done pair.2]

theorem leftToAssign_eq {p p' : Program} (hl : p.Later p') {pair : ExprId × ExprId}
    (hp : p.Has pair.1) : leftToAssign p' pair = leftToAssign p pair := by
  rw [leftToAssign, leftToAssign, (hl.construct pair.1 hp).isPath_eq]

theorem leaves_assignTargets {pairs : List (ExprId × ExprId)}
    (hs : s.Intact X (.done id :: (pairs.flatMap (leftToAssign s.program) ++ L)))
    (hwaits : s.program.Waits id) : Leaves setting s (pairs.forM fun (target, value) => do
        match ← construct target with
        | .path names _ => declareConstant id target names value
        | _ =>
          let _ ← bindTarget target (← nodeOf value) (← guardOf value)) X (.done id :: L)
      fun _ s' => s'.program.Waits id := by
  induction pairs generalizing s with
  | nil => exact leaves_pure hs hwaits
  | cons pair pairs ih =>
    obtain ⟨target, value⟩ := pair
    have hhas : ∀ pair ∈ pairs, s.program.Has pair.1 :=
      fun pair hp => hs.program.awaits.has (.whole pair.1) (by
      refine List.mem_append_left _ (List.mem_cons_of_mem _ (List.mem_append_left _ ?_))
      exact List.mem_flatMap.mpr ⟨pair, List.mem_cons_of_mem _ hp, List.mem_cons_self ..⟩)
    rw [List.flatMap_cons, List.append_assoc] at hs
    refine Leaves.bind ?_ fun _ s' hl
      (hs' : s'.Intact X (.done id :: (pairs.flatMap (leftToAssign s.program) ++ L)))
      (hwaits' : s'.program.Waits id) => ih ?_ hwaits'
    case refine_2 => rwa [List.flatMap_congr fun pair hp => leftToAssign_eq hl (hhas pair hp)]
    refine leaves_read (outcome_construct target) ?_
    split
    · rename_i hpath
      rw [leftToAssign, hpath] at hs
      exact (leaves_declareConstant hs).imp fun _ _ _ hs' hq => ⟨hs', hq hwaits⟩
    · rename_i hpath
      rw [leftToAssign, Construct.isPath_eq_false hpath] at hs
      have hvalue := hs.third.has
      refine leaves_read (outcome_nodeOf value) (leaves_read (outcome_guardOf value) ?_)
      refine (leaves_bindTarget (hs.third.tail) hwaits.free (hs.node_lt hvalue)
        (guardInTable_guardOf hs (s.program.nodeOf value))).bind fun _ s' _ hs' ⟨_, hspares⟩ => ?_
      exact leaves_pure hs' (hwaits.spares hspares)

theorem perm_zip {targets values : List ExprId} (hlength : targets.length = values.length) :
    ((targets ++ values).map Duty.whole).Perm
      ((targets.zip values).flatMap fun pair => [.whole pair.1, .whole pair.2]) := by
  induction targets generalizing values with
  | nil => rw [List.length_eq_zero_iff.mp hlength.symm]; exact .refl _
  | cons target targets ih =>
    obtain ⟨value, values, rfl⟩ := List.exists_of_length_succ values hlength.symm
    have hvalue : ((targets ++ value :: values).map Duty.whole).Perm
        (.whole value :: (targets ++ values).map Duty.whole) :=
      List.perm_middle.map Duty.whole
    exact .cons _ (hvalue.trans (.cons _ (ih (Nat.succ.inj hlength))))

theorem leaves_walkMultiAssign (hw : Finishes setting walk) {targets values : List ExprId}
    (hs : s.Intact X (.single id :: ((targets ++ values).map Duty.whole ++ L))) :
    LeavesIntact setting s (walkMultiAssign walk id targets values) X (.done id :: L) := by
  unfold walkMultiAssign
  refine leaves_check fun hlength => ?_
  have hpairs : s.Intact X ((targets.zip values).flatMap
      (fun pair => [.whole pair.1, .whole pair.2]) ++ (.single id :: L)) := by
    refine hs.perm
      (List.perm_middle.symm.trans ((perm_zip (Decidable.of_not_not hlength)).append_right _))
  have hhas : ∀ pair ∈ targets.zip values, s.program.Has pair.1 := fun pair hp =>
    hs.program.awaits.has (.whole pair.1) (by
      have := (List.of_mem_zip hp).1
      simp [this])
  refine (leaves_forM (fun pair : ExprId × ExprId => [.whole pair.1, .whole pair.2])
    (leftToAssign s.program) hpairs fun pair hp s' M hl hs' => ?_).bind fun _ s₁ hl₁ hs₁ _ => ?_
  · obtain ⟨target, value⟩ := pair
    rw [← leftToAssign_eq hl (hhas _ hp)]
    refine leaves_read (outcome_construct target) ?_
    split
    · rename_i hpath
      rw [leftToAssign, hpath]
      exact leaves_pure hs' trivial
    · rename_i hpath
      rw [leftToAssign, Construct.isPath_eq_false hpath]
      exact (hw X _ s' value hs'.swap).imp fun _ _ _ hs'' _ => ⟨hs''.swap, trivial⟩
  · rw [← List.flatMap_congr fun pair hp => leftToAssign_eq hl₁ (hhas pair hp)] at hs₁
    have hid :
        s₁.Intact X (.single id :: ((targets.zip values).flatMap (leftToAssign s₁.program) ++ L)) :=
      hs₁.perm List.perm_middle
    refine (leaves_assignTargets hid.finish (.of_single hid.program)).bind
      fun _ s₂ _ hs₂ hwaits => ?_
    refine leaves_read (outcome_nodeOf id) ⟨fun _ s₃ hd => ?_⟩
    obtain ⟨n, hset, rfl⟩ := does_onNetwork.mp hd
    obtain ⟨hl₃, hp₃⟩ := hwaits.giveType hs₂.program (hs₂.builtin_lt (by decide)) hset
    exact ⟨hl₃, hs₂.withProgram hl₃ hp₃, trivial⟩

end Infer

end TypeFlow

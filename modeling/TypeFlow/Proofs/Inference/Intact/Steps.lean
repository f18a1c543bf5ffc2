import TypeFlow.Proofs.Inference.Leaving
import TypeFlow.Proofs.Inference.Primitives

/-!
# Basic steps leave intact states

The steps that the others are put together from. The node of an expression that is being walked may
be given a type directly once, before anything is derived for it; nodes of variables are derived
only.
-/

namespace TypeFlow

namespace WalkState.Intact
variable {s : WalkState} {X : List NodeId} {L : List Duty} {id : ExprId}

theorem whole (h : s.Intact X L) : s.program.types.Whole := h.program.whole

theorem builtin_lt (h : s.Intact X L) {type : TypeId} (ht : type.index ≤ TypeId.noReturn.index) :
    type.index < s.program.types.size :=
  h.whole.builtin_lt ht

theorem node_lt (h : s.Intact X L) (hid : s.program.Has id) :
    (s.program.nodeOf id).index < s.program.graph.size :=
  h.program.node_lt hid

theorem partNode_lt (h : s.Intact X L) {o : Option ExprId} (ho : ∀ id ∈ o, s.program.Has id) :
    (s.program.partNode o).index < s.program.graph.size := by
  cases o with
  | none => exact h.nil_lt
  | some id => exact h.node_lt (ho id rfl)

theorem var_spare (h : s.Intact X L) {name : String} {node : NodeId}
    (hn : s.frame.vars.get? name = some node) : s.program.Spare node :=
  h.frame.vars name node hn

theorem innermostType_lt (h : s.Intact X L) :
    s.frame.innermostType.index < s.program.types.size := by
  unfold Frame.innermostType
  have henclosing := h.frame.enclosing
  revert henclosing
  rcases s.frame.enclosing with _ | ⟨type, rest⟩
  · exact fun _ => h.builtin_lt (by decide)
  · exact fun henclosing => henclosing type (by simp)

/-- What is left to be done with the parts of an expression, whose node is still to get its type. -/
theorem parts (h : s.Intact X (.whole id :: L))
    (hnot : ∀ params body, s.program.construct id ≠ .block params body) :
    s.Intact X (.single id :: ((s.program.construct id).children.map Duty.whole ++ L)) := by
  have hunfold := h.duties h.program.unfold
  have hinner : (s.program.construct id).inner = (s.program.construct id).children := by
    unfold Construct.inner
    split
    · exact absurd ‹_› (hnot _ _)
    · rfl
  rwa [hinner] at hunfold

end WalkState.Intact

namespace Infer
variable {α : Type} {setting : Setting} {X Y : List NodeId} {L M : List Duty}
  {s s' : WalkState} {id : ExprId}
  {node : NodeId} {deps : List NodeId} {Q : α → WalkState → Prop}

theorem leaves_updateProgram {f : Program → α × Program} (hs : s.Intact X L)
    (hf : s.program.Later (f s.program).2 ∧ (f s.program).2.Intact Y M)
    (hq : Q (f s.program).1 (s.withProgram (f s.program).2)) :
    Leaves setting s (updateProgram f) Y M Q :=
  leaves_of_outcome (outcome_updateProgram f) hf.1 (hs.withProgram hf.1 hf.2) hq

theorem leaves_modifyProgram {f : Program → Program} (hs : s.Intact X L)
    (hf : s.program.Later (f s.program) ∧ (f s.program).Intact Y M) :
    LeavesIntact setting s (modifyProgram f) Y M :=
  leaves_of_outcome (outcome_modifyProgram f) hf.1 (hs.withProgram hf.1 hf.2) trivial

theorem leaves_modifyFrame {f : Frame → Frame} (hs : s.Intact X L)
    (hf : (f s.frame).Within s.program) : LeavesIntact setting s (modifyFrame f) X L :=
  leaves_of_outcome (outcome_modifyFrame f) (.refl _) (hs.withFrame hf) trivial

theorem leaves_modifyJournal (f : Journal → Journal) (hs : s.Intact X L) :
    LeavesIntact setting s (modifyJournal f) X L := by
  have hd : (modifyJournal f).outcome setting s =
      (.ok (), { s with session := { s.session with journal := f s.session.journal } }) := rfl
  exact leaves_of_outcome hd (.refl _) ⟨hs.program, hs.frame, hs.memo⟩ trivial

/-! ### Nodes -/

theorem leaves_addNode (hs : s.Intact X L) {derivation : Derivation}
    (hd : ∀ target ∈ derivation.targets, target.index < s.program.types.size) :
    Leaves setting s (updateProgram fun p => p.addNode derivation) X L fun node s' =>
      s'.program.Spare node :=
  let ⟨hl, hp, hspare⟩ := hs.program.addNode hd
  leaves_updateProgram hs ⟨hl, hp⟩ hspare

theorem leaves_addVar (hs : s.Intact X L) :
    Leaves setting s addVar X L fun node s' => s'.program.Spare node :=
  leaves_addNode hs fun _ h => nomatch h

theorem leaves_addValue (hs : s.Intact X L) {type : TypeId}
    (ht : type.index < s.program.types.size) :
    Leaves setting s (addValue type) X L fun node s' => s'.program.Spare node :=
  let ⟨hl, hp, hspare⟩ := hs.program.addValue ht
  leaves_updateProgram hs ⟨hl, hp⟩ hspare

theorem leaves_breakNodeOf (hs : s.Intact X L) (block : ExprId) :
    Leaves setting s (updateProgram fun p => p.breakNodeOf block) X L fun node s' =>
      s'.program.Spare node :=
  let ⟨hl, hp, hspare⟩ := hs.program.breakNodeOf block
  leaves_updateProgram hs ⟨hl, hp⟩ hspare

theorem leaves_bindNode (hs : s.Intact (node :: X) L) (hne : node ≠ Program.nilNode)
    (havoid : s.program.Avoids (L ++ s.program.unread) node)
    (hdeps : ∀ d ∈ deps, d.index < s.program.graph.size) :
    LeavesIntact setting s (bind node deps) X L := by
  refine ⟨fun a s' hd => ?_⟩
  obtain ⟨n, hbind, rfl⟩ := does_onNetwork.mp hd
  obtain ⟨hl, hp⟩ := hs.program.bind hne havoid hdeps hbind
  exact ⟨hl, hs.withProgram hl hp, trivial⟩

/-- A node that has been unbound, or may have been, is bound again. -/
theorem leaves_rebindSpare (hs : s.Intact (node :: X) L) (hn : s.program.Spare node)
    (hdeps : ∀ d ∈ deps, d.index < s.program.graph.size) :
    LeavesIntact setting s (bind node deps) X L :=
  leaves_bindNode hs hn.ne_nil (hs.program.avoids_spare hn) hdeps

theorem leaves_bind (hs : s.Intact X L) (hn : s.program.Spare node)
    (hdeps : ∀ d ∈ deps, d.index < s.program.graph.size) :
    LeavesIntact setting s (bind node deps) X L :=
  leaves_rebindSpare (hs.duties (hs.program.mono fun _ => List.mem_cons_of_mem _)) hn hdeps

/-- The guard compares with types of the table only. -/
abbrev GuardInTable (guard : Option Guard) (s : WalkState) : Prop :=
  ∀ g ∈ guard, g.Within s.program.types.size

theorem GuardInTable.later {guard : Option Guard} (h : GuardInTable guard s)
    (hl : s.program.Later s'.program) :
    GuardInTable guard s' := fun g hg => (h g hg).mono hl.kinds.size_le

theorem guardInTable_guardOf (hs : s.Intact X L) (node : NodeId) :
    GuardInTable (s.program.graph.guardOf node) s :=
  (hs.program.orderly.linked.nodes node).guard

/-- Whatever has been derived for an expression before, more may be. -/
theorem leaves_deriveFrom (hs : s.Intact X (.done id :: L))
    (hdeps : ∀ d ∈ deps, d.index < s.program.graph.size) :
    LeavesIntact setting s (deriveFrom id deps) X (.done id :: L) := by
  refine leaves_read (outcome_nodeOf id) ?_
  refine leaves_bindNode (hs.duties (hs.program.mono fun _ => List.mem_cons_of_mem _))
    (hs.program.sound.node_ne_nil id hs.has) ?_ hdeps
  exact hs.program.avoids_done

theorem leaves_derive (hs : s.Intact X (.single id :: L))
    (hdeps : ∀ d ∈ deps, d.index < s.program.graph.size) :
    LeavesIntact setting s (deriveFrom id deps) X (.done id :: L) :=
  leaves_deriveFrom hs.finish hdeps

theorem leaves_deriveParameter (hs : s.Intact X L) (hid : s.program.Has id)
    (hpar : s.program.IsParameter id) (hdeps : ∀ d ∈ deps, d.index < s.program.graph.size) :
    LeavesIntact setting s (deriveFrom id deps) X L := by
  refine leaves_read (outcome_nodeOf id) ?_
  exact leaves_bindNode (hs.duties (hs.program.mono fun _ => List.mem_cons_of_mem _))
    (hs.program.sound.node_ne_nil id hid) (hs.program.avoids_parameter hid hpar) hdeps

theorem leaves_giveType (hs : s.Intact X (.single id :: L)) {type : TypeId}
    (ht : type.index < s.program.types.size) :
    LeavesIntact setting s (giveType id type) X (.done id :: L) := by
  refine leaves_read (outcome_nodeOf id) ?_
  refine ⟨fun a s' hd => ?_⟩
  obtain ⟨n, hset, rfl⟩ := does_onNetwork.mp hd
  obtain ⟨hl, hp⟩ := hs.program.giveType ht hset
  exact ⟨hl, hs.withProgram hl hp, trivial⟩

/-- For a type that the table starts with. -/
theorem leaves_giveBuiltin (hs : s.Intact X (.single id :: L)) {type : TypeId}
    (ht : type.index ≤ TypeId.noReturn.index) :
    LeavesIntact setting s (giveType id type) X (.done id :: L) :=
  leaves_giveType hs (hs.builtin_lt ht)

theorem leaves_setGuard (hs : s.Intact X L) (node : NodeId) {guard : Option Guard}
    (hg : GuardInTable guard s) : LeavesIntact setting s (setGuard node guard) X L := by
  have hguard := hs.program.setGuard node hg
  have hl : s.program.Later { s.program with graph := s.program.graph.setGuard node guard } :=
    .of_exprs rfl (FlowGraph.Touch.setGuard ..).keepsNodes.size_le (.refl _)
  exact leaves_of_outcome rfl hl (hs.withProgram hl hguard) trivial

theorem leaves_setExprGuard (hs : s.Intact X L) (id : ExprId) {guard : Option Guard}
    (hg : GuardInTable guard s) : LeavesIntact setting s (setExprGuard id guard) X L :=
  leaves_read (outcome_nodeOf id) (leaves_setGuard hs _ hg)

theorem leaves_freeze (hs : s.Intact X L) (node : NodeId) :
    LeavesIntact setting s (modifyGraph fun g => g.freeze node) X L :=
  leaves_modifyProgram hs ⟨.of_exprs rfl (FlowGraph.Touch.freeze ..).keepsNodes.size_le (.refl _),
    hs.program.freeze node⟩

theorem leaves_note {f : Program → Program} (hs : s.Intact X L)
    (hn : s.program.Note (f s.program)) : LeavesIntact setting s (modifyProgram f) X L :=
  leaves_modifyProgram hs (hs.program.note hn)

/-! ### Types -/

theorem leaves_updateTypes {f : Types → α × Types} (hs : s.Intact X L)
    (hacts : Relation.ReflTransGen Types.Act s.program.types (f s.program.types).2)
    (hw : (f s.program.types).2.Whole)
    (hq : Q (f s.program.types).1
      (s.withProgram { s.program with types := (f s.program.types).2 })) :
    Leaves setting s (updateTypes f) X L Q :=
  leaves_updateProgram hs (hs.program.acts hacts hw) hq

theorem leaves_modifyTypes {f : Types → Types} (hs : s.Intact X L)
    (hact : Types.Act s.program.types (f s.program.types)) (hw : (f s.program.types).Whole) :
    LeavesIntact setting s (modifyProgram fun p => p.modifyTypes f) X L :=
  leaves_modifyProgram hs (hs.program.acts (.single hact) hw)

/-- The type is one of the table. -/
abbrev InTable (type : TypeId) (s : WalkState) : Prop := type.index < s.program.types.size

theorem leaves_metaclassOf (hs : s.Intact X L) {type : TypeId} (ht : InTable type s) :
    Leaves setting s (metaclassOf type) X L InTable :=
  leaves_updateTypes hs (Types.acts_metaclassOf type) (hs.whole.metaclassOf ht)
    (Types.metaclassOf_lt ht)

theorem leaves_giveMetaclass (hs : s.Intact X (.single id :: L)) {type : TypeId}
    (ht : InTable type s) :
    LeavesIntact setting s (do giveType id (← metaclassOf type)) X (.done id :: L) :=
  (leaves_metaclassOf hs ht).bind fun _ _ _ hs' ht' => leaves_giveType hs' ht'

/-! ### Scopes -/

theorem leaves_innermostType (hs : s.Intact X L) : Leaves setting s innermostType X L InTable :=
  leaves_of_outcome outcome_innermostType (.refl _) hs hs.innermostType_lt

theorem leaves_typeOfSelf (hs : s.Intact X L) : Leaves setting s typeOfSelf X L InTable := by
  unfold typeOfSelf
  refine leaves_read outcome_frame ?_
  split
  · rename_i hscope
    exact leaves_pure hs (hs.frame.scope _ hscope)
  · exact leaves_read outcome_innermostType (leaves_metaclassOf hs hs.innermostType_lt)

theorem leaves_nameScope (hs : s.Intact X L) : LeavesIntact setting s nameScope X L := by
  unfold nameScope
  refine leaves_read outcome_frame ?_
  split
  · exact leaves_read outcome_types (leaves_pure hs trivial)
  · exact (leaves_innermostType hs).imp fun _ _ _ hs' _ => ⟨hs', trivial⟩

theorem leaves_localVar (hs : s.Intact X L) (name : String) :
    Leaves setting s (localVar name) X L fun node s' => s'.program.Spare node := by
  unfold localVar
  refine leaves_read outcome_frame ?_
  split
  · rename_i node hn
    exact leaves_pure hs (hs.var_spare hn)
  · refine (leaves_addVar hs).bind fun node s' _ hs' hspare => ?_
    refine (leaves_modifyFrame hs' ⟨fun other n hn => ?_, hs'.frame.result, hs'.frame.scope,
      hs'.frame.enclosing, hs'.frame.guards⟩).bind
      fun _ _ hl hs'' _ => leaves_pure hs'' (hl.spare hspare)
    rw [OrderedMap.get?_insert] at hn
    split at hn
    · cases hn; exact hspare
    · exact hs'.var_spare hn

end Infer

end TypeFlow

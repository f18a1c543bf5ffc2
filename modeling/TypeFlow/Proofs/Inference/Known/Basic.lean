import TypeFlow.Proofs.Flow.Single
import TypeFlow.Proofs.Inference.Course.Formed

/-!
# Nodes that nothing is bound to

The one node for known values of a type has this type from when it is added, and depends on nothing.
It stays so because no step gets hold of it to bind it: expressions, variables and results of
methods have other nodes. A state in which this is so is `Proper`. In it the node of a variable
passes on the join of what the variable is bound to.

There is one lemma for each way in which inference changes a state.
-/

namespace TypeFlow

theorem FlowGraph.KeepsNodes.refl (g : FlowGraph) : g.KeepsNodes g :=
  ⟨Nat.le_refl _, fun _ _ => ⟨rfl, rfl, rfl⟩⟩

theorem FlowGraph.KeepsNodes.gives {g g' : FlowGraph} {node : NodeId} {type : TypeId}
    (h : g.KeepsNodes g') (hg : g.Gives type node) : g'.Gives type node := by
  obtain ⟨htype, hdeps, -⟩ := h.nodes node (Network.lt_of_typeOf (n := ⟨.initial, g⟩) hg.typed)
  exact ⟨htype.trans hg.typed, hdeps.trans hg.dependencies⟩

theorem Types.keepsVars_of_acts {t t' : Types} (h : Relation.ReflTransGen Types.Act t t') :
    t.KeepsVars t' := by
  induction h with
  | refl => exact ⟨.refl _, fun _ _ _ hn => hn⟩
  | tail _ hact ih => exact ih.trans hact.keepsVars

theorem Program.Keeps.earlier {p p' : Program} {node : NodeId} (hk : p'.Keeps node)
    (hglobals : p'.globals = p.globals) (hbreaks : p'.blockBreaks = p.blockBreaks)
    (hvars : ∀ owner name node, (p'.types.get owner).instanceVars.get? name = some node →
      (p.types.get owner).instanceVars.get? name = some node) : p.Keeps node := by
  cases hk with
  | global hk => exact .global (hglobals ▸ hk)
  | instanceVar hk => exact .instanceVar (hvars _ _ _ hk)
  | breakNode hk => exact .breakNode (hbreaks ▸ hk)

namespace WalkState
variable {s s' s'' : WalkState} {node : NodeId} {p : Program}

/-- What is bound, or given a type: the nodes of expressions and of variables, and those that
results are collected in. -/
inductive Bindable (s : WalkState) (node : NodeId) : Prop where
  | expr (id : ExprId) : s.program.nodeOf id = node → Bindable s node
  | kept : s.program.Keeps node → Bindable s node
  | var {name : String} : s.frame.vars.get? name = some node → Bindable s node
  | result : s.frame.result = some node → Bindable s node
  | instance {key : MethodInstance} : s.memo.instances.get? key = some node → Bindable s node

/-- The node is not the one for known values of a type. -/
structure Loose (s : WalkState) (node : NodeId) : Prop where
  lt : node.index < s.program.graph.size
  unknown : ∀ type, s.memo.values.get? type ≠ some node

/-- A node that a variable may have. -/
structure Joining (s : WalkState) (node : NodeId) : Prop extends s.Loose node where
  derivation : (s.program.graph.node node).derivation = .identity

structure Proper (s : WalkState) : Prop where
  loose : ∀ node, s.Bindable node → s.Loose node
  formed : s.program.Formed
  vars : ∀ name node, s.frame.vars.get? name = some node →
    (s.program.graph.node node).derivation = .identity
  values : ∀ type node, s.memo.values.get? type = some node → s.program.graph.Gives type node

/-- Nodes stay, and only new ones become known. -/
structure Ages (s s' : WalkState) : Prop where
  size_le : s.program.graph.size ≤ s'.program.graph.size
  derivation : ∀ node : NodeId, node.index < s.program.graph.size →
    (s'.program.graph.node node).derivation = (s.program.graph.node node).derivation
  values : ∀ type node, s'.memo.values.get? type = some node →
    s.memo.values.get? type = some node ∨ s.program.graph.size ≤ node.index

namespace Ages

theorem refl (s : WalkState) : s.Ages s := ⟨Nat.le_refl _, fun _ _ => rfl, fun _ _ h => .inl h⟩

theorem trans (h : s.Ages s') (h' : s'.Ages s'') : s.Ages s'' where
  size_le := Nat.le_trans h.size_le h'.size_le
  derivation node hnode :=
    (h'.derivation node (Nat.lt_of_lt_of_le hnode h.size_le)).trans (h.derivation node hnode)
  values type node hn := by
    rcases h'.values type node hn with hn | hge
    · exact h.values type node hn
    · exact .inr (Nat.le_trans h.size_le hge)

theorem loose (h : s.Ages s') (hn : s.Loose node) : s'.Loose node where
  lt := Nat.lt_of_lt_of_le hn.lt h.size_le
  unknown type hknown := by
    rcases h.values type node hknown with hknown | hge
    · exact hn.unknown type hknown
    · exact Nat.not_lt.mpr hge hn.lt

theorem joining (h : s.Ages s') (hn : s.Joining node) : s'.Joining node :=
  ⟨h.loose hn.toLoose, (h.derivation node hn.lt).trans hn.derivation⟩

/-- A change of the frame, or of what is remembered beside known values. -/
theorem of_eq (hprogram : s'.program = s.program) (hvalues : s'.memo.values = s.memo.values) :
    s.Ages s' := by
  refine ⟨Nat.le_of_eq ?_, fun _ _ => ?_, fun type node hn => .inl (hvalues ▸ hn)⟩ <;> rw [hprogram]

end Ages

namespace Proper

theorem joining (h : s.Proper) {name : String} (hn : s.frame.vars.get? name = some node) :
    s.Joining node :=
  ⟨h.loose node (.var hn), h.vars name node hn⟩

theorem nodeOf (h : s.Proper) (id : ExprId) : s.Loose (s.program.nodeOf id) :=
  h.loose _ (.expr id rfl)

/-- The parameter of a block is a variable. -/
theorem joining_nodeOf (h : s.Proper) {id : ExprId} {name : String}
    (hc : s.program.construct id = .var name) : s.Joining (s.program.nodeOf id) := by
  have hid : id.index < s.program.exprs.size := by
    by_contra hid
    rw [Program.construct, Program.expr, Array.getElem?_eq_none (Nat.le_of_not_lt hid)] at hc
    cases hc
  refine ⟨h.nodeOf id, ?_⟩
  rw [h.formed.derivation id hid, hc]
  rfl

/-! ### Changes beside the program -/

theorem of_frame (h : s.Proper) {f : Frame}
    (hvars : ∀ name node, f.vars.get? name = some node → s.Joining node)
    (hresult : ∀ node, f.result = some node → s.Loose node) : (s.withFrame f).Proper := by
  have hages : s.Ages (s.withFrame f) := .of_eq rfl rfl
  refine ⟨fun node hn => hages.loose ?_, h.formed, fun name node hn =>
    (hvars name node hn).derivation, h.values⟩
  cases hn with
  | expr id hid => exact h.loose node (.expr id hid)
  | kept hk => exact h.loose node (.kept hk)
  | var hn => exact (hvars _ node hn).toLoose
  | result hn => exact hresult node hn
  | «instance» hn => exact h.loose node (.instance hn)

/-- The variables and the result are those from before. -/
theorem of_left {f : Frame} (hs : s.Proper) (h : s.Ages s') (hs' : s'.Proper)
    (hvars : f.vars = s.frame.vars) (hresult : f.result = s.frame.result) :
    (s'.withFrame f).Proper :=
  hs'.of_frame (fun _ _ hn => h.joining (hs.joining (hvars ▸ hn)))
    fun _ hn => h.loose (hs.loose _ (.result (hresult ▸ hn)))

theorem of_frame_eq (h : s.Proper) {f : Frame} (hvars : f.vars = s.frame.vars)
    (hresult : f.result = s.frame.result) :
    (s.withFrame f).Proper :=
  h.of_left (.refl s) h hvars hresult

theorem insertVar (h : s.Proper) (name : String) (hn : s.Joining node) :
    (s.withFrame { s.frame with vars := s.frame.vars.insert name node }).Proper := by
  refine h.of_frame (fun other found hfound => ?_) fun _ hn => h.loose _ (.result hn)
  rw [OrderedMap.get?_insert] at hfound
  split at hfound
  · cases hfound; exact hn
  · exact h.joining hfound

theorem insertInstance (h : s.Proper) (key : MethodInstance) (hn : s.Loose node) :
    (s.withMemo { s.memo with instances := s.memo.instances.insert key node }).Proper := by
  have hages : s.Ages (s.withMemo { s.memo with instances := s.memo.instances.insert key node }) :=
    .of_eq rfl rfl
  refine ⟨fun other ho => hages.loose ?_, h.formed, h.vars, h.values⟩
  cases ho with
  | expr id hid => exact h.loose other (.expr id hid)
  | kept hk => exact h.loose other (.kept hk)
  | var hn => exact h.loose other (.var hn)
  | result hn => exact h.loose other (.result hn)
  | «instance» ho =>
    rw [withMemo_memo, OrderedMap.get?_insert] at ho
    split at ho
    · cases ho; exact hn
    · exact h.loose other (.instance ho)

/-! ### Changes to the program -/

/-- The nodes that a program may bind now were loose, or they are new. -/
theorem withProgram (h : s.Proper) (hl : s.program.Later p) (hformed : p.Formed)
    (hderivation : ∀ node : NodeId, node.index < s.program.graph.size →
      (p.graph.node node).derivation = (s.program.graph.node node).derivation)
    (hkept : ∀ node, p.Keeps node → s.Loose node)
    (hgives : ∀ type node, s.memo.values.get? type = some node → p.graph.Gives type node) :
    s.Ages (s.withProgram p) ∧ (s.withProgram p).Proper := by
  have hages : s.Ages (s.withProgram p) := ⟨hl.nodes_le, hderivation, fun _ _ => .inl⟩
  have hnew : ∀ node : NodeId, s.program.graph.size ≤ node.index → node.index < p.graph.size →
      (s.withProgram p).Loose node := fun node hge hlt =>
    ⟨hlt, fun type hknown => Nat.not_lt.mpr hge (h.values type node hknown).lt⟩
  refine ⟨hages, fun node hn => ?_, hformed, fun name node hn =>
    (hages.joining (h.joining hn)).derivation, hgives⟩
  cases hn with
  | expr id hid =>
    rcases Nat.lt_or_ge id.index s.program.exprs.size with hlt | hge
    · exact hages.loose (h.loose node (.expr id ((hl.nodeOf_eq id hlt).symm.trans hid)))
    rcases Nat.lt_or_ge id.index p.exprs.size with hlt | hbeyond
    · exact hid ▸ hnew _ (hl.fresh id hge hlt) (hformed.lt id hlt)
    · -- beyond both programs there is only one node
      have hnone : ∀ q : Program, q.exprs.size ≤ id.index →
          q.nodeOf id = (default : Expr).node := fun q hq => by
        rw [Program.nodeOf, Program.expr, Array.getElem?_eq_none hq]
        rfl
      exact hages.loose
        (h.loose node (.expr id ((hnone _ hge).trans ((hnone _ hbeyond).symm.trans hid))))
  | kept hk => exact hages.loose (hkept node hk)
  | var hn => exact hages.loose (h.loose node (.var hn))
  | result hn => exact hages.loose (h.loose node (.result hn))
  | «instance» hn => exact hages.loose (h.loose node (.instance hn))

/-- A change that leaves expressions and nodes as they are. -/
theorem of_keepsNodes (h : s.Proper) (hkept : ∀ node, p.Keeps node → s.Loose node)
    (hexprs : p.exprs = s.program.exprs) (hnodes : s.program.graph.KeepsNodes p.graph)
    (hkinds : s.program.types.KeepsKinds p.types) :
    s.Ages (s.withProgram p) ∧ (s.withProgram p).Proper := by
  have hl : s.program.Later p := .of_exprs hexprs hnodes.size_le hkinds
  have hderivation : ∀ node : NodeId, node.index < s.program.graph.size →
      (p.graph.node node).derivation = (s.program.graph.node node).derivation :=
        fun node hn => (hnodes.nodes node hn).2.2
  refine h.withProgram hl (h.formed.later hl hderivation fun id hge hlt => ?_) hderivation hkept
    fun type node hn => hnodes.gives (h.values type node hn)
  exact absurd (hexprs ▸ hlt) (Nat.not_lt.mpr hge)

theorem graph (h : s.Proper) {g : FlowGraph} (hnodes : s.program.graph.KeepsNodes g) :
    s.Ages (s.withProgram { s.program with graph := g }) ∧
    (s.withProgram { s.program with graph := g }).Proper :=
  h.of_keepsNodes (fun node hk => h.loose node (.kept (hk.earlier rfl rfl fun _ _ _ hn => hn)))
    rfl hnodes (.refl _)

theorem types (h : s.Proper) {t : Types} (ht : s.program.types.KeepsVars t) :
    s.Ages (s.withProgram { s.program with types := t }) ∧
    (s.withProgram { s.program with types := t }).Proper :=
  h.of_keepsNodes
    (fun node hk => h.loose node (.kept (hk.earlier rfl rfl ht.instanceVars))) rfl (.refl _)
    ht.toKeepsKinds

/-- What else a program records does not concern nodes. -/
theorem records (h : s.Proper) (hnetwork : p.toNetwork = s.program.toNetwork)
    (hexprs : p.exprs = s.program.exprs) (hglobals : p.globals = s.program.globals)
    (hbreaks : p.blockBreaks = s.program.blockBreaks) :
    s.Ages (s.withProgram p) ∧ (s.withProgram p).Proper := by
  refine h.of_keepsNodes
    (fun node hk => h.loose node (.kept (hk.earlier hglobals hbreaks fun owner name node hn => ?_)))
    hexprs ?_ ?_
  · rwa [hnetwork] at hn
  all_goals rw [hnetwork]; exact .refl _

theorem addNode (h : s.Proper) (derivation : Derivation) :
    s.Ages (s.withProgram (s.program.addNode derivation).2) ∧
    (s.withProgram (s.program.addNode derivation).2).Proper :=
  h.graph (FlowGraph.keepsNodes_addNode s.program.graph derivation)

/-- A node that has just been added is not the one for known values. -/
theorem loose_new (h : s.Proper) (hsize : p.graph.size = s.program.graph.size + 1) :
    (s.withProgram p).Loose ⟨s.program.graph.size⟩ :=
  ⟨Nat.lt_of_lt_of_eq (Nat.lt_succ_self _) hsize.symm,
    fun type hknown => Nat.lt_irrefl _ (h.values type _ hknown).lt⟩

theorem joining_addVar (h : s.Proper) :
    (s.withProgram s.program.addVar.2).Joining s.program.addVar.1 := by
  refine ⟨h.loose_new (FlowGraph.size_addNode ..), ?_⟩
  show ((s.program.graph.addNode .identity).2.node ⟨s.program.graph.size⟩).derivation = _
  rw [FlowGraph.node_addNode, if_pos rfl]

theorem joining_addValue (h : s.Proper) (type : TypeId) :
    (s.withProgram (s.program.addValue type).2).Joining (s.program.addValue type).1 := by
  refine ⟨h.loose_new (Array.size_push ..), ?_⟩
  show ((s.program.graph.addTyped type).2.node ⟨s.program.graph.size⟩).derivation = _
  simp [FlowGraph.addTyped, FlowGraph.node, FlowGraph.size]

theorem addValue (h : s.Proper) (type : TypeId) :
    s.Ages (s.withProgram (s.program.addValue type).2) ∧
    (s.withProgram (s.program.addValue type).2).Proper :=
  h.graph (FlowGraph.keepsNodes_addTyped s.program.graph type)

theorem addExpr (h : s.Proper) (construct : Construct ExprId) (location : Option Location) :
    s.Ages (s.withProgram (s.program.addExpr construct location).2) ∧
      (s.withProgram (s.program.addExpr construct location).2).Proper := by
  have hnodes := FlowGraph.keepsNodes_addNode s.program.graph (Program.derivationOf construct)
  refine h.withProgram (Program.later_addExpr ..) (h.formed.addExpr construct location)
    (fun node hn => (hnodes.nodes node hn).2.2) (fun node hk => h.loose node (.kept ?_))
    fun type node hn => hnodes.gives (h.values type node hn)
  exact hk.earlier rfl rfl fun _ _ _ hn => hn

theorem grows (h : s.Proper) (hp : s.program.Grows p) :
    s.Ages (s.withProgram p) ∧ (s.withProgram p).Proper := by
  induction hp with
  | refl => exact ⟨.refl s, h⟩
  | add construct location _ ih =>
    obtain ⟨hages, hproper⟩ := ih
    obtain ⟨hages', hproper'⟩ := hproper.addExpr construct location
    exact ⟨hages.trans hages', hproper'⟩

theorem truncate (h : s.Proper) (id : ExprId) (count : Nat) :
    s.Ages (s.withProgram (s.program.truncate id count)) ∧
    (s.withProgram (s.program.truncate id count)).Proper := by
  have hl := Program.later_truncate s.program id count
  refine h.withProgram hl (h.formed.later hl (fun _ _ => rfl) fun other hge hlt => ?_)
    (fun _ _ => rfl)
    (fun node hk => h.loose node (.kept (hk.earlier rfl rfl fun _ _ _ hn => hn))) h.values
  rw [Program.size_truncate] at hlt
  exact absurd hlt (Nat.not_lt.mpr hge)

theorem insertGlobal (h : s.Proper) (name : String) (hn : s.Loose node) :
    s.Ages (s.withProgram { s.program with globals := s.program.globals.insert name node }) ∧
      (s.withProgram { s.program with globals := s.program.globals.insert name node }).Proper := by
  refine h.of_keepsNodes (fun other hk => ?_) rfl (.refl _) (.refl _)
  cases hk with
  | global hk =>
    rw [OrderedMap.get?_insert] at hk
    split at hk
    · cases hk; exact hn
    · exact h.loose other (.kept (.global hk))
  | instanceVar hk => exact h.loose other (.kept (.instanceVar hk))
  | breakNode hk => exact h.loose other (.kept (.breakNode hk))

theorem instanceVarNode (h : s.Proper) (owner : TypeId) (name : String) :
    s.Ages (s.withProgram (s.program.instanceVarNode owner name).2) ∧
      (s.withProgram (s.program.instanceVarNode owner name).2).Proper ∧
        (s.withProgram (s.program.instanceVarNode owner name).2).Loose
          (s.program.instanceVarNode owner name).1 := by
  unfold Program.instanceVarNode
  split
  · rename_i node hnode
    exact ⟨.refl s, h, h.loose node (.kept (.instanceVar hnode))⟩
  · obtain ⟨hages, hproper⟩ := h.addNode .identity
    have hnew := h.joining_addVar.toLoose
    have hmodify : s.program.types.KeepsKinds (s.program.types.modify owner fun e =>
        { e with instanceVars := e.instanceVars.insert name s.program.addVar.1 }) :=
      Types.keepsKinds_modify _ _ owner
    have hkept : ∀ other, (s.program.addVar.2.modifyTypes fun t => t.modify owner fun e =>
        { e with instanceVars := e.instanceVars.insert name s.program.addVar.1 }).Keeps other →
          (s.withProgram s.program.addVar.2).Loose other := fun other hk => by
      cases hk with
      | global hk => exact hproper.loose other (.kept (.global hk))
      | breakNode hk => exact hproper.loose other (.kept (.breakNode hk))
      | instanceVar hk =>
        rcases Types.eq_or_of_insertVar hk with rfl | hk
        · exact hnew
        · exact hproper.loose other (.kept (.instanceVar hk))
    obtain ⟨hages', hproper'⟩ := hproper.of_keepsNodes hkept rfl (.refl _) hmodify
    exact ⟨hages.trans hages', hproper', hages'.loose hnew⟩

theorem breakNodeOf (h : s.Proper) (block : ExprId) :
    s.Ages (s.withProgram (s.program.breakNodeOf block).2) ∧
      (s.withProgram (s.program.breakNodeOf block).2).Proper ∧
      (s.withProgram (s.program.breakNodeOf block).2).Loose (s.program.breakNodeOf block).1 := by
  unfold Program.breakNodeOf
  split
  · rename_i node hnode
    exact ⟨.refl s, h, h.loose node (.kept (.breakNode hnode))⟩
  · obtain ⟨hages, hproper⟩ := h.addNode .identity
    have hnew := h.joining_addVar.toLoose
    have hkept : ∀ other, Program.Keeps { s.program.addVar.2 with
        blockBreaks := s.program.blockBreaks.insert block s.program.addVar.1 } other →
          (s.withProgram s.program.addVar.2).Loose other := fun other hk => by
      cases hk with
      | global hk => exact hproper.loose other (.kept (.global hk))
      | instanceVar hk => exact hproper.loose other (.kept (.instanceVar hk))
      | breakNode hk =>
        rw [OrderedMap.get?_insert] at hk
        split at hk
        · cases hk; exact hnew
        · exact hproper.loose other (.kept (.breakNode hk))
    obtain ⟨hages', hproper'⟩ := hproper.of_keepsNodes hkept rfl (.refl _) (.refl _)
    exact ⟨hages.trans hages', hproper', hages'.loose hnew⟩

/-! ### Binding -/

theorem network (h : s.Proper) {n : Network} (hsize : n.graph.size = s.program.graph.size)
    (ht : s.program.types.GrowsTo n.types)
    (hderivation : ∀ node : NodeId, (n.graph.node node).derivation =
      (s.program.graph.node node).derivation)
    (hgives : ∀ type node, s.memo.values.get? type = some node → n.graph.Gives type node) :
    s.Ages (s.withProgram { s.program with toNetwork := n }) ∧
      (s.withProgram { s.program with toNetwork := n }).Proper := by
  have hl := Program.later_of_network s.program (n := n) (Nat.le_of_eq hsize.symm) ht.keepsKinds
  refine h.withProgram hl (h.formed.later hl (fun node _ => hderivation node) fun id hge hlt => ?_)
    (fun node _ => hderivation node) (fun node hk => h.loose node (.kept ?_)) hgives
  · exact absurd hlt (Nat.not_lt.mpr hge)
  · exact hk.earlier rfl rfl ht.keepsVars.instanceVars

theorem bind (h : s.Proper) (hn : s.Loose node) (deps : List NodeId) :
    s.Ages (s.withProgram (Infer.afterwards s.program (Binding.bind node deps))) ∧
      (s.withProgram (Infer.afterwards s.program (Binding.bind node deps))).Proper := by
  have hext := Network.Extends.outcome_bindNode s.program.toNetwork node deps
  refine h.network (hext.size.trans (FlowGraph.size_link ..)) hext.types
    (fun other => ?_) fun type other ho => ?_
  · exact (hext.derivation other).trans (FlowGraph.link_field FlowNode.derivation (fun _ _ => rfl)
      (fun _ _ => rfl) deps)
  · have hne : other ≠ node := fun heq => hn.unknown type (heq ▸ ho)
    exact FlowGraph.Gives.keeps_bind hne type deps _ (h.values type other ho)

theorem setType (h : s.Proper) (hn : s.Loose node) (t : TypeId) :
    s.Ages (s.withProgram (Infer.afterwards s.program (Binding.setType node t))) ∧
      (s.withProgram (Infer.afterwards s.program (Binding.setType node t))).Proper := by
  have hext := Network.Extends.keeps_setType s.program.toNetwork node t _ (.refl _)
  refine h.network hext.size hext.types hext.derivation fun type other ho => ?_
  have hne : other ≠ node := fun heq => hn.unknown type (heq ▸ ho)
  exact FlowGraph.Gives.keeps_setType hne type t _ (h.values type other ho)

/-- A call loses the targets that it had. -/
theorem unbind (h : s.Proper) (node : NodeId) (deps : List NodeId) :
    s.Ages (s.withProgram (s.program.modifyGraph (·.unbind node deps))) ∧
      (s.withProgram (s.program.modifyGraph (·.unbind node deps))).Proper := by
  refine h.network (n := ⟨s.program.types, s.program.graph.unbind node deps⟩)
    (FlowGraph.size_unbind ..) (.refl _)
    (fun _ => FlowGraph.derivation_unbind deps) fun type other ho => ?_
  have hgives := h.values type other ho
  refine ⟨(FlowGraph.typeOf_unbind deps).trans hgives.typed, ?_⟩
  by_cases heq : other = node
  · subst heq
    rw [FlowGraph.dependencies_unbind_self hgives.lt, hgives.dependencies]
    rfl
  · exact (FlowGraph.dependencies_unbind_of_ne heq deps).trans hgives.dependencies

/-! ### Known values -/

/-- The node for known values of a type is new when it becomes that. -/
theorem addKnown (h : s.Proper) (type : TypeId) :
    s.Ages ((s.withProgram (s.program.addValue type).2).withMemo
        { s.memo with values := s.memo.values.insert type (s.program.addValue type).1 }) ∧
      ((s.withProgram (s.program.addValue type).2).withMemo
        { s.memo with values :=
          s.memo.values.insert type (s.program.addValue type).1 }).Proper := by
  obtain ⟨hages, hproper⟩ := h.addValue type
  have hcases : ∀ t node,
      (s.memo.values.insert type (s.program.addValue type).1).get? t = some node →
      t = type ∧ node = ⟨s.program.graph.size⟩ ∨
        s.memo.values.get? t = some node := fun t node hn => by
    rw [OrderedMap.get?_insert] at hn
    split at hn
    · rename_i heq
      cases hn
      exact .inl ⟨heq, rfl⟩
    · exact .inr hn
  refine ⟨⟨hages.size_le, hages.derivation, fun t node hn => ?_⟩, fun node hn => ?_,
    hproper.formed, hproper.vars, fun t node hn => ?_⟩
  · rcases hcases t node hn with ⟨-, rfl⟩ | hold
    · exact .inr (Nat.le_refl _)
    · exact .inl hold
  · -- what can be bound was there before
    have hold : s.Loose node := by
      refine h.loose node ?_
      cases hn with
      | expr id hid => exact .expr id hid
      | kept hk => exact .kept (hk.earlier rfl rfl fun _ _ _ hn => hn)
      | var hn => exact .var hn
      | result hn => exact .result hn
      | «instance» hn => exact .instance hn
    refine ⟨(hages.loose hold).lt, fun t ht => ?_⟩
    rcases hcases t node ht with ⟨-, rfl⟩ | ht
    · exact Nat.lt_irrefl _ hold.lt
    · exact hold.unknown t ht
  · rcases hcases t node hn with ⟨rfl, rfl⟩ | hold
    · exact s.program.graph.gives_addTyped t
    · exact hproper.values t node hold

end Proper

end WalkState

end TypeFlow

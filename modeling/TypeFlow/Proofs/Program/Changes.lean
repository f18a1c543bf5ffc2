import TypeFlow.Proofs.Program.Sound

/-!
# Changes that keep programs sound

One lemma for each way in which inference changes a program: what there was stays (`Program.Later`),
and a sound program stays sound. The changes that have much in common are gathered in `Types.Act`,
`FlowGraph.Touch` and `Program.Note`.
-/

namespace TypeFlow

/-! ### Types -/

/-- Changes to the table of types other than by propagation. -/
inductive Types.Act : Types → Types → Prop where
  /-- Joins, metaclasses and instances. -/
  | grow {t t' : Types} (h : t.GrowsTo t') : Act t t'
  | declare (t : Types) (container : TypeId) (name : String) (kind : TypeKind) :
      Act t (t.declare container name kind).2
  | addMacroDef (t : Types) (owner : TypeId) (key : MethodKey) (definition : ExprId) :
      Act t (t.addMacroDef owner key definition)
  | includeModule (t : Types) (owner : TypeId) (inclusion : Inclusion) :
      Act t (t.includeModule owner inclusion)
  | addFun (t : Types) (owner : TypeId) (name : String) (signature : Signature) :
      Act t (t.addFun owner name signature)

/-- What a type says of its instances: their methods and their variables, and which of these the
constructors assign. -/
def TypeEntry.ofInstances (e : TypeEntry) :
    OrderedMap MethodKey ExprId × OrderedMap String NodeId × Option (List String) :=
  (e.defs, e.instanceVars, e.assignedAtStart)

namespace Types
variable {t t' t'' : Types} {owner : TypeId} {f : TypeEntry → TypeEntry}

/-- Kinds stay, and no type gets instance variables. -/
structure KeepsVars (t t' : Types) : Prop extends t.KeepsKinds t' where
  instanceVars : ∀ owner name node, (t'.get owner).instanceVars.get? name = some node →
    (t.get owner).instanceVars.get? name = some node

theorem KeepsVars.trans (h : t.KeepsVars t') (h' : t'.KeepsVars t'') : t.KeepsVars t'' :=
  ⟨h.toKeepsKinds.trans h'.toKeepsKinds, fun owner name node hn =>
    h.instanceVars owner name node (h'.instanceVars owner name node hn)⟩

theorem GrowsTo.keepsVars (h : t.GrowsTo t') : t.KeepsVars t' := by
  refine ⟨h.keepsKinds, fun owner name node hn => ?_⟩
  rwa [h.declared_eq TypeEntry.instanceVars (fun _ => rfl) fun _ _ _ => rfl] at hn

theorem keepsVars_modify (hf : TypeEntry.Extends f)
    (hv : ∀ e, (f e).instanceVars = e.instanceVars) (t : Types) (owner : TypeId) :
    t.KeepsVars (t.modify owner f hf) :=
  ⟨keepsKinds_modify hf t owner, fun other name node hn => by
    rwa [modify_field TypeEntry.instanceVars hv] at hn⟩

/-- The node of an instance variable is the one that has been given to it, or one that there was. -/
theorem eq_or_of_insertVar {name key : String} {node other : NodeId} {type : TypeId}
    (h : ((t.modify owner fun e => { e with instanceVars := e.instanceVars.insert name node }).get
      type).instanceVars.get? key = some other) :
    other = node ∨ (t.get type).instanceVars.get? key = some other := by
  rw [get_modify] at h
  split at h
  · rename_i hat
    simp only [OrderedMap.get?_insert] at h
    split at h
    · exact .inl (Option.some.inj h).symm
    · exact .inr (hat.1 ▸ h)
  · exact .inr h

theorem keepsVars_setName (t : Types) (owner : TypeId) (name : String) (entry : Named) :
    t.KeepsVars (t.setName owner name entry) := by
  refine keepsVars_modify _ ?_ t owner
  exact fun _ => rfl

theorem Act.keepsKinds (h : Act t t') : t.KeepsKinds t' := by
  cases h with
  | grow h => exact h.keepsKinds
  | declare owner name kind => exact keepsKinds_declare t owner name kind
  | addMacroDef owner | addFun owner | includeModule owner => exact keepsKinds_modify _ t owner

/-- Changes to the table say nothing new of the instances of a type. -/
theorem Act.ofInstances_eq (h : Act t t') (id : TypeId) :
    (t'.get id).ofInstances = (t.get id).ofInstances := by
  cases h with
  | grow h => exact h.declared_eq TypeEntry.ofInstances (fun _ => rfl) (fun _ _ _ => rfl) id
  | declare owner name kind =>
    have hpush := (growsTo_push t name (some owner) kind).declared_eq TypeEntry.ofInstances
      (fun _ => rfl) (fun _ _ _ => rfl) id
    have hname : ∀ t' entry,
        ((setName t' owner name entry).get id).ofInstances = (t'.get id).ofInstances :=
      fun t' entry => by
        refine modify_field TypeEntry.ofInstances ?_ owner id; exact fun _ => rfl
    exact (hname ..).trans hpush
  | addMacroDef owner | addFun owner =>
    refine modify_field TypeEntry.ofInstances ?_ owner id; exact fun _ => rfl
  | includeModule owner =>
    refine modify_field TypeEntry.ofInstances ?_ owner id; intro e; split <;> rfl

theorem Act.keepsVars (h : Act t t') : t.KeepsVars t' := by
  refine ⟨h.keepsKinds, fun owner name node hn => ?_⟩
  have hvars : (t.get owner).instanceVars = (t'.get owner).instanceVars :=
    congrArg (·.2.1) (h.ofInstances_eq owner).symm
  rwa [hvars]

end Types

/-! ### Nodes -/

/-- Changes to the flow graph that neither types nor edges depend on. -/
inductive FlowGraph.Touch : FlowGraph → FlowGraph → Prop where
  | setGuard (g : FlowGraph) (id : NodeId) (guard : Option Guard) : Touch g (g.setGuard id guard)
  | freeze (g : FlowGraph) (id : NodeId) : Touch g (g.freeze id)
  | observe (g : FlowGraph) (id : NodeId) (call : ExprId) : Touch g (g.addObserver id (.call call))

/-- The nodes of `g` are in `g'`, with their types, edges and derivations. -/
structure FlowGraph.KeepsNodes (g g' : FlowGraph) : Prop where
  size_le : g.size ≤ g'.size
  nodes : ∀ m : NodeId, m.index < g.size → g'.typeOf m = g.typeOf m ∧
    (g'.node m).dependencies = (g.node m).dependencies ∧
    (g'.node m).derivation = (g.node m).derivation

namespace FlowGraph
variable {g g' : FlowGraph}

theorem keepsNodes_modify {f : FlowNode → FlowNode} (hf : ∀ n, (f n).type = n.type ∧
    (f n).dependencies = n.dependencies ∧ (f n).derivation = n.derivation)
    (g : FlowGraph) (id : NodeId) : g.KeepsNodes (g.modify id f) :=
  ⟨Nat.le_of_eq (size_modify ..).symm, fun _ _ =>
    ⟨modify_field FlowNode.type fun n => (hf n).1,
      modify_field FlowNode.dependencies fun n => (hf n).2.1,
      modify_field FlowNode.derivation fun n => (hf n).2.2⟩⟩

theorem Touch.keepsNodes (h : g.Touch g') : g.KeepsNodes g' := by
  cases h with
  | setGuard | freeze | observe => refine keepsNodes_modify ?_ g _; exact fun _ => ⟨rfl, rfl, rfl⟩

theorem keepsNodes_addNode (g : FlowGraph) (d : Derivation) : g.KeepsNodes (g.addNode d).2 := by
  refine ⟨by simp, fun m hm => ?_⟩
  rw [typeOf, node_addNode, if_neg (Nat.ne_of_lt hm)]
  exact ⟨rfl, rfl, rfl⟩

theorem keepsNodes_addTyped (g : FlowGraph) (type : TypeId) : g.KeepsNodes (g.addTyped type).2 := by
  refine ⟨by simp [addTyped, size], fun m hm => ?_⟩
  have hnode : (g.addTyped type).2.node m = g.node m := by
    have hne : m.index ≠ g.nodes.size := Nat.ne_of_lt hm
    simp [node, addTyped, Array.getElem?_push, hne]
  rw [typeOf, hnode]
  exact ⟨rfl, rfl, rfl⟩

theorem KeepsNodes.source {t : Types} {c : NodeId} {a : TypeId} {held : NodeId → Prop}
    (h : g.KeepsNodes g') (hs : Network.Source ⟨t, g⟩ c a held) : Network.Source ⟨t, g'⟩ c a held :=
  hs.congr (.refl _) h.nodes

end FlowGraph

/-! ### Programs -/

/-- Changes to what a program records beside its expressions, types and nodes. -/
inductive Program.Note : Program → Program → Prop where
  | symbol (p : Program) (name : String) : Note p (p.noteSymbol name)
  | brokenLoop (p : Program) (loop : ExprId) :
      Note p { p with brokenLoops := insertLast p.brokenLoops loop }
  | expansion (p : Program) (call generated : ExprId) :
      Note p { p with expansions := p.expansions.insert call generated }
  | expansionDepth (p : Program) (depth : Nat) : Note p { p with expansionDepth := depth }
  | temporaries (p : Program) (count : Nat) : Note p { p with temporaries := count }

namespace Program
variable {p p' : Program} {held : NodeId → Prop} {node : NodeId}

/-- A call is visited where `self` has a type. -/
def noteScope (p : Program) (call : ExprId) (scope : TypeId) : Program :=
  { p with callScopes := p.callScopes.insert call scope }

/-- A constant is the innermost of those that are evaluated. -/
def beginConstant (p : Program) (id : ConstantId) : Program :=
  { p.setConstantState id .evaluating with evaluating := id :: p.evaluating }

/-- The innermost constant has been evaluated. -/
def endConstant (p : Program) (id : ConstantId) : Program :=
  { p.setConstantState id .done with evaluating := p.evaluating.tail }

/-- Registering a method only changes the table. -/
theorem addMethod_eq (p : Program) (owner : TypeId) (key : MethodKey) (definition : ExprId) :
    p.addMethod owner key definition =
      { p with types := (p.addMethod owner key definition).types } := by
  unfold Program.addMethod
  dsimp only
  split <;> rfl

theorem keepsVars_addMethod (p : Program) (owner : TypeId) (key : MethodKey) (definition : ExprId) :
    p.types.KeepsVars (p.addMethod owner key definition).types := by
  have hdefs : p.types.KeepsVars (p.types.addMethod owner key definition) := by
    refine Types.keepsVars_modify _ ?_ _ owner
    exact fun _ => rfl
  unfold Program.addMethod
  dsimp only
  split
  · refine hdefs.trans (Types.keepsVars_modify ?_ ?_ _ owner)
    · exact ⟨fun _ => rfl, fun _ => rfl⟩
    · exact fun _ => rfl
  · exact hdefs

namespace Sound

theorem types {t : Types} (h : p.Sound held) (ht : p.types.KeepsVars t) :
    p.Later { p with types := t } ∧ Sound held { p with types := t } := by
  have hl : p.Later { p with types := t } := .of_exprs rfl (Nat.le_refl _) ht.toKeepsKinds
  have hnil : Network.Source ⟨t, p.graph⟩ nilNode .nil held :=
    h.nilSource.congr ht.toKeepsKinds fun _ _ => ⟨rfl, rfl, rfl⟩
  exact ⟨hl, h.later_of_eq hl rfl hnil rfl rfl rfl ht.instanceVars⟩

theorem graph {g : FlowGraph} (h : p.Sound held) (hg : p.graph.KeepsNodes g) :
    p.Later { p with graph := g } ∧ Sound held { p with graph := g } := by
  have hl : p.Later { p with graph := g } := .of_exprs rfl hg.size_le (.refl _)
  exact ⟨hl, h.later_of_eq hl rfl (hg.source h.nilSource) rfl rfl rfl fun _ _ _ hn => hn⟩

/-- What is given to nodes without a type concerns no source. -/
theorem settleUntyped (h : p.Sound held) :
    p.Later p.settleUntyped.2 ∧ p.settleUntyped.2.Sound held := by
  have hl : p.Later p.settleUntyped.2 :=
    .of_exprs rfl (Nat.le_of_eq (FlowGraph.size_settleUntyped ..).symm) (.refl _)
  have hdeps := p.graph.dependencies_settleUntyped .noReturn
  refine ⟨hl, h.later_of_eq hl rfl ?_ rfl rfl rfl fun _ _ _ hn => hn⟩
  refine ⟨FlowGraph.typeOf_settleUntyped h.nil_lt h.nilSource.typed,
    (hdeps nilNode).trans h.nilSource.dependencies,
    h.nilSource.type_lt, h.nilSource.atoms, h.nilSource.ne_noReturn, fun m hm => ?_⟩
  have hc := h.nilSource.carried m hm
  obtain ⟨t, ht, hmem⟩ := hc.member
  exact ⟨(hdeps m).symm ▸ hc.dependency,
    (p.graph.derivation_settleUntyped .noReturn m).trans hc.derivation, t,
    FlowGraph.typeOf_settleUntyped hc.lt ht, hmem⟩

/-- Nodes that carry `Nil` may be added to those that are held, unless they belong to
expressions. -/
theorem hold {held' : NodeId → Prop} (h : p.Sound held)
    (hnil : p.toNetwork.Source nilNode .nil held')
    (hexprs : ∀ id : ExprId, id.index < p.exprs.size → ¬ held' (p.nodeOf id)) : p.Sound held' :=
  ⟨hnil, h.node_ne_nil, h.node_lt, h.distinct, hexprs, h.parts, h.values, h.slots⟩

theorem note (h : p.Sound held) (hn : p.Note p') : p.Later p' ∧ p'.Sound held := by
  cases hn <;>
  · refine ⟨.of_exprs rfl (Nat.le_refl _) (.refl _), ?_⟩
    exact h.later_of_eq (.of_exprs rfl (Nat.le_refl _) (.refl _)) rfl h.nilSource rfl rfl rfl
      fun _ _ _ hn => hn

theorem noteScope (h : p.Sound held) (call : ExprId) (scope : TypeId) :
    p.Later (p.noteScope call scope) ∧ (p.noteScope call scope).Sound held := by
  have hl : p.Later (p.noteScope call scope) := .of_exprs rfl (Nat.le_refl _) (.refl _)
  exact ⟨hl, h.later_of_eq hl rfl h.nilSource rfl rfl rfl fun _ _ _ hn => hn⟩

theorem nextCall {g : FlowGraph} {call : ExprId} (h : p.Sound held)
    (hnext : p.graph.nextCall? = some (call, g)) :
    p.Later { p with graph := g } ∧ Sound held { p with graph := g } := by
  obtain ⟨rest, -, rfl⟩ := FlowGraph.nextCall?_eq_some hnext
  exact h.graph ⟨Nat.le_refl _, fun _ _ => ⟨rfl, rfl, rfl⟩⟩

theorem constantState (h : p.Sound held) (id : ConstantId) (state : ConstantState)
    (evaluating : List ConstantId) : p.Later { p.setConstantState id state with evaluating } ∧
      Sound held { p.setConstantState id state with evaluating } := by
  have hl : p.Later { p.setConstantState id state with evaluating } :=
    .of_exprs rfl (Nat.le_refl _) (.refl _)
  refine ⟨hl, h.later hl h.nilSource (fun id hle hlt => absurd hlt (Nat.not_lt.mpr hle))
    (Nat.le_succ _) ?_ fun node hk => .inl ?_⟩
  · intro c hc
    obtain ⟨i, hi, rfl⟩ := Array.mem_iff_getElem.mp (Array.mem_toList_iff.mp hc)
    have hi' : i < p.constants.size := by simpa [setConstantState] using hi
    have hvalue := h.values _ (Array.getElem_mem_toList hi')
    simp only [setConstantState, Array.getElem_modify]
    split <;> exact hvalue
  · cases hk with
    | global hk => exact .global hk
    | instanceVar hk => exact .instanceVar hk
    | breakNode hk => exact .breakNode hk

theorem beginConstant (h : p.Sound held) (id : ConstantId) :
    p.Later (p.beginConstant id) ∧ (p.beginConstant id).Sound held :=
  h.constantState ..

theorem endConstant (h : p.Sound held) (id : ConstantId) :
    p.Later (p.endConstant id) ∧ (p.endConstant id).Sound held :=
  h.constantState ..

theorem addMethod (h : p.Sound held) (owner : TypeId) (key : MethodKey) (definition : ExprId) :
    p.Later (p.addMethod owner key definition) ∧ (p.addMethod owner key definition).Sound held := by
  rw [addMethod_eq]
  exact h.types (p.keepsVars_addMethod owner key definition)

theorem addConstant {c : Constant} (h : p.Sound held) (hc : c.value.index < p.exprs.size) :
    p.Later (p.addConstant c) ∧ (p.addConstant c).Sound held := by
  have ht := Types.keepsVars_setName p.types c.owner c.name (.const ⟨p.constants.size⟩)
  have hl : p.Later (p.addConstant c) := .of_exprs rfl (Nat.le_refl _) ht.toKeepsKinds
  have hnil := (h.types ht).2.nilSource
  refine ⟨hl, h.later hl hnil (fun id hle hlt => absurd hlt (Nat.not_lt.mpr hle))
      (Nat.le_succ _) ?_ fun node hk => .inl ?_⟩
  · intro c' hc'
    rw [Program.addConstant, Array.toList_push, List.mem_append, List.mem_singleton] at hc'
    rcases hc' with hc' | rfl
    · exact h.values c' hc'
    · exact hc
  · cases hk with
    | global hk => exact .global hk
    | instanceVar hk => exact .instanceVar (ht.instanceVars _ _ _ hk)
    | breakNode hk => exact .breakNode hk

theorem addExpr {construct : Construct ExprId} (location : Option Location) (h : p.Sound held)
    (hparts : ∀ part ∈ construct.children, part.index < p.exprs.size) :
    p.Later (p.addExpr construct location).2 ∧ (p.addExpr construct location).2.Sound held := by
  have hl := later_addExpr p construct location
  have hg := FlowGraph.keepsNodes_addNode p.graph (derivationOf construct)
  refine ⟨hl, h.later hl (hg.source h.nilSource) ?_ (by simp) ?_ fun node hk => .inl ?_⟩
  · intro id hle hlt
    rw [size_addExpr] at hlt
    have hid : id.index = p.exprs.size := by omega
    rw [nodeOf, Program.construct, expr_addExpr, if_pos hid]
    refine ⟨?_, fun part hpart => hid ▸ hparts part hpart⟩
    show p.graph.size < (p.graph.addNode (derivationOf construct)).2.size
    rw [FlowGraph.size_addNode]
    exact Nat.lt_succ_self _
  · intro c hc
    rw [size_addExpr]
    exact Nat.lt_succ_of_lt (h.values c hc)
  · cases hk with
    | global hk => exact .global hk
    | instanceVar hk => exact .instanceVar hk
    | breakNode hk => exact .breakNode hk

theorem truncate (h : p.Sound held) (id : ExprId) (count : Nat) :
    p.Later (p.truncate id count) ∧ (p.truncate id count).Sound held := by
  have hl := later_truncate p id count
  exact ⟨hl, h.later_of_eq hl (size_truncate ..) h.nilSource rfl rfl rfl fun _ _ _ hn => hn⟩

theorem addNode (h : p.Sound held) (derivation : Derivation) :
    p.Later (p.addNode derivation).2 ∧ (p.addNode derivation).2.Sound held :=
  h.graph (FlowGraph.keepsNodes_addNode p.graph derivation)

theorem addValue (h : p.Sound held) (type : TypeId) :
    p.Later (p.addValue type).2 ∧ (p.addValue type).2.Sound held :=
  h.graph (FlowGraph.keepsNodes_addTyped p.graph type)

/-- A new node may be given to a variable. -/
theorem slot_new {g : FlowGraph} (h : p.Sound held) (hg : g.size = p.graph.size + 1) :
    Slot { p with graph := g } ⟨p.graph.size⟩ where
  ne_nil heq := by
    have hlt := h.nil_lt
    rw [← heq] at hlt
    exact absurd hlt (Nat.lt_irrefl _)
  lt := Nat.lt_of_lt_of_eq (Nat.lt_succ_self _) hg.symm
  expr id hid hnode := by
    have hlt := h.node_lt id hid
    rw [show p.nodeOf id = ⟨p.graph.size⟩ from hnode] at hlt
    exact absurd hlt (Nat.lt_irrefl _)

theorem slot_addNode (h : p.Sound held) (derivation : Derivation) :
    (p.addNode derivation).2.Slot (p.addNode derivation).1 :=
  h.slot_new (FlowGraph.size_addNode ..)

theorem slot_addValue (h : p.Sound held) (type : TypeId) :
    (p.addValue type).2.Slot (p.addValue type).1 :=
  h.slot_new (Array.size_push ..)

theorem global {name : String} (h : p.Sound held) (hn : p.Slot node) :
    p.Later { p with globals := p.globals.insert name node } ∧
      Sound held { p with globals := p.globals.insert name node } := by
  have hl : p.Later { p with globals := p.globals.insert name node } :=
    .of_exprs rfl (Nat.le_refl _) (.refl _)
  refine ⟨hl, h.later hl h.nilSource (fun id hle hlt => absurd hlt (Nat.not_lt.mpr hle))
      (Nat.le_succ _) h.values ?_⟩
  intro other hk
  cases hk with
  | @global key hk =>
    rw [OrderedMap.get?_insert] at hk
    split at hk
    · cases hk; exact .inr (hl.slot hn)
    · exact .inl (.global hk)
  | instanceVar hk => exact .inl (.instanceVar hk)
  | breakNode hk => exact .inl (.breakNode hk)

theorem breakNodeOf (h : p.Sound held) (block : ExprId) :
    p.Later (p.breakNodeOf block).2 ∧ (p.breakNodeOf block).2.Sound held := by
  unfold Program.breakNodeOf
  split
  · exact ⟨.refl p, h⟩
  · obtain ⟨hl, hs⟩ := h.addNode .identity
    have hslot := h.slot_addNode .identity
    have hl' : p.Later { (p.addNode .identity).2 with
        blockBreaks := p.blockBreaks.insert block (p.addNode .identity).1 } :=
      .of_exprs rfl hl.nodes_le hl.kinds
    refine ⟨hl', h.later hl' hs.nilSource (fun id hle hlt => absurd hlt (Nat.not_lt.mpr hle))
      (Nat.le_succ _) h.values ?_⟩
    intro other hk
    cases hk with
    | global hk => exact .inl (.global hk)
    | instanceVar hk => exact .inl (.instanceVar hk)
    | @breakNode key hk =>
      replace hk : (p.blockBreaks.insert block (p.addNode .identity).1).get? key = some other := hk
      rw [OrderedMap.get?_insert] at hk
      split at hk
      · cases hk; exact .inr ⟨hslot.ne_nil, hslot.lt, hslot.expr⟩
      · exact .inl (.breakNode hk)

theorem slot_breakNodeOf (h : p.Sound held) (block : ExprId) :
    (p.breakNodeOf block).2.Slot (p.breakNodeOf block).1 := by
  unfold Program.breakNodeOf
  split
  · rename_i hk
    exact h.slots _ (.breakNode hk)
  · have hslot := h.slot_addNode .identity
    exact ⟨hslot.ne_nil, hslot.lt, hslot.expr⟩

theorem instanceVarNode (h : p.Sound held) (owner : TypeId) (name : String) :
    p.Later (p.instanceVarNode owner name).2 ∧ (p.instanceVarNode owner name).2.Sound held := by
  unfold Program.instanceVarNode
  split
  · exact ⟨.refl p, h⟩
  · obtain ⟨hl, hs⟩ := h.addNode .identity
    have hslot := h.slot_addNode .identity
    have hkinds : p.types.KeepsKinds (p.types.modify owner fun e =>
        { e with instanceVars := e.instanceVars.insert name (p.addNode .identity).1 }) :=
      Types.keepsKinds_modify _ _ owner
    have hl' : p.Later ((p.addNode .identity).2.modifyTypes fun t => t.modify owner fun e =>
        { e with instanceVars := e.instanceVars.insert name (p.addNode .identity).1 }) :=
      .of_exprs rfl hl.nodes_le hkinds
    have hnil : Network.Source ⟨p.types.modify owner fun e =>
        { e with instanceVars := e.instanceVars.insert name (p.addNode .identity).1 },
        (p.addNode .identity).2.graph⟩ nilNode .nil held :=
      hs.nilSource.congr hkinds fun _ _ => ⟨rfl, rfl, rfl⟩
    refine ⟨hl', h.later hl' hnil (fun id hle hlt => absurd hlt (Nat.not_lt.mpr hle))
      (Nat.le_succ _) h.values ?_⟩
    intro other hk
    cases hk with
    | global hk => exact .inl (.global hk)
    | breakNode hk => exact .inl (.breakNode hk)
    | @instanceVar type key hk =>
      rcases Types.eq_or_of_insertVar hk with rfl | hk
      · exact .inr ⟨hslot.ne_nil, hslot.lt, hslot.expr⟩
      · exact .inl (.instanceVar hk)

theorem slot_instanceVarNode (h : p.Sound held) (owner : TypeId) (name : String) :
    (p.instanceVarNode owner name).2.Slot (p.instanceVarNode owner name).1 := by
  unfold Program.instanceVarNode
  split
  · rename_i hk
    exact h.slots _ (.instanceVar hk)
  · have hslot := h.slot_addNode .identity
    exact ⟨hslot.ne_nil, hslot.lt, hslot.expr⟩

/-! ### The network -/

theorem network {n : Network} (h : p.Sound held) (hsize : n.graph.size = p.graph.size)
    (htypes : p.types.GrowsTo n.types) (hnil : n.Source nilNode .nil held) :
    p.Later { p with toNetwork := n } ∧ Sound held { p with toNetwork := n } := by
  have hl : p.Later { p with toNetwork := n } :=
    later_of_network p (Nat.le_of_eq hsize.symm) htypes.keepsKinds
  exact ⟨hl, h.later_of_eq hl rfl hnil rfl rfl rfl htypes.keepsVars.instanceVars⟩

theorem bind (h : p.Sound held) (hid : node ≠ nilNode) (deps : List NodeId) :
    p.Later (p.onNetwork (Binding.bind node deps)).2 ∧
    (p.onNetwork (Binding.bind node deps)).2.Sound held := by
  have hext := Network.Extends.outcome_bindNode p.toNetwork node deps
  refine h.network (hext.size.trans (FlowGraph.size_link ..)) hext.types ?_
  exact Network.Source.keeps_bindNode hid .nil held deps _ h.nilSource

theorem setType (h : p.Sound held) (hid : node ≠ nilNode) (hheld : ¬ held node) (type : TypeId) :
    p.Later (p.onNetwork (Binding.setType node type)).2 ∧
      (p.onNetwork (Binding.setType node type)).2.Sound held := by
  have hext := Network.Extends.keeps_setType p.toNetwork node type _ (.refl _)
  refine h.network hext.size hext.types ?_
  exact Network.Source.keeps_setType hid hheld .nil type _ h.nilSource

theorem unbind (h : p.Sound held) (hid : node ≠ nilNode) (hheld : ¬ held node)
    (deps : List NodeId) :
    p.Later (p.modifyGraph (·.unbind node deps)) ∧
    (p.modifyGraph (·.unbind node deps)).Sound held := by
  have hl : p.Later (p.modifyGraph (·.unbind node deps)) :=
    .of_exprs rfl (Nat.le_of_eq (FlowGraph.size_unbind ..).symm) (.refl _)
  refine ⟨hl, h.later_of_eq hl rfl ?_ rfl rfl rfl fun _ _ _ hn => hn⟩
  refine h.nilSource.congr_source (.refl _) (FlowGraph.typeOf_unbind deps)
    (FlowGraph.dependencies_unbind_of_ne hid.symm deps) fun m hm => ?_
  have hne : m ≠ node := fun heq => hheld (heq ▸ hm)
  refine (h.nilSource.carried m hm).congr h.nilSource.type_lt (.refl _)
    (FlowGraph.typeOf_unbind deps) ?_ ?_
  · intro hc
    show nilNode ∈ ((p.graph.unbind node deps).node m).dependencies
    rwa [FlowGraph.dependencies_unbind_of_ne hne]
  · exact FlowGraph.derivation_unbind deps

end Sound

end Program

end TypeFlow

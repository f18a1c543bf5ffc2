import TypeFlow.Proofs.Inference.Constructed
import TypeFlow.Proofs.Inference.Merged

/-!
# Instance variables that are not assigned at the start

Which constructors have been registered decides which instance variables count as assigned at the
start (`Reached.assignedAtStart`). One that does not gets `Nil` when its node is asked for, and
keeps it: the nodes of instance variables are `Apart` from those that expressions and methods give
types to.
-/

namespace TypeFlow

namespace Infer
variable {setting : Setting} {kept : Kept} {ok : Bool} {s s' : WalkState}

/-- A node keeps its derivation. -/
theorem Act.derivation_eq (h : Act kept ok s s') {node : NodeId}
    (hnode : node.index < s.program.graph.size) :
    (s'.program.graph.node node).derivation = (s.program.graph.node node).derivation := by
  have hkeeps : ∀ {g : FlowGraph}, s.program.graph.KeepsNodes g →
      (g.node node).derivation = (s.program.graph.node node).derivation :=
        fun hg => (hg.nodes node hnode).2.2
  have hnew : ∀ derivation, ((s.program.graph.addNode derivation).2.node node).derivation =
      (s.program.graph.node node).derivation :=
        fun derivation => hkeeps (FlowGraph.keepsNodes_addNode _ derivation)
  have hbind : ∀ id deps,
      ((afterwards s.program (Binding.bind id deps)).graph.node node).derivation =
      (s.program.graph.node node).derivation := fun id deps =>
    ((Network.Extends.outcome_bindNode s.program.toNetwork id deps).derivation node).trans
      (FlowGraph.link_field FlowNode.derivation (fun _ _ => rfl) (fun _ _ => rfl) deps)
  have hset : ∀ id type,
      ((afterwards s.program (Binding.setType id type)).graph.node node).derivation =
      (s.program.graph.node node).derivation := fun id type =>
    (Network.Extends.keeps_setType s.program.toNetwork id type _ (.refl _)).derivation node
  cases h with
  | touch hg => exact hkeeps hg.keepsNodes
  | note hn => cases hn <;> rfl
  | method _ owner key definition =>
    show ((s.program.addMethod owner key definition).graph.node node).derivation = _
    unfold Program.addMethod
    dsimp only
    split <;> rfl
  | addExpr | addNode | «instance» => exact hnew _
  | addValue _ type => exact hkeeps (FlowGraph.keepsNodes_addTyped _ type)
  | derive | bindSlot => exact hbind _ _
  | giveType | fixResult => exact hset _ _
  | instanceVar _ owner name =>
    show ((s.program.instanceVarNode owner name).2.graph.node node).derivation = _
    unfold Program.instanceVarNode
    split
    · rfl
    · exact hnew _
  | breakNode _ block =>
    show ((s.program.breakNodeOf block).2.graph.node node).derivation = _
    unfold Program.breakNodeOf
    split
    · rfl
    · exact hnew _
  | _ => rfl

theorem CallAct.derivation_eq {call : ExprId} (h : CallAct call ok s s') (node : NodeId) :
    (s'.program.graph.node node).derivation = (s.program.graph.node node).derivation := by
  cases h with
  | stay => rfl
  | take hnext =>
    obtain ⟨rest, -, rfl⟩ := FlowGraph.nextCall?_eq_some hnext
    rfl
  | rebind targets =>
    refine ((Network.Extends.outcome_bindNode _ _ targets).derivation node).trans ?_
    refine (FlowGraph.link_field FlowNode.derivation (fun _ _ => rfl)
      (fun _ _ => rfl) targets).trans ?_
    exact FlowGraph.derivation_unbind _

end Infer

namespace WalkState
open Infer Program
variable {s s' : WalkState} {constructors : List Constructor} {setting : Setting}
  {kept : Kept} {ok : Bool}

/-! ### Nodes of instance variables -/

variable {node : NodeId} {held : NodeId → Prop}

/-- The node passes on the join of what it is bound to, and neither an expression nor a method gives
it a type. -/
def Apart (node : NodeId) (s : WalkState) : Prop :=
  (s.program.graph.node node).derivation = .identity ∧ s.Fresh node

/-- The nodes of instance variables are apart. -/
def Owns (s : WalkState) : Prop :=
  ∀ owner name node, (s.program.types.get owner).instanceVars.get? name = some node → s.Apart node

/-- Nothing gets the node that did not have it. -/
theorem Apart.later (h : s.Apart node) (hlt : node.index < s.program.graph.size) (hl : s.Later s')
    (hderivation : (s'.program.graph.node node).derivation = (s.program.graph.node node).derivation)
    (hinstances : ∀ key other, s'.memo.instances.get? key = some other →
      s.memo.instances.get? key = some other ∨ s.program.graph.size ≤ other.index) :
    s'.Apart node := by
  refine ⟨hderivation.trans h.1, fun id hid => ?_, fun key hkey => ?_⟩
  · rcases Nat.lt_or_ge id.index s.program.exprs.size with hold | hnew
    · rw [hl.program.nodeOf_eq id hold]; exact h.2.1 id hold
    · intro heq
      have hfresh := hl.program.fresh id hnew hid
      rw [heq] at hfresh
      exact absurd hlt (Nat.not_lt.mpr hfresh)
  · rcases hinstances key node hkey with hold | hnew
    · exact h.2.2 key hold
    · exact absurd hlt (Nat.not_lt.mpr hnew)

theorem Act.instances_cases (h : Act kept ok s s') {key : MethodInstance} {other : NodeId}
    (hkey : s'.memo.instances.get? key = some other) :
    s.memo.instances.get? key = some other ∨ s.program.graph.size ≤ other.index := by
  cases h with
  | @«instance» _ new =>
    replace hkey : (s.memo.instances.insert new s.program.addVar.1).get? key = some other := hkey
    rw [OrderedMap.get?_insert] at hkey
    split at hkey
    · cases hkey; exact .inr (Nat.le_refl _)
    · exact .inl hkey
  | _ => exact .inl hkey

/-- A node that is added for a variable. -/
theorem Sound.apart_addVar (hs : s.Sound held) {p : Program} (hexprs : p.exprs = s.program.exprs)
    (hgraph : p.graph = s.program.addVar.2.graph) :
    (s.withProgram p).Apart ⟨s.program.graph.size⟩ := by
  refine ⟨?_, fun id hid heq => ?_, fun key hkey => ?_⟩
  · rw [withProgram_program, hgraph]
    show ((s.program.graph.addNode .identity).2.node ⟨s.program.graph.size⟩).derivation = _
    rw [FlowGraph.node_addNode, if_pos rfl]
  · have hid : s.Has id := show id.index < s.program.exprs.size from hexprs ▸ hid
    have hnode : s.program.nodeOf id = ⟨s.program.graph.size⟩ := by
      rw [← heq, withProgram_program, Program.nodeOf, Program.nodeOf, expr, expr, hexprs]
    exact absurd (hs.program.node_lt id hid) (hnode ▸ Nat.lt_irrefl _)
  · exact absurd (hs.instances key _ hkey).lt (Nat.lt_irrefl _)

/-- What asking for the node of an instance variable adds, if anything, is a new node for it. -/
theorem instanceVarNode_cases (p : Program) (owner : TypeId) (name : String) :
    (p.instanceVarNode owner name).2 = p ∧
        (p.types.get owner).instanceVars.get? name = some (p.instanceVarNode owner name).1 ∨
      (p.instanceVarNode owner name).2.exprs = p.exprs ∧
      (p.instanceVarNode owner name).2.graph = p.addVar.2.graph ∧
        (p.instanceVarNode owner name).1 = ⟨p.graph.size⟩ ∧
          ∀ other key node,
            ((p.instanceVarNode owner name).2.types.get other).instanceVars.get? key = some node →
            (p.types.get other).instanceVars.get? key = some node ∨ node = ⟨p.graph.size⟩ := by
  unfold Program.instanceVarNode
  split
  · rename_i node hnode
    exact .inl ⟨rfl, hnode⟩
  · exact .inr ⟨rfl, rfl, rfl, fun other key node hnode => (Types.eq_or_of_insertVar hnode).symm⟩

theorem Owns.instanceVarNode (h : s.Owns) (hs : s.Sound held) (owner : TypeId) (name : String) :
    (s.withProgram (s.program.instanceVarNode owner name).2).Owns ∧
      (s.withProgram (s.program.instanceVarNode owner name).2).Apart
        (s.program.instanceVarNode owner name).1 := by
  have hact : Act none true s _ := .instanceVar s owner name
  have hkept : ∀ {node}, node.index < s.program.graph.size → s.Apart node →
      (s.withProgram (s.program.instanceVarNode owner name).2).Apart node := fun hlt hnode =>
    hnode.later hlt (hact.sound hs).1 (hact.derivation_eq hlt) fun _ _ => .inl
  have hold : ∀ {other key node}, (s.program.types.get other).instanceVars.get? key = some node →
      (s.withProgram (s.program.instanceVarNode owner name).2).Apart node := fun hnode =>
    hkept (hs.program.slots _ (.instanceVar hnode)).lt (h _ _ _ hnode)
  rcases instanceVarNode_cases s.program owner name with
    ⟨hsame, hnode⟩ | ⟨hexprs, hgraph, hnode, hvars⟩
  · refine ⟨fun other key node hkey => ?_, hold hnode⟩
    rw [withProgram_program, hsame] at hkey
    exact hold hkey
  · have hnew := hs.apart_addVar hexprs hgraph
    refine ⟨fun other key node hkey => ?_, hnode ▸ hnew⟩
    rcases hvars other key node hkey with hkey | rfl
    · exact hold hkey
    · exact hnew

/-- A change after which no variable has a node that it did not have. -/
theorem Owns.later (h : s.Owns) (hs : s.Sound held) (hl : s.Later s')
    (hderivation : ∀ node : NodeId, node.index < s.program.graph.size →
      (s'.program.graph.node node).derivation = (s.program.graph.node node).derivation)
    (hinstances : ∀ key other, s'.memo.instances.get? key = some other →
      s.memo.instances.get? key = some other ∨ s.program.graph.size ≤ other.index)
    (hvars : ∀ owner name node, (s'.program.types.get owner).instanceVars.get? name = some node →
      (s.program.types.get owner).instanceVars.get? name =
      some node) : s'.Owns := fun owner name node hnode => by
  have hnode := hvars owner name node hnode
  have hlt := (hs.program.slots node (.instanceVar hnode)).lt
  exact (h owner name node hnode).later hlt hl (hderivation node hlt) hinstances

theorem Act.owns (h : Act kept ok s s') (hs : s.Sound held) (ho : s.Owns) : s'.Owns := by
  have hkeeps :=
    ho.later hs (h.sound hs).1 (fun _ => h.derivation_eq) fun _ _ => Act.instances_cases h
  have hnetwork : ∀ {n : Network}, s.program.types.GrowsTo n.types → ∀ owner name node,
      (n.types.get owner).instanceVars.get? name = some node →
        (s.program.types.get owner).instanceVars.get? name = some node :=
          fun hn => hn.keepsVars.instanceVars
  cases h with
  | types ht => exact hkeeps ht.keepsVars.instanceVars
  | note hn => cases hn <;> exact hkeeps fun _ _ _ h => h
  | method _ owner key definition =>
    exact hkeeps (s.program.keepsVars_addMethod owner key definition).instanceVars
  | constant => exact hkeeps (Types.keepsVars_setName s.program.types _ _ _).instanceVars
  | derive | bindSlot =>
    exact hkeeps (hnetwork (Network.Extends.outcome_bindNode s.program.toNetwork _ _).types)
  | giveType | fixResult =>
    exact hkeeps
      (hnetwork (Network.Extends.keeps_setType s.program.toNetwork _ _ _ (.refl _)).types)
  | instanceVar _ owner name => exact (ho.instanceVarNode hs owner name).1
  | breakNode _ block =>
    refine hkeeps ?_
    show ∀ owner name node, ((s.program.breakNodeOf block).2.types.get owner).instanceVars.get?
      name = some node → _
    unfold Program.breakNodeOf
    split <;> exact fun _ _ _ h => h
  | _ => exact hkeeps fun _ _ _ h => h

theorem CallAct.owns {call : ExprId} (h : CallAct call ok s s') (hs : s.Sound held) (ho : s.Owns) :
    s'.Owns := by
  have hl := (h.sound hs).1
  have hderivation := h.derivation_eq
  cases h with
  | stay => exact ho
  | take => exact ho.later hs hl (fun node _ => hderivation node) (fun _ _ => .inl) fun _ _ _ h => h
  | rebind targets =>
    have htypes : s.program.types.GrowsTo _ :=
      (Network.Extends.outcome_bindNode (unbound s call targets).program.toNetwork
        (s.program.nodeOf call) targets).types
    exact ho.later hs hl (fun node _ => hderivation node)
      (fun _ _ => .inl) htypes.keepsVars.instanceVars

/-- By induction on the run. -/
theorem Runs.owns (h : Runs setting kept ok s s') (hs : s.Sound held) (ho : s.Owns) : s'.Owns := by
  induction h with
  | refl | failed => exact ho
  | act h => exact Act.owns h hs ho
  | trans h _ ih ih' => exact ih' (h.sound hs).2 (ih hs ho)
  | @evaluation _ _ _ _ id _ _ ih =>
    obtain ⟨hbegin, hp⟩ := hs.program.beginConstant id
    exact ih (hs.withProgram hbegin hp).2 ho
  | region r hr _ ih => exact ih (r.sound_enter hr hs) ho
  | resolution h hrun h' _ ih =>
    have hs₁ := (h.sound hs).2
    exact CallAct.owns h' (hrun.sound hs₁).2 (ih hs₁ (CallAct.owns h hs ho))
  | @visit _ _ _ _ _ _ call scope _ hrun _ _ ih ih' =>
    obtain ⟨hnote, hp⟩ := hs.program.noteScope call scope
    have hs₁ := (hs.withProgram hnote hp).2
    exact ih' (hrun.sound hs₁).2 (ih hs₁ ho)

theorem Reached.owns (h : s.Reached) : s.Owns := by
  induction h with
  | start =>
    intro owner name node hnode
    rw [show (Program.initial.types.get owner).instanceVars = ∅ from
      Sound.instanceVars_initial owner] at hnode
    cases hnode
  | lower tree h ih => exact Runs.owns (Onward.runs_lower _ tree) h.sound ih
  | settle h ih =>
    obtain ⟨hl, hp⟩ := h.sound.program.settleUntyped
    exact ih.later h.sound (h.sound.withProgram hl hp).1
      (fun node _ => FlowGraph.derivation_settleUntyped _ .noReturn node)
        (fun _ _ => .inl) fun _ _ _ h => h
  | enter _ _ _ ih | evaluate _ _ ih | visit _ _ _ ih => exact ih
  | call h hcall ih => exact CallAct.owns hcall h.sound ih
  | runs h hrun ih => exact Runs.owns hrun h.sound ih

/-- A node is given to the variable, but no class gets a constructor or a superclass. -/
theorem isAssignedAtStart_instanceVarNode (p : Program) (owner : TypeId) (name : String) :
    (p.instanceVarNode owner name).2.isAssignedAtStart owner name =
      p.isAssignedAtStart owner name := by
  unfold Program.instanceVarNode
  split
  · rfl
  · refine isAssignedAtStart_congr ?_ ?_ ?_ owner name
    · refine Types.size_modify _ owner _ ?_
      exact ⟨fun _ => rfl, fun _ => rfl⟩
    · refine fun id => Types.kind_modify ?_ _ owner id
      exact ⟨fun _ => rfl, fun _ => rfl⟩
    · refine Types.sameRecords_modify ?_ ?_ _ owner
      · exact ⟨fun _ => rfl, fun _ => rfl⟩
      · exact fun _ => rfl

/-- A node that is apart and is bound to `Nil` has `Nil` among its members for good. -/
theorem Apart.sound_bind_nil (h : s.Apart node) (hs : s.Sound held) (hslot : s.program.Slot node)
    {p : Program} (hd : s.program.onNetwork (Binding.bind node [nilNode]) = (.ok (), p)) :
    (s.withProgram p).Sound fun m => held m ∨ m = node := by
  rw [onNetwork_eq] at hd
  obtain ⟨hok, rfl⟩ := Prod.mk.inj hd
  have hact : Act none _ s (s.withProgram (afterwards s.program (Binding.bind node [nilNode]))) :=
    .bindSlot [nilNode] hslot
  rw [afterwards, onNetwork_eq] at hact
  obtain ⟨hl, hs'⟩ := hact.sound hs
  have hdoes : (Binding.bind node [nilNode]).Does s.program.toNetwork () _ := Prod.ext hok rfl
  have hnil :=
    hs.program.nilSource.does_bindNode hslot.ne_nil hslot.lt h.1 (List.mem_singleton_self _) hdoes
  exact hs'.hold (h.later hslot.lt hl (hact.derivation_eq hslot.lt) fun _ _ => .inl).2 hnil

/-- Unless the constructors are sure to assign the variable, its node has `Nil` from then on. -/
theorem Reached.nil_mem_instanceVar (h : s.Reached) {owner : TypeId} {name : String} {p : Program}
    (hnot : s.program.isAssignedAtStart owner name = false)
    (hlookup : s.program.instanceVarFor owner name = (.ok node, p))
    (hlater : (s.withProgram p).Onward s') :
    ∃ type, s'.program.graph.typeOf node = some type ∧ .nil ∈ s'.program.types.atoms type := by
  have hact : Act none true s _ := .instanceVar s owner name
  have hs₁ := (hact.sound h.sound).2
  have hslot := h.sound.program.slot_instanceVarNode owner name
  have hnot := (isAssignedAtStart_instanceVarNode s.program owner name).trans hnot
  have hapart := (h.owns.instanceVarNode h.sound owner name).2
  unfold Program.instanceVarFor at hlookup
  generalize s.program.instanceVarNode owner name = r at hs₁ hslot hnot hapart hlookup
  obtain ⟨var, p₁⟩ := r
  dsimp only at hs₁ hslot hnot hapart hlookup
  rw [if_neg (hnot ▸ Bool.false_ne_true)] at hlookup
  rcases hbind : p₁.onNetwork (Binding.bind var [nilNode]) with ⟨_ | ⟨⟩, p₂⟩ <;>
    rw [hbind] at hlookup <;> cases hlookup
  have hs₂ := hapart.sound_bind_nil hs₁ hslot hbind
  exact ((hlater.sound hs₂).2.program.nilSource.carried var (.inr rfl)).member

/-- Which constructors there are decides which variables count as assigned at the start; the others
have `Nil`, in every state from the one on in which their nodes are asked for. -/
theorem Reached.assignedAtStart (h : s.Reached) : (∃ constructors, Registered constructors s) ∧
    ∀ constructors, Registered constructors s → ∀ owner name,
      (s.program.isAssignedAtStart owner name = true ↔
        ∃ ancestor ∈ s.program.types.genericOf owner ::
            s.program.types.ancestors (s.program.types.genericOf owner),
          (∃ c ∈ constructors, c.owner = ancestor) ∧
          ∀ c ∈ constructors, c.owner = ancestor → c.Assigns name) ∧
      ∀ node p, s.program.isAssignedAtStart owner name = false →
        s.program.instanceVarFor owner name = (.ok node, p) → ∀ s', (s.withProgram p).Onward s' →
          ∃ type, s'.program.graph.typeOf node = some type ∧ .nil ∈ s'.program.types.atoms type :=
  ⟨h.registered, fun _ hregistered _ _ => ⟨isAssignedAtStart_iff hregistered.records,
    fun _ _ hnot hlookup _ => h.nil_mem_instanceVar hnot hlookup⟩⟩

/-! ### A class with one constructor -/

theorem not_registersConstructor {t : Types} (h : s.program.types.size < t.size) :
    ¬ RegistersConstructor s (s.withProgram { s.program with types := t }) := by
  rintro ⟨owner, arity, definition, -, heq⟩
  have hsize : (s.program.addMethod owner (constructorName, arity) definition).types.size =
      s.program.types.size := by
    simp [Program.addMethod, Types.addMethod]
  have ht : t = (s.program.addMethod owner (constructorName, arity) definition).types :=
    congrArg (fun s => s.program.types) heq
  rw [ht, hsize] at h
  exact Nat.lt_irrefl _ h

theorem size_lt_declare (t : Types) (container : TypeId) (name : String) (kind : TypeKind) :
    t.size < (t.declare container name kind).2.size := by
  simp [Types.declare, Types.setName]

theorem Registered.types {t : Types} (h : Registered constructors s)
    (ht : Types.Act s.program.types t) (hsize : s.program.types.size < t.size) :
    Registered constructors (s.withProgram { s.program with types := t }) := by
  have hact : Act none true s _ := .types ht
  exact h.aside (.act hact (not_registersConstructor hsize)) (h.reached.act hact)

/-- The definition of a constructor, and a generic class `Box`. -/
def boxed (body : Tree) : WalkState :=
  let s := lowered (.methodDef constructorName [] (some body))
  s.withProgram { s.program with types := (s.program.types.declare .program "Box"
    (.classType { superclass := some .reference, typeVars := some ["T"] })).2 }

/-- The definition is registered for `Box`. -/
def constructed (body : Tree) (definition : ExprId) : WalkState :=
  (boxed body).withProgram ((boxed body).program.addMethod ⟨24⟩ (constructorName, 0) definition)

/-- `Box(Int32)` and a class `Foo` that inherits from it. -/
def inherited (body : Tree) (definition : ExprId) : WalkState :=
  let s := constructed body definition
  let s := s.withProgram { s.program with types := (s.program.types.apply ⟨24⟩ [.int32]).2 }
  s.withProgram { s.program with types :=
    (s.program.types.declare .program "Foo" (plainClass ⟨25⟩)).2 }

set_option maxRecDepth 4000 in
theorem registered_constructed (body : Tree) (definition : ExprId) :
    Registered [⟨⟨24⟩, definition, (boxed body).program⟩] (constructed body definition) := by
  have htree :
      (lowered (.methodDef constructorName [] (some body))).program.types = Types.initial :=
    (Program.initial.adds_lower _).1.types_eq
  have hlowered : Registered [] (lowered (.methodDef constructorName [] (some body))) :=
    Registered.start.aside (.lower _ _) (reached_lowered _)
  have hboxed : Registered [] (boxed body) :=
    hlowered.types (.declare _ .program "Box" _) (size_lt_declare ..)
  have hsize : 24 < (boxed body).program.types.size := by
    refine Nat.lt_of_le_of_lt (Nat.le_of_eq ?_) (size_lt_declare ..)
    rw [htree]
    decide
  exact hboxed.constructor ⟨24⟩ 0 definition hsize

/-- `@v = 1`. -/
def assignsV : Tree := .assign (.instanceVar "@v") (.int32 1)

/-- `if false then @v = 1`. -/
def maybeAssignsV : Tree := .conditional (.bool false) (some assignsV) none

theorem act_apply (t : Types) (generic : TypeId) (args : List TypeId) :
    Types.Act t (t.apply generic args).2 :=
  .grow (Types.growsTo_apply t generic args)

theorem registered_inherited :
    Registered [⟨⟨24⟩, ⟨3⟩, (boxed assignsV).program⟩] (inherited assignsV ⟨3⟩) := by
  refine ((registered_constructed assignsV ⟨3⟩).types (act_apply _ ⟨24⟩ [.int32]) ?_).types
    (.declare _ .program "Foo" _) (size_lt_declare ..)
  decide +kernel

set_option maxRecDepth 4000 in
theorem construct_boxed :
    (boxed assignsV).program.construct ⟨3⟩ =
        .methodDef none constructorName [] (some ⟨2⟩) none none ∧
      (boxed assignsV).program.construct ⟨2⟩ = .assign ⟨0⟩ ⟨1⟩ ∧
      (boxed assignsV).program.construct ⟨0⟩ = .instanceVar "@v" := by
  decide

set_option maxRecDepth 4000 in
/-- `Box` is sure to assign what its constructor does. -/
theorem Reached.assignedAtStart_box : (constructed assignsV ⟨3⟩).Reached ∧
    Registered [⟨⟨24⟩, ⟨3⟩, (boxed assignsV).program⟩] (constructed assignsV ⟨3⟩) ∧
    (boxed assignsV).program.Assigns "@v" ⟨2⟩ ∧
    (constructed assignsV ⟨3⟩).program.isAssignedAtStart ⟨24⟩ "@v" = true := by
  have hregistered := registered_constructed assignsV ⟨3⟩
  obtain ⟨hdefinition, hbody, hvar⟩ := construct_boxed
  have hassigns : (boxed assignsV).program.Assigns "@v" ⟨2⟩ := by
    refine .here ?_ ?_ hvar <;> rw [hbody]
    · rfl
    · exact List.mem_singleton_self _
  have hbase : (constructed assignsV ⟨3⟩).program.types.genericOf ⟨24⟩ = ⟨24⟩ := by decide
  refine ⟨hregistered.reached, hregistered, hassigns, ?_⟩
  refine ((hregistered.reached.assignedAtStart.2 _ hregistered ⟨24⟩ "@v").1).mpr
    ⟨⟨24⟩, ?_, ?_, fun c hc _ => ?_⟩
  · rw [hbase]; exact List.mem_cons_self
  · exact ⟨_, List.mem_singleton_self _, rfl⟩
  · obtain rfl := List.mem_singleton.mp hc
    exact ⟨_, _, _, _, _, _, hdefinition, hassigns⟩

/-- The constructors of the class, of which there is at least one, are sure to assign the variable,
in whatever sense. -/
def AllSure (sure : Program → String → ExprId → Prop)
    (constructors : List Constructor) (owner : TypeId)
    (name : String) : Prop :=
  (∃ c ∈ constructors, c.owner = owner) ∧ ∀ c ∈ constructors, c.owner = owner →
    ∃ receiver method params body returnType blockParam, c.program.construct c.definition =
      .methodDef receiver method params (some body) returnType blockParam ∧ sure c.program name body

/-- `Foo` inherits from `Box(Int32)`. The constructor of `Box` is an assignment to `@v`, which does
not count for `Foo`. -/
theorem not_isAssignedAtStart_foo (sure : Program → String → ExprId → Prop)
    (hassign : ∀ p name id target value, p.construct id = .assign target value →
      p.construct target = .instanceVar name → sure p name id) :
    (∃ ancestor ∈ (⟨26⟩ :: (inherited assignsV ⟨3⟩).program.types.ancestors ⟨26⟩).map
      (inherited assignsV ⟨3⟩).program.types.genericOf,
        AllSure sure [⟨⟨24⟩, ⟨3⟩, (boxed assignsV).program⟩] ancestor "@v") ∧
      (inherited assignsV ⟨3⟩).program.isAssignedAtStart ⟨26⟩ "@v" = false := by
  obtain ⟨hdefinition, hbody, hvar⟩ := construct_boxed
  refine ⟨⟨⟨24⟩, by decide +kernel, ?_, fun c hc _ => ?_⟩, by decide +kernel⟩
  · exact ⟨_, List.mem_singleton_self _, rfl⟩
  · obtain rfl := List.mem_singleton.mp hc
    exact ⟨_, _, _, _, _, _, hdefinition, hassign _ _ _ _ _ hbody hvar⟩

set_option maxRecDepth 4000 in
/-- The constructor of `Box` assigns `@v` only if a condition holds, but the assignment counts. -/
theorem isAssignedAtStart_maybe (sure : Program → String → ExprId → Prop)
    (hbranch : ∀ p name id cond onTrue, p.construct id = .conditional cond (some onTrue) none none →
      sure p name id → sure p name cond)
    (hliteral : ∀ p name id value, p.construct id = .boolLiteral value → ¬ sure p name id) :
    (constructed maybeAssignsV ⟨5⟩).program.isAssignedAtStart ⟨24⟩ "@v" = true ∧
      ∀ owner, ¬ AllSure sure [⟨⟨24⟩, ⟨5⟩, (boxed maybeAssignsV).program⟩] owner "@v" := by
  refine ⟨by decide, fun owner ⟨⟨c, hc, howner⟩, hall⟩ => ?_⟩
  have hconstruct : (boxed maybeAssignsV).program.construct ⟨5⟩ =
        .methodDef none constructorName [] (some ⟨4⟩) none none ∧
      (boxed maybeAssignsV).program.construct ⟨4⟩ = .conditional ⟨0⟩ (some ⟨3⟩) none none ∧
        (boxed maybeAssignsV).program.construct ⟨0⟩ = .boolLiteral false := by decide
  obtain ⟨_, _, _, body, _, _, hdefinition, hsure⟩ := hall c hc howner
  obtain rfl := List.mem_singleton.mp hc
  cases hconstruct.1.symm.trans hdefinition
  exact hliteral _ _ _ _ hconstruct.2.2 (hbranch _ _ _ _ _ hconstruct.2.1 hsure)

/-- There is no sense of being sure, in which a body is sure to assign what it is an assignment to
and a conditional without another branch is not sure to assign what its condition is not, such that
everything counts as assigned at the start that constructors are sure to assign, or the other way
round. -/
theorem not_isAssignedAtStart_iff_sure : ¬ ∃ sure : Program → String → ExprId → Prop,
    (∀ p name id target value, p.construct id = .assign target value →
      p.construct target = .instanceVar name → sure p name id) ∧
    (∀ p name id cond onTrue, p.construct id = .conditional cond (some onTrue) none none →
      sure p name id → sure p name cond) ∧
    (∀ p name id value, p.construct id = .boolLiteral value → ¬ sure p name id) ∧
      ((∀ s constructors, Registered constructors s → ∀ owner name,
        (∃ ancestor ∈ (owner :: s.program.types.ancestors owner).map s.program.types.genericOf,
          AllSure sure constructors ancestor name) →
          s.program.isAssignedAtStart owner name = true) ∨
      ∀ s constructors, Registered constructors s → ∀ owner name,
        s.program.isAssignedAtStart owner name = true →
          ∃ ancestor ∈ (owner :: s.program.types.ancestors owner).map s.program.types.genericOf,
            AllSure sure constructors ancestor name) := by
  rintro ⟨sure, hassign, hbranch, hliteral, h | h⟩
  · obtain ⟨hsure, hnot⟩ := not_isAssignedAtStart_foo sure hassign
    rw [h _ _ registered_inherited ⟨26⟩ "@v" hsure] at hnot
    cases hnot
  · obtain ⟨hcounts, hnot⟩ := isAssignedAtStart_maybe sure hbranch hliteral
    obtain ⟨ancestor, -, hsure⟩ :=
      h _ _ (registered_constructed maybeAssignsV ⟨5⟩) ⟨24⟩ "@v" hcounts
    exact hnot ancestor hsure

end WalkState

end TypeFlow

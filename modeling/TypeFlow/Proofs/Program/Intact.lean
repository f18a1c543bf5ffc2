import TypeFlow.Proofs.Flow.Orderly
import TypeFlow.Proofs.Program.Awaits

/-!
# Intact programs

A program is intact while it is walked when it is sound and orderly, nothing has been done with what
is still to be walked, and what it has recorded is there: the nodes that it keeps for variables
belong to no expression, unless this is the parameter of a block, and scopes are types of the table.
There is one lemma for each way in which inference changes a program.
-/

namespace TypeFlow

theorem Types.Act.precedes {t t' : Types} (h : Types.Act t t') : t.Precedes t' := by
  cases h with
  | grow h => exact h.precedes
  | declare owner name kind =>
    exact (growsTo_push t name (some owner) kind).precedes.trans (precedes_setName _ owner name _)
  | addMacroDef | addFun =>
    refine precedes_modify _ ?_ t _
    exact fun _ => List.prefix_rfl
  | includeModule =>
    refine precedes_modify _ ?_ t _
    intro e
    split
    · exact List.prefix_rfl
    · exact List.prefix_append ..

namespace Program
variable {p p' : Program} {X Y : List NodeId} {L M : List Duty} {node : NodeId} {id : ExprId}
  {held : NodeId → Prop}

/-! ### Nodes of variables -/

/-- A slot whose node belongs to no expression but a parameter of a block. -/
structure Spare (p : Program) (node : NodeId) : Prop extends p.Slot node where
  parameter : ∀ id, p.Has id → p.nodeOf id = node → p.IsParameter id

theorem Later.spare (h : p.Later p') (hs : p.Spare node) : p'.Spare node := by
  refine ⟨h.slot hs.toSlot, fun id hid hnode => ?_⟩
  rcases Nat.lt_or_ge id.index p.exprs.size with hlt | hge
  · exact h.isParameter (hs.parameter id hlt ((h.nodeOf_eq id hlt).symm.trans hnode))
  · have hfresh := h.fresh id hge hid
    rw [hnode] at hfresh
    exact absurd hs.lt (Nat.not_lt.mpr hfresh)

/-- A node that has just been added belongs to no expression. -/
theorem Sound.spare_new {g : FlowGraph} (h : p.Sound held) (hg : g.size = p.graph.size + 1) :
    Spare { p with graph := g } ⟨p.graph.size⟩ := by
  refine ⟨h.slot_new hg, fun id hid hnode => ?_⟩
  have hlt := h.node_lt id hid
  rw [show p.nodeOf id = ⟨p.graph.size⟩ from hnode] at hlt
  exact absurd hlt (Nat.lt_irrefl _)

theorem Sound.spare_parameter (h : p.Sound held) (hid : p.Has id) {name : String}
    (hc : p.construct id = .var name) (hpar : p.IsParameter id) : p.Spare (p.nodeOf id) :=
  ⟨h.slot_var hid hc, fun other hother heq => h.distinct other id hother hid heq ▸ hpar⟩

/-! ### Constants that have not been read -/

def unread (p : Program) : List Duty :=
  (p.constants.toList.filter (·.state == .pending)).map fun c => .whole c.value

end Program

/-- A constant was declared among types of the table. -/
structure Constant.Within (c : Constant) (size : Nat) : Prop where
  scope : ∀ type, c.scope = some type → type.index < size
  enclosing : ∀ type ∈ c.enclosing, type.index < size

theorem Constant.Within.mono {c : Constant} {size size' : Nat} (h : c.Within size)
    (hle : size ≤ size') : c.Within size' :=
  ⟨fun type ht => Nat.lt_of_lt_of_le (h.scope type ht) hle, fun type ht =>
    Nat.lt_of_lt_of_le (h.enclosing type ht) hle⟩

namespace Program
variable {p p' : Program} {X Y : List NodeId} {L M : List Duty} {node : NodeId} {id : ExprId}

/-- The nodes in `X` have lost dependencies and will be bound again; `L` is still to be done, and so
are the values of the constants that have not been read. -/
structure Intact (X : List NodeId) (L : List Duty) (p : Program) : Prop where
  sound : p.Sound fun _ => False
  orderly : p.toNetwork.Orderly X
  forest : p.Forest
  awaits : p.Awaits (L ++ p.unread)
  silent : ∀ call, ¬ p.Has call → p.graph.Silent call
  spare : ∀ node, p.Keeps node → p.Spare node
  scopes : ∀ call type, p.callScopes.get? call = some type → type.index < p.types.size
  constants : ∀ c ∈ p.constants.toList, c.Within p.types.size

namespace Intact

theorem whole (h : p.Intact X L) : p.types.Whole := h.orderly.linked.whole

theorem typeOf_lt (h : p.Intact X L) {a : TypeId} (ha : p.typeOf id = some a) :
    a.index < p.types.size :=
  h.orderly.linked.typed _ a ha

theorem node_lt (h : p.Intact X L) (hid : p.Has id) : (p.nodeOf id).index < p.graph.size :=
  h.sound.node_lt id hid

theorem mono (h : p.Intact X L) (hsub : ∀ id ∈ X, id ∈ Y) : p.Intact Y L :=
  { h with orderly := h.orderly.mono hsub }

/-! ### Duties -/

theorem duties (h : p.Intact X L) (ha : p.Awaits (M ++ p.unread)) : p.Intact X M :=
  { h with awaits := ha }

theorem sublist (h : p.Intact X L) (hs : M.Sublist L) : p.Intact X M :=
  h.duties (h.awaits.sublist (hs.append (.refl _)))

theorem perm (h : p.Intact X L) (hp : L.Perm M) : p.Intact X M :=
  h.duties (h.awaits.perm (hp.append_right _))

theorem finish {t : Duty} (h : p.Intact X (t :: L)) : p.Intact X (.done t.expr :: L) :=
  h.duties h.awaits.finish

theorem unfold (h : p.Intact X (.whole id :: L)) :
    p.Intact X (.single id :: ((p.construct id).inner.map Duty.whole ++ L)) := by
  refine h.duties ?_
  have hunfold := Awaits.unfold (L := L ++ p.unread) h.awaits h.forest
  rwa [← List.append_assoc] at hunfold

/-- A call that waits in the queue has been visited. -/
theorem note_pending (h : p.Intact X L) (hpending : id ∈ p.graph.pending) :
    p.Intact X (.done id :: L) := by
  have hid : p.Has id := by
    by_contra hid
    exact (h.silent id hid).absent hpending
  exact h.duties (h.awaits.note hid fun he => (h.awaits.idle id he).silent.absent hpending)

theorem has {t : Duty} (h : p.Intact X (t :: L)) : p.Has t.expr := h.awaits.has t (by simp)

theorem avoids_done (h : p.Intact X (.done id :: L)) :
    p.Avoids ((.done id :: L) ++ p.unread) (p.nodeOf id) :=
  h.sound.avoids h.forest h.awaits (h.has (t := .done id))
    (Awaits.not_awaited_done (L := L ++ p.unread) h.awaits)

theorem avoids_parameter (h : p.Intact X L) (hid : p.Has id) (hpar : p.IsParameter id) :
    p.Avoids (L ++ p.unread) (p.nodeOf id) :=
  h.awaits.avoids_of_parameter h.forest fun e he heq => h.sound.distinct e id he hid heq ▸ hpar

theorem avoids_spare (h : p.Intact X L) (hs : p.Spare node) : p.Avoids (L ++ p.unread) node :=
  h.awaits.avoids_of_parameter h.forest hs.parameter

/-! ### Changes beside the expressions -/

/-- A change that adds no expressions, and what is left to be done after it. -/
theorem of_exprs (h : p.Intact X L) (hexprs : p'.exprs = p.exprs)
    (hs : p.Later p' ∧ p'.Sound fun _ => False) (ho : p'.toNetwork.Orderly Y)
    (ha : p.Awaits (M ++ p'.unread))
    (hvacant : ∀ e, p.Awaited (M ++ p'.unread) e → p.Has e → p.graph.Vacant (p.nodeOf e) →
      p'.graph.Vacant (p.nodeOf e))
    (hsilent : ∀ call, ¬ p.Has call ∨ p.Awaited (M ++ p'.unread) call → p.graph.Silent call →
      p'.graph.Silent call)
    (hspare : ∀ node, p'.Keeps node → p.Keeps node ∨ p'.Spare node)
    (hscopes : ∀ call type, p'.callScopes.get? call = some type →
      p.callScopes.get? call = some type ∨ type.index < p'.types.size)
    (hconstants : ∀ c ∈ p'.constants.toList, c.Within p.types.size) : p'.Intact Y M := by
  obtain ⟨hl, hs⟩ := hs
  have hconstruct : ∀ e, p'.construct e = p.construct e := fun e => by
    rw [Program.construct, Program.construct, expr, expr, hexprs]
  have hnode : ∀ e, p'.nodeOf e = p.nodeOf e := fun e => by rw [nodeOf, nodeOf, expr, expr, hexprs]
  have hhas : ∀ e, ¬ p'.Has e → ¬ p.Has e := fun e he hp => he (hl.lt hp)
  have hforest := h.forest.of_exprs_eq hexprs
  refine ⟨hs, ho, hforest, ?_, ?_, ?_, ?_, ?_⟩
  · refine ha.later hforest hl (fun e he hid hidle => ⟨?_, hsilent e (.inr he) hidle.silent⟩)
      (fun e _ hpar => ?_) h.forest
    · rw [hnode]; exact hvacant e he hid hidle.vacant
    · obtain ⟨block, params, body, hc, hmem⟩ := hpar
      exact ⟨block, params, body, (hconstruct block).symm.trans hc, hmem⟩
  · exact fun call hcall => hsilent call (.inl (hhas call hcall)) (h.silent call (hhas call hcall))
  · exact fun node hk => (hspare node hk).elim (fun hk => hl.spare (h.spare node hk)) fun hs => hs
  · exact fun call type hc => (hscopes call type hc).elim
      (fun hc => hl.kinds.lt (h.scopes call type hc)) fun hlt => hlt
  · exact fun c hc => (hconstants c hc).mono hl.kinds.size_le

/-- A change of the network alone. -/
theorem network {n : Network} (h : p.Intact X L) (hs : p.Later { p with toNetwork := n } ∧
      Sound (fun _ => False) { p with toNetwork := n }) (ho : n.Orderly Y)
    (hvacant : ∀ e, p.Awaited (L ++ p.unread) e → p.Has e → p.graph.Vacant (p.nodeOf e) →
      n.graph.Vacant (p.nodeOf e))
    (hsilent : ∀ call, ¬ p.Has call ∨ p.Awaited (L ++ p.unread) call → p.graph.Silent call →
      n.graph.Silent call)
    (hvars : ∀ owner name node, (n.types.get owner).instanceVars.get? name = some node →
      (p.types.get owner).instanceVars.get? name = some node) :
    Intact Y L { p with toNetwork := n } := by
  refine h.of_exprs rfl hs ho h.awaits hvacant hsilent (fun node hk => .inl ?_)
    (fun _ _ hc => .inl hc) h.constants
  cases hk with
  | global hk => exact .global hk
  | instanceVar hk => exact .instanceVar (hvars _ _ _ hk)
  | breakNode hk => exact .breakNode hk

theorem types {t : Types} (h : p.Intact X L) (hv : p.types.KeepsVars t) (ht : p.types.Precedes t)
    (hw : t.Whole) : Intact X L { p with types := t } :=
  h.network (n := { p.toNetwork with types := t }) (h.sound.types hv) (h.orderly.types ht hw)
    (fun _ _ _ hv => hv) (fun _ _ hs => hs) hv.instanceVars

/-! ### The network -/

theorem bind {deps : List NodeId} {n : Network} (h : p.Intact (node :: X) L) (hne : node ≠ nilNode)
    (havoid : p.Avoids (L ++ p.unread) node) (hdeps : ∀ d ∈ deps, d.index < p.graph.size)
    (hd : (Binding.bind node deps).Does p.toNetwork () n) :
    p.Later { p with toNetwork := n } ∧ Intact X L { p with toNetwork := n } := by
  have hs := h.sound.bind hne deps
  rw [show (p.onNetwork (Binding.bind node deps)).2 = { p with toNetwork := n } from
    congrArg (fun r => { p with toNetwork := r.2 }) hd] at hs
  refine ⟨hs.1, h.network hs (Binding.orderly_bindNode h.orderly hdeps hd) (fun e he _ hv => ?_)
    (fun _ _ hs => ?_) ?_⟩
  · exact Binding.vacant_bindNode hv (havoid e he).symm hd
  · exact Binding.silent_bindNode hs hd
  · have hext := Network.Extends.outcome_bindNode p.toNetwork node deps
    rw [hd] at hext
    exact hext.types.keepsVars.instanceVars

theorem setType {a : TypeId} {n : Network} (h : p.Intact X L) (hne : node ≠ nilNode)
    (havoid : p.Avoids (L ++ p.unread) node) (hd : (Binding.setType node a).Does p.toNetwork () n)
    (ho : n.Orderly X) :
    p.Later { p with toNetwork := n } ∧ Intact X L { p with toNetwork := n } := by
  have hs := h.sound.setType hne (fun h => h) a
  rw [show (p.onNetwork (Binding.setType node a)).2 = { p with toNetwork := n } from
    congrArg (fun r => { p with toNetwork := r.2 }) hd] at hs
  refine ⟨hs.1, h.network hs ho (fun e he _ hv => ?_) (fun _ _ hs => ?_) ?_⟩
  · exact Binding.vacant_setType hv (havoid e he).symm hd
  · exact Binding.silent_setType hs hd
  · have hext := Network.Extends.keeps_setType p.toNetwork node a _ (.refl _)
    rw [hd] at hext
    exact hext.types.keepsVars.instanceVars

/-- The node of an expression that is being walked gets its type directly. -/
theorem giveType {a : TypeId} {n : Network} (h : p.Intact X (.single id :: L))
    (ha : a.index < p.types.size) (hd : (Binding.setType (p.nodeOf id) a).Does p.toNetwork () n) :
    p.Later { p with toNetwork := n } ∧ Intact X (.done id :: L) { p with toNetwork := n } := by
  have hidle := h.awaits.idle id ⟨.single id, by simp, trivial, rfl⟩
  refine h.finish.setType (h.sound.node_ne_nil id h.has) h.finish.avoids_done hd ?_
  exact Binding.orderly_setType h.orderly
    (fun d hdep => by rw [hidle.vacant.dependencies] at hdep; cases hdep) ha hd

theorem unbind (h : p.Intact X (.done id :: L)) (deps : List NodeId) :
    p.Later (p.modifyGraph (·.unbind (p.nodeOf id) deps)) ∧
      (p.modifyGraph (·.unbind (p.nodeOf id) deps)).Intact (p.nodeOf id :: X) (.done id :: L) := by
  have hs := h.sound.unbind (h.sound.node_ne_nil id h.has) (fun h => h) deps
  refine ⟨hs.1, h.network (n := { p.toNetwork with graph := p.graph.unbind (p.nodeOf id) deps }) hs
    (h.orderly.unbind (p.nodeOf id) deps) (fun e he _ hv => ?_)
      (fun _ _ hs => hs.unbind ..) fun _ _ _ hn => hn⟩
  exact hv.unbind (h.avoids_done e he).symm deps

theorem setGuard (h : p.Intact X L) (node : NodeId) {guard : Option Guard}
    (hguard : ∀ g ∈ guard, g.Within p.types.size) :
    Intact X L { p with graph := p.graph.setGuard node guard } := by
  refine h.network (n := { p.toNetwork with graph := p.graph.setGuard node guard })
    (h.sound.graph (FlowGraph.Touch.setGuard ..).keepsNodes)
      (h.orderly.modify node (fun _ _ => hguard) ?_ ?_ ?_ ?_ ?_)
    (fun _ _ _ hv => hv.modify ?_ ?_ node) (fun _ _ hs => hs.modify ?_ node) fun _ _ _ hn => hn
  all_goals first | exact fun _ => rfl | exact fun _ _ ho => ho | exact fun _ ho => ho

theorem freeze (h : p.Intact X L) (node : NodeId) :
    Intact X L { p with graph := p.graph.freeze node } := by
  refine h.network (n := { p.toNetwork with graph := p.graph.freeze node })
    (h.sound.graph (FlowGraph.Touch.freeze ..).keepsNodes)
      (h.orderly.modify node (fun _ hw => hw.guard) ?_ ?_ ?_ ?_ ?_)
    (fun _ _ _ hv => hv.modify ?_ ?_ node) (fun _ _ hs => hs.modify ?_ node) fun _ _ _ hn => hn
  all_goals first | exact fun _ => rfl | exact fun _ _ ho => ho | exact fun _ ho => ho

/-- A call that is being resolved is told of changes. -/
theorem observe (h : p.Intact X (.done id :: L)) (node : NodeId) :
    Intact X (.done id :: L) { p with graph := p.graph.addObserver node (.call id) } := by
  refine h.network (n := { p.toNetwork with graph := p.graph.addObserver node (.call id) })
    (h.sound.graph (FlowGraph.Touch.observe ..).keepsNodes)
      (h.orderly.modify node (fun _ hw => hw.guard) ?_ ?_ ?_ ?_ ?_)
    (fun _ _ _ hv => hv.modify ?_ ?_ node)
      (fun call hcall hs => hs.observe ?_ node) fun _ _ _ hn => hn
  case refine_8 =>
    rintro rfl
    exact hcall.elim (fun hnot => hnot (h.has (t := .done id)))
      (Awaits.not_awaited_done (L := L ++ p.unread) h.awaits)
  all_goals first | exact fun _ => rfl | exact fun _ _ ho => mem_insertLast.mpr (.inl ho)

theorem nextCall {g : FlowGraph} (h : p.Intact X L) (hnext : p.graph.nextCall? = some (id, g)) :
    p.Later { p with graph := g } ∧ Intact X (.done id :: L) { p with graph := g } := by
  have hs := h.sound.nextCall hnext
  obtain ⟨rest, hpending, rfl⟩ := FlowGraph.nextCall?_eq_some hnext
  have hnoted : p.Intact X (.done id :: L) := h.note_pending (by rw [hpending]; simp)
  let graph := { p.graph with pending := rest, pendingSet := p.graph.pendingSet.filter (· ≠ id) }
  refine ⟨hs.1, hnoted.network (n := { p.toNetwork with graph }) hs
    (h.orderly.of_nodes_eq rfl) (fun _ _ _ hv => hv.of_node_eq rfl)
      (fun _ _ hs => hs.of_nodes_eq rfl fun c hc => ?_)
    fun _ _ _ hn => hn⟩
  rw [hpending]; exact List.mem_cons_of_mem _ hc

/-! ### New nodes -/

/-- A node is added, which variables may have. -/
theorem addNode (h : p.Intact X L) {derivation : Derivation}
    (hd : ∀ target ∈ derivation.targets, target.index < p.types.size) :
    p.Later (p.addNode derivation).2 ∧ (p.addNode derivation).2.Intact X L ∧
      (p.addNode derivation).2.Spare (p.addNode derivation).1 := by
  have hs := h.sound.addNode derivation
  refine ⟨hs.1, h.network (n := { p.toNetwork with graph := (p.graph.addNode derivation).2 }) hs
    (h.orderly.addNode hd)
    (fun e _ hid hv => hv.push (h.node_lt hid) _) (fun _ _ hs => hs.push rfl)
      fun _ _ _ hn => hn, ?_⟩
  exact h.sound.spare_new (FlowGraph.size_addNode ..)

theorem addValue (h : p.Intact X L) {type : TypeId} (ht : type.index < p.types.size) :
    p.Later (p.addValue type).2 ∧ (p.addValue type).2.Intact X L ∧
    (p.addValue type).2.Spare (p.addValue type).1 := by
  have hs := h.sound.addValue type
  refine ⟨hs.1, h.network (n := { p.toNetwork with graph := (p.graph.addTyped type).2 }) hs
    (h.orderly.addTyped ht)
    (fun e _ hid hv => hv.push (h.node_lt hid) _) (fun _ _ hs => hs.push rfl)
      fun _ _ _ hn => hn, ?_⟩
  exact h.sound.spare_new (Array.size_push ..)

theorem breakNodeOf (h : p.Intact X L) (block : ExprId) :
    p.Later (p.breakNodeOf block).2 ∧ (p.breakNodeOf block).2.Intact X L ∧
      (p.breakNodeOf block).2.Spare (p.breakNodeOf block).1 := by
  have hs := h.sound.breakNodeOf block
  unfold Program.breakNodeOf at hs ⊢
  split at hs
  · rename_i hk
    exact ⟨.refl p, h, h.spare _ (.breakNode hk)⟩
  · have hspare := h.sound.spare_new (FlowGraph.size_addNode p.graph .identity)
    have hnew : Spare { (p.addNode .identity).2 with
        blockBreaks := p.blockBreaks.insert block (p.addNode .identity).1 }
          (p.addNode .identity).1 :=
      ⟨⟨hspare.ne_nil, hspare.lt, hspare.expr⟩, hspare.parameter⟩
    refine ⟨hs.1, h.of_exprs rfl hs (h.orderly.addNode fun _ h => nomatch h) h.awaits
      (fun e _ hid hv => hv.push (h.node_lt hid) _)
      (fun _ _ hs => hs.push rfl) (fun node hk => ?_) (fun _ _ hc => .inl hc) h.constants, hnew⟩
    cases hk with
    | global hk => exact .inl (.global hk)
    | instanceVar hk => exact .inl (.instanceVar hk)
    | @breakNode key hk =>
      replace hk : (p.blockBreaks.insert block (p.addNode .identity).1).get? key = some node := hk
      rw [OrderedMap.get?_insert] at hk
      split at hk
      · cases hk; exact .inr hnew
      · exact .inl (.breakNode hk)

theorem instanceVarNode (h : p.Intact X L) (owner : TypeId) (name : String) :
    p.Later (p.instanceVarNode owner name).2 ∧ (p.instanceVarNode owner name).2.Intact X L ∧
      (p.instanceVarNode owner name).2.Spare (p.instanceVarNode owner name).1 := by
  have hs := h.sound.instanceVarNode owner name
  unfold Program.instanceVarNode at hs ⊢
  split at hs
  · rename_i hk
    exact ⟨.refl p, h, h.spare _ (.instanceVar hk)⟩
  · have hspare := h.sound.spare_new (FlowGraph.size_addNode p.graph .identity)
    have hnew : Spare ((p.addNode .identity).2.modifyTypes fun t => t.modify owner fun e =>
        { e with instanceVars := e.instanceVars.insert name (p.addNode .identity).1 })
          (p.addNode .identity).1 :=
      ⟨⟨hspare.ne_nil, hspare.lt, hspare.expr⟩, hspare.parameter⟩
    have hprecedes : p.types.Precedes (p.types.modify owner fun e =>
        { e with instanceVars := e.instanceVars.insert name (p.addNode .identity).1 }) := by
      refine Types.precedes_modify _ ?_ _ owner
      exact fun _ => List.prefix_rfl
    have hwhole : (p.types.modify owner fun e =>
        { e with instanceVars := e.instanceVars.insert name (p.addNode .identity).1 }).Whole :=
      h.whole.modify _ fun e hw => ⟨hw.modules, hw.bound, hw.named, hw.results⟩
    refine ⟨hs.1,
      h.of_exprs rfl hs ((h.orderly.addNode fun _ h => by cases h).types hprecedes hwhole) h.awaits
      (fun e _ hid hv => hv.push (h.node_lt hid) _) (fun _ _ hs => hs.push rfl) (fun node hk => ?_)
      (fun _ _ hc => .inl hc) h.constants, hnew⟩
    cases hk with
    | global hk => exact .inl (.global hk)
    | breakNode hk => exact .inl (.breakNode hk)
    | @instanceVar type key hk =>
      rcases Types.eq_or_of_insertVar hk with rfl | hk
      · exact .inr hnew
      · exact .inl (.instanceVar hk)

theorem global (h : p.Intact X L) (name : String) (hn : p.Spare node) :
    p.Later { p with globals := p.globals.insert name node } ∧
      Intact X L { p with globals := p.globals.insert name node } := by
  have hs : _ ∧ Program.Sound _ { p with globals := p.globals.insert name node } :=
    h.sound.global hn.toSlot
  refine ⟨hs.1, h.of_exprs rfl hs h.orderly h.awaits (fun _ _ _ hv => hv) (fun _ _ hs => hs)
    (fun other hk => ?_) (fun _ _ hc => .inl hc) h.constants⟩
  cases hk with
  | @global key hk =>
    rw [OrderedMap.get?_insert] at hk
    split at hk
    · cases hk; exact .inr (hs.1.spare hn)
    · exact .inl (.global hk)
  | instanceVar hk => exact .inl (.instanceVar hk)
  | breakNode hk => exact .inl (.breakNode hk)

/-! ### Declarations -/

/-- Changes of the table, which leave it whole. -/
theorem acts {t : Types} (h : p.Intact X L) (ht : Relation.ReflTransGen Types.Act p.types t)
    (hw : t.Whole) :
    p.Later { p with types := t } ∧ Intact X L { p with types := t } := by
  have hkeeps : p.types.KeepsVars t ∧ p.types.Precedes t := by
    clear hw
    induction ht with
    | refl => exact ⟨⟨.refl _, fun _ _ _ hn => hn⟩, .refl _⟩
    | tail _ hact ih => exact ⟨ih.1.trans hact.keepsVars, ih.2.trans hact.precedes⟩
  exact ⟨(h.sound.types hkeeps.1).1, h.types hkeeps.1 hkeeps.2 hw⟩

theorem addMethod (h : p.Intact X L) (owner : TypeId) (key : MethodKey) (definition : ExprId) :
    p.Later (p.addMethod owner key definition) ∧ (p.addMethod owner key definition).Intact X L := by
  have hdefs : p.types.KeepsVars (p.types.addMethod owner key definition) ∧
      p.types.Precedes (p.types.addMethod owner key definition) ∧
      (p.types.addMethod owner key definition).Whole := by
    refine ⟨Types.keepsVars_modify _ ?_ _ owner, Types.precedes_modify _ ?_ _ owner,
      h.whole.modify _ fun e hw => ⟨hw.modules, hw.bound, hw.named, hw.results⟩⟩
    · exact fun _ => rfl
    · exact fun _ => List.prefix_rfl
  refine ⟨(h.sound.addMethod owner key definition).1, ?_⟩
  unfold Program.addMethod
  split
  · refine h.types (hdefs.1.trans (Types.keepsVars_modify ?_ ?_ _ owner))
      (hdefs.2.1.trans (Types.precedes_modify _ ?_ _ owner))
      (hdefs.2.2.modify _ fun e hw => ⟨hw.modules, hw.bound, hw.named, hw.results⟩)
    · exact ⟨fun _ => rfl, fun _ => rfl⟩
    · exact fun _ => rfl
    · exact fun _ => List.prefix_rfl
  · exact h.types hdefs.1 hdefs.2.1 hdefs.2.2

theorem note (h : p.Intact X L) (hn : p.Note p') : p.Later p' ∧ p'.Intact X L := by
  have hs := h.sound.note hn
  refine ⟨hs.1, ?_⟩
  cases hn <;>
  · refine h.of_exprs rfl hs h.orderly h.awaits (fun _ _ _ hv => hv) (fun _ _ hs => hs)
      (fun node hk => .inl ?_) (fun _ _ hc => .inl hc) h.constants
    cases hk with
    | global hk => exact .global hk
    | instanceVar hk => exact .instanceVar hk
    | breakNode hk => exact .breakNode hk

theorem noteScope (h : p.Intact X L) (call : ExprId) {scope : TypeId}
    (hscope : scope.index < p.types.size) :
    p.Later (p.noteScope call scope) ∧ (p.noteScope call scope).Intact X L := by
  have hs := h.sound.noteScope call scope
  refine ⟨hs.1, h.of_exprs rfl hs h.orderly h.awaits (fun _ _ _ hv => hv) (fun _ _ hs => hs)
    (fun node hk => .inl ?_) (fun other type hc => ?_) h.constants⟩
  · cases hk with
    | global hk => exact .global hk
    | instanceVar hk => exact .instanceVar hk
    | breakNode hk => exact .breakNode hk
  · rw [Program.noteScope, OrderedMap.get?_insert] at hc
    split at hc
    · cases hc; exact .inr hscope
    · exact .inl hc

end Intact

end Program

end TypeFlow

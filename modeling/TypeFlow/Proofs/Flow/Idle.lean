import TypeFlow.Proofs.Flow.Settled

/-!
# Idle nodes

Nothing has been done with an expression that has not been walked yet: its node has no type and
depends on nothing (`Vacant`), and if it is a call, nothing notifies it (`Silent`). Whatever is done
to other nodes, propagation leaves such a node as it is.
-/

namespace TypeFlow

namespace FlowGraph
variable {g g' : FlowGraph} {call other : ExprId} {node id : NodeId}

structure Vacant (node : NodeId) (g : FlowGraph) : Prop where
  type : g.typeOf node = none
  dependencies : (g.node node).dependencies = []

/-- Nobody notifies the call, and it does not wait in the queue. -/
structure Silent (call : ExprId) (g : FlowGraph) : Prop where
  unheard : ∀ d, .call call ∉ (g.node d).observers
  absent : call ∉ g.pending

/-! ### Vacant nodes -/

namespace Vacant

theorem congr (h : g.Vacant node) (htype : g'.typeOf node = g.typeOf node)
    (hdeps : (g'.node node).dependencies = (g.node node).dependencies) : g'.Vacant node :=
  ⟨htype.trans h.type, hdeps.trans h.dependencies⟩

theorem of_node_eq (h : g.Vacant node) (hg : g'.node node = g.node node) : g'.Vacant node :=
  h.congr (congrArg _ hg) (congrArg _ hg)

theorem modify_of_ne {f : FlowNode → FlowNode} (h : g.Vacant node) (hne : id ≠ node) :
    (g.modify id f).Vacant node :=
  h.of_node_eq (node_modify_of_ne hne.symm)

theorem modify {f : FlowNode → FlowNode} (h : g.Vacant node) (htype : ∀ n, (f n).type = n.type)
    (hdeps : ∀ n, (f n).dependencies = n.dependencies) (id : NodeId) :
    (g.modify id f).Vacant node :=
  h.congr (modify_field FlowNode.type htype) (modify_field FlowNode.dependencies hdeps)

theorem link (h : g.Vacant node) (hne : id ≠ node) (deps : List NodeId) :
    (g.link id deps).Vacant node :=
  h.congr (typeOf_link deps) (dependencies_link_of_ne hne.symm deps)

theorem unbind (h : g.Vacant node) (hne : id ≠ node) (deps : List NodeId) :
    (g.unbind id deps).Vacant node :=
  h.congr (typeOf_unbind deps) (dependencies_unbind_of_ne hne.symm deps)

theorem push (h : g.Vacant node) (hnode : node.index < g.size) (new : FlowNode) :
    FlowGraph.Vacant node { g with nodes := g.nodes.push new } :=
  h.of_node_eq (by rw [node_push, if_neg (Nat.ne_of_lt hnode)])

theorem of_push (g : FlowGraph) (derivation : Derivation) :
    FlowGraph.Vacant ⟨g.size⟩ { g with nodes := g.nodes.push { derivation } } := by
  have hnew : FlowGraph.node { g with nodes := g.nodes.push { derivation } } ⟨g.size⟩ =
      { derivation } := by
    rw [node_push, if_pos rfl]
  exact ⟨by rw [typeOf, hnew], by rw [hnew]⟩

end Vacant

/-! ### Silent calls -/

namespace Silent

theorem congr (h : g.Silent call)
    (hobs : ∀ d, .call call ∈ (g'.node d).observers → .call call ∈ (g.node d).observers)
    (hpending : call ∈ g'.pending → call ∈ g.pending) : g'.Silent call :=
  ⟨fun d ho => h.unheard d (hobs d ho), fun hp => h.absent (hpending hp)⟩

theorem of_nodes_eq (h : g.Silent call) (hg : g'.nodes = g.nodes)
    (hpending : ∀ c ∈ g'.pending, c ∈ g.pending) :
    g'.Silent call :=
  h.congr (fun d ho => by rwa [FlowGraph.node, hg] at ho) (hpending call)

theorem modify {f : FlowNode → FlowNode} (h : g.Silent call)
    (hobs : ∀ n, .call call ∈ (f n).observers → .call call ∈ n.observers) (id : NodeId) :
    (g.modify id f).Silent call := by
  refine h.congr (fun d ho => ?_) fun hp => hp
  rw [node_modify] at ho
  split at ho
  · rename_i heq; exact heq.1 ▸ hobs _ ho
  · exact ho

theorem observe (h : g.Silent call) (hne : other ≠ call) (id : NodeId) :
    (g.addObserver id (.call other)).Silent call :=
  h.modify (fun _ ho => (mem_insertLast.mp ho).resolve_right fun heq =>
    hne (Observer.call.inj heq).symm) id

theorem link (h : g.Silent call) (id : NodeId) (deps : List NodeId) :
    (g.link id deps).Silent call :=
  h.congr (fun _ ho => ((mem_observers_link deps).mp ho).resolve_right fun ho =>
    nomatch ho.2.2) fun hp => by
    rwa [pending_link] at hp

theorem unbind (h : g.Silent call) (id : NodeId) (deps : List NodeId) :
    (g.unbind id deps).Silent call :=
  h.congr (fun _ ho => (mem_observers_unbind deps).mp ho) fun hp => by rwa [pending_unbind] at hp

theorem push (h : g.Silent call) {new : FlowNode} (hobs : new.observers = []) :
    FlowGraph.Silent call { g with nodes := g.nodes.push new } := by
  refine h.congr (fun d ho => ?_) fun hp => hp
  rw [node_push] at ho
  split at ho
  · rw [hobs] at ho; cases ho
  · exact ho

end Silent

end FlowGraph

namespace Binding
open Network
variable {n n' : Network} {call : ExprId} {node id : NodeId} {type : TypeId} {deps : List NodeId}

theorem vacant_clean (h : n.graph.Vacant node) (id : NodeId) : (n.clean id).graph.Vacant node := by
  refine h.modify ?_ ?_ id <;> exact fun _ => rfl

theorem silent_clean (h : n.graph.Silent call) (id : NodeId) : (n.clean id).graph.Silent call := by
  refine h.modify ?_ id; exact fun _ ho => ho

theorem silent_retype (h : n.graph.Silent call) (id : NodeId) (type : TypeId) :
    (n.retype id type).graph.Silent call := by
  refine h.modify ?_ id; exact fun _ ho => ho

/-- A vacant node derives nothing, so that it is never the one that gets another type. -/
theorem keeps_vacant_refresh (node id : NodeId) : Keeps (·.graph.Vacant node) (refresh id) := by
  refine keeps_refresh (fun n h => by rwa [n.derivedType_graph]) fun n t h ht _ _ => ?_
  have hne : id ≠ node := by
    rintro rfl
    rw [derivedType_eq, FlowGraph.deriveIn_of_isEmpty _ h.dependencies] at ht
    cases ht
  rw [retype, n.derivedType_graph]
  exact h.modify_of_ne hne

theorem keeps_vacant_propagate (node id : NodeId) : Keeps (·.graph.Vacant node) (propagate id) :=
  keeps_propagate (J := (·.graph.Vacant node)) (fun _ id h => vacant_clean h id)
    (fun _ _ h => h.of_node_eq rfl) (keeps_vacant_refresh node) id

theorem vacant_setType (h : n.graph.Vacant node) (hne : id ≠ node)
    (hd : (setType id type).Does n () n') : n'.graph.Vacant node :=
  Keeps.does
    (keeps_setType (fun _ h _ _ => h.modify_of_ne hne) (keeps_vacant_propagate node id)) h hd

theorem vacant_bindNode (h : n.graph.Vacant node) (hne : id ≠ node)
    (hd : (bind id deps).Does n () n') : n'.graph.Vacant node :=
  Keeps.does (keeps_bindNode (fun _ h => h.link hne deps) (keeps_vacant_refresh node id)
    (keeps_vacant_propagate node id)) h hd

theorem silent_refresh {changed : Bool} (h : n.graph.Silent call)
    (hd : (refresh id).Does n changed n') : n'.graph.Silent call := by
  have hgraph := n.derivedType_graph id
  rcases refresh_cases hd with ⟨-, rfl, -⟩ | ⟨t, -, rfl, -⟩
  · rwa [hgraph]
  · exact silent_retype (by rwa [hgraph]) id t

theorem silent_propagate (h : n.graph.Silent call) (hd : (propagate id).Does n () n') :
    n'.graph.Silent call := by
  refine (settles_propagateWithin (O := fun os n => n.graph.Silent call ∧
    .call call ∉ os) ?_ ?_ _ ⟨h, by simp⟩ (does_propagate.mp hd)).1
  · exact fun n id hn => ⟨silent_clean hn.1 id, hn.1.unheard id⟩
  · intro n n' o os hn hd
    refine ⟨?_, fun ho => hn.2 (List.mem_cons_of_mem _ ho)⟩
    cases o with
    | node id =>
      obtain ⟨changed, hd⟩ := does_notify_node.mp hd
      exact silent_refresh hn.1 hd
    | call other =>
      rw [does_notify_call] at hd; subst hd
      refine hn.1.congr (fun _ ho => ho) fun hp => ?_
      exact (FlowGraph.of_mem_pending_enqueue hp).resolve_right fun heq => hn.2 (by simp [heq])

theorem silent_setType (h : n.graph.Silent call) (hd : (setType id type).Does n () n') :
    n'.graph.Silent call := by
  rw [does_setType] at hd
  split at hd
  · exact hd ▸ h
  · exact silent_propagate (silent_retype h id type) hd.2

theorem silent_bindNode (h : n.graph.Silent call) (hd : (bind id deps).Does n () n') :
    n'.graph.Silent call := by
  obtain ⟨changed, m, hm, hd⟩ := does_bindNode.mp hd
  have hsilent : m.graph.Silent call := silent_refresh (n := n.link id deps) (h.link id deps) hm
  cases changed with
  | false => exact hd ▸ hsilent
  | true => exact silent_propagate hsilent hd

end Binding

end TypeFlow

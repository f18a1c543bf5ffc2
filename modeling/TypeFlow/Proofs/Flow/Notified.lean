import TypeFlow.Proofs.Flow.Extends
import TypeFlow.Proofs.Flow.Settled
import TypeFlow.Proofs.Program.Changes

/-!
# Calls that are notified

A call that observes a node is put into the queue when the type of the node changes, and it is found
in the set of those that wait for as long as it is in the queue. While a change is carried on, a
call may still be owed its notification: the node is marked, or the call is among the observers to
be notified next (`Owes`). Nothing is owed once a change was carried through, unless a node was
marked before (`heeds_bindNode`, `heeds_setType`).
-/

namespace TypeFlow

namespace Network
variable {n₀ n n' : Network} {id : NodeId}

/-- A call that observes a node which has another type than in `n₀` waits in the queue, or will be
put there: the node is marked, or the call is among `os`. -/
def Owes (n₀ : Network) (os : List Observer) (n : Network) : Prop :=
  ∀ id call, n.graph.typeOf id ≠ n₀.graph.typeOf id → .call call ∈ (n.graph.node id).observers →
    n.Dirty id ∨ call ∈ n.graph.pending ∨ .call call ∈ os

theorem owes_self (n : Network) (os : List Observer) : n.Owes os n := fun _ _ h => absurd rfl h

/-- No node is marked. -/
def Unmarked (n : Network) : Prop := ∀ id, ¬ n.Dirty id

/-- Nothing is left to be carried on, and the set tells which calls wait. -/
structure Quiet (n : Network) : Prop where
  unmarked : n.Unmarked
  queues : n.graph.Queues

theorem Quiet.of_graph_eq (h : n.Quiet) (hgraph : n'.graph = n.graph) : n'.Quiet :=
  ⟨fun id hd => h.unmarked id (by rwa [Dirty, ← hgraph]), hgraph ▸ h.queues⟩

theorem Quiet.empty (t : Types) : Quiet ⟨t, .empty⟩ := by
  refine ⟨fun id hd => ?_, fun _ => .rfl, .nil⟩
  rw [Dirty, FlowGraph.node_of_le (Nat.zero_le _)] at hd
  cases hd

theorem owes_clean (h : n₀.Owes [] n) (id : NodeId) :
    n₀.Owes (n.graph.node id).observers (n.clean id) := by
  intro other call htype hobs
  rw [typeOf_clean] at htype
  rw [observers_clean] at hobs
  by_cases hid : other = id
  · exact .inr (.inr (hid ▸ hobs))
  · rcases h other call htype hobs with h | h | h
    · exact .inl (dirty_clean.mpr ⟨h, hid⟩)
    · exact .inr (.inl h)
    · cases h

theorem owes_retype {os : List Observer} {t : TypeId} (h : n₀.Owes os n) :
    n₀.Owes os (n.retype id t) := by
  by_cases hlt : id.index < n.graph.size
  · intro other call htype hobs
    by_cases hid : other = id
    · exact .inl (dirty_retype_of hlt (.inr hid))
    · rw [typeOf_retype_of_ne hid] at htype
      rw [observers_retype] at hobs
      exact (h other call htype hobs).imp_left fun h => dirty_retype_of hlt (.inl h)
  · -- a node that is not there is not retyped
    have hnode : ∀ other, (n.retype id t).graph.node other = n.graph.node other := fun other =>
      (FlowGraph.node_modify ..).trans (if_neg fun h => hlt h.2)
    intro other call
    rw [Dirty, FlowGraph.typeOf, hnode]
    exact h other call

theorem owes_derivedType {os : List Observer} (h : n₀.Owes os n) (id : NodeId) :
    n₀.Owes os (n.derivedType id).2 := by
  intro other call
  rw [Dirty, n.derivedType_graph id]
  exact h other call

end Network

namespace Binding
open Network
variable {n₀ n n' : Network} {id : NodeId}

theorem owes_refresh {os : List Observer} {changed : Bool} (ho : n₀.Owes os n)
    (h : (refresh id).Does n changed n') : n₀.Owes os n' := by
  rcases refresh_cases h with ⟨-, rfl, -⟩ | ⟨t, -, rfl, -⟩
  · exact owes_derivedType ho id
  · exact owes_retype (owes_derivedType ho id)

theorem owes_notify {o : Observer} {os : List Observer} (hq : n.graph.Queues)
    (ho : n₀.Owes (o :: os) n) (h : (notify o).Does n () n') : n₀.Owes os n' := by
  cases o with
  | node id =>
    obtain ⟨changed, h⟩ := does_notify_node.mp h
    refine owes_refresh (fun other call htype hobs => ?_) h
    rcases ho other call htype hobs with h | h | h
    · exact .inl h
    · exact .inr (.inl h)
    · exact .inr (.inr ((List.mem_cons.mp h).resolve_left nofun))
  | call call =>
    rw [does_notify_call] at h; subst h
    have hpending : (n.enqueue call).graph.pending = insertLast n.graph.pending call :=
      hq.pending_enqueue call
    intro other call' htype hobs
    rw [hpending, mem_insertLast]
    rcases ho other call' htype hobs with h | h | h
    · exact .inl h
    · exact .inr (.inl (.inl h))
    · rcases List.mem_cons.mp h with h | h
      · exact .inr (.inl (.inr (Observer.call.inj h)))
      · exact .inr (.inr h)

/-! ### The set of the calls that wait -/

theorem keeps_queues_refresh (id : NodeId) : Keeps (·.graph.Queues) (refresh id) :=
  keeps_refresh (fun n h => by rwa [n.derivedType_graph]) fun n _ h _ _ _ => by
    rw [← n.derivedType_graph id] at h
    exact h.congr ⟨rfl, rfl⟩

theorem keeps_queues_notify (o : Observer) : Keeps (·.graph.Queues) (notify o) :=
  keeps_notify (fun _ call h => h.enqueue call) keeps_queues_refresh o

theorem keeps_queues_propagate (id : NodeId) : Keeps (·.graph.Queues) (propagate id) :=
  keeps_propagate (J := (·.graph.Queues)) (fun _ _ h => h.congr ⟨rfl, rfl⟩)
    (fun _ call h => h.enqueue call) keeps_queues_refresh id

theorem keeps_queues_setType (id : NodeId) (type : TypeId) :
    Keeps (·.graph.Queues) (setType id type) :=
  keeps_setType (fun _ h _ _ => h.congr ⟨rfl, rfl⟩) (keeps_queues_propagate id)

theorem keeps_queues_bindNode (id : NodeId) (deps : List NodeId) :
    Keeps (·.graph.Queues) (bind id deps) :=
  keeps_bindNode (fun _ h => h.congr (FlowGraph.sameQueue_link ..)) (keeps_queues_refresh id)
    (keeps_queues_propagate id)

theorem owes_propagate (hq : n.graph.Queues) (ho : n₀.Owes [] n) (h : (propagate id).Does n () n') :
    n₀.Owes [] n' :=
  (settles_propagateWithin (O := fun os n => n.graph.Queues ∧ n₀.Owes os n)
    (fun _ id h => ⟨h.1.congr ⟨rfl, rfl⟩, owes_clean h.2 id⟩)
    (fun _ _ o _ h hd => ⟨(keeps_queues_notify o).does h.1 hd, owes_notify h.1 h.2 hd⟩) _ ⟨hq, ho⟩
    (does_propagate.mp h)).2

end Binding

/-! ### Calls that heed changes -/

namespace Network

/-- A call that observes a node goes on to do so, and it waits in the queue if it did so before or
if the node has got another type. -/
structure Heeds (call : ExprId) (n n' : Network) : Prop where
  observes : ∀ id, .call call ∈ (n.graph.node id).observers →
    .call call ∈ (n'.graph.node id).observers
  waits : call ∈ n.graph.pending → call ∈ n'.graph.pending
  tells : ∀ id, .call call ∈ (n.graph.node id).observers → n'.graph.typeOf id ≠ n.graph.typeOf id →
    call ∈ n'.graph.pending

variable {n n' n'' : Network} {call : ExprId} {id : NodeId}

namespace Heeds

/-- A change that observed nodes keep their types in. -/
theorem of_types (hobs : ∀ id, .call call ∈ (n.graph.node id).observers →
      .call call ∈ (n'.graph.node id).observers)
    (htypes : ∀ id, .call call ∈ (n.graph.node id).observers →
      n'.graph.typeOf id = n.graph.typeOf id)
    (hpending : call ∈ n.graph.pending → call ∈ n'.graph.pending) : Heeds call n n' :=
  ⟨hobs, hpending, fun id ho ht => absurd (htypes id ho) ht⟩

theorem of_graph_eq (h : n'.graph = n.graph) : Heeds call n n' :=
  of_types (fun _ ho => h ▸ ho) (fun _ _ => by rw [h]) fun hp => h ▸ hp

protected theorem refl (n : Network) : Heeds call n n := of_graph_eq rfl

theorem trans (h : Heeds call n n') (h' : Heeds call n' n'') : Heeds call n n'' where
  observes id ho := h'.observes id (h.observes id ho)
  waits hp := h'.waits (h.waits hp)
  tells id ho ht := by
    by_cases hm : n'.graph.typeOf id = n.graph.typeOf id
    · exact h'.tells id (h.observes id ho) (hm ▸ ht)
    · exact h'.waits (h.tells id ho hm)

end Heeds

/-- What is changed of the nodes are neither types nor calls among the observers. -/
theorem heeds_modify {f : FlowNode → FlowNode} (htype : ∀ node, (f node).type = node.type)
    (hobs : ∀ node call, .call call ∈ node.observers → Observer.call call ∈ (f node).observers)
    (n : Network) (id : NodeId) (call : ExprId) :
    Heeds call n { n with graph := n.graph.modify id f } := by
  refine .of_types (fun other ho => ?_)
    (fun other _ => FlowGraph.modify_field FlowNode.type htype) fun hp => hp
  show .call call ∈ ((n.graph.modify id f).node other).observers
  rw [FlowGraph.node_modify]
  split
  · rename_i h
    exact hobs _ call (h.1 ▸ ho)
  · exact ho

theorem quiet_modify {f : FlowNode → FlowNode} (hdirty : ∀ node, (f node).dirty = node.dirty)
    (h : n.Quiet) (id : NodeId) : Quiet { n with graph := n.graph.modify id f } :=
  ⟨fun other hd => h.unmarked other ((FlowGraph.modify_field FlowNode.dirty hdirty).symm.trans hd),
    h.queues.congr ⟨rfl, rfl⟩⟩

/-- A new node has no observers. -/
theorem heeds_push (n : Network) (node : FlowNode) (call : ExprId) :
    Heeds call n { n with graph := { n.graph with nodes := n.graph.nodes.push node } } := by
  have hold : ∀ id, .call call ∈ (n.graph.node id).observers →
      FlowGraph.node { n.graph with nodes := n.graph.nodes.push node }
        id = n.graph.node id := fun id ho => by
    have hne : id.index ≠ n.graph.nodes.size := fun heq => by
      rw [FlowGraph.node_of_le (Nat.le_of_eq heq.symm)] at ho
      cases ho
    simp [FlowGraph.node, Array.getElem?_push, hne]
  exact .of_types (fun id ho => (hold id ho).symm ▸ ho)
    (fun id ho => congrArg FlowNode.type (hold id ho)) fun hp => hp

theorem quiet_push {node : FlowNode} (hnode : node.dirty = false) (h : n.Quiet) :
    Quiet { n with graph := { n.graph with nodes := n.graph.nodes.push node } } := by
  refine ⟨fun id hd => ?_, h.queues.congr ⟨rfl, rfl⟩⟩
  by_cases hid : id.index = n.graph.nodes.size
  · have hnew : FlowGraph.node { n.graph with nodes := n.graph.nodes.push node } id = node := by
      simp [FlowGraph.node, hid]
    rw [Dirty, hnew, hnode] at hd
    cases hd
  · refine h.unmarked id ?_
    have hold : FlowGraph.node { n.graph with nodes := n.graph.nodes.push node } id =
        n.graph.node id := by
      simp [FlowGraph.node, Array.getElem?_push, hid]
    rwa [Dirty, hold] at hd

theorem heeds_unbind (n : Network) (id : NodeId) (deps : List NodeId) (call : ExprId) :
    Heeds call n { n with graph := n.graph.unbind id deps } := by
  refine .of_types (fun other ho => ?_) (fun _ _ => FlowGraph.typeOf_unbind deps) fun hp => ?_
  · exact (FlowGraph.mem_observers_unbind deps).mpr ho
  · exact (FlowGraph.pending_unbind ..).symm ▸ hp

theorem quiet_unbind (h : n.Quiet) (id : NodeId) (deps : List NodeId) :
    Quiet { n with graph := n.graph.unbind id deps } :=
  ⟨fun other hd => h.unmarked other ((FlowGraph.dirty_unbind deps).symm.trans hd),
    h.queues.congr (FlowGraph.sameQueue_unbind ..)⟩

theorem heeds_link (n : Network) (id : NodeId) (deps : List NodeId) (call : ExprId) :
    Heeds call n (n.link id deps) :=
  .of_types (fun _ ho => (FlowGraph.mem_observers_link deps).mpr (.inl ho))
    (fun _ _ => FlowGraph.typeOf_link deps) fun hp => (FlowGraph.pending_link ..).symm ▸ hp

theorem quiet_link (h : n.Quiet) (id : NodeId) (deps : List NodeId) : (n.link id deps).Quiet :=
  ⟨fun other hd => h.unmarked other
    ((FlowGraph.link_field FlowNode.dirty (fun _ _ => rfl) (fun _ _ => rfl) deps).symm.trans hd),
    h.queues.congr (FlowGraph.sameQueue_link ..)⟩

theorem quiet_nextCall {g : FlowGraph} (h : n.Quiet) (hnext : n.graph.nextCall? = some (call, g)) :
    Quiet { n with graph := g } := by
  refine ⟨fun id hd => h.unmarked id ?_, h.queues.nextCall hnext⟩
  obtain ⟨rest, -, rfl⟩ := FlowGraph.nextCall?_eq_some hnext
  exact hd

/-- Nothing is owed once no node is marked any more. -/
theorem heeds_of_owes (he : n.Extends n') (ho : n.Owes [] n') (hn : n'.Unmarked) (call : ExprId) :
    Heeds call n n' := by
  refine ⟨fun id h => he.observers id ▸ h, he.waits call, fun id hobs htype => ?_⟩
  rcases ho id call htype (he.observers id ▸ hobs) with h | h | h
  · exact absurd h (hn id)
  · exact h
  · cases h

end Network

namespace Binding
open Network
variable {n n' : Network} {id : NodeId}

theorem heeds_setType {type : TypeId} (hn : n.Quiet) (h : (setType id type).Does n () n') :
    (∀ call, Heeds call n n') ∧ n'.Quiet := by
  have he := (Extends.keeps_setType n id type).does (.refl n) h
  have hqueues := (keeps_queues_setType id type).does hn.queues h
  rw [does_setType] at h
  split at h
  · exact h ▸ ⟨fun _ => .refl n, hn⟩
  · have hunmarked : n'.Unmarked := fun d hd => by
      obtain ⟨hd, hne⟩ := dirty_propagateWithin _ (does_propagate.mp h.2) hd
      exact hne ((dirty_retype hd).resolve_left (hn.unmarked d))
    have hretyped : (n.retype id type).graph.Queues := hn.queues.congr ⟨rfl, rfl⟩
    have howes := owes_propagate hretyped (owes_retype (owes_self n [])) h.2
    exact ⟨heeds_of_owes he howes hunmarked, hunmarked, hqueues⟩

theorem heeds_bindNode {deps : List NodeId} (hn : n.Quiet) (h : (bind id deps).Does n () n') :
    (∀ call, Heeds call n n') ∧ n'.Quiet := by
  have he : (n.link id deps).Extends n' := by
    have := Extends.outcome_bindNode n id deps
    rwa [h] at this
  have hqueues := (keeps_queues_bindNode id deps).does hn.queues h
  have hlink := quiet_link hn id deps
  obtain ⟨changed, m, hm, h⟩ := does_bindNode.mp h
  have ho := owes_refresh (owes_self (n.link id deps) []) hm
  have hmqueues := (keeps_queues_refresh id).does hlink.queues hm
  suffices hend : (n.link id deps).Owes [] n' ∧ n'.Unmarked from
    ⟨fun call => (heeds_link n id deps call).trans (heeds_of_owes he hend.1 hend.2 call),
      hend.2, hqueues⟩
  cases changed with
  | false =>
    cases h
    exact ⟨ho, fun d hd => hlink.unmarked d (dirty_refresh_false hm hd)⟩
  | true =>
    refine ⟨owes_propagate hmqueues ho h, fun d hd => ?_⟩
    obtain ⟨hd, hne⟩ := dirty_propagateWithin _ (does_propagate.mp h) hd
    exact (dirty_refresh hm hd).elim (hlink.unmarked d) hne

end Binding

end TypeFlow

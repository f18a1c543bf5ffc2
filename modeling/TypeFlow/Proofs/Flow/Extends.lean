import TypeFlow.Proofs.Flow.Derived

/-!
# What propagation leaves as it is

However far a change is carried on, the nodes stay, with their edges and derivations, calls that
wait in the queue go on waiting, and the table of types only grows. `Network.Extends` says so of two
networks. What nodes prove as conditions is not carried on at all (`Network.SameGuards`).
-/

namespace TypeFlow

namespace Network

structure Extends (n n' : Network) : Prop where
  size : n'.graph.size = n.graph.size
  types : n.types.GrowsTo n'.types
  dependencies : ∀ id, (n'.graph.node id).dependencies = (n.graph.node id).dependencies
  derivation : ∀ id, (n'.graph.node id).derivation = (n.graph.node id).derivation
  observers : ∀ id, (n'.graph.node id).observers = (n.graph.node id).observers
  waits : ∀ call ∈ n.graph.pending, call ∈ n'.graph.pending

namespace Extends
variable {n m : Network}

theorem refl (n : Network) : n.Extends n :=
  ⟨rfl, .refl _, fun _ => rfl, fun _ => rfl, fun _ => rfl, fun _ h => h⟩

theorem clean (h : n.Extends m) (id : NodeId) : n.Extends (m.clean id) :=
  ⟨(FlowGraph.size_modify ..).trans h.size, h.types,
    fun other => dependencies_clean.trans (h.dependencies other),
    fun other => derivation_clean.trans (h.derivation other),
    fun other => observers_clean.trans (h.observers other), h.waits⟩

theorem retype (h : n.Extends m) (id : NodeId) (t : TypeId) : n.Extends (m.retype id t) :=
  ⟨(FlowGraph.size_modify ..).trans h.size, h.types,
    fun other => dependencies_retype.trans (h.dependencies other),
    fun other => derivation_retype.trans (h.derivation other),
    fun other => observers_retype.trans (h.observers other), h.waits⟩

theorem enqueue (h : n.Extends m) (call : ExprId) : n.Extends (m.enqueue call) :=
  ⟨h.size, h.types, h.dependencies, h.derivation, h.observers,
    fun other ho => FlowGraph.mem_pending_enqueue (h.waits other ho)⟩

theorem derivedType (h : n.Extends m) (id : NodeId) : n.Extends (m.derivedType id).2 := by
  have hgraph := m.derivedType_graph id
  refine ⟨by rw [hgraph, h.size], h.types.trans (growsTo_derivedType m id), fun other => ?_,
    fun other => ?_, fun other => ?_, by rw [hgraph]; exact h.waits⟩
  · rw [hgraph, h.dependencies]
  · rw [hgraph, h.derivation]
  · rw [hgraph, h.observers]

theorem keeps_refresh (n : Network) (id : NodeId) : Binding.Keeps n.Extends (Binding.refresh id) :=
  Binding.keeps_refresh (fun _ h => h.derivedType id) fun _ t h _ _ _ =>
    (h.derivedType id).retype id t

theorem keeps_propagate (n : Network) (id : NodeId) :
    Binding.Keeps n.Extends (Binding.propagate id) :=
  Binding.keeps_propagate (fun _ id h => h.clean id) (fun _ call h => h.enqueue call)
    (keeps_refresh n) id

theorem keeps_setType (n : Network) (id : NodeId) (t : TypeId) :
    Binding.Keeps n.Extends (Binding.setType id t) :=
  Binding.keeps_setType (fun _ h _ _ => h.retype id t) (keeps_propagate n id)

/-- Binding changes the dependencies of one node only. -/
theorem outcome_bindNode (n : Network) (id : NodeId) (deps : List NodeId) :
    (n.link id deps).Extends ((Binding.bind id deps).outcome n).2 := by
  unfold Binding.bind
  rw [Binding.outcome_bind]
  show (n.link id deps).Extends
    (((Binding.refresh id) >>= _ : Binding Unit).outcome (n.link id deps)).2
  refine Binding.Keeps.bind (keeps_refresh _ id) (fun changed => ?_) _ (.refl _)
  split
  · exact keeps_propagate _ id
  · exact Binding.keeps_pure ()

end Extends

/-! ### Guards -/

section
variable {n : Network} {id other : NodeId}

theorem guard_clean : (n.clean id).graph.guardOf other = n.graph.guardOf other :=
  FlowGraph.modify_field FlowNode.guard fun _ => rfl

theorem guard_retype {t : TypeId} : (n.retype id t).graph.guardOf other = n.graph.guardOf other :=
  FlowGraph.modify_field FlowNode.guard fun _ => rfl

end

/-- Nodes prove what they did. -/
def SameGuards (n n' : Network) : Prop := ∀ id, n'.graph.guardOf id = n.graph.guardOf id

namespace SameGuards
variable {n m : Network}

theorem clean (h : n.SameGuards m) (id : NodeId) : n.SameGuards (m.clean id) :=
  fun other => guard_clean.trans (h other)

theorem retype (h : n.SameGuards m) (id : NodeId) (t : TypeId) : n.SameGuards (m.retype id t) :=
  fun other => guard_retype.trans (h other)

theorem link (h : n.SameGuards m) (id : NodeId) (deps : List NodeId) :
    n.SameGuards (m.link id deps) :=
  fun other =>
    (FlowGraph.link_field FlowNode.guard (fun _ _ => rfl) (fun _ _ => rfl) deps).trans (h other)

theorem derivedType (h : n.SameGuards m) (id : NodeId) : n.SameGuards (m.derivedType id).2 :=
  fun other => by rw [m.derivedType_graph id]; exact h other

theorem keeps_refresh (n : Network) (id : NodeId) :
    Binding.Keeps n.SameGuards (Binding.refresh id) :=
  Binding.keeps_refresh (fun _ h => h.derivedType id) fun _ t h _ _ _ =>
    (h.derivedType id).retype id t

theorem keeps_propagate (n : Network) (id : NodeId) :
    Binding.Keeps n.SameGuards (Binding.propagate id) :=
  Binding.keeps_propagate (fun _ id h => h.clean id) (fun _ _ h => h) (keeps_refresh n) id

theorem outcome_setType (n : Network) (id : NodeId) (t : TypeId) :
    n.SameGuards ((Binding.setType id t).outcome n).2 :=
  Binding.keeps_setType (fun _ h _ _ => h.retype id t) (keeps_propagate n id) n fun _ => rfl

theorem outcome_bindNode (n : Network) (id : NodeId) (deps : List NodeId) :
    n.SameGuards ((Binding.bind id deps).outcome n).2 :=
  Binding.keeps_bindNode (fun _ h => h.link id deps) (keeps_refresh n id)
    (keeps_propagate n id) n fun _ => rfl

end SameGuards

end Network

end TypeFlow

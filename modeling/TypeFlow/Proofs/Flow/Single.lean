import TypeFlow.Proofs.Flow.Idle
import TypeFlow.Proofs.Flow.Orderly

/-!
# Nodes that depend on one other

A node that passes on the type of another has that type from when it is bound, and none as long as
the other has none (`Binding.typeOf_bind_vacant`). Where only calls hear of it, nothing else changes
then (`Binding.typeOf_bind_of_ne`).
-/

namespace TypeFlow

theorem FlowGraph.dependencies_link_of_nil {g : FlowGraph} {id d : NodeId}
    (h : (g.node id).dependencies = []) (hid : id.index < g.size) :
    ((g.link id [d]).node id).dependencies = [d] := by
  rw [link, List.foldl_cons, List.foldl_nil, addDependency, addObserver,
    modify_field FlowNode.dependencies, node_modify_self hid, h]
  · rfl
  · exact fun _ => rfl

namespace Network
variable {n n' : Network} {id d : NodeId} {type : TypeId} {t : Types}

theorem joinOfDependencies_single (h : (n.graph.node id).dependencies = [d]) :
    joinOfDependencies n.graph t id = (n.graph.typeOf d, t) := by
  unfold joinOfDependencies
  rw [h]

theorem Lawful.typeOf_eq (h : n.Lawful id) (hdeps : (n.graph.node id).dependencies = [d])
    (hderivation : (n.graph.node id).derivation = .identity)
    (htype : n.graph.typeOf d = some type) : n.graph.typeOf id = some type := by
  obtain ⟨t, ht⟩ := h
  refine ht.type type ?_
  rw [FlowGraph.deriveIn, joinOfDependencies_single hdeps, htype, hderivation]
  rfl

end Network

namespace Binding
open Network
variable {n n' : Network} {id d : NodeId}

/-- A type may be replaced by another, but it is never taken away. -/
theorem keeps_typed_bind (d id : NodeId) (deps : List NodeId) :
    Keeps (·.graph.typeOf d ≠ none) (bind id deps) := by
  have hrefresh : ∀ other, Keeps (·.graph.typeOf d ≠ none) (refresh other) := fun other => by
    refine keeps_refresh (fun n h => by rwa [n.derivedType_graph]) fun n t h _ _ _ => ?_
    rw [retype, n.derivedType_graph, FlowGraph.typeOf, FlowGraph.node_modify]
    split
    · rintro ⟨⟩
    · exact h
  have hpropagate : Keeps (·.graph.typeOf d ≠ none) (propagate id) :=
    keeps_propagate (fun n other h => by rwa [typeOf_clean]) (fun _ _ h => h) hrefresh id
  refine keeps_bindNode (fun n h => ?_) (hrefresh id) hpropagate
  show (n.graph.link id deps).typeOf d ≠ none
  rwa [FlowGraph.typeOf_link]

/-- A vacant node that is bound to one other has the type of that, and none as long as that has
none. -/
theorem typeOf_bind_vacant (h : n.graph.Vacant id) (hid : id.index < n.graph.size)
    (hderivation : (n.graph.node id).derivation = .identity) (hd : (bind id [d]).Does n () n')
    (hlawful : n'.Lawful id) :
    (n'.graph.node id).dependencies = [d] ∧ n'.graph.typeOf id = n'.graph.typeOf d := by
  have hext := Extends.outcome_bindNode n id [d]
  rw [show (bind id [d]).outcome n = _ from hd] at hext
  have hlink : ((n.link id [d]).graph.node id).dependencies = [d] :=
    FlowGraph.dependencies_link_of_nil h.dependencies hid
  have hdeps : (n'.graph.node id).dependencies = [d] := (hext.dependencies id).trans hlink
  refine ⟨hdeps, ?_⟩
  rcases htype : n'.graph.typeOf d with _ | type
  · -- then the other node had no type before either, so that nothing has been derived
    have hnone : n.graph.typeOf d = none := by
      by_contra htyped
      exact (keeps_typed_bind d id [d]).does htyped hd htype
    have hderived : ((n.link id [d]).derivedType id).1 = none := by
      rw [derivedType_eq, FlowGraph.deriveIn, joinOfDependencies_single hlink]
      rw [show (n.link id [d]).graph.typeOf d = none from (FlowGraph.typeOf_link [d]).trans hnone]
    obtain ⟨changed, m, hrefresh, hrest⟩ := does_bindNode.mp hd
    rcases refresh_cases hrefresh with ⟨rfl, rfl, -⟩ | ⟨type, -, -, hsome, -⟩
    · rw [← show _ = n' from hrest, derivedType_graph]
      exact (FlowGraph.typeOf_link [d]).trans h.type
    · rw [hderived] at hsome
      cases hsome
  · refine hlawful.typeOf_eq hdeps ?_ htype
    refine (hext.derivation id).trans (Eq.trans ?_ hderivation)
    exact FlowGraph.link_field FlowNode.derivation (fun _ _ => rfl) (fun _ _ => rfl) [d]

/-- Where only calls hear of a change no other types change: the calls wait from now on. -/
theorem typeOf_propagate_of_calls {other : NodeId}
    (hcalls : ∀ o ∈ (n.graph.node id).observers, ∃ call, o = .call call)
    (hd : (propagate id).Does n () n') : n'.graph.typeOf other = n.graph.typeOf other := by
  have hkeeps : ∀ {f : Observer → Binding Unit},
      (∀ call, Keeps (·.graph.typeOf other = n.graph.typeOf other) (f (.call call))) →
        Keeps (·.graph.typeOf other = n.graph.typeOf other)
          ((n.graph.node id).observers.forM f) := fun hf =>
    Keeps.forM fun o ho => by
      obtain ⟨call, rfl⟩ := hcalls o ho
      exact hf call
  replace hd := does_propagate.mp hd
  generalize n.propagationFuel = fuel at hd
  cases fuel with
  | zero => cases hd
  | succ fuel =>
    rw [does_propagateWithin] at hd
    split at hd
    · obtain ⟨m, hnotify, hcarry⟩ := hd
      have hwaits : ∀ call, Keeps (·.graph.typeOf other = n.graph.typeOf other)
          (notify (.call call)) := fun _ _ h => h
      exact (hkeeps fun _ => keeps_pure ()).does ((hkeeps hwaits).does typeOf_clean hnotify) hcarry
    · rw [hd]

/-- A node that only calls observe is bound, and no other types change. -/
theorem typeOf_bind_of_ne {other : NodeId} (hid : d ≠ id)
    (hcalls : ∀ o ∈ (n.graph.node id).observers, ∃ call, o = .call call)
    (hd : (bind id [d]).Does n () n') (hother : other ≠ id) :
    n'.graph.typeOf other = n.graph.typeOf other := by
  have hlink : (n.link id [d]).graph.typeOf other = n.graph.typeOf other :=
    FlowGraph.typeOf_link [d]
  obtain ⟨changed, m, hrefresh, hrest⟩ := does_bindNode.mp hd
  rcases refresh_cases hrefresh with ⟨rfl, rfl, -⟩ | ⟨type, rfl, rfl, -, -, -⟩
  · rw [← show _ = n' from hrest, derivedType_graph, hlink]
  · refine (typeOf_propagate_of_calls (fun o ho => ?_) hrest).trans ?_
    · rw [observers_retype, derivedType_graph] at ho
      rcases (FlowGraph.mem_observers_link [d]).mp ho with ho | ⟨hmem, -, -⟩
      · exact hcalls o ho
      · exact absurd (List.mem_singleton.mp hmem).symm hid
    · rw [typeOf_retype_of_ne hother, derivedType_graph, hlink]

end Binding

/-! ### Nodes that give their type -/

/-- The node has the type and depends on nothing. -/
structure FlowGraph.Gives (g : FlowGraph) (type : TypeId) (node : NodeId) : Prop where
  typed : g.typeOf node = some type
  dependencies : (g.node node).dependencies = []

theorem FlowGraph.gives_addTyped (g : FlowGraph) (type : TypeId) :
    (g.addTyped type).2.Gives type (g.addTyped type).1 := by
  have hnode : (g.addTyped type).2.node ⟨g.size⟩ = { type := some type } := by
    simp [addTyped, node, size]
  exact ⟨congrArg FlowNode.type hnode, congrArg FlowNode.dependencies hnode⟩

namespace FlowGraph.Gives
open Network
variable {n : Network} {node id : NodeId} {type t : TypeId}

theorem lt (h : n.graph.Gives type node) : node.index < n.graph.size := lt_of_typeOf h.typed

theorem derivedType_eq_none (h : n.graph.Gives type node) : (n.derivedType node).1 = none := by
  rw [derivedType_eq, deriveIn_of_isEmpty _ h.dependencies]

theorem retype (h : n.graph.Gives type node) (hne : node ≠ id) :
    (n.retype id t).graph.Gives type node :=
  ⟨(typeOf_retype_of_ne hne).trans h.typed, dependencies_retype.trans h.dependencies⟩

theorem link (h : n.graph.Gives type node) (hne : node ≠ id) (deps : List NodeId) :
    (n.link id deps).graph.Gives type node :=
  ⟨(typeOf_link deps).trans h.typed, (dependencies_link_of_ne hne deps).trans h.dependencies⟩

theorem clean (h : n.graph.Gives type node) (id : NodeId) : (n.clean id).graph.Gives type node :=
  ⟨typeOf_clean.trans h.typed, dependencies_clean.trans h.dependencies⟩

/-- Nothing is derived for such a node, so that propagation leaves it as it is. -/
theorem keeps_refresh (node : NodeId) (type : TypeId) (id : NodeId) :
    Binding.Keeps (·.graph.Gives type node) (Binding.refresh id) := by
  refine Binding.keeps_refresh (fun n h => by rwa [n.derivedType_graph])
    fun n t h hderived _ _ => ?_
  have hne : node ≠ id := fun heq => by
    rw [← heq, h.derivedType_eq_none] at hderived
    cases hderived
  refine retype ?_ hne
  rwa [n.derivedType_graph]

theorem keeps_propagate (node : NodeId) (type : TypeId) (id : NodeId) :
    Binding.Keeps (·.graph.Gives type node) (Binding.propagate id) :=
  Binding.keeps_propagate (fun _ id h => h.clean id) (fun _ _ h => ⟨h.typed, h.dependencies⟩)
    (keeps_refresh node type) id

theorem keeps_bind (hne : node ≠ id) (type : TypeId) (deps : List NodeId) :
    Binding.Keeps (·.graph.Gives type node) (Binding.bind id deps) :=
  Binding.keeps_bindNode (fun _ h => h.link hne deps) (keeps_refresh node type id)
    (keeps_propagate node type id)

theorem keeps_setType (hne : node ≠ id) (type t : TypeId) :
    Binding.Keeps (·.graph.Gives type node) (Binding.setType id t) :=
  Binding.keeps_setType (fun _ h _ _ => h.retype hne) (keeps_propagate node type id)

end FlowGraph.Gives

namespace Network
variable {n n' : Network} {d id : NodeId} {type : TypeId}

/-- The node passes on what another gives. -/
structure Passes (n : Network) (d id : NodeId) (type : TypeId) : Prop where
  dependencies : (n.graph.node id).dependencies = [d]
  derivation : (n.graph.node id).derivation = .identity
  gives : n.graph.Gives type d

namespace Passes

theorem congr (h : n.Passes d id type) (hgives : n'.graph.Gives type d)
    (hdeps : (n'.graph.node id).dependencies = (n.graph.node id).dependencies)
    (hderivation : (n'.graph.node id).derivation = (n.graph.node id).derivation) :
    n'.Passes d id type :=
  ⟨hdeps.trans h.dependencies, hderivation.trans h.derivation, hgives⟩

theorem derivedType_self (h : n.Passes d id type) : (n.derivedType id).1 = some type := by
  rw [derivedType_eq, FlowGraph.deriveIn, joinOfDependencies_single h.dependencies,
    h.gives.typed, h.derivation]
  rfl

theorem derivedType (h : n.Passes d id type) (other : NodeId) :
    (n.derivedType other).2.Passes d id type := by
  have hgraph := n.derivedType_graph other
  refine h.congr ?_ ?_ ?_ <;> rw [hgraph]
  exact h.gives

/-- Propagation leaves the node with the type. -/
theorem keeps_propagate (other : NodeId) :
    Binding.Keeps (fun n => n.Passes d id type ∧ n.graph.typeOf id = some type)
      (Binding.propagate other) := by
  have hrefresh : ∀ node, Binding.Keeps (fun n => n.Passes d id type ∧
      n.graph.typeOf id = some type)
      (Binding.refresh node) := fun node => by
    refine Binding.keeps_refresh
      (fun n h => ⟨h.1.derivedType node, by rw [n.derivedType_graph]; exact h.2⟩)
      fun n t h hderived hother _ => ?_
    have hsource : d ≠ node := fun heq => by
      rw [← heq, h.1.gives.derivedType_eq_none] at hderived
      cases hderived
    have hself : node ≠ id := fun heq => by
      rw [heq, h.1.derivedType_self] at hderived
      cases hderived
      exact hother (heq ▸ h.2)
    have hp := h.1.derivedType node
    refine ⟨hp.congr (hp.gives.retype hsource) dependencies_retype derivation_retype, ?_⟩
    rw [typeOf_retype_of_ne hself.symm, n.derivedType_graph]
    exact h.2
  refine Binding.keeps_propagate (fun n node h => ⟨?_, ?_⟩)
    (fun n call h => ⟨?_, h.2⟩) hrefresh other
  · exact h.1.congr (h.1.gives.clean node) dependencies_clean derivation_clean
  · exact typeOf_clean.trans h.2
  · exact h.1.congr ⟨h.1.gives.typed, h.1.gives.dependencies⟩ rfl rfl

end Passes

end Network

/-- A node that depends on nothing is bound to one that gives its type. -/
theorem Binding.passes_bind {n n' : Network} {id d : NodeId} {type : TypeId}
    (hid : id.index < n.graph.size) (hdeps : (n.graph.node id).dependencies = [])
    (hderivation : (n.graph.node id).derivation = .identity) (hne : d ≠ id)
    (hgives : n.graph.Gives type d) (hd : (Binding.bind id [d]).Does n () n') :
    n'.Passes d id type ∧ n'.graph.typeOf id = some type := by
  have hlink : (n.link id [d]).Passes d id type := by
    refine ⟨FlowGraph.dependencies_link_of_nil hdeps hid, ?_, hgives.link hne [d]⟩
    exact (FlowGraph.link_field FlowNode.derivation (fun _ _ => rfl) (fun _ _ => rfl)
      [d]).trans hderivation
  obtain ⟨changed, m, hrefresh, hrest⟩ := does_bindNode.mp hd
  have hp := hlink.derivedType id
  rcases refresh_cases hrefresh with ⟨rfl, rfl, hsame⟩ | ⟨t, rfl, rfl, hderived, -, -⟩
  · rw [← show _ = n' from hrest]
    refine ⟨hp, ?_⟩
    rw [Network.derivedType_graph]
    exact hsame type hlink.derivedType_self
  · rw [hlink.derivedType_self] at hderived
    cases hderived
    refine (Network.Passes.keeps_propagate id).does ⟨?_, ?_⟩ hrest
    · exact hp.congr (hp.gives.retype hne) Network.dependencies_retype Network.derivation_retype
    · refine congrArg FlowNode.type (FlowGraph.node_modify_self ?_)
      rw [Network.derivedType_graph]
      exact Nat.lt_of_lt_of_eq hid (FlowGraph.size_link ..).symm

end TypeFlow

import TypeFlow.Proofs.Flow.Resting

/-!
# Edits of a network

The changes that a flow graph is built with, one after the other: new nodes, edges, types given to
nodes without dependencies, observing calls, and freezing. Between two edits a network is `Calm`: no
node is marked, so that every node is settled. `Edited.consistent` says this of every sequence of
edits that were all carried through, in terms of what the derivations demand.
-/

namespace TypeFlow

inductive Edit where
  | addNode (derivation : Derivation)
  | bind (id : NodeId) (deps : List NodeId)
  | freeze (id : NodeId)
  | observe (id : NodeId) (call : ExprId)
  | setType (id : NodeId) (type : TypeId)

namespace Edit

def perform : Edit → Binding Unit
  | .addNode derivation => Binding.modifyGraph fun g => (g.addNode derivation).2
  | .bind id deps => Binding.bind id deps
  | .freeze id => Binding.modifyGraph fun g => g.freeze id
  | .observe id call => Binding.modifyGraph fun g => g.addObserver id (.call call)
  | .setType id type => Binding.setType id type

/-- The edit speaks of nodes and types of the network only, and gives a type directly to a node
that was never given dependencies. -/
def Allowed (n : Network) : Edit → Prop
  | .addNode derivation => ∀ t ∈ derivation.targets, t.index < n.types.size
  | .bind id deps => id.index < n.graph.size ∧ ∀ d ∈ deps, d.index < n.graph.size
  | .freeze _ | .observe _ _ => True
  | .setType id type => (n.graph.node id).dependencies = [] ∧ type.index < n.types.size

instance (n : Network) : (e : Edit) → Decidable (e.Allowed n)
  | .addNode _ => inferInstanceAs (Decidable (∀ _ ∈ _, _))
  | .bind _ _ => inferInstanceAs (Decidable (_ ∧ _))
  | .freeze _ | .observe _ _ => .isTrue trivial
  | .setType _ _ => inferInstanceAs (Decidable (_ ∧ _))

end Edit

namespace Network
variable {n n' : Network} {id : NodeId}

/-- Nothing waits to be carried on. -/
structure Calm (n : Network) : Prop where
  linked : n.WellLinked
  settled : ∀ id, n.Settled id
  clean : ∀ id, ¬ n.Dirty id

theorem calm_iff : n.Calm ↔ n.Resting [] :=
  ⟨fun h => ⟨h.linked, fun id => .inl (h.settled id), h.clean⟩,
    fun h => ⟨h.linked, fun id => (h.settled id).resolve_right (by simp), h.clean⟩⟩

/-- Only nodes that depend on a node observe it. -/
def Observed (n : Network) : Prop :=
  ∀ id d, .node id ∈ (n.graph.node d).observers → d ∈ (n.graph.node id).dependencies

theorem Observed.of_extends (h : n.Observed) (he : n.Extends n') : n'.Observed := fun id d ho =>
  (he.dependencies id).symm ▸ h id d (he.observers d ▸ ho)

theorem Observed.modify {f : FlowNode → FlowNode} (h : n.Observed)
    (hdeps : ∀ node, (f node).dependencies = node.dependencies)
    (hobs : ∀ node id, .node id ∈ (f node).observers → Observer.node id ∈ node.observers) :
    Observed { n with graph := n.graph.modify id f } := by
  intro other d ho
  rw [show ((n.graph.modify id f).node other).dependencies = _ from
    FlowGraph.modify_field FlowNode.dependencies hdeps]
  refine h other d ?_
  rw [FlowGraph.node_modify] at ho
  split at ho
  · rename_i heq; exact heq.1 ▸ hobs _ _ ho
  · exact ho

theorem Observed.addNode (h : n.Observed) (derivation : Derivation) :
    Observed { n with graph := (n.graph.addNode derivation).2 } := by
  intro id d ho
  rw [FlowGraph.node_addNode] at ho
  split at ho
  · cases ho
  · have hd := h id d ho
    rw [FlowGraph.node_addNode]
    split
    · rw [FlowGraph.node_of_le (Nat.le_of_eq (Eq.symm ‹_›))] at hd; cases hd
    · exact hd

theorem Observed.link {deps : List NodeId} (h : n.Observed) (hid : id.index < n.graph.size) :
    (n.link id deps).Observed := fun other d ho =>
  (FlowGraph.mem_dependencies_link deps).mpr
    (((FlowGraph.mem_observers_link deps).mp ho).imp (h other d) fun ho =>
    ⟨Observer.node.inj ho.2.2, hid, ho.1⟩)

end Network

namespace Binding
open Network
variable {n n' : Network} {id : NodeId}

theorem calm_bindNode {deps : List NodeId} (hn : n.Calm)
    (hdeps : ∀ d ∈ deps, d.index < n.graph.size) (h : (bind id deps).Does n () n') : n'.Calm :=
  calm_iff.mpr (resting_bindNode (calm_iff.mp hn) hdeps h)

theorem calm_setType {type : TypeId} (hn : n.Calm) (hid : (n.graph.node id).dependencies = [])
    (ht : type.index < n.types.size) (h : (setType id type).Does n () n') : n'.Calm :=
  calm_iff.mpr (resting_setType (calm_iff.mp hn) hid ht h)

end Binding

namespace Edit
open Network
variable {e : Edit} {n n' : Network}

theorem calm_perform (hn : n.Calm) (he : e.Allowed n) (h : e.perform.Does n () n') : n'.Calm := by
  have hr := calm_iff.mp hn
  cases e <;> rw [perform] at h
  case addNode derivation => rw [Binding.does_modifyGraph.mp h]; exact calm_iff.mpr (hr.addNode he)
  case bind id deps => exact Binding.calm_bindNode hn he.2 h
  case freeze id =>
    rw [Binding.does_modifyGraph.mp h]
    refine calm_iff.mpr (hr.modify ?_ ?_ ?_ (fun _ _ ho => ho) ?_) <;> exact fun _ => rfl
  case observe id call =>
    rw [Binding.does_modifyGraph.mp h]
    refine calm_iff.mpr (hr.modify ?_ ?_ ?_ (fun _ _ ho => mem_insertLast.mpr (.inl ho)) ?_) <;>
      exact fun _ => rfl
  case setType id type => exact Binding.calm_setType hn he.1 he.2 h

theorem observed_perform (hn : n.Observed) (he : e.Allowed n) (h : e.perform.Does n () n') :
    n'.Observed := by
  cases e <;> rw [perform] at h
  case addNode derivation => rw [Binding.does_modifyGraph.mp h]; exact hn.addNode derivation
  case bind id deps =>
    have hext := Extends.outcome_bindNode n id deps
    rw [h] at hext
    exact (hn.link he.1).of_extends hext
  case freeze id =>
    rw [Binding.does_modifyGraph.mp h]
    exact hn.modify (fun _ => rfl) fun _ _ ho => ho
  case observe id call =>
    rw [Binding.does_modifyGraph.mp h]
    exact hn.modify (fun _ => rfl) fun _ _ ho => (mem_insertLast.mp ho).resolve_right nofun
  case setType id type =>
    exact hn.of_extends ((Extends.keeps_setType n id type).does (.refl n) h)

end Edit

/-- The networks that edits which were all carried through make of the empty graph over a table.
Between two edits the table may grow by itself. -/
inductive Edited (t : Types) : Network → Prop where
  | start : Edited t ⟨t, .empty⟩
  | step {n n' : Network} {e : Edit} :
      Edited t n → e.Allowed n → e.perform.Does n () n' → Edited t n'
  | grow {n : Network} {t' : Types} :
      Edited t n → n.types.GrowsTo t' → t'.Closed → Edited t { n with types := t' }

namespace Edited
open Network
variable {t : Types} {n : Network}

theorem calm (ht : t.Closed) (h : Edited t n) : n.Calm := by
  induction h with
  | start => exact calm_iff.mpr (.empty ht)
  | step _ he hdo ih => exact Edit.calm_perform ih he hdo
  | grow _ ht' hc ih => exact calm_iff.mpr ((calm_iff.mp ih).grow ht' hc)

theorem observed (h : Edited t n) : n.Observed := by
  induction h with
  | start =>
    intro id d ho
    rw [show FlowGraph.empty.node d = default from FlowGraph.node_of_le (Nat.zero_le _)] at ho
    cases ho
  | step _ he hdo ih => exact Edit.observed_perform ih he hdo
  | grow _ _ _ ih => exact ih

/-- Edits one after the other, each allowed and carried through. -/
def performAll : List Edit → Network → Option Network
  | [], n => some n
  | e :: es, n =>
    if e.Allowed n then
      match e.perform.outcome n with
      | (.ok (), n') => performAll es n'
      | (.error _, _) => none
    else none

theorem performAll_edited {es : List Edit} {n' : Network} (h : Edited t n)
    (hes : performAll es n = some n') : Edited t n' := by
  induction es generalizing n with
  | nil => cases hes; exact h
  | cons e es ih =>
    rw [performAll] at hes
    split at hes
    · split at hes
      · exact ih (h.step ‹_› ‹_›) hes
      · cases hes
    · cases hes

/-- After any sequence of edits that were all carried through, no node is marked, edges are known
at both ends, and every node has the type that its derivation demands, if it demands one. -/
theorem consistent (ht : t.Closed) (h : Edited t n) :
    (∀ id, (n.graph.node id).dirty = false) ∧
    (∀ id d, d ∈ (n.graph.node id).dependencies ↔ .node id ∈ (n.graph.node d).observers) ∧
    ∀ id type, n.Demands id type → n.graph.typeOf id = some type := by
  have hc := h.calm ht
  exact ⟨fun id => Bool.eq_false_iff.mpr (hc.clean id), fun id d =>
    ⟨hc.linked.edges id d, h.observed id d⟩,
    fun id type hd => (hc.settled id).type type (demands_iff.mp hd)⟩

/-- A node that points to the join of two types, one of which came before the edges. -/
theorem consistent_pointer : ∃ n, Types.initial.Closed ∧ Edited .initial n ∧
    n.graph.typeOf ⟨2⟩ = some ⟨26⟩ ∧ n.types.kind ⟨26⟩ = .applied .pointer [⟨25⟩] ∧
    n.types.kind ⟨25⟩ = .union [.int32, .float64] ∧
    ((∀ id, (n.graph.node id).dirty = false) ∧
      (∀ id d, d ∈ (n.graph.node id).dependencies ↔ .node id ∈ (n.graph.node d).observers) ∧
      ∀ id type, n.Demands id type → n.graph.typeOf id = some type) := by
  have hall : (performAll [.addNode .identity, .addNode .identity, .addNode .pointerOf,
      .observe ⟨2⟩ ⟨0⟩, .setType ⟨0⟩ .int32, .bind ⟨2⟩ [⟨0⟩, ⟨1⟩], .setType ⟨1⟩ .float64]
      ⟨.initial, .empty⟩).any (fun n => n.graph.typeOf ⟨2⟩ = some ⟨26⟩ ∧
        n.types.kind ⟨26⟩ = .applied .pointer [⟨25⟩] ∧
        n.types.kind ⟨25⟩ = .union [.int32, .float64]) = true := by decide +kernel
  obtain ⟨n, hn, h⟩ := (Option.any_eq_true _ _).mp hall
  have hedited := performAll_edited (start (t := .initial)) hn
  obtain ⟨h2, hpointer, hunion⟩ := of_decide_eq_true h
  exact ⟨n, Types.closed_initial, hedited, h2, hpointer, hunion,
    consistent Types.closed_initial hedited⟩

end Edited

end TypeFlow

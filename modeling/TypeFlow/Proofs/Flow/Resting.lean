import TypeFlow.Proofs.Flow.Extends
import TypeFlow.Proofs.Flow.Settled

/-!
# Networks at rest

Between two changes a network is at rest: no node is marked, and every node is settled. A node that
gets its type when the untyped ones are filled does not notify anybody, though, so that the nodes
that depend on it may be left unsettled: `Resting filled` excuses those that depend on a node of
`filled`.
-/

namespace TypeFlow

namespace Network
variable {n n' : Network} {id : NodeId} {filled : List NodeId}

/-- Between two changes: no node is marked, and every node meets the condition. -/
structure AtRest (W : Network → Prop) (P : Network → NodeId → Prop) (n : Network) : Prop where
  linked : W n
  steady : ∀ id, P n id
  clean : ∀ id, ¬ n.Dirty id

namespace Steady
open Binding
variable {W : Network → Prop} {P : Network → NodeId → Prop}

/-- Nodes may be excused, as long as that depends on no more than what they derive their types
from. -/
theorem or (h : Steady W P) {E : Network → NodeId → Prop}
    (he : ∀ {n n' : Network} {id : NodeId}, n.SameSources n' id → E n id → E n' id) :
    Steady W fun n id => P n id ∨ E n id where
  edges := h.edges
  keeps_clean := h.keeps_clean
  keeps_enqueue := h.keeps_enqueue
  keeps_derivedType := h.keeps_derivedType
  keeps_retype := h.keeps_retype
  congr hw hp ht hs htype := hp.imp (fun hp => h.congr hw hp ht hs htype) (he hs)
  derived hw ht hs htype := .inl (h.derived hw ht hs htype)

theorem of_isEmpty (h : Steady W P) (hw : W n) (hid : (n.graph.node id).dependencies = []) :
    P n id := by
  have hnone := FlowGraph.deriveIn_of_isEmpty n.types hid
  exact h.derived hw (by rw [hnone]; exact .refl _) ⟨rfl, rfl, fun _ _ => rfl⟩ fun t ht => by
    rw [hnone] at ht; cases ht

/-- Propagation from the only marked node comes to rest. -/
theorem propagate (h : Steady W P) (hw : W n) (hc : n.Covered P []) (hd : ∀ d, n.Dirty d → d = id)
    (hdo : (propagate id).Does n () n') : AtRest W P n' := by
  have hw' := (h.keeps_propagate id).does hw hdo
  rw [does_propagate] at hdo
  have hclean : ∀ d, ¬ n'.Dirty d := fun d hdirty => by
    obtain ⟨hdirty, hne⟩ := dirty_propagateWithin _ hdo hdirty
    exact hne (hd d hdirty)
  refine ⟨hw', fun other => ?_, hclean⟩
  exact (h.covered_propagateWithin _ hw hc hdo other).resolve_right fun hcov =>
    hcov.elim (fun ⟨d, _, hdirty⟩ => hclean d hdirty) nofun

/-- Only the node that is bound may be unsettled before. -/
theorem bindNode {deps : List NodeId} (h : Steady W P) (hw : W n) (hlink : W (n.link id deps))
    (hothers : ∀ other, other ≠ id → P n other) (hclean : ∀ d, ¬ n.Dirty d)
    (hdo : (bind id deps).Does n () n') : AtRest W P n' := by
  have hcovered : (n.link id deps).Covered P [.node id] := fun other => by
    by_cases hid : other = id
    · exact .inr (.inr (by simp [hid]))
    · refine .inl (h.congr hw (hothers other hid) (.refl _) ⟨?_, ?_, fun d _ => ?_⟩
        (FlowGraph.typeOf_link deps))
      · exact FlowGraph.dependencies_link_of_ne (g := n.graph) hid deps
      · exact FlowGraph.link_field FlowNode.derivation (fun _ _ => rfl) (fun _ _ => rfl) deps
      · exact FlowGraph.typeOf_link deps
  have hclean' : ∀ d, ¬ (n.link id deps).Dirty d := fun d hd => hclean d
    ((FlowGraph.link_field FlowNode.dirty (fun _ _ => rfl) (fun _ _ => rfl) deps).symm.trans hd)
  obtain ⟨changed, m, hm, hdo⟩ := does_bindNode.mp hdo
  have hwm := (h.keeps_refresh id).does hlink hm
  have hcm := h.covered_refresh hlink hcovered hm
  cases changed with
  | false =>
    cases hdo
    exact ⟨hwm, fun other => (hcm other).resolve_right fun hcov => hcov.elim
      (fun ⟨d, _, hd⟩ => hclean' d (dirty_refresh_false hm hd)) nofun,
      fun d hd => hclean' d (dirty_refresh_false hm hd)⟩
  | true =>
    exact h.propagate hwm hcm (fun d hd => (dirty_refresh hm hd).resolve_left (hclean' d)) hdo

/-- The node that is given a type has to be settled with that type. -/
theorem setType {type : TypeId} (h : Steady W P) (hn : AtRest W P n) (hw : W (n.retype id type))
    (hid : P (n.retype id type) id) (hdo : (setType id type).Does n () n') : AtRest W P n' := by
  rw [does_setType] at hdo
  split at hdo
  · exact hdo ▸ hn
  · refine h.propagate hw (fun other => ?_)
      (fun d hd => (dirty_retype hd).resolve_left (hn.clean d)) hdo.2
    by_cases hdep : id ∈ (n.graph.node other).dependencies
    · have hlt := (h.edges hn.linked).lt_of_mem hdep
      exact .inr (.inl ⟨id, by rwa [dependencies_retype], dirty_retype_of hlt (.inr rfl)⟩)
    · by_cases heq : other = id
      · exact .inl (heq ▸ hid)
      · exact .inl (h.retype hn.linked (hn.steady other) heq hdep)

/-- A change that nothing is derived from. -/
theorem atRest (h : Steady W P) (hn : AtRest W P n) (hw : W n') (ht : n.types.GrowsTo n'.types)
    (hs : ∀ id, n.SameSources n' id) (htype : ∀ id, n'.graph.typeOf id = n.graph.typeOf id)
    (hdirty : ∀ id, n'.Dirty id → n.Dirty id) : AtRest W P n' :=
  ⟨hw, fun id => h.congr hn.linked (hn.steady id) ht (hs id) (htype id), fun id hd =>
    hn.clean id (hdirty id hd)⟩

end Steady

/-- No node is marked, and every node is settled that depends on none of the `filled` ones. -/
structure Resting (n : Network) (filled : List NodeId) : Prop where
  linked : n.WellLinked
  settled : ∀ id, n.Settled id ∨ ∃ d ∈ (n.graph.node id).dependencies, d ∈ filled
  clean : ∀ id, ¬ n.Dirty id

theorem resting_iff : n.Resting filled ↔
    AtRest WellLinked (fun n id => n.Settled id ∨
      ∃ d ∈ (n.graph.node id).dependencies, d ∈ filled) n :=
  ⟨fun h => ⟨h.linked, h.settled, h.clean⟩, fun h => ⟨h.linked, h.steady, h.clean⟩⟩

theorem steady_excused (filled : List NodeId) :
    Steady WellLinked fun n id => n.Settled id ∨ ∃ d ∈ (n.graph.node id).dependencies, d ∈ filled :=
  steady_settled.or fun hs ⟨d, hd, hf⟩ => ⟨d, hs.dependencies ▸ hd, hf⟩

/-- The nodes that have no type. -/
def untyped (n : Network) : List NodeId :=
  ((List.range n.graph.size).map NodeId.mk).filter fun id => n.graph.typeOf id = none

theorem mem_untyped : id ∈ n.untyped ↔ id.index < n.graph.size ∧ n.graph.typeOf id = none := by
  simp only [untyped, List.mem_filter, List.mem_map, List.mem_range, decide_eq_true_eq]
  exact and_congr_left fun _ => ⟨fun ⟨_, h, heq⟩ => heq ▸ h, fun h => ⟨id.index, h, rfl⟩⟩

theorem lt_of_typeOf {t : TypeId} (h : n.graph.typeOf id = some t) : id.index < n.graph.size := by
  refine Nat.lt_of_not_le fun hle => ?_
  rw [FlowGraph.typeOf, FlowGraph.node_of_le hle] at h; cases h

namespace Resting

theorem grow {t : Types} (h : n.Resting filled) (ht : n.types.GrowsTo t) (hc : t.Closed) :
    Resting { n with types := t } filled :=
  resting_iff.mpr ((steady_excused filled).atRest (resting_iff.mp h) (h.linked.grow rfl ht hc) ht
    (fun _ => ⟨rfl, rfl, fun _ _ => rfl⟩) (fun _ => rfl) fun _ hd => hd)

theorem empty {t : Types} (ht : t.Closed) : Resting ⟨t, .empty⟩ [] := by
  have hnode : ∀ id, FlowGraph.empty.node id = default :=
    fun id => FlowGraph.node_of_le (Nat.zero_le _)
  refine ⟨⟨ht, fun id t h => ?_, fun id t h => ?_, fun id d h => ?_⟩,
    fun id => .inl (settled_of_isEmpty (by simp only [hnode]; rfl)), fun id h => ?_⟩
  · simp only [FlowGraph.typeOf, hnode] at h; cases h
  · simp only [hnode] at h; cases h
  · simp only [hnode] at h; cases h
  · simp only [Dirty, hnode] at h; cases h

/-- A change of the nodes in what propagation does not look at. -/
theorem modify {f : FlowNode → FlowNode} (h : n.Resting filled)
    (htype : ∀ node, (f node).type = node.type)
    (hderiv : ∀ node, (f node).derivation = node.derivation)
    (hdeps : ∀ node, (f node).dependencies = node.dependencies)
    (hobs : ∀ node, ∀ o ∈ node.observers, o ∈ (f node).observers)
    (hdirty : ∀ node, (f node).dirty = node.dirty) :
    Resting { n with graph := n.graph.modify id f } filled :=
  resting_iff.mpr ((steady_excused filled).atRest (resting_iff.mp h)
    (h.linked.modify (fun node _ ht => .inl (htype node ▸ ht)) hderiv hdeps hobs) (.refl _)
    (fun _ => ⟨FlowGraph.modify_field FlowNode.dependencies hdeps,
      FlowGraph.modify_field FlowNode.derivation hderiv,
      fun _ _ => FlowGraph.modify_field FlowNode.type htype⟩)
    (fun _ => FlowGraph.modify_field FlowNode.type htype)
    fun _ hd => (FlowGraph.modify_field FlowNode.dirty hdirty).symm.trans hd)

theorem addNode {derivation : Derivation} (h : n.Resting filled)
    (ht : ∀ t ∈ derivation.targets, t.index < n.types.size) :
    Resting { n with graph := (n.graph.addNode derivation).2 } filled := by
  -- the new node was the default node before it was there
  have hold : ∀ id : NodeId, id.index = n.graph.size → n.graph.node id = default := fun id hid =>
    FlowGraph.node_of_le (Nat.le_of_eq hid.symm)
  have hfield : ∀ {β : Type} (field : FlowNode → β) (id : NodeId),
      field { derivation } = field default →
      field ((n.graph.addNode derivation).2.node id) = field (n.graph.node id) := by
    intro β field id hf
    rw [FlowGraph.node_addNode]
    split
    · rw [hf, hold id ‹_›]
    · rfl
  have hdeps := fun id => hfield FlowNode.dependencies id rfl
  have htype := fun id => hfield FlowNode.type id rfl
  refine ⟨⟨h.linked.closed, fun id t hid => ?_, fun id t hid => ?_, fun id d hd => ?_⟩,
    fun id => ?_, fun id hd => h.clean id ((hfield FlowNode.dirty id rfl).symm.trans hd)⟩
  · exact h.linked.typed id t ((htype id).symm.trans hid)
  · simp only [FlowGraph.node_addNode] at hid
    split at hid
    · exact ht t hid
    · exact h.linked.targets id t hid
  · rw [hfield FlowNode.observers d rfl]
    exact h.linked.edges id d (hdeps id ▸ hd)
  · by_cases hid : id.index = n.graph.size
    · exact .inl (settled_of_isEmpty ((hdeps id).trans (by rw [hold id hid]; rfl)))
    · refine (h.settled id).imp (fun hs => ?_) fun ⟨d, hd, hf⟩ => ⟨d, (hdeps id).symm ▸ hd, hf⟩
      refine hs.congr h.linked (.refl _) (hdeps id) ?_ (fun d _ => htype d) (htype id)
      simp only [FlowGraph.node_addNode, if_neg hid]

theorem of_nodes_eq {g : FlowGraph} (h : n.Resting filled) (hg : g.nodes = n.graph.nodes) :
    Resting { n with graph := g } filled := by
  have hnode : ∀ id, g.node id = n.graph.node id :=
    fun id => by rw [FlowGraph.node, FlowGraph.node, hg]
  have htype : ∀ id, g.typeOf id = n.graph.typeOf id := fun id => congrArg FlowNode.type (hnode id)
  refine resting_iff.mpr ((steady_excused filled).atRest (resting_iff.mp h)
    ⟨h.linked.closed, fun id t ht => h.linked.typed id t (htype id ▸ ht),
      fun id t ht => ?_, fun id d hd => ?_⟩
    (.refl _) (fun id => ⟨congrArg _ (hnode id), congrArg _ (hnode id), fun d _ => htype d⟩) htype
      fun id => ?_)
  · exact h.linked.targets id t (hnode id ▸ ht)
  · rw [hnode] at hd ⊢; exact h.linked.edges id d hd
  · simp only [Dirty, hnode]; exact fun h => h

/-- Filling the untyped nodes can unsettle only those that depend on them. -/
theorem settleUntyped {bottom : TypeId} (h : n.Resting filled) (hb : bottom.index < n.types.size) :
    Resting { n with graph := (n.graph.settleUntyped bottom).2 } (n.untyped ++ filled) := by
  have hsize : (n.graph.settleUntyped bottom).2.size ≤ n.graph.size :=
    Nat.le_of_eq (FlowGraph.size_settleUntyped ..)
  have hdeps := n.graph.dependencies_settleUntyped bottom
  have hderiv := n.graph.derivation_settleUntyped bottom
  have hobs := n.graph.settleUntyped_field FlowNode.observers (fun _ _ => rfl) bottom
  have hdirty := n.graph.settleUntyped_field FlowNode.dirty (fun _ _ => rfl) bottom
  refine ⟨⟨h.linked.closed, fun id t ht => ?_, fun id t ht =>
    h.linked.targets id t (hderiv id ▸ ht), fun id d hd => ?_⟩,
    fun id => ?_, fun id hd => h.clean id ((hdirty id).symm.trans hd)⟩
  · rcases Nat.lt_or_ge id.index n.graph.size with hlt | hle
    · rw [FlowGraph.typeOf, FlowGraph.node_settleUntyped bottom hlt] at ht
      cases htype : (n.graph.node id).type with
      | none => rw [htype] at ht; cases ht; exact hb
      | some t' => rw [htype] at ht; cases ht; exact h.linked.typed id _ htype
    · rw [FlowGraph.typeOf, FlowGraph.node_of_le (Nat.le_trans hsize hle)] at ht; cases ht
  · exact hobs d ▸ h.linked.edges id d (hdeps id ▸ hd)
  · simp only [hdeps, List.mem_append]
    by_cases hfill : ∃ d ∈ (n.graph.node id).dependencies, d ∈ n.untyped ∨ d ∈ filled
    · exact .inr hfill
    · have hs := (h.settled id).resolve_right fun hf => hfill (hf.imp fun _ hd => hd.imp_right .inr)
      have htyped : ∀ {d t}, n.graph.typeOf d = some t →
          (n.graph.settleUntyped bottom).2.typeOf d = some t := fun ht =>
        FlowGraph.typeOf_settleUntyped (lt_of_typeOf ht) ht
      refine .inl (settled_of_deriveIn h.linked (hs.types.symm ▸ .refl _) ?_ fun t ht =>
        htyped (hs.type t ht))
      refine FlowGraph.deriveIn_congr _ (hdeps id) (hderiv id) fun d hd => ?_
      cases ht : n.graph.typeOf d with
      | some t => exact htyped ht
      | none =>
        exact absurd ⟨d, hd,
          .inl (mem_untyped.mpr ⟨FlowGraph.Tied.lt_of_mem h.linked.edges hd, ht⟩)⟩ hfill

end Resting

end Network

namespace Binding
open Network
variable {n n' : Network} {id : NodeId} {filled : List NodeId}

theorem resting_bindNode {deps : List NodeId} (hn : n.Resting filled)
    (hdeps : ∀ d ∈ deps, d.index < n.graph.size) (h : (bind id deps).Does n () n') :
    n'.Resting filled :=
  resting_iff.mpr ((steady_excused filled).bindNode hn.linked (hn.linked.link hdeps)
    (fun other _ => hn.settled other) hn.clean h)

theorem resting_setType {type : TypeId} (hn : n.Resting filled)
    (hid : (n.graph.node id).dependencies = []) (ht : type.index < n.types.size)
    (h : (setType id type).Does n () n') : n'.Resting filled :=
  resting_iff.mpr ((steady_excused filled).setType (resting_iff.mp hn) (hn.linked.retype ht)
    (.inl (settled_of_isEmpty (by rw [dependencies_retype, hid]))) h)

end Binding

end TypeFlow

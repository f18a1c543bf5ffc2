import TypeFlow.Proofs.Inference.Course.Changes

/-!
# Expressions keep their derivations

Every expression gets a node that derives its type as the construct asks for, and no change of a run
takes this from it.
-/

namespace TypeFlow

namespace Program
variable {p p' : Program}

/-- The node of an expression derives its type as the construct asks for. -/
structure Formed (p : Program) : Prop where
  lt : ∀ id : ExprId, id.index < p.exprs.size → (p.nodeOf id).index < p.graph.size
  derivation : ∀ id : ExprId, id.index < p.exprs.size →
    (p.graph.node (p.nodeOf id)).derivation = derivationOf (p.construct id)

theorem formed_initial : initial.Formed := ⟨nofun, nofun⟩

theorem Formed.later (h : p.Formed) (hl : p.Later p')
    (hderivation : ∀ node : NodeId, node.index < p.graph.size →
      (p'.graph.node node).derivation = (p.graph.node node).derivation)
    (hnew : ∀ id : ExprId, p.exprs.size ≤ id.index → id.index < p'.exprs.size →
      (p'.nodeOf id).index < p'.graph.size ∧
        (p'.graph.node (p'.nodeOf id)).derivation = derivationOf (p'.construct id)) :
    p'.Formed := by
  have hold : ∀ id : ExprId, id.index < p.exprs.size → (p'.nodeOf id).index < p'.graph.size ∧
      (p'.graph.node (p'.nodeOf id)).derivation = derivationOf (p'.construct id) := fun id hid => by
    rw [hl.nodeOf_eq id hid]
    refine ⟨Nat.lt_of_lt_of_le (h.lt id hid) hl.nodes_le, ?_⟩
    rw [hderivation _ (h.lt id hid), h.derivation id hid]
    rcases hl.construct id hid with heq | ⟨items, count, hitems, hfewer⟩
    · rw [heq]
    · rw [hitems, hfewer]
      rfl
  have hall : ∀ id : ExprId, id.index < p'.exprs.size → (p'.nodeOf id).index < p'.graph.size ∧
      (p'.graph.node (p'.nodeOf id)).derivation = derivationOf (p'.construct id) := fun id hid => by
    rcases Nat.lt_or_ge id.index p.exprs.size with hlt | hge
    · exact hold id hlt
    · exact hnew id hge hid
  exact ⟨fun id hid => (hall id hid).1, fun id hid => (hall id hid).2⟩

theorem Formed.addExpr (h : p.Formed) (construct : Construct ExprId) (location : Option Location) :
    (p.addExpr construct location).2.Formed := by
  refine h.later (later_addExpr ..) (fun node hnode => ?_) fun id hge hlt => ?_
  · exact ((FlowGraph.keepsNodes_addNode ..).nodes node hnode).2.2
  · rw [size_addExpr] at hlt
    have hid : id.index = p.exprs.size := Nat.le_antisymm (Nat.le_of_lt_succ hlt) hge
    rw [nodeOf, Program.construct, expr_addExpr, if_pos hid]
    refine ⟨?_, ?_⟩
    · show p.graph.size < (p.graph.addNode (derivationOf construct)).2.size
      rw [FlowGraph.size_addNode]
      exact Nat.lt_succ_self _
    · show ((p.graph.addNode (derivationOf construct)).2.node ⟨p.graph.size⟩).derivation = _
      rw [FlowGraph.node_addNode, if_pos rfl]

end Program

namespace Infer
variable {tools : Set Toolchain} {s s' : WalkState} {deed : Deed} {deeds : List Deed}

theorem Change.derivation_eq (h : Change tools deed s s') {node : NodeId}
    (hnode : node.index < s.program.graph.size) :
    (s'.program.graph.node node).derivation = (s.program.graph.node node).derivation := by
  have hnew : ∀ derivation, ((s.program.graph.addNode derivation).2.node node).derivation =
      (s.program.graph.node node).derivation := fun derivation =>
    ((FlowGraph.keepsNodes_addNode s.program.graph derivation).nodes node hnode).2.2
  cases h with
  | add | addNode | breakNode | instanceVar => exact hnew _
  | addValue _ type =>
    exact ((FlowGraph.keepsNodes_addTyped s.program.graph type).nodes node hnode).2.2
  | bind _ id deps =>
    refine ((Network.Extends.outcome_bindNode s.program.toNetwork id deps).derivation node).trans ?_
    exact FlowGraph.link_field FlowNode.derivation (fun _ _ => rfl) (fun _ _ => rfl) deps
  | setType _ id type =>
    exact (Network.Extends.keeps_setType s.program.toNetwork id type _ (.refl _)).derivation node
  | freeze | observe | prove | store =>
    exact FlowGraph.modify_field FlowNode.derivation fun _ => rfl
  | unbind => exact FlowGraph.derivation_unbind _
  | take hnext =>
    obtain ⟨rest, -, rfl⟩ := FlowGraph.nextCall?_eq_some hnext
    rfl
  | settle => exact FlowGraph.derivation_settleUntyped ..
  | note hnote => cases hnote <;> rfl
  | _ => rfl

theorem Change.formed (h : Change tools deed s s') (hs : s.program.Formed) : s'.program.Formed := by
  by_cases hsize : s'.program.exprs.size = s.program.exprs.size
  · exact hs.later h.later (fun _ => h.derivation_eq) fun id hge hlt =>
      absurd hlt (Nat.not_lt.mpr (hsize ▸ hge))
  · cases h with
    | add _ construct location => exact hs.addExpr construct location
    | drop => exact absurd (Program.size_truncate ..) hsize
    | note hnote => cases hnote <;> exact absurd rfl hsize
    | _ => exact absurd rfl hsize

theorem Course.formed (h : Course tools s deeds s') (hs : s.program.Formed) :
    s'.program.Formed := by
  induction h with
  | nil => exact hs
  | cons hchange _ ih => exact ih (hchange.formed hs)

end Infer

end TypeFlow

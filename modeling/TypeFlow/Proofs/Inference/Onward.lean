import TypeFlow.Proofs.Flow.Frozen
import TypeFlow.Proofs.Inference.Reached

/-!
# What is fixed for the rest of a run

`s.Onward s'`: the run may come from `s` to `s'`, whatever is walked, resolved or evaluated
meanwhile, and whichever regions are entered and left. An expression whose node is frozen with a
type has that type in every state that follows (`Onward.typeOf_eq`), up to the last phase and after
it.
-/

namespace TypeFlow
open Network

theorem Network.FrozenAt.push {n : Network} {id : NodeId} {type : TypeId} (h : FrozenAt id type n)
    (node : FlowNode) (types : Types) :
    FrozenAt id type ⟨types, { n.graph with nodes := n.graph.nodes.push node }⟩ := by
  have hnode : FlowGraph.node { n.graph with nodes := n.graph.nodes.push node } id =
      n.graph.node id := by
    rw [FlowGraph.node_push, if_neg (Nat.ne_of_lt h.lt)]
  exact ⟨hnode ▸ h.frozen, (congrArg FlowNode.type hnode).trans h.typed⟩

namespace WalkState
variable {s s' : WalkState} {node : NodeId} {type : TypeId} {held : NodeId → Prop}

/-- The node is frozen and has the type. -/
abbrev Fixed (node : NodeId) (type : TypeId) (s : WalkState) : Prop :=
  FrozenAt node type s.program.toNetwork

theorem Fixed.of_graph_eq (h : Fixed node type s) (hg : s'.program.graph = s.program.graph) :
    Fixed node type s' :=
  FrozenAt.of_nodes_eq h (congrArg FlowGraph.nodes hg)

theorem fixed_freeze (h : s.program.graph.typeOf node = some type) :
    Fixed node type (s.withProgram (s.program.modifyGraph (·.freeze node))) := by
  have htype : (s.program.graph.freeze node).typeOf node = s.program.graph.typeOf node :=
    FlowGraph.modify_field FlowNode.type fun _ => rfl
  refine ⟨?_, htype.trans h⟩
  show ((s.program.graph.modify node _).node node).frozen = true
  rw [FlowGraph.node_modify, if_pos ⟨rfl, Network.lt_of_typeOf (n := s.program.toNetwork) h⟩]

end WalkState

namespace Infer
open WalkState
variable {setting : Setting} {kept : Kept} {ok : Bool} {s s' : WalkState}
  {node : NodeId} {type : TypeId}

theorem Act.fixed (h : Act kept ok s s') (hs : Fixed node type s) : Fixed node type s' := by
  cases h with
  | touch h =>
    cases h with
    | setGuard => exact hs.modify (fun _ hf => hf) fun _ => rfl
    | freeze => exact hs.modify (fun _ _ => rfl) fun _ => rfl
    | observe => exact hs.modify (fun _ hf => hf) fun _ => rfl
  | note h => cases h <;> exact hs.of_graph_eq rfl
  | method owner key definition =>
    refine hs.of_graph_eq ?_
    unfold Program.addMethod
    dsimp only
    split <;> rfl
  | addExpr | addNode | addValue | «instance» => exact hs.push _ _
  | derive | bindSlot => exact Binding.keeps_frozenAt_bind _ _ _ hs
  | giveType | fixResult => exact Binding.keeps_frozenAt_setType _ _ _ hs
  | instanceVar owner name =>
    unfold Program.instanceVarNode
    split
    · exact hs
    · exact hs.push _ _
  | breakNode block =>
    unfold Program.breakNodeOf
    split
    · exact hs
    · exact hs.push _ _
  | _ => exact hs.of_graph_eq rfl

theorem CallAct.fixed {call : ExprId} (h : CallAct call ok s s') (hs : Fixed node type s) :
    Fixed node type s' := by
  cases h with
  | stay => exact hs
  | take hnext =>
    obtain ⟨rest, -, rfl⟩ := FlowGraph.nextCall?_eq_some hnext
    exact FrozenAt.of_nodes_eq hs rfl
  | rebind targets =>
    exact Binding.keeps_frozenAt_bind _ _ _
      (hs.unbind (s.program.nodeOf call) ((s.memo.targets.get? call).getD []))

/-- By induction on the run. -/
theorem Runs.fixed (h : Runs setting kept ok s s') (hs : Fixed node type s) :
    Fixed node type s' := by
  induction h with
  | refl | failed => exact hs
  | act h => exact h.fixed hs
  | trans _ _ ih ih' => exact ih' (ih hs)
  | evaluation _ _ ih => exact (ih (hs.of_graph_eq rfl)).of_graph_eq rfl
  | region r _ _ ih => exact (ih (hs.of_graph_eq rfl)).of_graph_eq rfl
  | resolution h _ h' _ ih => exact h'.fixed (ih (h.fixed hs))
  | visit scope _ _ _ _ ih ih' => exact ih' (ih (hs.of_graph_eq rfl))

end Infer

namespace WalkState

/-- What may come after a state. A region is left by going back to the frame from which it was
entered. -/
inductive Onward (s : WalkState) : WalkState → Prop where
  | refl : Onward s s
  | runs {setting : Setting} {kept : Infer.Kept} {ok : Bool} {s' s'' : WalkState} : Onward s s' →
      Infer.Runs setting kept ok s' s'' → Onward s s''
  | enter {s' : WalkState} (r : Infer.Region) : Onward s s' → r.Fits s' →
      Onward s (s'.withFrame (r.enter s'.frame))
  | evaluate {s' : WalkState} (id : ConstantId) : Onward s s' →
      Onward s (s'.withProgram (s'.program.beginConstant id))
  | evaluated {s' : WalkState} (id : ConstantId) : Onward s s' →
      Onward s (s'.withProgram (s'.program.endConstant id))
  | visit {s' : WalkState} (call : ExprId) (scope : TypeId) : Onward s s' →
      Onward s (s'.withProgram (s'.program.noteScope call scope))
  | call {s' s'' : WalkState} {call : ExprId} {ok : Bool} : Onward s s' →
      Infer.CallAct call ok s' s'' → Onward s s''
  | lower {s' : WalkState} (tree : Tree) : Onward s s' →
      Onward s (s'.withProgram (s'.program.lower tree).2)
  | settle {s' : WalkState} : Onward s s' → Onward s (s'.withProgram s'.program.settleUntyped.2)

namespace Onward
variable {s s' : WalkState} {node : NodeId} {type : TypeId} {held : NodeId → Prop}

theorem runs_lower (s : WalkState) (tree : Tree) :
    Infer.Runs ⟨.standard, {}⟩ none true s (s.withProgram (s.program.lower tree).2) :=
  Infer.runs_adds (s.program.adds_lower tree).1

theorem of_goes {α : Type} {setting : Setting} {kept : Infer.Kept} {x : Infer α}
    {Q : α → WalkState → Prop} {a : α} (h : Infer.Goes setting kept s x Q)
    (hd : x.Does setting s a s') : s.Onward s' :=
  .runs .refl (h.does hd).1

theorem trans {s'' : WalkState} (h : s.Onward s') (h' : s'.Onward s'') : s.Onward s'' := by
  induction h' with
  | refl => exact h
  | runs _ hr ih => exact .runs ih hr
  | enter r _ hr ih => exact .enter r ih hr
  | evaluate id _ ih => exact .evaluate id ih
  | evaluated id _ ih => exact .evaluated id ih
  | visit call scope _ ih => exact .visit call scope ih
  | call _ hc ih => exact .call ih hc
  | lower tree _ ih => exact .lower tree ih
  | settle _ ih => exact .settle ih

theorem sound (h : s.Onward s') (hs : s.Sound held) : s.Later s' ∧ s'.Sound held := by
  have hnext : ∀ {s' s'' : WalkState}, s.Later s' ∧ s'.Sound held →
      (s'.Sound held → s'.Later s'' ∧ s''.Sound held) → s.Later s'' ∧ s''.Sound held :=
    fun ⟨hl, hs'⟩ hstep => ⟨hl.trans (hstep hs').1, (hstep hs').2⟩
  induction h with
  | refl => exact ⟨.refl _, hs⟩
  | runs _ hr ih => exact hnext ih hr.sound
  | enter r _ hr ih => exact hnext ih fun hs' => ⟨.withFrame .., r.sound_enter hr hs'⟩
  | evaluate id _ ih =>
    exact hnext ih fun hs' => hs'.withProgram (hs'.program.beginConstant id).1
      (hs'.program.beginConstant id).2
  | evaluated id _ ih =>
    exact hnext ih fun hs' => hs'.withProgram (hs'.program.endConstant id).1
      (hs'.program.endConstant id).2
  | visit call scope _ ih =>
    exact hnext ih fun hs' => hs'.withProgram (hs'.program.noteScope call scope).1
      (hs'.program.noteScope call scope).2
  | call _ h ih => exact hnext ih h.sound
  | lower tree _ ih => exact hnext ih (runs_lower _ tree).sound
  | settle _ ih =>
    exact hnext ih fun hs' =>
      hs'.withProgram hs'.program.settleUntyped.1 hs'.program.settleUntyped.2

theorem fixed (h : s.Onward s') (hs : Fixed node type s) : Fixed node type s' := by
  induction h with
  | refl => exact hs
  | runs _ hr ih => exact hr.fixed ih
  | enter | evaluate | evaluated | visit => exact Fixed.of_graph_eq ‹_› rfl
  | call _ h ih => exact h.fixed ih
  | lower tree _ ih => exact (runs_lower _ tree).fixed ih
  | settle _ ih => exact ih.settleUntyped .noReturn

/-- An expression that is fixed keeps its type. -/
theorem typeOf_eq (h : s.Onward s') (hs : s.Sound fun _ => False) {id : ExprId} (hid : s.Has id)
    (hfixed : Fixed (s.program.nodeOf id) type s) : s'.program.typeOf id = some type := by
  have hnode := (h.sound hs).1.program.nodeOf_eq id hid
  exact (congrArg s'.program.graph.typeOf hnode).trans (h.fixed hfixed).typed

end Onward

end WalkState

end TypeFlow

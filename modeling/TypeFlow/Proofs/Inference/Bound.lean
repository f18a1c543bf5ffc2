import TypeFlow.Proofs.Inference.Heeded
import TypeFlow.Proofs.Inference.Going

/-!
# What calls are bound to

The node of a call depends on the targets that are recorded for it (`Runs.bound`), and on nothing
else but itself, if a pointer is taken to its value. This does not hold of calls that are expanded,
nor of those that stand where a parameter of a block should.
-/

namespace TypeFlow

/-- Nothing but resolution binds the call. -/
structure Program.LeavesToResolution (p : Program) (call : ExprId) : Prop where
  isCall : (p.construct call).isCall = true
  unexpanded : p.expansions.get? call = none
  parameter : ¬ p.IsParameter call

/-- A node is bound to others in the place of some that it depends on. -/
theorem Network.mem_dependencies_rebind (n : Network) {id : NodeId} (hid : id.index < n.graph.size)
    (previous targets : List NodeId) (other d : NodeId) :
    d ∈ (((Binding.bind id targets).outcome
        { n with graph := n.graph.unbind id previous }).2.graph.node other).dependencies ↔
      if other = id then (d ∈ (n.graph.node id).dependencies ∧ d ∉ previous) ∨ d ∈ targets
      else d ∈ (n.graph.node other).dependencies := by
  have hext :=
    Network.Extends.outcome_bindNode { n with graph := n.graph.unbind id previous } id targets
  rw [hext.dependencies]
  refine (FlowGraph.mem_dependencies_link targets).trans ?_
  split
  · rename_i h
    rw [h, FlowGraph.dependencies_unbind_self hid, FlowGraph.size_unbind]
    simp [hid]
  · rename_i hne
    rw [FlowGraph.dependencies_unbind_of_ne hne]
    exact or_iff_left fun h => hne h.1

namespace WalkState
open Infer
variable {s s' : WalkState} {held : NodeId → Prop} {call : ExprId}

/-- The targets of a call are what its node depends on. -/
structure Bound (call : ExprId) (s : WalkState) : Prop where
  fresh : ¬ s.Has call → s.memo.targets.get? call = none
  deps : s.Has call → s.program.LeavesToResolution call → ∀ d, d ≠ s.program.nodeOf call →
    (d ∈ (s.program.graph.node (s.program.nodeOf call)).dependencies ↔
      d ∈ (s.memo.targets.get? call).getD [])

theorem leavesToResolution_of_later (hl : s.Later s') (hid : s.Has call)
    (hexpanded : s.program.expansions.get? call ≠ none → s'.program.expansions.get? call ≠ none)
    (h : s'.program.LeavesToResolution call) : s.program.LeavesToResolution call where
  isCall := (hl.program.construct call hid).isCall_eq.symm.trans h.isCall
  unexpanded := Decidable.not_not.mp (mt hexpanded (not_not_intro h.unexpanded))
  parameter := mt hl.program.isParameter h.parameter

namespace Bound

/-- The targets stay, and so does what the node of the call depends on. -/
theorem later (h : s.Bound call) (hl : s.Later s')
    (hsize : s'.program.exprs.size = s.program.exprs.size)
    (htargets : s'.memo.targets.get? call = s.memo.targets.get? call)
    (hexpanded : s.program.expansions.get? call ≠ none → s'.program.expansions.get? call ≠ none)
    (hdeps : s.Has call → s.program.LeavesToResolution call → ∀ d, d ≠ s.program.nodeOf call →
      (d ∈ (s'.program.graph.node (s.program.nodeOf call)).dependencies ↔
        d ∈ (s.program.graph.node (s.program.nodeOf call)).dependencies)) : s'.Bound call := by
  have hhas : s'.Has call ↔ s.Has call := by unfold WalkState.Has; rw [hsize]
  refine ⟨fun hid => htargets.trans (h.fresh (mt hhas.mpr hid)), fun hid hleft d hd => ?_⟩
  have hid := hhas.mp hid
  have hleft := leavesToResolution_of_later hl hid hexpanded hleft
  rw [hl.program.nodeOf_eq call hid] at hd ⊢
  rw [htargets, hdeps hid hleft d hd]
  exact h.deps hid hleft d hd

theorem keepsNodes (h : s.Bound call) (hs : s.Sound held) (hl : s.Later s')
    (hg : s.program.graph.KeepsNodes s'.program.graph)
    (hsize : s'.program.exprs.size = s.program.exprs.size)
    (htargets : s'.memo.targets = s.memo.targets)
    (hexpanded : s.program.expansions.get? call ≠ none → s'.program.expansions.get? call ≠ none) :
    s'.Bound call :=
  h.later hl hsize (by rw [htargets]) hexpanded fun hid _ d _ => by
    rw [(hg.nodes _ (hs.program.node_lt call hid)).2.1]

/-- Neither expressions nor nodes are changed. -/
theorem of_graph_eq (h : s.Bound call) (hl : s.Later s')
    (hgraph : s'.program.graph = s.program.graph) (hexprs : s'.program.exprs = s.program.exprs)
    (htargets : s'.memo.targets = s.memo.targets)
    (hexpansions : s'.program.expansions = s.program.expansions) : s'.Bound call :=
  h.later hl (by rw [hexprs]) (by rw [htargets]) (fun he => hexpansions.symm ▸ he)
    fun _ _ _ _ => by rw [hgraph]

theorem addExpr {construct : Construct ExprId} (h : s.Bound call) (hs : s.Sound held)
    (location : Option Location) :
    (s.withProgram (s.program.addExpr construct location).2).Bound call := by
  have hl := Program.later_addExpr s.program construct location
  refine ⟨fun hid => h.fresh fun hold => hid (hl.lt hold), fun hid hleft d hd => ?_⟩
  by_cases hold : s.Has call
  · have hl' : s.Later (s.withProgram (s.program.addExpr construct location).2) :=
      ⟨hl, fun _ _ h => h⟩
    have hleft := leavesToResolution_of_later hl' hold (fun he => he) hleft
    have hnode := hl.nodeOf_eq call hold
    have hkeeps := FlowGraph.keepsNodes_addNode s.program.graph (Program.derivationOf construct)
    rw [WalkState.withProgram_program, hnode] at hd ⊢
    have hsame := (hkeeps.nodes _ (hs.program.node_lt call hold)).2.1
    exact (iff_of_eq (congrArg (d ∈ ·) hsame)).trans (h.deps hold hleft d hd)
  · -- a new expression has a new node, which depends on nothing
    have hnew : call.index = s.program.exprs.size := by
      have hlt : call.index < s.program.exprs.size + 1 :=
        Nat.lt_of_lt_of_eq hid (Program.size_addExpr ..)
      exact Nat.le_antisymm (Nat.le_of_lt_succ hlt) (Nat.le_of_not_lt hold)
    have hnode : (s.program.addExpr construct location).2.nodeOf call = ⟨s.program.graph.size⟩ := by
      rw [Program.nodeOf, Program.expr_addExpr, if_pos hnew]
    rw [WalkState.withProgram_program, WalkState.withProgram_memo, hnode, h.fresh hold]
    have hdeps : ((s.program.addExpr construct location).2.graph.node
        ⟨s.program.graph.size⟩).dependencies = [] := by
      show ((s.program.graph.addNode (Program.derivationOf construct)).2.node
        ⟨s.program.graph.size⟩).dependencies = []
      rw [FlowGraph.node_addNode, if_pos rfl]
    rw [hdeps]
    simp

/-- A call is bound to nothing but itself, unless it is resolved. -/
theorem bind {node : NodeId} {deps : List NodeId} (h : s.Bound call) (hs : s.Sound held)
    (hne : node ≠ Program.nilNode)
    (hself : s.Has call → s.program.LeavesToResolution call → s.program.nodeOf call = node →
      ∀ dep ∈ deps, dep = node) :
    (s.withProgram (afterwards s.program (Binding.bind node deps))).Bound call := by
  have hext := Network.Extends.outcome_bindNode s.program.toNetwork node deps
  have hl : s.Later (s.withProgram (afterwards s.program (Binding.bind node deps))) :=
    ⟨(hs.program.bind hne deps).1, fun _ _ h => h⟩
  refine h.later hl rfl rfl (fun he => he) fun hid hleft d hd => ?_
  have hmem := (iff_of_eq (congrArg (d ∈ ·) (hext.dependencies (s.program.nodeOf call)))).trans
    (FlowGraph.mem_dependencies_link deps)
  refine hmem.trans (or_iff_left fun ⟨hnode, _, hdep⟩ => hd ?_)
  rw [hself hid hleft hnode d hdep, hnode]

theorem setType {node : NodeId} {type : TypeId} (h : s.Bound call) (hs : s.Sound held)
    (hne : node ≠ Program.nilNode) (hheld : ¬ held node) :
    (s.withProgram (afterwards s.program (Binding.setType node type))).Bound call := by
  have hext := Network.Extends.keeps_setType s.program.toNetwork node type _ (.refl _)
  have hl : s.Later (s.withProgram (afterwards s.program (Binding.setType node type))) :=
    ⟨(hs.program.setType hne hheld type).1, fun _ _ h => h⟩
  exact h.later hl rfl rfl (fun he => he) fun _ _ d _ =>
    iff_of_eq (congrArg (d ∈ ·) (hext.dependencies _))

end Bound

end WalkState

namespace Infer
open WalkState
variable {setting : Setting} {kept : Kept} {ok : Bool} {s s' : WalkState}
  {held : NodeId → Prop} {call : ExprId}

theorem Act.bound (h : Act kept ok s s') (hs : s.Sound held) (hb : s.Bound call) :
    s'.Bound call := by
  have hl := (h.sound hs).1
  have hself : ∀ g : FlowGraph, g.KeepsNodes g :=
    fun g => ⟨Nat.le_refl _, fun _ _ => ⟨rfl, rfl, rfl⟩⟩
  have hprogram : ∀ {p : Program}, s.Later (s.withProgram p) → s.program.graph.KeepsNodes p.graph →
      p.exprs = s.program.exprs → p.expansions = s.program.expansions →
        (s.withProgram p).Bound call :=
    fun hl hg hexprs hexpansions =>
      hb.keepsNodes hs hl hg (congrArg Array.size hexprs) rfl fun he => hexpansions.symm ▸ he
  cases h with
  | touch hg => exact hb.keepsNodes hs hl hg.keepsNodes rfl rfl fun he => he
  | note hn =>
    cases hn with
    | expansion other generated =>
      refine hb.keepsNodes hs hl (hself _) rfl rfl fun he => ?_
      rw [WalkState.withProgram_program, OrderedMap.get?_insert]
      split
      · exact Option.some_ne_none _
      · exact he
    | _ => exact hb.keepsNodes hs hl (hself _) rfl rfl fun he => he
  | method owner key definition =>
    refine hprogram hl ?_ ?_ ?_ <;> unfold Program.addMethod <;> dsimp only <;> split
    · exact hself _
    · exact hself _
    all_goals rfl
  | addExpr location => exact hb.addExpr hs location
  | truncate id count =>
    exact hb.keepsNodes hs hl (hself _) (Program.size_truncate ..) rfl fun he => he
  | addNode | «instance» =>
    exact hb.keepsNodes hs hl (FlowGraph.keepsNodes_addNode ..) rfl rfl fun he => he
  | addValue => exact hb.keepsNodes hs hl (FlowGraph.keepsNodes_addTyped ..) rfl rfl fun he => he
  | derive hid hd =>
    refine hb.bind hs (hs.program.node_ne_nil _ hid) fun hcall hleft hnode => ?_
    obtain rfl := hs.program.distinct _ _ hcall hid hnode
    cases hd with
    | plain h => rw [hleft.isCall] at h; cases h
    | parameter h => exact absurd h hleft.parameter
    | expanded h => exact absurd hleft.unexpanded h
    | itself h => exact h
  | bindSlot deps hslot =>
    refine hb.bind hs hslot.ne_nil fun hcall hleft hnode => ?_
    obtain ⟨name, hname⟩ := hslot.expr _ hcall hnode
    have hleft := hleft.isCall
    rw [hname] at hleft; cases hleft
  | giveType type hid =>
    exact hb.setType hs (hs.program.node_ne_nil _ hid) (hs.program.not_held _ hid)
  | fixResult type hk => exact hb.setType hs (hs.instances _ _ hk).ne_nil (hs.not_held _ _ hk)
  | instanceVar owner name =>
    refine hprogram hl ?_ ?_ ?_ <;> unfold Program.instanceVarNode <;> split
    · exact hself _
    · exact FlowGraph.keepsNodes_addNode ..
    all_goals rfl
  | breakNode block =>
    refine hprogram hl ?_ ?_ ?_ <;> unfold Program.breakNodeOf <;> split
    · exact hself _
    · exact FlowGraph.keepsNodes_addNode ..
    all_goals rfl
  | _ => exact hb.keepsNodes hs hl (hself _) rfl rfl fun he => he

/-- The call is bound to the new targets in the place of those that it had. -/
theorem CallAct.bound {other : ExprId} (h : CallAct other ok s s') (hs : s.Sound held)
    (hb : s.Bound call) : s'.Bound call := by
  have hl := (h.sound hs).1
  cases h with
  | stay => exact hb
  | take hnext =>
    obtain ⟨rest, -, rfl⟩ := FlowGraph.nextCall?_eq_some hnext
    exact hb.later hl rfl rfl (fun he => he) fun _ _ _ _ => .rfl
  | rebind targets hother =>
    have hmem :=
      Network.mem_dependencies_rebind s.program.toNetwork (hs.program.node_lt other hother)
      ((s.memo.targets.get? other).getD []) targets
    by_cases hcall : call = other
    · subst hcall
      refine ⟨fun hid => absurd (hl.has hother) hid, fun hid hleft d hd => ?_⟩
      have hold := hb.deps hother (leavesToResolution_of_later hl hother (fun he => he) hleft) d
      rw [hl.program.nodeOf_eq call hother] at hd ⊢
      refine (hmem _ d).trans ?_
      rw [if_pos rfl, hold hd]
      simp [unbound, OrderedMap.get?_insert_self]
    · refine hb.later hl rfl (OrderedMap.get?_insert_of_ne _ _ hcall)
        (fun he => he) fun hid _ d _ => ?_
      have hne : s.program.nodeOf call ≠ s.program.nodeOf other := fun heq =>
        hcall (hs.program.distinct _ _ hid hother heq)
      refine (hmem _ d).trans ?_
      rw [if_neg hne]

/-- By induction on the run. -/
theorem Runs.bound (h : Runs setting kept ok s s') (hs : s.Sound held) (hb : s.Bound call) :
    s'.Bound call := by
  induction h with
  | refl | failed => exact hb
  | act h => exact h.bound hs hb
  | trans h _ ih ih' => exact ih' (h.sound hs).2 (ih hs hb)
  | evaluation _ h ih =>
    obtain ⟨hl, hp⟩ := hs.program.beginConstant _
    obtain ⟨hl, hs⟩ := hs.withProgram hl hp
    have hb := ih hs (hb.of_graph_eq hl rfl rfl rfl rfl)
    have hs' := (h.sound hs).2
    obtain ⟨hl', -⟩ := hs'.program.endConstant _
    exact hb.of_graph_eq ⟨hl', fun _ _ h => h⟩ rfl rfl rfl rfl
  | region r hr _ ih =>
    have hb := ih (r.sound_enter hr hs) (hb.of_graph_eq (.withFrame ..) rfl rfl rfl rfl)
    exact hb.of_graph_eq (.withFrame ..) rfl rfl rfl rfl
  | resolution h h' h'' _ ih =>
    have hs₁ := (h.sound hs).2
    exact h''.bound (h'.sound hs₁).2 (ih hs₁ (h.bound hs hb))
  | visit scope _ h _ _ ih ih' =>
    obtain ⟨hl, hp⟩ := hs.program.noteScope _ scope
    obtain ⟨hl, hs₀⟩ := hs.withProgram hl hp
    exact ih' (h.sound hs₀).2 (ih hs₀ (hb.of_graph_eq hl rfl rfl rfl rfl))

end Infer

end TypeFlow

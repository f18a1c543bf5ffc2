import TypeFlow.Proofs.Flow.Notified
import TypeFlow.Proofs.Inference.Sound

/-!
# What a call notices of a walk

A walk that is carried through leaves no node marked (`Runs.watches`), so that its steps notify all
calls that observe a node with another type. Nothing but the resolution of a call takes it from the
queue or gives it other targets: every other step is heeded by it (`Act.heeds`, `CallAct.heeds`).
-/

namespace TypeFlow

namespace WalkState

/-- A call goes on observing its inputs, or being expanded. -/
structure Watches (call : ExprId) (s s' : WalkState) : Prop where
  observes : ∀ id, .call call ∈ (s.program.graph.node id).observers →
    .call call ∈ (s'.program.graph.node id).observers
  expanded : s.program.expansions.get? call ≠ none → s'.program.expansions.get? call ≠ none

/-- A call notices how its inputs change from `s` to `s'`, and keeps its targets. -/
structure Heeds (call : ExprId) (s s' : WalkState) : Prop where
  network : Network.Heeds call s.program.toNetwork s'.program.toNetwork
  targets : s'.memo.targets.get? call = s.memo.targets.get? call
  scope : s'.program.callScopes.get? call = s.program.callScopes.get? call
  expanded : s.program.expansions.get? call ≠ none → s'.program.expansions.get? call ≠ none

/-- No node is marked, and the set tells which calls wait. -/
abbrev Quiet (s : WalkState) : Prop := s.program.toNetwork.Quiet

variable {s s' s'' : WalkState} {call : ExprId}

theorem Watches.trans (h : Watches call s s') (h' : Watches call s' s'') : Watches call s s'' :=
  ⟨fun id ho => h'.observes id (h.observes id ho), fun he => h'.expanded (h.expanded he)⟩

namespace Heeds

theorem watches (h : Heeds call s s') : Watches call s s' := ⟨h.network.observes, h.expanded⟩

/-- A change to the network alone. -/
theorem of_network (h : Network.Heeds call s.program.toNetwork s'.program.toNetwork)
    (htargets : s'.memo.targets = s.memo.targets)
    (hscopes : s'.program.callScopes = s.program.callScopes)
    (hexpansions : s'.program.expansions = s.program.expansions) : Heeds call s s' :=
  ⟨h, by rw [htargets], by rw [hscopes], fun he => hexpansions ▸ he⟩

theorem of_graph_eq (h : s'.program.graph = s.program.graph)
    (htargets : s'.memo.targets = s.memo.targets)
    (hscopes : s'.program.callScopes = s.program.callScopes)
    (hexpansions : s'.program.expansions = s.program.expansions) : Heeds call s s' :=
  of_network (.of_graph_eq h) htargets hscopes hexpansions

protected theorem refl (s : WalkState) : Heeds call s s := of_graph_eq rfl rfl rfl rfl

end Heeds

end WalkState

namespace Infer
variable {setting : Setting} {kept : Kept} {ok : Bool} {s s' : WalkState} {call : ExprId}

theorem does_of_wentWell {p : Program} {change : Binding Unit} (h : wentWell p change = true) :
    change.Does p.toNetwork () (afterwards p change).toNetwork := by
  have hok : (change.outcome p.toNetwork).1.isOk = true := h
  show change.outcome p.toNetwork = (.ok (), (change.outcome p.toNetwork).2)
  rcases ho : change.outcome p.toNetwork with ⟨_ | ⟨⟩, n⟩
  · rw [ho] at hok; cases hok
  · rfl

/-- Every call heeds an act, and nothing is left to be carried on after it. -/
theorem Act.heeds (h : Act kept ok s s') (hok : ok = true) (hn : s.Quiet) :
    (∀ call, s.Heeds call s') ∧ s'.Quiet := by
  have hbind : ∀ {node : NodeId} {deps : List NodeId}, wentWell s.program
      (Binding.bind node deps) = true →
      (∀ call, s.Heeds call (s.withProgram (afterwards s.program (Binding.bind node deps)))) ∧
        (s.withProgram (afterwards s.program (Binding.bind node deps))).Quiet := fun hok => by
    obtain ⟨hheeds, hn'⟩ := Binding.heeds_bindNode hn (does_of_wentWell hok)
    exact ⟨fun call => .of_network (hheeds call) rfl rfl rfl, hn'⟩
  have hset : ∀ {node : NodeId} {type : TypeId}, wentWell s.program
      (Binding.setType node type) = true →
      (∀ call, s.Heeds call (s.withProgram (afterwards s.program (Binding.setType node type)))) ∧
        (s.withProgram (afterwards s.program (Binding.setType node type))).Quiet := fun hok => by
    obtain ⟨hheeds, hn'⟩ := Binding.heeds_setType hn (does_of_wentWell hok)
    exact ⟨fun call => .of_network (hheeds call) rfl rfl rfl, hn'⟩
  have hpush : ∀ (node : FlowNode) (types : Types) (call : ExprId),
      Network.Heeds call s.program.toNetwork
      ⟨types,
        { s.program.graph with nodes := s.program.graph.nodes.push node }⟩ := fun node types call =>
    (Network.heeds_push s.program.toNetwork node call).trans (.of_graph_eq rfl)
  cases h with
  | touch h =>
    cases h with
    | setGuard | freeze =>
      refine ⟨fun call =>
        .of_network (Network.heeds_modify ?_ ?_ s.program.toNetwork _ call) rfl rfl rfl,
        Network.quiet_modify ?_ hn _⟩
      · exact fun _ => rfl
      · exact fun _ _ h => h
      · exact fun _ => rfl
    | observe =>
      refine ⟨fun call =>
        .of_network (Network.heeds_modify ?_ ?_ s.program.toNetwork _ call) rfl rfl rfl,
        Network.quiet_modify ?_ hn _⟩
      · exact fun _ => rfl
      · exact fun _ _ h => mem_insertLast.mpr (.inl h)
      · exact fun _ => rfl
  | note h =>
    refine ⟨fun call => ?_, by cases h <;> exact hn⟩
    cases h with
    | expansion other generated =>
      refine ⟨.refl _, rfl, rfl, fun he => ?_⟩
      rw [WalkState.withProgram_program, OrderedMap.get?_insert]
      split
      · exact Option.some_ne_none _
      · exact he
    | _ => exact .of_graph_eq rfl rfl rfl rfl
  | method owner key definition =>
    unfold Program.addMethod
    dsimp only
    split <;> exact ⟨fun call => .of_graph_eq rfl rfl rfl rfl, hn.of_graph_eq rfl⟩
  | addExpr | addNode | addValue | «instance» =>
    exact ⟨fun call => .of_network (hpush _ _ call) rfl rfl rfl, Network.quiet_push rfl hn⟩
  | derive | bindSlot => exact hbind hok
  | giveType | fixResult => exact hset hok
  | instanceVar owner name =>
    unfold Program.instanceVarNode
    split
    · exact ⟨fun call => .refl s, hn⟩
    · exact ⟨fun call => .of_network (hpush _ _ call) rfl rfl rfl,
        (Network.quiet_push rfl hn).of_graph_eq rfl⟩
  | breakNode block =>
    unfold Program.breakNodeOf
    split
    · exact ⟨fun call => .refl s, hn⟩
    · exact ⟨fun call => .of_network (hpush _ _ call) rfl rfl rfl, Network.quiet_push rfl hn⟩
  | _ => exact ⟨fun call => .of_graph_eq rfl rfl rfl rfl, hn.of_graph_eq rfl⟩

/-- A call is only taken from the queue, or bound, for itself. -/
theorem CallAct.heeds (h : CallAct call ok s s') (hok : ok = true) (hn : s.Quiet) {other : ExprId}
    (hne : other ≠ call) : s.Heeds other s' := by
  cases h with
  | stay => exact .refl s
  | take hnext =>
    obtain ⟨rest, hpending, rfl⟩ := FlowGraph.nextCall?_eq_some hnext
    refine .of_network (.of_types (fun _ ho => ho) (fun _ _ => rfl) fun hp => ?_) rfl rfl rfl
    exact (List.mem_cons.mp (hpending ▸ hp)).resolve_left hne
  | rebind targets =>
    have hunbind := Network.heeds_unbind s.program.toNetwork (s.program.nodeOf call)
      ((s.memo.targets.get? call).getD []) other
    have hbind :=
      (Binding.heeds_bindNode (Network.quiet_unbind hn _ _) (does_of_wentWell hok)).1 other
    exact ⟨hunbind.trans hbind, OrderedMap.get?_insert_of_ne _ _ hne, rfl, fun he => he⟩

theorem CallAct.watches (h : CallAct call ok s s') (hok : ok = true) (hn : s.Quiet) :
    (∀ other, s.Watches other s') ∧ s'.Quiet ∧ s'.program.callScopes = s.program.callScopes := by
  cases h with
  | stay => exact ⟨fun _ => (WalkState.Heeds.refl s).watches, hn, rfl⟩
  | take hnext =>
    have hquiet := Network.quiet_nextCall hn hnext
    obtain ⟨rest, -, rfl⟩ := FlowGraph.nextCall?_eq_some hnext
    exact ⟨fun _ => ⟨fun _ ho => ho, fun he => he⟩, hquiet, rfl⟩
  | rebind targets =>
    have hunbind := Network.heeds_unbind s.program.toNetwork (s.program.nodeOf call)
      ((s.memo.targets.get? call).getD [])
    obtain ⟨hbind, hn'⟩ :=
      Binding.heeds_bindNode (Network.quiet_unbind hn _ _) (does_of_wentWell hok)
    exact ⟨fun other => ⟨((hunbind other).trans (hbind other)).observes, fun he => he⟩, hn', rfl⟩

/-- By induction on the run. -/
theorem Runs.watches (h : Runs setting kept ok s s') (hok : ok = true) (hn : s.Quiet) :
    (∀ call, s.Watches call s') ∧ s'.Quiet := by
  induction h with
  | refl => exact ⟨fun _ => (WalkState.Heeds.refl _).watches, hn⟩
  | failed => cases hok
  | act h =>
    obtain ⟨hheeds, hn'⟩ := h.heeds hok hn
    exact ⟨fun call => (hheeds call).watches, hn'⟩
  | trans _ _ ih ih' =>
    obtain ⟨hok, hok'⟩ := Bool.and_eq_true_iff.mp hok
    obtain ⟨hw, hn⟩ := ih hok hn
    obtain ⟨hw', hn'⟩ := ih' hok' hn
    exact ⟨fun call => (hw call).trans (hw' call), hn'⟩
  | evaluation _ _ ih =>
    obtain ⟨hw, hn'⟩ := ih hok hn
    exact ⟨fun call => ⟨(hw call).observes, (hw call).expanded⟩, hn'⟩
  | region r _ _ ih =>
    obtain ⟨hw, hn'⟩ := ih hok hn
    exact ⟨fun call => ⟨(hw call).observes, (hw call).expanded⟩, hn'⟩
  | resolution h _ h' _ ih =>
    obtain ⟨hok, hok'⟩ := Bool.and_eq_true_iff.mp hok
    obtain ⟨hw, hn, -⟩ := h.watches rfl hn
    obtain ⟨hw', hn'⟩ := ih hok hn
    obtain ⟨hw'', hn'', -⟩ := h'.watches hok' hn'
    exact ⟨fun call => ((hw call).trans (hw' call)).trans (hw'' call), hn''⟩
  | visit _ _ _ _ _ ih ih' =>
    obtain ⟨hok, hok'⟩ := Bool.and_eq_true_iff.mp hok
    obtain ⟨hw, hn⟩ := ih hok hn
    obtain ⟨hw', hn'⟩ := ih' hok' hn
    exact ⟨fun call => .trans ⟨(hw call).observes, (hw call).expanded⟩ (hw' call), hn'⟩

end Infer

end TypeFlow

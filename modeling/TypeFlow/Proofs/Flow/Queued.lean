import TypeFlow.Proofs.Flow.Recording

/-!
# Calls in the queue

As long as every command is carried through, a call waits in the queue exactly when a node that it
observes has changed its type since the call was last taken from the queue, the set beside the queue
holds just the calls that wait, and calls are taken from the queue in the order in which they were
first notified (`GraphCommand.Recorded.queued`). While a change is carried on, a call may still be
owed its notification (`Network.IsOwed`); between two commands none is.
-/

namespace TypeFlow

namespace Network
variable {n n' : Network} {h : History} {id : NodeId} {call : ExprId} {os : List Observer}

/-- The call observes a node that is marked, or is among the observers to be notified next. -/
def IsOwed (n : Network) (os : List Observer) (call : ExprId) : Prop :=
  .call call ∈ os ∨ ∃ id, n.Dirty id ∧ .call call ∈ (n.graph.node id).observers

theorem Unmarked.not_isOwed (hn : n.Unmarked) : ¬ n.IsOwed [] call :=
  fun ho => ho.elim nofun fun ⟨id, hd, _⟩ => hn id hd

/-- The history tells of the network what can be told of it: types, observing calls, the queue, and
that a call which a change concerns has been notified, or is owed that. -/
structure Recounted (os : List Observer) (n : Network) (h : History) : Prop where
  queue : n.graph.Follows h
  types : ∀ id, n.graph.typeOf id = h.typeOf id
  observers : ∀ id call, .call call ∈ (n.graph.node id).observers ↔ .observed id call ∈ h
  genuine : h.Genuine
  concerns : ∀ call, h.Concerns call ↔ h.Notified call ∨ n.IsOwed os call

namespace Recounted

theorem of_nodes_eq (hr : Recounted os n h) (hnodes : n'.graph.nodes = n.graph.nodes)
    (hqueue : n.graph.SameQueue n'.graph) : Recounted os n' h := by
  have hnode : ∀ id, n'.graph.node id = n.graph.node id :=
    fun id => by rw [FlowGraph.node, FlowGraph.node, hnodes]
  refine ⟨hr.queue.congr hqueue, fun id => ?_, fun id call => ?_, hr.genuine, fun call => ?_⟩
  · rw [FlowGraph.typeOf, hnode]; exact hr.types id
  · rw [hnode]; exact hr.observers id call
  · simp only [IsOwed, Dirty, hnode]; exact hr.concerns call

/-- A change of the nodes that leaves their types, their marks and the calls among their
observers. -/
theorem congr (hr : Recounted os n h) (hqueue : n.graph.SameQueue n'.graph)
    (htypes : ∀ id, n'.graph.typeOf id = n.graph.typeOf id)
    (hobs : ∀ id call, .call call ∈ (n'.graph.node id).observers ↔
      .call call ∈ (n.graph.node id).observers)
    (hdirty : ∀ id, n'.Dirty id ↔ n.Dirty id) : Recounted os n' h := by
  refine ⟨hr.queue.congr hqueue, fun id => (htypes id).trans (hr.types id),
    fun id call => (hobs id call).trans (hr.observers id call), hr.genuine, fun call => ?_⟩
  simp only [IsOwed, hdirty, hobs]
  exact hr.concerns call

/-- The observers of a node whose mark is taken away are to be notified next. -/
theorem clean (hr : Recounted [] n h) (hd : n.Dirty id) :
    Recounted (n.graph.node id).observers (n.clean id) h := by
  refine ⟨hr.queue.congr ⟨rfl, rfl⟩, fun other => typeOf_clean.trans (hr.types other),
    fun other call => ?_, hr.genuine, fun call => ?_⟩
  · rw [observers_clean]; exact hr.observers other call
  · rw [hr.concerns call]
    refine or_congr_right ?_
    simp only [IsOwed, observers_clean, dirty_clean, List.not_mem_nil, false_or]
    constructor
    · rintro ⟨other, hother, ho⟩
      by_cases heq : other = id
      · exact .inl (heq ▸ ho)
      · exact .inr ⟨other, ⟨hother, heq⟩, ho⟩
    · rintro (ho | ⟨other, ⟨hother, -⟩, ho⟩)
      · exact ⟨id, hd, ho⟩
      · exact ⟨other, hother, ho⟩

theorem retype {t : TypeId} (hr : Recounted os n h) (hid : id.index < n.graph.size)
    (hne : n.graph.typeOf id ≠ some t) : Recounted os (n.retype id t) (.changed id t :: h) := by
  refine ⟨(hr.queue.changed id t).congr ⟨rfl, rfl⟩, fun other => ?_, fun other call => ?_,
    ⟨hr.types id ▸ hne, hr.genuine⟩, fun call => ?_⟩
  · by_cases heq : id = other
    · subst heq
      rw [History.typeOf, if_pos rfl]
      exact congrArg FlowNode.type (FlowGraph.node_modify_self hid)
    · rw [typeOf_retype_of_ne (Ne.symm heq), History.typeOf, if_neg heq]
      exact hr.types other
  · rw [observers_retype, hr.observers other call]
    simp only [List.mem_cons, reduceCtorEq, false_or]
  · have hdirty : ∀ other, (n.retype id t).Dirty other ↔ n.Dirty other ∨ other = id := fun other =>
      ⟨dirty_retype, dirty_retype_of hid⟩
    show (.observed id call ∈ h ∨ h.Concerns call) ↔ h.Notified call ∨ _
    rw [← hr.observers, hr.concerns call]
    simp only [IsOwed, hdirty, observers_retype]
    grind

/-- A notification pays what is owed. -/
theorem enqueue (hr : Recounted (.call call :: os) n h) :
    Recounted os (n.enqueue call) (.notified call :: h) := by
  refine ⟨hr.queue.enqueue call, hr.types, fun id other => ?_, hr.genuine, fun other => ?_⟩
  · simp only [List.mem_cons, reduceCtorEq, false_or]
    exact hr.observers id other
  · show h.Concerns other ↔ (call = other ∨ h.Notified other) ∨ _
    rw [hr.concerns other]
    simp only [IsOwed, List.mem_cons, Observer.call.injEq]
    rw [show (n.enqueue call).Dirty = n.Dirty from rfl, show (n.enqueue call).graph.node =
      n.graph.node from rfl]
    grind

theorem skip (hr : Recounted (.node id :: os) n h) : Recounted os n h := by
  refine ⟨hr.queue, hr.types, hr.observers, hr.genuine, fun call => ?_⟩
  rw [hr.concerns call]
  simp only [IsOwed, List.mem_cons, reduceCtorEq, false_or]

theorem link (hr : Recounted os n h) (id : NodeId) (deps : List NodeId) :
    Recounted os (n.link id deps) h := by
  refine hr.congr (FlowGraph.sameQueue_link ..) (fun _ => FlowGraph.typeOf_link deps)
    (fun other call => ?_) fun other => ?_
  · exact (FlowGraph.mem_observers_link deps).trans (or_iff_left nofun)
  · rw [Dirty, show ((n.link id deps).graph.node other).dirty = _ from
      FlowGraph.link_field FlowNode.dirty (fun _ _ => rfl) (fun _ _ => rfl) deps]
    rfl

theorem modify {f : FlowNode → FlowNode} (hr : Recounted os n h)
    (htype : ∀ node, (f node).type = node.type) (hdirty : ∀ node, (f node).dirty = node.dirty)
    (hobs : ∀ node call, .call call ∈ (f node).observers ↔ Observer.call call ∈ node.observers) :
    Recounted os { n with graph := n.graph.modify id f } h := by
  refine hr.congr ⟨rfl, rfl⟩ (fun _ => FlowGraph.modify_field FlowNode.type htype)
    (fun other call => ?_) fun other => ?_
  · show .call call ∈ ((n.graph.modify id f).node other).observers ↔ _
    rw [FlowGraph.node_modify]
    split
    · rename_i heq; rw [hobs, heq.1]
    · exact .rfl
  · rw [Dirty, show ((n.graph.modify id f).node other).dirty = _ from
      FlowGraph.modify_field FlowNode.dirty hdirty]
    rfl

theorem addNode (hr : Recounted os n h) (derivation : Derivation) :
    Recounted os { n with graph := (n.graph.addNode derivation).2 } h := by
  -- the new node was the default node before it was there
  have hfield : ∀ {β : Type} (field : FlowNode → β) (id : NodeId),
      field { derivation } = field default →
      field ((n.graph.addNode derivation).2.node id) = field (n.graph.node id) := by
    intro β field id hf
    rw [FlowGraph.node_addNode]
    split
    · rw [hf, FlowGraph.node_of_le (Nat.le_of_eq (Eq.symm ‹_›))]
    · rfl
  refine hr.congr ⟨rfl, rfl⟩ (fun id => hfield FlowNode.type id rfl)
    (fun id call => ?_) fun id => ?_
  · rw [hfield FlowNode.observers id rfl]
  · rw [Dirty, hfield FlowNode.dirty id rfl]; rfl

/-- A call begins to observe a node. -/
theorem observe (hr : Recounted [] n h) (hn : n.Quiet) (hid : id.index < n.graph.size)
    (call : ExprId) :
    Recounted [] { n with graph := n.graph.addObserver id (.call call) }
      (.observed id call :: h) := by
  have hquiet : Quiet { n with graph := n.graph.addObserver id (.call call) } := by
    refine quiet_modify ?_ hn id
    exact fun _ => rfl
  refine ⟨(hr.queue.observed id call).congr ⟨rfl, rfl⟩, fun other => ?_,
    fun other call' => ?_, hr.genuine, fun call' => ?_⟩
  · rw [FlowGraph.typeOf, FlowGraph.addObserver, FlowGraph.modify_field FlowNode.type]
    · exact hr.types other
    · exact fun _ => rfl
  · rw [FlowGraph.mem_observers_addObserver, hr.observers, List.mem_cons]
    simp only [hid, true_and, Event.observed.injEq, Observer.call.injEq]
    exact or_comm
  · refine (hr.concerns call').trans (or_congr_right ?_)
    exact iff_of_false hn.unmarked.not_isOwed hquiet.unmarked.not_isOwed

/-- A call is taken from the queue. -/
theorem pop {g : FlowGraph} (hr : Recounted [] n h) (hn : n.Quiet)
    (hnext : n.graph.nextCall? = some (call, g)) :
    Recounted [] { n with graph := g } (.popped call :: h) := by
  have hquiet := quiet_nextCall hn hnext
  have hfollows := hr.queue.nextCall hnext
  obtain ⟨rest, -, rfl⟩ := FlowGraph.nextCall?_eq_some hnext
  refine ⟨hfollows, hr.types, fun id call' => ?_, hr.genuine, fun call' => ?_⟩
  · simp only [List.mem_cons, reduceCtorEq, false_or]
    exact hr.observers id call'
  · show call ≠ call' ∧ h.Concerns call' ↔ (call ≠ call' ∧ h.Notified call') ∨ _
    rw [or_iff_left hquiet.unmarked.not_isOwed, hr.concerns call',
      or_iff_left hn.unmarked.not_isOwed]

end Recounted

end Network

namespace Recording
open Network
variable {n n' : Network} {h h' : History} {id : NodeId} {os : List Observer}

theorem recounted_refresh {changed : Bool} (hr : Recounted os n h)
    (hd : (refresh id).Does n h changed n' h') : Recounted os n' h' := by
  have hgrow : Recounted os (n.derivedType id).2 h :=
    hr.of_nodes_eq (by rw [n.derivedType_graph]) (by rw [n.derivedType_graph]; exact ⟨rfl, rfl⟩)
  rcases refresh_cases hd with ⟨rfl, rfl⟩ | ⟨t, rfl, rfl, hne, hlt⟩
  · exact hgrow
  · refine hgrow.retype ?_ ?_ <;> rwa [n.derivedType_graph]

theorem recounted_notify {o : Observer} (hr : Recounted (o :: os) n h)
    (hd : (notify o).Does n h () n' h') : Recounted os n' h' := by
  cases o with
  | node id =>
    obtain ⟨changed, hd⟩ := does_notify_node.mp hd
    exact recounted_refresh hr.skip hd
  | call call =>
    obtain ⟨rfl, rfl⟩ := does_notify_call.mp hd
    exact hr.enqueue

theorem recounted_forM_notify {os : List Observer} (hr : Recounted os n h)
    (hd : (os.forM notify).Does n h () n' h') : Recounted [] n' h' := by
  induction os generalizing n h with
  | nil =>
    obtain ⟨rfl, rfl⟩ := does_forM_nil.mp hd
    exact hr
  | cons o os ih =>
    obtain ⟨m, k, ho, hrest⟩ := does_forM_cons.mp hd
    exact ih (recounted_notify hr ho) hrest

theorem recounted_propagateWithin (fuel : Nat) (hr : Recounted [] n h)
    (hd : (propagateWithin fuel id).Does n h () n' h') : Recounted [] n' h' := by
  induction fuel generalizing n h n' h' id with
  | zero => cases hd
  | succ fuel ih =>
    have hloop : ∀ (os : List Observer) {n n' : Network} {h h' : History}, Recounted [] n h →
        (os.forM (carryOn fuel)).Does n h () n' h' → Recounted [] n' h' := by
      intro os
      induction os with
      | nil =>
        intro n n' h h' hr hd
        obtain ⟨rfl, rfl⟩ := does_forM_nil.mp hd
        exact hr
      | cons o os ihos =>
        intro n n' h h' hr hd
        obtain ⟨m, k, ho, hrest⟩ := does_forM_cons.mp hd
        cases o with
        | node id => exact ihos (ih hr ho) hrest
        | call _ =>
          obtain ⟨-, rfl, rfl⟩ := does_pure.mp ho
          exact ihos hr hrest
    have hcases := does_propagateWithin hd
    split at hcases
    · rename_i hdirty
      obtain ⟨m, k, hnotify, hrest⟩ := hcases
      exact hloop _ (recounted_forM_notify (hr.clean hdirty) hnotify) hrest
    · obtain ⟨rfl, rfl⟩ := hcases
      exact hr

theorem recounted_setType {type : TypeId} (hr : Recounted [] n h) (hid : id.index < n.graph.size)
    (hd : (setType id type).Does n h () n' h') : Recounted [] n' h' := by
  unfold setType at hd
  obtain ⟨m, _, _, hnet, hrest⟩ := does_bind.mp hd
  obtain ⟨hm, rfl, rfl⟩ := does_network.mp hnet
  subst hm
  split at hrest
  · obtain ⟨-, rfl, rfl⟩ := does_pure.mp hrest
    exact hr
  · rename_i hne
    obtain ⟨_, m', k, hlift, hrest⟩ := does_bind.mp hrest
    obtain ⟨hcommit, rfl⟩ := does_lift.mp hlift
    obtain rfl : m' = m.retype id type := by
      rw [Binding.Does, Binding.outcome_commit] at hcommit
      split at hcommit <;> cases hcommit
      rfl
    obtain ⟨_, m'', k', hrec, hrest⟩ := does_bind.mp hrest
    have htype : (m.retype id type).graph.typeOf id = some type :=
      congrArg FlowNode.type (FlowGraph.node_modify_self hid)
    obtain ⟨rfl, rfl⟩ := (does_recordType htype).mp hrec
    exact recounted_propagateWithin _ (hr.retype hid hne) (does_propagate hrest)

theorem recounted_bind {deps : List NodeId} (hr : Recounted [] n h)
    (hd : (bind id deps).Does n h () n' h') : Recounted [] n' h' := by
  unfold bind at hd
  obtain ⟨_, m, k, hlift, hrest⟩ := does_bind.mp hd
  obtain ⟨hlink, rfl⟩ := does_lift.mp hlift
  obtain rfl : m = n.link id deps := Binding.does_modifyGraph.mp hlink
  obtain ⟨changed, m', k', hrefresh, hrest⟩ := does_bind.mp hrest
  have hr' := recounted_refresh (hr.link id deps) hrefresh
  cases changed with
  | false =>
    obtain ⟨-, rfl, rfl⟩ := does_pure.mp hrest
    exact hr'
  | true => exact recounted_propagateWithin _ hr' (does_propagate hrest)

end Recording

/-! ### Commands -/

namespace GraphCommand
open Network
variable {n n' : Network} {h h' : History} {c : GraphCommand}

theorem keeps_queues (c : GraphCommand) : Binding.Keeps (·.graph.Queues) c.perform := by
  intro n h
  cases c with
  | bind id deps => exact Binding.keeps_queues_bindNode id deps n h
  | unbind id deps => exact h.congr (FlowGraph.sameQueue_unbind ..)
  | setType id type => exact Binding.keeps_queues_setType id type n h
  | nextCall =>
    show FlowGraph.Queues ((n.graph.nextCall?.map Prod.snd).getD n.graph)
    cases hnext : n.graph.nextCall? with
    | none => exact h
    | some next => exact h.nextCall hnext
  | addNode | freeze | observe | settleUntyped => exact h.congr ⟨rfl, rfl⟩

/-- However far commands get before they fail, the set is that of the calls in the queue. -/
theorem Attempts.queues {t : Types} (h : Attempts ⟨t, .empty⟩ n) : n.graph.Queues := by
  induction h with
  | refl => exact ⟨fun _ => .rfl, .nil⟩
  | tail _ h ih =>
    cases h with
    | command c => exact c.keeps_queues _ ih
    | types => exact ih

/-- The command tells of every change that it makes, and speaks of nodes of the network. -/
def Announced (n : Network) : GraphCommand → Prop
  | setType id _ | observe id _ => id.index < n.graph.size
  | settleUntyped _ => False
  | addNode _ | bind _ _ | unbind _ _ | freeze _ | nextCall => True

instance (n : Network) : (c : GraphCommand) → Decidable (c.Announced n)
  | setType _ _ | observe _ _ => inferInstanceAs (Decidable (_ < _))
  | settleUntyped _ => .isFalse id
  | addNode _ | bind _ _ | unbind _ _ | freeze _ | nextCall => .isTrue trivial

theorem quiet_perform (hn : n.Quiet) (hc : c.Announced n) (hd : c.perform.Does n () n') :
    n'.Quiet := by
  cases c <;> rw [perform] at hd
  case addNode derivation => rw [Binding.does_modifyGraph.mp hd]; exact quiet_push rfl hn
  case bind id deps => exact (Binding.heeds_bindNode hn hd).2
  case unbind id deps => rw [Binding.does_modifyGraph.mp hd]; exact quiet_unbind hn id deps
  case setType id type => exact (Binding.heeds_setType hn hd).2
  case freeze | observe =>
    rw [Binding.does_modifyGraph.mp hd]
    refine quiet_modify ?_ hn _
    exact fun _ => rfl
  case nextCall =>
    rw [Binding.does_modifyGraph.mp hd]
    cases hnext : n.graph.nextCall? with
    | none => exact hn
    | some next => exact quiet_nextCall hn hnext
  case settleUntyped => exact hc.elim

theorem recounted_record (hr : Recounted [] n h) (hn : n.Quiet) (hc : c.Announced n)
    (hd : c.record.Does n h () n' h') : Recounted [] n' h' := by
  cases c with
  | addNode derivation =>
    obtain ⟨hdo, rfl⟩ := Recording.does_lift.mp hd
    rw [perform] at hdo
    rw [Binding.does_modifyGraph.mp hdo]
    exact hr.addNode derivation
  | bind id deps => exact Recording.recounted_bind hr hd
  | unbind id deps =>
    obtain ⟨hdo, rfl⟩ := Recording.does_lift.mp hd
    rw [perform] at hdo
    rw [Binding.does_modifyGraph.mp hdo]
    refine hr.congr (FlowGraph.sameQueue_unbind ..) (fun _ => FlowGraph.typeOf_unbind deps)
      (fun _ _ => FlowGraph.mem_observers_unbind deps) fun other => ?_
    rw [Dirty, FlowGraph.dirty_unbind]; rfl
  | setType id type => exact Recording.recounted_setType hr hc hd
  | freeze id =>
    obtain ⟨hdo, rfl⟩ := Recording.does_lift.mp hd
    rw [perform] at hdo
    rw [Binding.does_modifyGraph.mp hdo]
    exact hr.modify (fun _ => rfl) (fun _ => rfl) fun _ _ => .rfl
  | observe id observer =>
    cases observer with
    | node other =>
      obtain ⟨hdo, rfl⟩ := Recording.does_lift.mp hd
      rw [perform] at hdo
      rw [Binding.does_modifyGraph.mp hdo]
      refine hr.modify (fun _ => rfl) (fun _ => rfl) fun node call => ?_
      simp only [mem_insertLast, reduceCtorEq, or_false]
    | call call =>
      obtain ⟨_, m, k, hlift, hrec⟩ := Recording.does_bind.mp hd
      obtain ⟨hdo, rfl⟩ := Recording.does_lift.mp hlift
      obtain ⟨rfl, rfl⟩ := Recording.does_record.mp hrec
      rw [perform] at hdo
      rw [Binding.does_modifyGraph.mp hdo]
      exact hr.observe hn hc call
  | nextCall =>
    obtain ⟨m, _, _, hnet, hrest⟩ := Recording.does_bind.mp hd
    obtain ⟨hm, rfl, rfl⟩ := Recording.does_network.mp hnet
    subst hm
    obtain ⟨_, m', k, hlift, hrec⟩ := Recording.does_bind.mp hrest
    obtain ⟨hdo, rfl⟩ := Recording.does_lift.mp hlift
    rw [perform] at hdo
    have hm' := Binding.does_modifyGraph.mp hdo
    cases hnext : m.graph.nextCall? with
    | none =>
      rw [FlowGraph.nextCall?_eq_none.mp hnext] at hrec
      obtain ⟨-, rfl, rfl⟩ := Recording.does_pure.mp hrec
      rw [hm', hnext]
      exact hr
    | some next =>
      obtain ⟨rest, hpending, -⟩ := FlowGraph.nextCall?_eq_some hnext
      rw [hpending] at hrec
      obtain ⟨rfl, rfl⟩ := Recording.does_record.mp hrec
      rw [hm', hnext]
      exact hr.pop hn hnext
  | settleUntyped bottom => exact hc.elim

/-- The networks that commands make of the empty graph over a table, as long as each is carried
through and tells of its changes, with their histories. Between two commands the table may change in
any way. -/
inductive Recorded : Network → History → Prop where
  | start (t : Types) : Recorded ⟨t, .empty⟩ []
  | step {n n' : Network} {h h' : History} {c : GraphCommand} : Recorded n h → c.Announced n →
      c.record.Does n h () n' h' → Recorded n' h'
  | types {n : Network} {h : History} (t : Types) : Recorded n h → Recorded { n with types := t } h

theorem Recorded.recounted (hr : Recorded n h) : Recounted [] n h ∧ n.Quiet := by
  induction hr with
  | start t =>
    have hnode : ∀ id, FlowGraph.empty.node id = default :=
      fun id => FlowGraph.node_of_le (Nat.zero_le _)
    have hquiet : Quiet ⟨t, .empty⟩ := .empty t
    refine ⟨⟨FlowGraph.follows_empty, fun id => ?_, fun id call => ?_, trivial,
      fun call => ?_⟩, hquiet⟩
    · rw [FlowGraph.typeOf, hnode]; rfl
    · rw [hnode]; exact iff_of_false List.not_mem_nil List.not_mem_nil
    · exact iff_of_false id fun ho => ho.elim id hquiet.unmarked.not_isOwed
  | step _ hc hd ih =>
    exact ⟨recounted_record ih.1 ih.2 hc hd, quiet_perform ih.2 hc ((erases_record _).does hd)⟩
  | types t _ ih => exact ⟨ih.1.of_nodes_eq rfl ⟨rfl, rfl⟩, ih.2.unmarked, ih.2.queues⟩

/-- Commands one after the other, each recorded and carried through. -/
def recordAll : List GraphCommand → Network × History → Option (Network × History)
  | [], r => some r
  | c :: cs, (n, h) =>
    if c.Announced n then
      match (c.record.run h).outcome n with
      | (.ok ((), h'), n') => recordAll cs (n', h')
      | (.error _, _) => none
    else none

theorem Recorded.of_recordAll {cs : List GraphCommand} {r : Network × History} (hr : Recorded n h)
    (hcs : recordAll cs (n, h) = some r) : Recorded r.1 r.2 := by
  induction cs generalizing n h with
  | nil => cases hcs; exact hr
  | cons c cs ih =>
    rw [GraphCommand.recordAll] at hcs
    split at hcs
    · split at hcs
      · exact ih (hr.step ‹_› ‹_›) hcs
      · cases hcs
    · cases hcs

/-- A call waits, once and known to the set, exactly when a node that it observes has changed its
type since the call was last taken from the queue; the calls wait, and are taken, in the order in
which they were first notified. The history that says so has the types and the observing calls of
the network, every change in it is one, and every command that is carried through adds to it in one
way. -/
theorem Recorded.queued (hr : Recorded n h) :
    n.graph.pending.Nodup ∧ (∀ call, call ∈ n.graph.pendingSet ↔ call ∈ n.graph.pending) ∧
    (∀ call, call ∈ n.graph.pending ↔ h.Concerns call) ∧
    (n.graph.pending.Pairwise fun a b => h.NotifiedBefore a b) ∧
    (∀ call g, n.graph.nextCall? = some (call, g) →
      call ∉ g.pendingSet ∧ ∀ other ∈ g.pending, h.NotifiedBefore call other) ∧
    (∀ id, n.graph.typeOf id = h.typeOf id) ∧
    (∀ id call, .call call ∈ (n.graph.node id).observers ↔ .observed id call ∈ h) ∧ h.Genuine ∧
    ∀ (c : GraphCommand) n', c.perform.Does n () n' → ∃! h', c.record.Does n h () n' h' := by
  obtain ⟨hr, hn⟩ := hr.recounted
  refine ⟨hr.queue.nodup, hr.queue.mem_pendingSet, fun call => ?_, hr.queue.ordered,
    fun call g hnext => ⟨?_, ?_⟩,
    hr.types, hr.observers, hr.genuine, fun c n' hd => (c.erases_record).exists_unique hd h⟩
  · rw [hr.queue.mem_pending, hr.concerns call, or_iff_left hn.unmarked.not_isOwed]
  · obtain ⟨rest, -, rfl⟩ := FlowGraph.nextCall?_eq_some hnext
    exact fun hmem => of_decide_eq_true (List.mem_filter.mp hmem).2 rfl
  · exact fun other => hr.queue.notifiedBefore hnext

/-- Call 7 is taken from the queue while call 8 waits, and is notified again when its node changes
once more. Call 9 comes too late to hear of that. -/
theorem Recorded.queued_again : ∃ n h, Recorded n h ∧ n.graph.pending = [⟨8⟩, ⟨7⟩] ∧
    (∀ call, call ∈ n.graph.pendingSet ↔ call = ⟨8⟩ ∨ call = ⟨7⟩) ∧
    h.Concerns ⟨8⟩ ∧ h.Concerns ⟨7⟩ ∧ ¬ h.Concerns ⟨9⟩ ∧ h.NotifiedBefore ⟨8⟩ ⟨7⟩ := by
  have hall : (recordAll [addNode .identity, addNode .identity, observe ⟨0⟩ (.call ⟨7⟩),
      observe ⟨1⟩ (.call ⟨8⟩),
      bind ⟨1⟩ [⟨0⟩], setType ⟨0⟩ .int32, nextCall, setType ⟨0⟩ .char, observe ⟨1⟩ (.call ⟨9⟩)]
      (⟨.initial, .empty⟩, [])).any (fun r => r.1.graph.pending = [⟨8⟩, ⟨7⟩]) =
        true := by decide +kernel
  obtain ⟨⟨n, h⟩, hn, hpending⟩ := (Option.any_eq_true _ _).mp hall
  have hpending : n.graph.pending = [⟨8⟩, ⟨7⟩] := of_decide_eq_true hpending
  have hr : Recorded n h := (Recorded.start .initial).of_recordAll hn
  obtain ⟨-, hknown, hconcerns, horder, -⟩ := hr.queued
  rw [hpending] at horder
  simp only [hpending, List.mem_cons, List.not_mem_nil, or_false] at hknown hconcerns
  refine ⟨n, h, hr, hpending, hknown, (hconcerns _).mp (.inl rfl),
    (hconcerns _).mp (.inr rfl), fun h9 => ?_, ?_⟩
  · have := (hconcerns _).mpr h9
    simp at this
  · exact (List.pairwise_cons.mp horder).1 _ List.mem_cons_self

end GraphCommand

end TypeFlow

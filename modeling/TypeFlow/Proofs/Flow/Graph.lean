import TypeFlow.Flow.Propagation

/-!
# Nodes and edges

What the operations on a flow graph do to each node. `link` is what `Binding.bind` does to the
edges before it looks at types: `d` becomes a dependency of a node exactly when the node becomes an
observer of `d` (`Linked`), provided that both are nodes of the graph.
-/

namespace TypeFlow

theorem mem_insertLast {α : Type} [DecidableEq α] {xs : List α} {x y : α} :
    y ∈ insertLast xs x ↔ y ∈ xs ∨ y = x := by
  unfold insertLast; split
  · exact ⟨.inl, fun h => h.elim (fun h => h) fun h => h ▸ ‹_›⟩
  · simp

namespace FlowGraph
variable {g : FlowGraph} {id other dep : NodeId} {f : FlowNode → FlowNode}

theorem node_of_le (h : g.size ≤ id.index) : g.node id = default := by
  rw [node, Array.getElem?_eq_none h]; rfl

@[simp] theorem size_modify (g : FlowGraph) (id : NodeId) (f : FlowNode → FlowNode) :
    (g.modify id f).size = g.size :=
  Array.size_modify

theorem node_modify (g : FlowGraph) (id other : NodeId) (f : FlowNode → FlowNode) :
    (g.modify id f).node other =
      if other = id ∧ id.index < g.size then f (g.node id) else g.node other := by
  have hidx : other = id ↔ id.index = other.index :=
    ⟨fun h => h ▸ rfl, fun h => by cases id; cases other; cases h; rfl⟩
  simp only [node, modify, Array.getElem?_modify, hidx]
  by_cases h : id.index = other.index
  · rw [← h]
    by_cases hlt : id.index < g.nodes.size
    · simp [size, hlt]
    · simp [size, hlt]
  · simp [h]

theorem node_modify_of_ne (h : other ≠ id) : (g.modify id f).node other = g.node other := by
  rw [node_modify, if_neg fun h' => h h'.1]

theorem node_modify_self (h : id.index < g.size) : (g.modify id f).node id = f (g.node id) := by
  rw [node_modify, if_pos ⟨rfl, h⟩]

/-- What a change leaves as it is. -/
theorem modify_field {β : Type} (field : FlowNode → β) (hf : ∀ n, field (f n) = field n) :
    field ((g.modify id f).node other) = field (g.node other) := by
  rw [node_modify]; split
  · rename_i h; rw [hf, h.1]
  · rfl

@[simp] theorem size_addNode (g : FlowGraph) (d : Derivation) : (g.addNode d).2.size = g.size + 1 :=
  Array.size_push ..

theorem node_push (g : FlowGraph) (node : FlowNode) (id : NodeId) :
    FlowGraph.node { g with nodes := g.nodes.push node } id = if id.index = g.size then node
      else g.node id := by
  simp only [FlowGraph.node, size, Array.getElem?_push]
  by_cases h : id.index = g.nodes.size <;> simp [h]

theorem node_addNode (g : FlowGraph) (d : Derivation) (id : NodeId) :
    (g.addNode d).2.node id = if id.index = g.size then { derivation := d } else g.node id :=
  node_push g { derivation := d } id

@[simp] theorem size_enqueue (g : FlowGraph) (call : ExprId) : (g.enqueue call).size = g.size := rfl

@[simp] theorem size_addObserver (g : FlowGraph) (id : NodeId) (o : Observer) :
    (g.addObserver id o).size = g.size :=
  size_modify ..

theorem mem_observers_addObserver {o o' : Observer} :
    o' ∈ ((g.addObserver id o).node other).observers ↔
      o' ∈ (g.node other).observers ∨ (other = id ∧ id.index < g.size ∧ o' = o) := by
  rw [addObserver, node_modify]; split
  · rename_i h; rw [h.1, mem_insertLast]; simp [h.2]
  · rename_i h; exact ⟨.inl, fun h' => h'.resolve_right fun h' => h ⟨h'.1, h'.2.1⟩⟩

/-! ### Edges -/

/-- Makes a node depend on others, without looking at types. -/
def link (g : FlowGraph) (id : NodeId) (deps : List NodeId) : FlowGraph :=
  deps.foldl (fun g dep => g.addDependency id dep) g

theorem addDependency_field {β : Type} (field : FlowNode → β)
    (hdeps : ∀ n deps, field { n with dependencies := deps } = field n)
    (hobs : ∀ n obs, field { n with observers := obs } = field n) :
    field ((g.addDependency id dep).node other) = field (g.node other) :=
  (modify_field field fun _ => hobs _ _).trans (modify_field field fun _ => hdeps _ _)

theorem link_field {β : Type} (field : FlowNode → β)
    (hdeps : ∀ n deps, field { n with dependencies := deps } = field n)
    (hobs : ∀ n obs, field { n with observers := obs } = field n) (deps : List NodeId) :
    field ((g.link id deps).node other) = field (g.node other) := by
  unfold link
  induction deps generalizing g with
  | nil => rfl
  | cons dep deps ih => exact ih.trans (addDependency_field field hdeps hobs)

@[simp] theorem size_addDependency (g : FlowGraph) (id dep : NodeId) :
    (g.addDependency id dep).size = g.size :=
  (size_addObserver ..).trans (size_modify ..)

@[simp] theorem size_link (g : FlowGraph) (id : NodeId) (deps : List NodeId) :
    (g.link id deps).size = g.size := by
  unfold link
  induction deps generalizing g with
  | nil => rfl
  | cons dep deps ih => exact (ih _).trans (size_addDependency ..)

/-- The same calls wait. -/
structure SameQueue (g g' : FlowGraph) : Prop where
  pending : g'.pending = g.pending
  pendingSet : g'.pendingSet = g.pendingSet

theorem sameQueue_link (g : FlowGraph) (id : NodeId) (deps : List NodeId) :
    g.SameQueue (g.link id deps) := by
  unfold link
  induction deps generalizing g with
  | nil => exact ⟨rfl, rfl⟩
  | cons dep deps ih => exact ⟨(ih _).pending, (ih _).pendingSet⟩

theorem pending_link (g : FlowGraph) (id : NodeId) (deps : List NodeId) :
    (g.link id deps).pending = g.pending :=
  (sameQueue_link g id deps).pending

theorem typeOf_link (deps : List NodeId) : (g.link id deps).typeOf other = g.typeOf other :=
  link_field FlowNode.type (fun _ _ => rfl) (fun _ _ => rfl) deps

theorem dependencies_link_of_ne (h : other ≠ id) (deps : List NodeId) :
    ((g.link id deps).node other).dependencies = (g.node other).dependencies := by
  unfold link
  induction deps generalizing g with
  | nil => rfl
  | cons dep deps ih =>
    rw [List.foldl_cons, ih, addDependency, addObserver]
    rw [modify_field FlowNode.dependencies, node_modify_of_ne h]
    exact fun _ => rfl

theorem mem_dependencies_addDependency {d : NodeId} :
    d ∈ ((g.addDependency id dep).node other).dependencies ↔
      d ∈ (g.node other).dependencies ∨ (other = id ∧ id.index < g.size ∧ d = dep) := by
  rw [show ((g.addDependency id dep).node other).dependencies = _ from
    modify_field FlowNode.dependencies fun _ => rfl, node_modify]
  split
  · rename_i h; rw [h.1, mem_insertLast]; simp [h.2]
  · rename_i h; exact ⟨.inl, fun h' => h'.resolve_right fun h' => h ⟨h'.1, h'.2.1⟩⟩

theorem mem_observers_addDependency {o : Observer} :
    o ∈ ((g.addDependency id dep).node other).observers ↔
      o ∈ (g.node other).observers ∨ (other = dep ∧ dep.index < g.size ∧ o = .node id) := by
  unfold addDependency
  rw [mem_observers_addObserver, size_modify, modify_field FlowNode.observers]
  exact fun _ => rfl

theorem mem_dependencies_link {d : NodeId} (deps : List NodeId) :
    d ∈ ((g.link id deps).node other).dependencies ↔
      d ∈ (g.node other).dependencies ∨ (other = id ∧ id.index < g.size ∧ d ∈ deps) := by
  unfold link
  induction deps generalizing g with
  | nil => simp
  | cons dep deps ih =>
    rw [List.foldl_cons, ih, mem_dependencies_addDependency, size_addDependency, List.mem_cons,
      or_assoc, ← and_or_left, ← and_or_left]

theorem mem_observers_link {o : Observer} (deps : List NodeId) :
    o ∈ ((g.link id deps).node other).observers ↔
      o ∈ (g.node other).observers ∨ (other ∈ deps ∧ other.index < g.size ∧ o = .node id) := by
  unfold link
  induction deps generalizing g with
  | nil => simp
  | cons dep deps ih =>
    rw [List.foldl_cons, ih, mem_observers_addDependency, size_addDependency, List.mem_cons]
    constructor
    · rintro ((h | ⟨rfl, h⟩) | h)
      · exact .inl h
      · exact .inr ⟨.inl rfl, h⟩
      · exact .inr ⟨.inr h.1, h.2⟩
    · rintro (h | ⟨rfl | hd, h⟩)
      · exact .inl (.inl h)
      · exact .inl (.inr ⟨rfl, h⟩)
      · exact .inr ⟨hd, h⟩

/-! ### Removed edges -/

theorem removeObservers_field {β : Type} (field : FlowNode → β)
    (hobs : ∀ n obs, field { n with observers := obs } = field n) {o : Observer}
    (ds : List NodeId) (g : FlowGraph) :
    field ((ds.foldl (fun g dep => g.removeObserver dep o) g).node other) = field
      (g.node other) := by
  induction ds generalizing g with
  | nil => rfl
  | cons d ds ih => exact (ih _).trans (modify_field field fun _ => hobs _ _)

theorem typeOf_unbind (deps : List NodeId) :
    (g.unbind id deps).typeOf other = g.typeOf other :=
  (removeObservers_field FlowNode.type (fun _ _ => rfl) deps _).trans
    (modify_field FlowNode.type fun _ => rfl)

theorem frozen_unbind (deps : List NodeId) :
    ((g.unbind id deps).node other).frozen = (g.node other).frozen :=
  (removeObservers_field FlowNode.frozen (fun _ _ => rfl) deps _).trans
    (modify_field FlowNode.frozen fun _ => rfl)

theorem derivation_unbind (deps : List NodeId) :
    ((g.unbind id deps).node other).derivation = (g.node other).derivation :=
  (removeObservers_field FlowNode.derivation (fun _ _ => rfl) deps _).trans
    (modify_field FlowNode.derivation fun _ => rfl)

theorem dependencies_unbind_of_ne (h : other ≠ id) (deps : List NodeId) :
    ((g.unbind id deps).node other).dependencies = (g.node other).dependencies := by
  unfold unbind
  rw [removeObservers_field FlowNode.dependencies fun _ _ => rfl, node_modify_of_ne h]

theorem dirty_unbind (deps : List NodeId) :
    ((g.unbind id deps).node other).dirty = (g.node other).dirty :=
  (removeObservers_field FlowNode.dirty (fun _ _ => rfl) deps _).trans
    (modify_field FlowNode.dirty fun _ => rfl)

theorem dependencies_unbind_self (hid : id.index < g.size) (deps : List NodeId) :
    ((g.unbind id deps).node id).dependencies = (g.node id).dependencies.filter fun dep =>
      ¬ dep ∈ deps := by
  unfold unbind
  rw [removeObservers_field FlowNode.dependencies fun _ _ => rfl, node_modify_self hid]

theorem mem_observers_removeObserver {o o' : Observer} {d : NodeId} :
    o ∈ ((g.removeObserver d o').node other).observers ↔ o ∈ (g.node other).observers ∧
      ¬ (other = d ∧ o = o') := by
  unfold removeObserver
  rw [node_modify]
  split
  · rename_i h
    simp [h.1]
  · rename_i h
    refine ⟨fun ho => ⟨ho, fun ⟨heq, _⟩ => h ⟨heq, Nat.lt_of_not_le fun hle => ?_⟩⟩, fun ho => ho.1⟩
    rw [heq, node_of_le hle] at ho
    cases ho

theorem mem_observers_unbind_iff {o : Observer} (deps : List NodeId) :
    o ∈ ((g.unbind id deps).node other).observers ↔
      o ∈ (g.node other).observers ∧ ¬ (other ∈ deps ∧ o = .node id) := by
  have hfold : ∀ (ds : List NodeId) (g : FlowGraph),
      o ∈ ((ds.foldl (fun g dep => g.removeObserver dep (.node id)) g).node other).observers ↔
        o ∈ (g.node other).observers ∧ ¬ (other ∈ ds ∧ o = .node id) := by
    intro ds
    induction ds with
    | nil => exact fun _ => by simp
    | cons d ds ih =>
      refine fun g => (ih _).trans ?_
      rw [mem_observers_removeObserver, and_assoc, ← not_or, ← or_and_right, List.mem_cons]
  unfold unbind
  rw [hfold deps, modify_field FlowNode.observers]
  exact fun _ => rfl

/-- Calls go on observing. -/
theorem mem_observers_unbind {call : ExprId} (deps : List NodeId) :
    .call call ∈ ((g.unbind id deps).node other).observers ↔
      .call call ∈ (g.node other).observers := by
  simp [mem_observers_unbind_iff]

theorem sameQueue_unbind (g : FlowGraph) (id : NodeId) (deps : List NodeId) :
    g.SameQueue (g.unbind id deps) := by
  have hfold : ∀ (ds : List NodeId) (g : FlowGraph),
      g.SameQueue (ds.foldl (fun g dep => g.removeObserver dep (.node id)) g) := by
    intro ds
    induction ds with
    | nil => exact fun _ => ⟨rfl, rfl⟩
    | cons d ds ih => exact fun g => ⟨(ih _).pending, (ih _).pendingSet⟩
  exact ⟨(hfold deps _).pending, (hfold deps _).pendingSet⟩

@[simp] theorem pending_unbind (g : FlowGraph) (id : NodeId) (deps : List NodeId) :
    (g.unbind id deps).pending = g.pending :=
  (sameQueue_unbind g id deps).pending

@[simp] theorem size_unbind (g : FlowGraph) (id : NodeId) (deps : List NodeId) :
    (g.unbind id deps).size = g.size := by
  have hfold : ∀ (ds : List NodeId) (g : FlowGraph),
      (ds.foldl (fun g dep => g.removeObserver dep (.node id)) g).size = g.size := by
    intro ds
    induction ds with
    | nil => exact fun _ => rfl
    | cons d ds ih => exact fun g => (ih _).trans (size_modify ..)
  exact (hfold deps _).trans (size_modify ..)

/-! ### The queue, and nodes without a type -/

theorem nextCall?_eq_none : g.nextCall? = none ↔ g.pending = [] := by
  unfold nextCall?
  split <;> simp [*]

theorem nextCall?_eq_some {g' : FlowGraph} {call : ExprId} (h : g.nextCall? = some (call, g')) :
    ∃ rest, g.pending = call :: rest ∧
      g' = { g with pending := rest, pendingSet := g.pendingSet.filter (· ≠ call) } := by
  unfold nextCall? at h
  split at h
  · cases h
  · rename_i rest hpending
    cases h; exact ⟨rest, hpending, rfl⟩

/-- The set is that of the calls in the queue, which are there once. -/
structure Queues (g : FlowGraph) : Prop where
  mem_pendingSet : ∀ call, call ∈ g.pendingSet ↔ call ∈ g.pending
  nodup : g.pending.Nodup

theorem mem_pending_enqueue {call other : ExprId} (h : other ∈ g.pending) :
    other ∈ (g.enqueue call).pending := by
  unfold enqueue
  dsimp only
  split
  · exact h
  · exact List.mem_append_left _ h

theorem of_mem_pending_enqueue {call other : ExprId} (h : other ∈ (g.enqueue call).pending) :
    other ∈ g.pending ∨ other = call := by
  unfold enqueue at h
  dsimp only at h
  split at h
  · exact .inl h
  · exact (List.mem_append.mp h).imp_right List.mem_singleton.mp

namespace Queues
variable {call : ExprId}

theorem congr {g' : FlowGraph} (h : g.Queues) (hsame : g.SameQueue g') : g'.Queues :=
  ⟨fun call => by rw [hsame.pending, hsame.pendingSet]; exact h.mem_pendingSet call,
    hsame.pending ▸ h.nodup⟩

theorem pending_enqueue (h : g.Queues) (call : ExprId) :
    (g.enqueue call).pending = insertLast g.pending call := by
  simp only [FlowGraph.enqueue, insertLast, h.mem_pendingSet]

theorem enqueue (h : g.Queues) (call : ExprId) : (g.enqueue call).Queues := by
  refine ⟨fun other => ?_, ?_⟩
  · rw [h.pending_enqueue, mem_insertLast, ← h.mem_pendingSet]
    exact mem_insertLast
  · rw [h.pending_enqueue]
    unfold insertLast
    split
    · exact h.nodup
    · rename_i hnew
      refine List.nodup_append.mpr ⟨h.nodup, List.pairwise_singleton .., fun a ha b hb heq => ?_⟩
      exact hnew (List.mem_singleton.mp hb ▸ heq ▸ ha)

/-- A call that is taken from the queue is in it no more, nor in the set. -/
theorem nextCall {g' : FlowGraph} (h : g.Queues) (hnext : g.nextCall? = some (call, g')) :
    g'.Queues := by
  obtain ⟨rest, hpending, rfl⟩ := nextCall?_eq_some hnext
  have hnodup := h.nodup
  rw [hpending] at hnodup
  obtain ⟨hcall, hrest⟩ := List.nodup_cons.mp hnodup
  refine ⟨fun other => ?_, hrest⟩
  rw [List.mem_filter, h.mem_pendingSet, hpending, List.mem_cons, decide_eq_true_eq]
  constructor
  · exact fun ho => ho.1.resolve_left ho.2
  · exact fun ho => ⟨.inr ho, fun heq => hcall (heq ▸ ho)⟩

end Queues

theorem nodes_nextCall? (g : FlowGraph) : ((g.nextCall?.map Prod.snd).getD g).nodes = g.nodes := by
  unfold nextCall?
  split <;> rfl

theorem node_settleUntyped (bottom : TypeId) (hid : id.index < g.size) :
    (g.settleUntyped bottom).2.node id =
      { g.node id with type := some ((g.node id).type.getD bottom) } := by
  have hsome : g.nodes[id.index]? = some g.nodes[id.index] := Array.getElem?_eq_getElem hid
  simp only [node, settleUntyped, Array.getElem?_map, hsome, Option.map_some, Option.getD_some]

theorem size_settleUntyped (g : FlowGraph) (bottom : TypeId) :
    (g.settleUntyped bottom).2.size = g.size :=
  Array.size_map ..

theorem settleUntyped_field {β : Type} (field : FlowNode → β)
    (hf : ∀ node type, field { node with type } = field node) (g : FlowGraph) (bottom : TypeId)
    (id : NodeId) :
    field ((g.settleUntyped bottom).2.node id) = field (g.node id) := by
  rcases Nat.lt_or_ge id.index g.size with hlt | hge
  · rw [node_settleUntyped bottom hlt, hf]
  · rw [node_of_le hge, node_of_le (by rwa [size_settleUntyped])]

theorem dependencies_settleUntyped (g : FlowGraph) (bottom : TypeId) (id : NodeId) :
    ((g.settleUntyped bottom).2.node id).dependencies = (g.node id).dependencies :=
  settleUntyped_field FlowNode.dependencies (fun _ _ => rfl) g bottom id

theorem derivation_settleUntyped (g : FlowGraph) (bottom : TypeId) (id : NodeId) :
    ((g.settleUntyped bottom).2.node id).derivation = (g.node id).derivation :=
  settleUntyped_field FlowNode.derivation (fun _ _ => rfl) g bottom id

theorem typeOf_settleUntyped_eq {bottom : TypeId} (hid : id.index < g.size) :
    (g.settleUntyped bottom).2.typeOf id = some ((g.typeOf id).getD bottom) := by
  rw [typeOf, node_settleUntyped bottom hid]; rfl

theorem typeOf_settleUntyped {bottom type : TypeId} (hid : id.index < g.size)
    (ht : g.typeOf id = some type) : (g.settleUntyped bottom).2.typeOf id = some type := by
  rw [typeOf_settleUntyped_eq hid, ht]; rfl

/-! ### Edges in both directions -/

/-- What a node depends on knows the node. -/
def Tied (g : FlowGraph) : Prop :=
  ∀ id d, d ∈ (g.node id).dependencies → Observer.node id ∈ (g.node d).observers

namespace Tied

theorem of_nodes (h : g.Tied) {g' : FlowGraph}
    (hdeps : ∀ id, (g'.node id).dependencies = (g.node id).dependencies)
    (hobs : ∀ id, ∀ o ∈ (g.node id).observers, o ∈ (g'.node id).observers) : g'.Tied :=
  fun id d hd => hobs d _ (h id d (hdeps id ▸ hd))

theorem modify {f : FlowNode → FlowNode} (h : g.Tied)
    (hdeps : ∀ node, (f node).dependencies = node.dependencies)
    (hobs : ∀ node, ∀ o ∈ node.observers, o ∈ (f node).observers) (id : NodeId) :
    (g.modify id f).Tied := by
  refine h.of_nodes (fun _ => modify_field FlowNode.dependencies hdeps) fun other o ho => ?_
  rw [node_modify]; split
  · rename_i heq; exact hobs _ _ (heq.1 ▸ ho)
  · exact ho

theorem link {deps : List NodeId} (h : g.Tied) (hdeps : ∀ d ∈ deps, d.index < g.size) :
    (g.link id deps).Tied :=
  fun other d hd => (mem_observers_link deps).mpr
    (((mem_dependencies_link deps).mp hd).imp (h other d)
    fun hd => ⟨hd.2.2, hdeps d hd.2.2, by rw [hd.1]⟩)

theorem lt_of_mem {d : NodeId} (h : g.Tied) (hd : d ∈ (g.node id).dependencies) :
    d.index < g.size := by
  refine Nat.lt_of_not_le fun hle => ?_
  have hobserver := h id d hd
  rw [node_of_le hle] at hobserver; cases hobserver

theorem unbind (h : g.Tied) (deps : List NodeId) : (g.unbind id deps).Tied := by
  intro other d hd
  refine (mem_observers_unbind_iff deps).mpr ?_
  by_cases hid : other = id
  · subst hid
    rcases Nat.lt_or_ge other.index g.size with hlt | hge
    · rw [dependencies_unbind_self hlt, List.mem_filter, decide_eq_true_eq] at hd
      exact ⟨h other d hd.1, fun hmem => hd.2 hmem.1⟩
    · rw [node_of_le (by rw [size_unbind]; exact hge)] at hd
      cases hd
  · rw [dependencies_unbind_of_ne hid] at hd
    exact ⟨h other d hd, fun hmem => hid (Observer.node.inj hmem.2)⟩

end Tied

end FlowGraph

end TypeFlow

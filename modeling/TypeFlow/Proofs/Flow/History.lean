import TypeFlow.Proofs.Flow.Graph

/-!
# Histories of a flow graph

What happens to a flow graph, the latest first: nodes change their types, calls begin to observe
nodes, are notified, and are taken from the queue. A history says which calls were told of a change,
which were notified, and in which order, each since the call was last taken from the queue. A queue
`Follows` a history when it holds the calls that were notified, in the order in which they first
were.
-/

namespace TypeFlow

inductive Event where
  | changed (id : NodeId) (type : TypeId)
  | observed (id : NodeId) (call : ExprId)
  | notified (call : ExprId)
  | popped (call : ExprId)
  deriving DecidableEq, Repr

/-- The latest first. -/
abbrev History := List Event

namespace History

/-- The type that the node got last. -/
def typeOf (id : NodeId) : History → Option TypeId
  | [] => none
  | .changed other type :: h => if other = id then some type else typeOf id h
  | .observed _ _ :: h | .notified _ :: h | .popped _ :: h => typeOf id h

/-- Every change is one: the node had another type before, or none. -/
def Genuine : History → Prop
  | [] => True
  | .changed id type :: h => typeOf id h ≠ some type ∧ Genuine h
  | .observed _ _ :: h | .notified _ :: h | .popped _ :: h => Genuine h

/-- A node has changed its type while the call observed it, since the call was last taken from the
queue. -/
def Concerns (call : ExprId) : History → Prop
  | [] => False
  | .changed id _ :: h => .observed id call ∈ h ∨ Concerns call h
  | .popped other :: h => other ≠ call ∧ Concerns call h
  | .observed _ _ :: h | .notified _ :: h => Concerns call h

/-- The call has been notified since it was last taken from the queue. -/
def Notified (call : ExprId) : History → Prop
  | [] => False
  | .notified other :: h => other = call ∨ Notified call h
  | .popped other :: h => other ≠ call ∧ Notified call h
  | .changed _ _ :: h | .observed _ _ :: h => Notified call h

/-- Both calls have been notified since they were last taken from the queue, and `b` for the first
time when `a` had been notified already. -/
def NotifiedBefore (a b : ExprId) : History → Prop
  | [] => False
  | .notified call :: h => call = b ∧ ¬ Notified b h ∧ Notified a h ∨ NotifiedBefore a b h
  | .popped call :: h => call ≠ a ∧ call ≠ b ∧ NotifiedBefore a b h
  | .changed _ _ :: h | .observed _ _ :: h => NotifiedBefore a b h

end History

namespace FlowGraph
variable {g g' : FlowGraph} {h : History} {call other : ExprId}

/-- The queue holds the calls that were notified, in the order in which they first were, and the set
tells which calls these are. -/
structure Follows (g : FlowGraph) (h : History) : Prop extends g.Queues where
  mem_pending : ∀ call, call ∈ g.pending ↔ h.Notified call
  ordered : g.pending.Pairwise fun a b => h.NotifiedBefore a b

theorem follows_empty : empty.Follows [] :=
  ⟨⟨fun _ => .rfl, .nil⟩, fun _ => iff_of_false List.not_mem_nil id, .nil⟩

namespace Follows

theorem congr (hg : g.Follows h) (hsame : g.SameQueue g') : g'.Follows h :=
  ⟨hg.toQueues.congr hsame, fun call => hsame.pending ▸ hg.mem_pending call,
    hsame.pending ▸ hg.ordered⟩

theorem changed (hg : g.Follows h) (id : NodeId) (type : TypeId) :
    g.Follows (.changed id type :: h) :=
  ⟨hg.toQueues, hg.mem_pending, hg.ordered⟩

theorem observed (hg : g.Follows h) (id : NodeId) (call : ExprId) :
    g.Follows (.observed id call :: h) :=
  ⟨hg.toQueues, hg.mem_pending, hg.ordered⟩

theorem enqueue (hg : g.Follows h) (call : ExprId) :
    (g.enqueue call).Follows (.notified call :: h) := by
  refine ⟨hg.toQueues.enqueue call, fun other => ?_, ?_⟩
  · rw [hg.pending_enqueue, mem_insertLast, hg.mem_pending, or_comm, eq_comm]; rfl
  · have hold : g.pending.Pairwise fun a b => History.NotifiedBefore a b (.notified call :: h) :=
      hg.ordered.imp fun hab => .inr hab
    rw [hg.pending_enqueue]
    unfold insertLast
    split
    · exact hold
    · rename_i hnew
      refine List.pairwise_append.mpr ⟨hold, List.pairwise_singleton .., fun a ha b hb => ?_⟩
      rw [List.mem_singleton.mp hb]
      exact .inl ⟨rfl, fun hn => hnew ((hg.mem_pending call).mpr hn), (hg.mem_pending a).mp ha⟩

/-- The call that is taken was notified before all that go on waiting. -/
theorem notifiedBefore (hg : g.Follows h) (hnext : g.nextCall? = some (call, g'))
    (hother : other ∈ g'.pending) : h.NotifiedBefore call other := by
  obtain ⟨rest, hpending, rfl⟩ := nextCall?_eq_some hnext
  have hordered := hg.ordered
  rw [hpending] at hordered
  exact (List.pairwise_cons.mp hordered).1 other hother

theorem nextCall (hg : g.Follows h) (hnext : g.nextCall? = some (call, g')) :
    g'.Follows (.popped call :: h) := by
  have hqueues := hg.toQueues.nextCall hnext
  obtain ⟨rest, hpending, rfl⟩ := nextCall?_eq_some hnext
  have hnodup := hg.nodup
  have hordered := hg.ordered
  rw [hpending] at hnodup hordered
  have hne : ∀ other ∈ rest, call ≠ other :=
    fun other ho heq => (List.nodup_cons.mp hnodup).1 (heq ▸ ho)
  refine ⟨hqueues, fun other => ?_, (List.pairwise_cons.mp hordered).2.imp_of_mem
    fun {a b} ha hb hab => ?_⟩
  · have hmem := hg.mem_pending other
    rw [hpending, List.mem_cons] at hmem
    show other ∈ rest ↔ call ≠ other ∧ h.Notified other
    rw [← hmem]
    exact ⟨fun ho => ⟨hne other ho, .inr ho⟩, fun ho => ho.2.resolve_left ho.1.symm⟩
  · exact ⟨hne a ha, hne b hb, hab⟩

end Follows

end FlowGraph

end TypeFlow

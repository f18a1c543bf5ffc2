import Mathlib.Logic.Relation
import TypeFlow.Proofs.Flow.Resting

/-!
# Frozen nodes

Whatever is done to a network, and however far a command gets before it fails, a frozen node keeps
the type that it has. Where every command so far was carried through, what the dependencies of a
frozen node derive is that type, unless one of them got its type when the untyped nodes were filled:
nobody is notified then. A command fails only by a conflict, which names a frozen node with its type
and the other type that was rejected, or because its changes go on for too long.
-/

namespace TypeFlow

/-- What can be done to a network. -/
inductive GraphCommand where
  | addNode (derivation : Derivation)
  | bind (id : NodeId) (deps : List NodeId)
  | unbind (id : NodeId) (deps : List NodeId)
  | setType (id : NodeId) (type : TypeId)
  | freeze (id : NodeId)
  | observe (id : NodeId) (observer : Observer)
  | nextCall
  | settleUntyped (bottom : TypeId)

namespace GraphCommand

def perform : GraphCommand → Binding Unit
  | addNode derivation => Binding.modifyGraph fun g => (g.addNode derivation).2
  | bind id deps => Binding.bind id deps
  | unbind id deps => Binding.modifyGraph fun g => g.unbind id deps
  | setType id type => Binding.setType id type
  | freeze id => Binding.modifyGraph fun g => g.freeze id
  | observe id observer => Binding.modifyGraph fun g => g.addObserver id observer
  | nextCall => Binding.modifyGraph fun g => (g.nextCall?.map Prod.snd).getD g
  | settleUntyped bottom => Binding.modifyGraph fun g => (g.settleUntyped bottom).2

/-- A command is tried, whether it succeeds or fails, or the table of types is another. -/
inductive Attempt (n : Network) : Network → Prop where
  | command (c : GraphCommand) : Attempt n (c.perform.outcome n).2
  | types (t : Types) : Attempt n { n with types := t }

abbrev Attempts : Network → Network → Prop := Relation.ReflTransGen Attempt

end GraphCommand

/-! ### A frozen node keeps its type -/

namespace Network
variable {n n' : Network} {id other : NodeId} {type t : TypeId}

/-- The node is frozen and has the type. -/
structure FrozenAt (id : NodeId) (type : TypeId) (n : Network) : Prop where
  frozen : (n.graph.node id).frozen = true
  typed : n.graph.typeOf id = some type

namespace FrozenAt

theorem lt (h : FrozenAt id type n) : id.index < n.graph.size := by
  refine Nat.lt_of_not_le fun hle => ?_
  have := h.frozen
  rw [FlowGraph.node_of_le hle] at this; cases this

theorem of_nodes_eq (h : FrozenAt id type n) (hg : n'.graph.nodes = n.graph.nodes) :
    FrozenAt id type n' := by
  have hnode : n'.graph.node id = n.graph.node id := by rw [FlowGraph.node, FlowGraph.node, hg]
  exact ⟨hnode ▸ h.frozen, (congrArg FlowNode.type hnode).trans h.typed⟩

theorem modify {f : FlowNode → FlowNode} (h : FrozenAt id type n)
    (hfrozen : ∀ node, node.frozen = true → (f node).frozen = true)
    (htype : ∀ node, (f node).type = node.type) :
    FrozenAt id type { n with graph := n.graph.modify other f } := by
  refine ⟨?_, (FlowGraph.modify_field FlowNode.type htype).trans h.typed⟩
  show ((n.graph.modify other f).node id).frozen = true
  rw [FlowGraph.node_modify]
  split
  · rename_i heq; exact hfrozen _ (heq.1 ▸ h.frozen)
  · exact h.frozen

/-- Another node gets another type. -/
theorem retype (h : FrozenAt id type n) (hother : (n.graph.node other).frozen = false) :
    FrozenAt id type (n.retype other t) := by
  have hne : id ≠ other := by
    rintro rfl
    rw [h.frozen] at hother; cases hother
  refine ⟨?_, (typeOf_retype_of_ne hne).trans h.typed⟩
  rw [Network.retype, FlowGraph.node_modify_of_ne hne]
  exact h.frozen

theorem link (h : FrozenAt id type n) (other : NodeId) (deps : List NodeId) :
    FrozenAt id type (n.link other deps) :=
  ⟨(FlowGraph.link_field FlowNode.frozen (fun _ _ => rfl) (fun _ _ => rfl) deps).trans h.frozen,
    (FlowGraph.typeOf_link deps).trans h.typed⟩

theorem unbind (h : FrozenAt id type n) (other : NodeId) (deps : List NodeId) :
    FrozenAt id type { n with graph := n.graph.unbind other deps } :=
  ⟨(FlowGraph.frozen_unbind deps).trans h.frozen, (FlowGraph.typeOf_unbind deps).trans h.typed⟩

theorem addNode (h : FrozenAt id type n) (derivation : Derivation) :
    FrozenAt id type { n with graph := (n.graph.addNode derivation).2 } := by
  have hnode : (n.graph.addNode derivation).2.node id = n.graph.node id := by
    rw [FlowGraph.node_addNode, if_neg (Nat.ne_of_lt h.lt)]
  exact ⟨hnode ▸ h.frozen, (congrArg FlowNode.type hnode).trans h.typed⟩

theorem settleUntyped (h : FrozenAt id type n) (bottom : TypeId) :
    FrozenAt id type { n with graph := (n.graph.settleUntyped bottom).2 } := by
  have hfrozen := n.graph.settleUntyped_field FlowNode.frozen (fun _ _ => rfl) bottom id
  exact ⟨hfrozen.trans h.frozen, FlowGraph.typeOf_settleUntyped h.lt h.typed⟩

end FrozenAt

end Network

namespace Binding
open Network
variable {n n' : Network} {id : NodeId} {type : TypeId}

theorem keeps_frozenAt_refresh (other : NodeId) : Keeps (FrozenAt id type) (refresh other) := by
  have hgrow : ∀ n, FrozenAt id type n → FrozenAt id type (n.derivedType other).2 := fun n h =>
    h.of_nodes_eq (by rw [n.derivedType_graph other])
  refine keeps_refresh hgrow fun n t h _ _ hf => (hgrow n h).retype ?_
  rwa [n.derivedType_graph other]

theorem keeps_frozenAt_propagate (other : NodeId) : Keeps (FrozenAt id type) (propagate other) :=
  keeps_propagate (fun _ _ h => h.modify (fun _ hf => hf) fun _ => rfl)
    (fun _ _ h => h.of_nodes_eq rfl) keeps_frozenAt_refresh other

theorem keeps_frozenAt_bind (other : NodeId) (deps : List NodeId) :
    Keeps (FrozenAt id type) (bind other deps) :=
  keeps_bindNode (fun _ h => h.link other deps) (keeps_frozenAt_refresh other)
    (keeps_frozenAt_propagate other)

theorem keeps_frozenAt_setType (other : NodeId) (t : TypeId) :
    Keeps (FrozenAt id type) (setType other t) :=
  keeps_setType (fun _ h _ hf => h.retype hf) (keeps_frozenAt_propagate other)

end Binding

namespace GraphCommand
open Network
variable {n n' : Network} {id : NodeId} {type : TypeId}

theorem keeps_frozenAt (c : GraphCommand) : Binding.Keeps (FrozenAt id type) c.perform := by
  intro n h
  cases c with
  | addNode derivation => exact h.addNode derivation
  | bind other deps => exact Binding.keeps_frozenAt_bind other deps n h
  | unbind other deps => exact h.unbind other deps
  | setType other t => exact Binding.keeps_frozenAt_setType other t n h
  | freeze other => exact h.modify (fun _ _ => rfl) fun _ => rfl
  | observe other observer => exact h.modify (fun _ hf => hf) fun _ => rfl
  | nextCall => exact h.of_nodes_eq (FlowGraph.nodes_nextCall? n.graph)
  | settleUntyped bottom => exact h.settleUntyped bottom

theorem Attempts.frozenAt (h : Attempts n n') (hn : FrozenAt id type n) : FrozenAt id type n' := by
  induction h with
  | refl => exact hn
  | tail _ h ih =>
    cases h with
    | command c => exact c.keeps_frozenAt _ ih
    | types t => exact ih.of_nodes_eq rfl

end GraphCommand

/-! ### Conflicts -/

namespace Network

/-- The failure names a frozen node, the type that it has, and another type that was to replace
it. -/
def Rejects (n : Network) (failure : GraphFailure) : Prop :=
  ∃ id type, (n.graph.node id).frozen = true ∧ n.graph.typeOf id ≠ some type ∧
    failure = Binding.conflictAt n id type

end Network

namespace Binding
open Network
variable {α β : Type}

/-- What fails does so by a conflict, or because it goes on for too long. -/
def Conflicts (x : Binding α) : Prop :=
  ∀ n failure n', x.outcome n = (.error failure, n') → failure = .exhausted ∨ n'.Rejects failure

theorem conflicts_pure (a : α) : Conflicts (pure a : Binding α) := nofun

theorem conflicts_modifyGraph (f : FlowGraph → FlowGraph) : Conflicts (modifyGraph f) := nofun

theorem Conflicts.bind {x : Binding α} {f : α → Binding β} (hx : Conflicts x)
    (hf : ∀ a, Conflicts (f a)) : Conflicts (x >>= f) := by
  intro n failure n' h
  rw [outcome_bind] at h
  rcases hr : x.outcome n with ⟨_ | a, m⟩ <;> rw [hr] at h
  · cases h; exact hx n _ _ hr
  · exact hf a m _ _ h

theorem Conflicts.forM {bs : List β} {f : β → Binding Unit} (hf : ∀ b, Conflicts (f b)) :
    Conflicts (bs.forM f) := by
  induction bs with
  | nil => exact conflicts_pure ()
  | cons b bs ih => exact (hf b).bind fun _ => ih

theorem conflicts_refresh (id : NodeId) : Conflicts (refresh id) := by
  intro n failure n' h
  rw [outcome_refresh] at h
  split at h
  · cases h
  · split at h
    · cases h
    · split at h
      · cases h; exact .inr ⟨id, _, ‹_›, ‹_›, rfl⟩
      · cases h

theorem conflicts_notify : ∀ o, Conflicts (notify o)
  | .node id => (conflicts_refresh id).bind fun _ => conflicts_pure ()
  | .call call => conflicts_modifyGraph fun g => g.enqueue call

theorem conflicts_propagateWithin (fuel : Nat) (id : NodeId) :
    Conflicts (propagateWithin fuel id) := by
  induction fuel generalizing id with
  | zero => intro n failure n' h; cases h; exact .inl rfl
  | succ fuel ih =>
    intro n failure n' h
    rw [outcome_propagateWithin] at h
    split at h
    · refine Conflicts.bind (.forM conflicts_notify) (fun _ => .forM fun o => ?_) _ _ _ h
      cases o with
      | node id => exact ih id
      | call _ => exact conflicts_pure ()
    · cases h

theorem conflicts_propagate (id : NodeId) : Conflicts (propagate id) := fun n =>
  conflicts_propagateWithin n.propagationFuel id n

theorem conflicts_setType (id : NodeId) (type : TypeId) : Conflicts (setType id type) := by
  intro n failure n' h
  unfold setType at h
  rw [outcome_bind, show (get : Binding Network).outcome n = (.ok n, n) from rfl] at h
  dsimp only at h
  split at h
  · cases h
  · rename_i hne
    have hne' : decide ((n.graph.node id).type ≠ some type) = true := decide_eq_true hne
    rw [outcome_bind, outcome_commit, hne', Bool.and_true] at h
    cases hf : (n.graph.node id).frozen
    · rw [hf] at h; exact conflicts_propagate id (n.retype id type) _ _ h
    · rw [hf] at h; cases h; exact .inr ⟨id, type, hf, hne, rfl⟩

theorem conflicts_bind (id : NodeId) (deps : List NodeId) : Conflicts (bind id deps) := by
  unfold bind
  refine (conflicts_modifyGraph _).bind fun _ => (conflicts_refresh id).bind fun changed => ?_
  split
  · exact conflicts_propagate id
  · exact conflicts_pure ()

end Binding

namespace GraphCommand
open Network

theorem conflicts (c : GraphCommand) : Binding.Conflicts c.perform := by
  cases c with
  | bind id deps => exact Binding.conflicts_bind id deps
  | setType id type => exact Binding.conflicts_setType id type
  | addNode | unbind | freeze | observe | nextCall | settleUntyped => exact nofun

/-! ### Frozen nodes and their dependencies -/

/-- The command speaks of nodes and types of the network only, takes no edge away and gives a type
directly to nodes without dependencies alone. -/
def Allowed (n : Network) : GraphCommand → Prop
  | addNode derivation => ∀ t ∈ derivation.targets, t.index < n.types.size
  | bind _ deps => ∀ d ∈ deps, d.index < n.graph.size
  | unbind _ _ => False
  | setType id type => (n.graph.node id).dependencies = [] ∧ type.index < n.types.size
  | freeze _ | observe _ _ | nextCall => True
  | settleUntyped bottom => bottom.index < n.types.size

/-- The nodes that get a type of which nobody is notified. -/
def filled (n : Network) : GraphCommand → List NodeId
  | settleUntyped _ => n.untyped
  | _ => []

/-- The networks that commands make of the empty graph over a table, as long as each is carried
through, and the nodes that have been filled. Between two commands the table may grow by itself. -/
inductive Completed (t : Types) : Network → List NodeId → Prop where
  | start : Completed t ⟨t, .empty⟩ []
  | step {n n' : Network} {ids : List NodeId} {c : GraphCommand} : Completed t n ids → c.Allowed n →
      c.perform.Does n () n' → Completed t n' (c.filled n ++ ids)
  | grow {n : Network} {ids : List NodeId} {t' : Types} : Completed t n ids →
      n.types.GrowsTo t' → t'.Closed →
      Completed t { n with types := t' } ids

instance (n : Network) : (c : GraphCommand) → Decidable (c.Allowed n)
  | addNode _ | bind _ _ => inferInstanceAs (Decidable (∀ _ ∈ _, _))
  | unbind _ _ => .isFalse nofun
  | setType _ _ => inferInstanceAs (Decidable (_ ∧ _))
  | freeze _ | observe _ _ | nextCall => .isTrue trivial
  | settleUntyped _ => inferInstanceAs (Decidable (_ < _))

variable {t : Types} {n n' : Network} {ids : List NodeId} {c : GraphCommand}

theorem resting_perform (hn : n.Resting ids) (hc : c.Allowed n) (h : c.perform.Does n () n') :
    n'.Resting (c.filled n ++ ids) := by
  cases c <;> rw [perform] at h
  case addNode derivation => rw [Binding.does_modifyGraph.mp h]; exact hn.addNode hc
  case bind id deps => exact Binding.resting_bindNode hn hc h
  case unbind => exact hc.elim
  case setType id type => exact Binding.resting_setType hn hc.1 hc.2 h
  case freeze id =>
    rw [Binding.does_modifyGraph.mp h]
    refine hn.modify ?_ ?_ ?_ (fun _ _ ho => ho) ?_ <;> exact fun _ => rfl
  case observe id observer =>
    rw [Binding.does_modifyGraph.mp h]
    refine hn.modify ?_ ?_ ?_ (fun _ _ ho => mem_insertLast.mpr (.inl ho)) ?_ <;> exact fun _ => rfl
  case nextCall =>
    rw [Binding.does_modifyGraph.mp h]
    exact hn.of_nodes_eq (FlowGraph.nodes_nextCall? n.graph)
  case settleUntyped bottom => rw [Binding.does_modifyGraph.mp h]; exact hn.settleUntyped hc

theorem Completed.resting (ht : t.Closed) (h : Completed t n ids) : n.Resting ids := by
  induction h with
  | start => exact .empty ht
  | step _ hc hdo ih => exact resting_perform ih hc hdo
  | grow _ ht' hclosed ih => exact ih.grow ht' hclosed

/-- Commands one after the other, each allowed and carried through. -/
def performAll : List GraphCommand → Network × List NodeId → Option (Network × List NodeId)
  | [], r => some r
  | c :: cs, (n, ids) =>
    if c.Allowed n then
      match c.perform.outcome n with
      | (.ok (), n') => performAll cs (n', c.filled n ++ ids)
      | (.error _, _) => none
    else none

theorem Completed.performAll {cs : List GraphCommand} {r : Network × List NodeId}
    (h : Completed t n ids) (hcs : performAll cs (n, ids) = some r) : Completed t r.1 r.2 := by
  induction cs generalizing n ids with
  | nil => cases hcs; exact h
  | cons c cs ih =>
    rw [GraphCommand.performAll] at hcs
    split at hcs
    · split at hcs
      · exact ih (h.step ‹_› ‹_›) hcs
      · cases hcs
    · cases hcs

/-- A frozen node keeps its type whatever is tried. While all commands are carried through, it has
the type that it derives, unless a dependency has been filled. What fails rejects a type that a
frozen node does not have. -/
theorem frozen_final :
    (∀ n n' id type, Attempts n n' → FrozenAt id type n → FrozenAt id type n') ∧
    (∀ t n ids, t.Closed → Completed t n ids → ∀ id type derived, FrozenAt id type n →
      (∀ d ∈ (n.graph.node id).dependencies, d ∉ ids) → n.Demands id derived → derived = type) ∧
    ∀ c n failure n', (perform c).outcome n = (.error failure, n') → failure = .exhausted ∨
      n'.Rejects failure := by
  refine ⟨fun n n' id type h => h.frozenAt, fun t n ids ht h id type derived hid hdeps hd => ?_,
    fun c n failure n' => c.conflicts n failure n'⟩
  have hs := ((h.resting ht).settled id).resolve_right fun ⟨d, hd, hf⟩ => hdeps d hd hf
  exact Option.some.inj ((hs.type derived (demands_iff.mp hd)).symm.trans hid.typed)

/-- Why the command fails, if it does. -/
def failure? (c : GraphCommand) (n : Network) : Option GraphFailure :=
  match (c.perform.outcome n).1 with
  | .error failure => some failure
  | .ok () => none

theorem outcome_of_failure {failure : GraphFailure} (h : c.failure? n = some failure) :
    c.perform.outcome n = (.error failure, (c.perform.outcome n).2) := by
  unfold failure? at h
  split at h
  · cases h
    exact Prod.ext ‹_› rfl
  · cases h

/-- A frozen node refuses to become a `Char`, and neither an untyped node that is filled nor a
command that fails makes a difference. -/
theorem frozen_final_number :
    ∃ n ids, Types.initial.Closed ∧ Completed .initial n ids ∧ ids = [⟨2⟩] ∧
    FrozenAt ⟨1⟩ .int32 n ∧ n.Demands ⟨1⟩ .int32 ∧
    (∀ derived, n.Demands ⟨1⟩ derived → derived = .int32) ∧
    ∃ n', (setType ⟨0⟩ .char).perform.outcome n = (.error (.conflict ⟨1⟩ "Int32" "Char"), n') ∧
      n'.Rejects (.conflict ⟨1⟩ "Int32" "Char") ∧ FrozenAt ⟨1⟩ .int32 n' := by
  have hall :
      (performAll [addNode .identity, addNode .identity, addNode .identity, setType ⟨0⟩ .int32,
      bind ⟨1⟩ [⟨0⟩], freeze ⟨1⟩, settleUntyped .noReturn] (⟨.initial, .empty⟩, [])).any
        (fun r => r.2 = [⟨2⟩] ∧
        ((r.1.graph.node ⟨1⟩).frozen = true ∧ r.1.graph.typeOf ⟨1⟩ = some .int32) ∧
        (r.1.graph.node ⟨1⟩).dependencies = [⟨0⟩] ∧
        (r.1.graph.deriveIn ⟨1⟩ r.1.types).1 = some .int32 ∧
        (setType ⟨0⟩ .char).failure? r.1 = some (.conflict ⟨1⟩ "Int32" "Char")) =
          true := by decide +kernel
  obtain ⟨⟨n, ids⟩, hn, h⟩ := (Option.any_eq_true _ _).mp hall
  obtain ⟨hids, hfrozen, hdeps, hderived, hfails⟩ := of_decide_eq_true h
  have hcompleted := Completed.start.performAll hn
  have hfrozen : FrozenAt ⟨1⟩ .int32 n := ⟨hfrozen.1, hfrozen.2⟩
  have hfails := outcome_of_failure hfails
  refine ⟨n, ids, Types.closed_initial, hcompleted, hids, hfrozen, demands_iff.mpr hderived,
    fun derived hd => ?_, _, hfails, ?_, ?_⟩
  · refine frozen_final.2.1 _ n ids Types.closed_initial hcompleted ⟨1⟩ .int32 derived hfrozen ?_ hd
    rw [hdeps, show ids = [⟨2⟩] from hids]
    decide
  · exact (frozen_final.2.2 _ n _ _ hfails).resolve_left nofun
  · exact frozen_final.1 n _ ⟨1⟩ .int32 (.single (.command _)) hfrozen

/-- A dependency that gets its type by filling contradicts a frozen node. -/
theorem not_frozen_consistent : ¬ ∀ t n ids, t.Closed → Completed t n ids → ∀ id type derived,
    FrozenAt id type n → n.Demands id derived → derived = type := by
  intro h
  have hall : (performAll [addNode .identity, addNode .identity, setType ⟨1⟩ .int32,
      freeze ⟨1⟩, bind ⟨1⟩ [⟨0⟩], settleUntyped .noReturn] (⟨.initial, .empty⟩, [])).any (fun r =>
        ((r.1.graph.node ⟨1⟩).frozen = true ∧ r.1.graph.typeOf ⟨1⟩ = some .int32) ∧
        (r.1.graph.deriveIn ⟨1⟩ r.1.types).1 = some .noReturn) = true := by decide +kernel
  obtain ⟨⟨n, ids⟩, hn, hr⟩ := (Option.any_eq_true _ _).mp hall
  obtain ⟨hfrozen, hderived⟩ := of_decide_eq_true hr
  have heq := h _ n ids Types.closed_initial (Completed.start.performAll hn) ⟨1⟩ .int32 .noReturn
    ⟨hfrozen.1, hfrozen.2⟩ (demands_iff.mpr hderived)
  exact absurd heq (by decide)

end GraphCommand

end TypeFlow

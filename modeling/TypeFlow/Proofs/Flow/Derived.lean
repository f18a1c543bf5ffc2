import TypeFlow.Proofs.Flow.Runs
import TypeFlow.Proofs.Types.Subtyping

/-!
# Derived types

`g.deriveIn id t`: the type that the edges of `g` derive for a node, and the table that `t` becomes
when that type is looked for. In a `WellLinked` network the answer settles, so that it only changes
when the type of a dependency does. `Demands` says the same without running anything: what the
derivation makes of the type of the one dependency, or of the join of several.
-/

namespace TypeFlow

/-- The types that a derivation compares with. -/
def Derivation.targets : Derivation → List TypeId
  | .narrow f => f.targets
  | .identity | .pointerOf | .metaclass => []

namespace FlowGraph

def deriveIn (g : FlowGraph) (id : NodeId) (t : Types) : Option TypeId × Types :=
  match Network.joinOfDependencies g t id with
  | (none, t) => (none, t)
  | (some join, t) => (g.node id).derivation.apply t join

theorem deriveIn_of_isEmpty {g : FlowGraph} {id : NodeId} (t : Types)
    (h : (g.node id).dependencies = []) : g.deriveIn id t = (none, t) := by
  rw [deriveIn, Network.joinOfDependencies, h]

/-- Only the derivation of a node and the types of its dependencies matter. -/
theorem deriveIn_congr {g g' : FlowGraph} {id : NodeId} (t : Types)
    (hdeps : (g'.node id).dependencies = (g.node id).dependencies)
    (hderiv : (g'.node id).derivation = (g.node id).derivation)
    (htypes : ∀ d ∈ (g.node id).dependencies, g'.typeOf d = g.typeOf d) :
    g'.deriveIn id t = g.deriveIn id t := by
  have hjoin : Network.joinOfDependencies g' t id = Network.joinOfDependencies g t id := by
    unfold Network.joinOfDependencies
    rw [hdeps]
    split
    · rfl
    · rename_i dep heq; rw [htypes dep (by simp [heq])]
    · rw [List.filterMap_congr htypes]
  rw [deriveIn, deriveIn, hjoin, hderiv]

end FlowGraph

theorem Derivation.growsTo_apply (d : Derivation) (t : Types) (id : TypeId) :
    t.GrowsTo (d.apply t id).2 := by
  cases d with
  | identity => exact .refl t
  | pointerOf => exact (Types.settles_pointerTo t id).1
  | metaclass => exact Types.growsTo_metaclassOf t id
  | narrow f => exact f.growsTo_apply t id

theorem Derivation.narrows_apply (d : Derivation) {t : Types} {id : TypeId} (hc : t.Closed)
    (hid : id.index < t.size) (hd : ∀ target ∈ d.targets, target.index < t.size) :
    Narrowing.Narrows (fun t => d.apply t id) t := by
  have hsome : ∀ {f : Types → TypeId × Types}, (f t).2.Closed → (f t).1.index < (f t).2.size →
      Types.Settles f t → Narrowing.Narrows (fun t => (some (f t).1, (f t).2)) t :=
    fun hc hlt hs => ⟨hc, fun n hn => by rwa [← Option.some.inj hn], hs.1, fun t' ht' => by
      simp only [hs.2 t' ht']⟩
  cases d with
  | identity => exact .const hc fun n hn => by rwa [← Option.some.inj hn]
  | pointerOf =>
    exact hsome (hc.pointerTo hid) (Types.pointerTo_lt t id) (Types.settles_pointerTo t id)
  | metaclass =>
    exact hsome (hc.metaclassOf hid) (Types.metaclassOf_lt hid) (Types.settles_metaclassOf hid)
  | narrow f => exact f.narrows_apply hc hid hd

namespace Network
variable {n n' : Network} {id : NodeId}

theorem derivedType_eq (n : Network) (id : NodeId) :
    n.derivedType id =
      ((n.graph.deriveIn id n.types).1, { n with types := (n.graph.deriveIn id n.types).2 }) := by
  rw [derivedType, FlowGraph.deriveIn]
  rcases joinOfDependencies n.graph n.types id with ⟨_ | join, t⟩ <;> rfl

/-- Types and derivations only refer to what is there, and what a node depends on knows the node. -/
structure WellLinked (n : Network) : Prop where
  closed : n.types.Closed
  typed : ∀ id t, n.graph.typeOf id = some t → t.index < n.types.size
  targets : ∀ id, ∀ t ∈ (n.graph.node id).derivation.targets, t.index < n.types.size
  edges : ∀ id d, d ∈ (n.graph.node id).dependencies → Observer.node id ∈ (n.graph.node d).observers

theorem growsTo_joinOfDependencies (g : FlowGraph) (t : Types) (id : NodeId) :
    t.GrowsTo (joinOfDependencies g t id).2 := by
  unfold joinOfDependencies; split
  · exact .refl t
  · exact .refl t
  · exact Types.growsTo_join t _

theorem growsTo_deriveIn (g : FlowGraph) (id : NodeId) (t : Types) :
    t.GrowsTo (g.deriveIn id t).2 := by
  have h := growsTo_joinOfDependencies g t id
  unfold FlowGraph.deriveIn
  rcases hr : joinOfDependencies g t id with ⟨_ | join, t'⟩ <;> rw [hr] at h
  · exact h
  · exact h.trans (Derivation.growsTo_apply _ t' join)

theorem growsTo_derivedType (n : Network) (id : NodeId) :
    n.types.GrowsTo (n.derivedType id).2.types := by
  rw [derivedType_eq]; exact growsTo_deriveIn n.graph id n.types

theorem WellLinked.narrows_joinOfDependencies (h : n.WellLinked) (id : NodeId) :
    Narrowing.Narrows (joinOfDependencies n.graph · id) n.types := by
  unfold joinOfDependencies
  split
  · exact .const h.closed (by simp)
  · exact .const h.closed fun t ht => h.typed _ t ht
  · refine .join _ h.closed fun t ht => ?_
    obtain ⟨d, _, hd⟩ := List.mem_filterMap.mp ht
    exact h.typed d t hd

theorem WellLinked.narrows_deriveIn (h : n.WellLinked) (id : NodeId) :
    Narrowing.Narrows (n.graph.deriveIn id) n.types := by
  have hj := h.narrows_joinOfDependencies id
  refine hj.andThen (fun join t => (n.graph.node id).derivation.apply t join)
    (fun join hjoin => ?_) (fun t' h' => ?_) (fun t' join h' => ?_)
  · exact Derivation.narrows_apply _ hj.closed (hj.lt join hjoin)
      fun t ht => hj.settles.1.lt (h.targets id t ht)
  · rw [FlowGraph.deriveIn, h']
  · rw [FlowGraph.deriveIn, h']

/-- The derivation of a node makes `type` of the type of its one dependency, or of the join of the
types that several of them have. -/
def Demands (n : Network) (id : NodeId) (type : TypeId) : Prop :=
  match (n.graph.node id).dependencies with
  | [] => False
  | [dep] => ∃ t, n.graph.typeOf dep = some t ∧
      ((n.graph.node id).derivation.apply n.types t).1 = some type
  | deps => ∃ join types, n.types.join (deps.filterMap n.graph.typeOf) = (some join, types) ∧
      ((n.graph.node id).derivation.apply types join).1 = some type

theorem demands_iff {type : TypeId} :
    n.Demands id type ↔ (n.graph.deriveIn id n.types).1 = some type := by
  unfold Demands FlowGraph.deriveIn joinOfDependencies
  rcases (n.graph.node id).dependencies with _ | ⟨dep, _ | ⟨dep', deps⟩⟩
  · simp
  · cases hd : n.graph.typeOf dep <;> simp only [hd] <;> simp
  · rcases hj : n.types.join ((dep :: dep' :: deps).filterMap n.graph.typeOf) with ⟨_ | join, types⟩
    · simp [hj]
    · simp [hj]

end Network

end TypeFlow

import TypeFlow.Proofs.Flow.Guarded
import TypeFlow.Proofs.Flow.Resting
import TypeFlow.Proofs.Types.Unshared

/-!
# Orderly networks

A declaration can change what is a subtype of what and tells no node, so that a node is not settled
for good. `n.Justified id t`: when the node derived its type last, the table was `t`, which has
become that of `n` since. A network is `Orderly` when every node has such a table, but for the nodes
of a list: those that a step is not done with yet.
-/

namespace TypeFlow

namespace FlowGraph
variable {g : FlowGraph} {id : NodeId} {t t' : Types}

theorem deriveIn_of_untyped (h : ∀ d ∈ (g.node id).dependencies, g.typeOf d = none) :
    g.deriveIn id t = (none, t) := by
  have hjoin : Network.joinOfDependencies g t id = (none, t) := by
    unfold Network.joinOfDependencies
    split
    · rfl
    · rename_i dep heq; rw [h dep (by simp [heq])]
    · rw [List.filterMap_eq_nil_iff.mpr h]; rfl
  rw [deriveIn, hjoin]

/-- The table has the types of the dependencies, and those that the node compares with. -/
structure Known (g : FlowGraph) (id : NodeId) (t : Types) : Prop where
  types : ∀ d ∈ (g.node id).dependencies, ∀ a, g.typeOf d = some a → a.index < t.size
  targets : ∀ target ∈ (g.node id).derivation.targets, target.index < t.size

theorem lasts_joinOfDependencies (hknown : g.Known id t) :
    Types.Lasts (Network.joinOfDependencies g · id) t := by
  unfold Network.joinOfDependencies
  split
  · exact Types.lasts_pure none
  · exact Types.lasts_pure _
  · refine Types.lasts_join fun a ha => ?_
    obtain ⟨d, hd, hda⟩ := List.mem_filterMap.mp ha
    exact hknown.types d (by simp_all) a hda

theorem held_joinOfDependencies (hs : t.Solid) (hknown : g.Known id t) :
    Narrowing.Held (Network.joinOfDependencies g t id) := by
  unfold Network.joinOfDependencies
  split
  · exact Narrowing.held_none hs
  · rename_i dep heq
    exact ⟨hs, hknown.types dep (by simp [heq])⟩
  · refine Narrowing.held_join hs fun a ha => ?_
    obtain ⟨d, hd, hda⟩ := List.mem_filterMap.mp ha
    exact hknown.types d (by simp_all) a hda

end FlowGraph

namespace Derivation
variable {t : Types} {id : TypeId}

theorem held_apply (d : Derivation) (hs : t.Solid) (hid : id.index < t.size) :
    Narrowing.Held (d.apply t id) := by
  cases d with
  | identity => exact Narrowing.held_some hs hid
  | pointerOf => exact ⟨hs.pointerTo hid, fun _ h => by cases h; exact Types.pointerTo_lt t id⟩
  | metaclass => exact ⟨hs.metaclassOf hid, fun _ h => by cases h; exact Types.metaclassOf_lt hid⟩
  | narrow f => exact f.held_apply hs hid

/-- A derivation that compares with no type gives the same answer whatever is declared later. -/
theorem lasts_apply (d : Derivation) (hc : t.Closed) (hid : id.index < t.size)
    (hd : d.targets = []) : Types.Lasts (d.apply · id) t := by
  have hsome : ∀ {f : Types → TypeId × Types}, Types.Lasts f t →
      Types.Lasts (fun t => (some (f t).1, (f t).2)) t :=
    fun h => ⟨h.1, fun t' ht' => by simp only [h.2 t' ht']⟩
  cases d with
  | identity => exact Types.lasts_pure _
  | pointerOf => exact hsome (Types.lasts_pointerTo t id)
  | metaclass => exact hsome (Types.lasts_metaclassOf hid)
  | narrow f => exact f.lasts_apply hc hid hd

end Derivation

namespace FlowGraph
variable {g : FlowGraph} {id : NodeId} {t t' : Types}

theorem held_deriveIn (hs : t.Solid) (hknown : g.Known id t) :
    Narrowing.Held (g.deriveIn id t) := by
  have hjoin := held_joinOfDependencies hs hknown
  unfold deriveIn
  rcases hr : Network.joinOfDependencies g t id with ⟨_ | join, t'⟩ <;> rw [hr] at hjoin
  · exact hjoin
  · exact Derivation.held_apply _ hjoin.solid (hjoin.lt join rfl)

theorem lasts_deriveIn (hs : t.Solid) (hknown : g.Known id t)
    (htargets : (g.node id).derivation.targets = []) :
    Types.Lasts (g.deriveIn id) t := by
  have hjoin := held_joinOfDependencies hs hknown
  refine (lasts_joinOfDependencies hknown).andThen
    (fun join t => (g.node id).derivation.apply t join) (fun join h => ?_)
    (fun t' h' => by rw [deriveIn, h']) (fun t' join h' => by rw [deriveIn, h'])
  exact Derivation.lasts_apply _ hjoin.solid.toClosed (hjoin.lt join h) htargets

/-- A member of a join of dependencies' types is a member of one of these. -/
theorem exists_of_mem_atoms_joinOfDependencies (hs : t.Solid) (hknown : g.Known id t)
    {join m : TypeId} (hj : (Network.joinOfDependencies g t id).1 = some join)
    (ht : (Network.joinOfDependencies g t id).2.KeepsKinds t') (hm : m ∈ t'.atoms join) :
    ∃ d ∈ (g.node id).dependencies, ∃ a, g.typeOf d = some a ∧ m ∈ t'.atoms a := by
  revert hj ht
  unfold Network.joinOfDependencies
  split
  · intro hj; cases hj
  · rename_i dep heq
    intro hj _
    exact ⟨dep, by simp [heq], join, hj, hm⟩
  · intro hj ht
    have hlt : ∀ a ∈ (g.node id).dependencies.filterMap g.typeOf, a.index < t.size := fun a ha => by
      obtain ⟨d, hd, hda⟩ := List.mem_filterMap.mp ha
      exact hknown.types d hd a hda
    obtain ⟨a, ha, hma⟩ := Types.exists_of_mem_atoms_join hs hlt hj ht hm
    obtain ⟨d, hd, hda⟩ := List.mem_filterMap.mp ha
    exact ⟨d, hd, a, hda, hma⟩

/-- As long as no module that a type includes is among what the node compares, the node derives the
same type, whatever is declared later. -/
theorem deriveIn_eq_of_unshared (hs : t.Solid) (hknown : g.Known id t)
    (ht : (g.deriveIn id t).2.Precedes t')
    (htargets : ∀ target ∈ (g.node id).derivation.targets, t'.Unshared target)
    (hdeps : ∀ d ∈ (g.node id).dependencies, ∀ a, g.typeOf d = some a → t'.Unshared a) :
    g.deriveIn id t' = ((g.deriveIn id t).1, t') := by
  obtain ⟨hgrows, hsame⟩ : t.GrowsTo (Network.joinOfDependencies g t id).2 ∧
      ∀ t', (Network.joinOfDependencies g t id).2.KeepsKinds t' →
        Network.joinOfDependencies g t' id = ((Network.joinOfDependencies g t id).1, t') :=
          lasts_joinOfDependencies hknown
  have hjoin := held_joinOfDependencies hs hknown
  have hnone : (g.node id).derivation.targets = [] →
      g.deriveIn id t' = ((g.deriveIn id t).1, t') := fun h =>
    (lasts_deriveIn hs hknown h).2 t' ht.toKeepsKinds
  cases hd : (g.node id).derivation with
  | identity | pointerOf | metaclass => exact hnone (by rw [hd]; rfl)
  | narrow f =>
    have hmembers : ∀ {join}, (Network.joinOfDependencies g t id).1 = some join →
        (Network.joinOfDependencies g t id).2.KeepsKinds t' →
          ∀ m ∈ t'.atoms join, ¬ t'.Included m := fun hj hk m hm => by
      obtain ⟨d, hmem, a, ha, hma⟩ := exists_of_mem_atoms_joinOfDependencies hs hknown hj hk hm
      exact (hdeps d hmem a ha).members m hma
    rcases hr : Network.joinOfDependencies g t id with ⟨_ | join, t₁⟩ <;>
      rw [hr] at hgrows hsame hjoin hmembers
    · have hat : g.deriveIn id t = (none, t₁) := by rw [deriveIn, hr]
      rw [hat] at ht ⊢
      rw [deriveIn, hsame t' ht.toKeepsKinds]
    · have hat : g.deriveIn id t = f.apply t₁ join := by rw [deriveIn, hr, hd]; rfl
      rw [hat] at ht ⊢
      have hlater : t₁.Precedes t' := (Narrowing.growsTo_apply f t₁ join).precedes.trans ht
      have hendures := Narrowing.endures_apply f hjoin.solid (hjoin.lt join rfl)
        (fun target h => hgrows.lt (hknown.targets target (by rwa [hd]))) ht
        (fun target h => htargets target (by rwa [hd])) (hmembers rfl hlater.toKeepsKinds)
      rw [deriveIn, hsame t' hlater.toKeepsKinds, hd]
      exact hendures.same

end FlowGraph

namespace Network
variable {n n' : Network} {id d : NodeId} {t : Types} {X Y : List NodeId}

/-! ### Linked networks -/

/-- Nodes speak of types of the table, which is whole, and what a node depends on knows the node. -/
structure Linked (n : Network) : Prop where
  whole : n.types.Whole
  nodes : ∀ id, (n.graph.node id).Within n.types.size
  tied : n.graph.Tied

namespace Linked

theorem typed (h : n.Linked) (id : NodeId) (a : TypeId) (ha : n.graph.typeOf id = some a) :
    a.index < n.types.size :=
  (h.nodes id).type a ha

theorem known (h : n.Linked) (id : NodeId) : n.graph.Known id n.types :=
  ⟨fun d _ => h.typed d, (h.nodes id).targets⟩

theorem types (h : n.Linked) (ht : n.types.KeepsKinds t) (hw : t.Whole) :
    Linked { n with types := t } :=
  ⟨hw, fun id => (h.nodes id).mono ht.size_le, h.tied⟩

theorem held (h : n.Linked) (id : NodeId) : Narrowing.Held (n.graph.deriveIn id n.types) :=
  FlowGraph.held_deriveIn h.whole.toSolid (h.known id)

theorem derivedType (h : n.Linked) (id : NodeId) : (n.derivedType id).2.Linked := by
  have hgrows := growsTo_deriveIn n.graph id n.types
  rw [derivedType_eq]
  exact h.types hgrows.keepsKinds (h.whole.grow hgrows (h.held id).solid)

theorem modify {f : FlowNode → FlowNode} (h : n.Linked) (id : NodeId)
    (hwithin : ∀ node : FlowNode, node.Within n.types.size → (f node).Within n.types.size)
    (hdeps : ∀ node, (f node).dependencies = node.dependencies)
    (hobs : ∀ node, ∀ o ∈ node.observers, o ∈ (f node).observers) :
    Linked { n with graph := n.graph.modify id f } := by
  refine ⟨h.whole, fun other => ?_, h.tied.modify hdeps hobs id⟩
  rw [FlowGraph.node_modify]
  split
  · exact hwithin _ (h.nodes id)
  · exact h.nodes other

theorem retype (h : n.Linked) (id : NodeId) {a : TypeId} (ha : a.index < n.types.size) :
    (n.retype id a).Linked :=
  h.modify id (fun _ hw => ⟨fun _ hb => by rwa [← Option.some.inj hb], hw.targets, hw.guard⟩)
    (fun _ => rfl) fun _ _ ho => ho

/-- A change of the graph after which nodes have the types, derivations and guards that they had. -/
theorem graph {g : FlowGraph} (h : n.Linked) (hg : g.Tied)
    (htype : ∀ id, g.typeOf id = n.graph.typeOf id)
    (hderiv : ∀ id, (g.node id).derivation = (n.graph.node id).derivation)
    (hguard : ∀ id, (g.node id).guard = (n.graph.node id).guard) : Linked { n with graph := g } :=
  ⟨h.whole, fun id =>
    ⟨fun a ha => h.typed id a ((htype id).symm.trans ha), hderiv id ▸ (h.nodes id).targets,
    fun guard hg => (h.nodes id).guard guard ((hguard id).symm.trans hg)⟩, hg⟩

theorem link {deps : List NodeId} (h : n.Linked) (id : NodeId)
    (hdeps : ∀ d ∈ deps, d.index < n.graph.size) :
    (n.link id deps).Linked := by
  refine h.graph (h.tied.link hdeps) (fun _ => FlowGraph.typeOf_link deps) (fun _ => ?_) fun _ => ?_
  · exact FlowGraph.link_field FlowNode.derivation (fun _ _ => rfl) (fun _ _ => rfl) deps
  · exact FlowGraph.link_field FlowNode.guard (fun _ _ => rfl) (fun _ _ => rfl) deps

end Linked

/-! ### Justified types -/

/-- The node has the type that its dependencies derived in a table that has become the present
one. -/
structure Justified (n : Network) (id : NodeId) (t : Types) : Prop where
  solid : t.Solid
  known : n.graph.Known id t
  precedes : (n.graph.deriveIn id t).2.Precedes n.types
  type : ∀ a, (n.graph.deriveIn id t).1 = some a → n.graph.typeOf id = some a

def Lawful (n : Network) (id : NodeId) : Prop := ∃ t, n.Justified id t

theorem SameSources.known (h : n.SameSources n' id) (hk : n.graph.Known id t) :
    n'.graph.Known id t :=
  ⟨fun d hd a ha => hk.types d (h.dependencies ▸ hd) a
    ((h.types d (h.dependencies ▸ hd)).symm.trans ha),
    h.derivation.symm ▸ hk.targets⟩

theorem Justified.congr (h : n.Justified id t) (ht : n.types.Precedes n'.types)
    (hs : n.SameSources n' id) (htype : n'.graph.typeOf id = n.graph.typeOf id) :
    n'.Justified id t where
  solid := h.solid
  known := hs.known h.known
  precedes := by rw [hs.deriveIn_eq]; exact h.precedes.trans ht
  type a ha := by rw [hs.deriveIn_eq] at ha; exact htype.trans (h.type a ha)

/-- No module that some type includes is among the types that the node compares. -/
structure Clear (n : Network) (id : NodeId) : Prop where
  targets : ∀ target ∈ (n.graph.node id).derivation.targets, n.types.Unshared target
  dependencies : ∀ d ∈ (n.graph.node id).dependencies, ∀ a, n.graph.typeOf d =
    some a → n.types.Unshared a

instance (n : Network) (id : NodeId) : Decidable (n.Clear id) :=
  decidable_of_iff ((∀ target ∈ (n.graph.node id).derivation.targets, n.types.Unshared target) ∧
    ∀ d ∈ (n.graph.node id).dependencies, ∀ a ∈ n.graph.typeOf d, n.types.Unshared a)
    ⟨fun h => ⟨h.1, h.2⟩, fun h => ⟨h.1, h.2⟩⟩

/-- Where no types are compared, or no included modules, the present table does as well as an
earlier one. -/
theorem Justified.now (h : n.Justified id t) (hn : n.Linked)
    (hclear : (n.graph.node id).derivation.targets = [] ∨ n.Clear id) : n.Justified id n.types := by
  have hlast : n.graph.deriveIn id n.types = ((n.graph.deriveIn id t).1, n.types) := by
    rcases hclear with hnone | hclear
    · exact (FlowGraph.lasts_deriveIn h.solid h.known hnone).2 n.types h.precedes.toKeepsKinds
    · exact FlowGraph.deriveIn_eq_of_unshared h.solid h.known h.precedes
        hclear.targets hclear.dependencies
  refine ⟨hn.whole.toSolid, hn.known id, ?_, fun a ha => ?_⟩
  · rw [hlast]; exact .refl _
  · rw [hlast] at ha; exact h.type a ha

theorem steady_lawful : Steady Linked Lawful where
  edges h := h.tied
  keeps_clean id h :=
    h.modify id (fun _ hw => ⟨hw.type, hw.targets, hw.guard⟩) (fun _ => rfl) fun _ _ ho => ho
  keeps_enqueue _ h := ⟨h.whole, h.nodes, h.tied⟩
  keeps_derivedType h id := h.derivedType id
  keeps_retype h ht := by
    refine (h.derivedType _).retype _ ?_
    rw [derivedType_eq] at ht ⊢
    exact (h.held _).lt _ ht
  congr := fun _ ⟨t, ht⟩ hgrows hs htype => ⟨t, ht.congr hgrows.precedes hs htype⟩
  derived {n n' id} hw hgrows hs htype := by
    refine ⟨n.types, hw.whole.toSolid, hs.known (hw.known id), ?_, fun a ha => ?_⟩
    · rw [hs.deriveIn_eq]; exact hgrows.precedes
    · rw [hs.deriveIn_eq] at ha; exact htype a ha

/-! ### Orderly networks -/

/-- Every node is justified, but perhaps those in `X`. -/
abbrev Orderly (X : List NodeId) (n : Network) : Prop :=
  AtRest Linked (fun n id => n.Lawful id ∨ id ∈ X) n

theorem steady_orderly (X : List NodeId) : Steady Linked fun n id => n.Lawful id ∨ id ∈ X :=
  steady_lawful.or fun _ h => h

namespace Orderly

theorem mono (h : n.Orderly X) (hsub : ∀ id ∈ X, id ∈ Y) : n.Orderly Y :=
  ⟨h.linked, fun id => (h.steady id).imp_right (hsub id), h.clean⟩

theorem types (h : n.Orderly X) (ht : n.types.Precedes t) (hw : t.Whole) :
    Orderly X { n with types := t } :=
  ⟨h.linked.types ht.toKeepsKinds hw,
    fun id => (h.steady id).imp_left fun ⟨t₀, h₀⟩ =>
      ⟨t₀, h₀.congr ht ⟨rfl, rfl, fun _ _ => rfl⟩ rfl⟩, h.clean⟩

/-- A change of the graph that nothing is derived from. -/
theorem graph {g : FlowGraph} (h : n.Orderly X) (hg : Linked { n with graph := g })
    (hs : ∀ id, n.SameSources { n with graph := g } id)
    (htype : ∀ id, g.typeOf id = n.graph.typeOf id)
    (hdirty : ∀ id, (g.node id).dirty = (n.graph.node id).dirty) :
    Orderly X { n with graph := g } :=
  (steady_orderly X).atRest h hg (.refl _) hs htype fun id hd => (hdirty id).symm.trans hd

/-- A change of a node in what propagation does not look at. -/
theorem modify {f : FlowNode → FlowNode} (h : n.Orderly X) (id : NodeId)
    (hguard : ∀ node : FlowNode, node.Within n.types.size → ∀ guard, (f node).guard = some guard →
      guard.Within n.types.size)
    (htype : ∀ node, (f node).type = node.type)
    (hderiv : ∀ node, (f node).derivation = node.derivation)
    (hdeps : ∀ node, (f node).dependencies = node.dependencies)
    (hobs : ∀ node, ∀ o ∈ node.observers, o ∈ (f node).observers)
    (hdirty : ∀ node, (f node).dirty = node.dirty) :
    Orderly X { n with graph := n.graph.modify id f } := by
  refine h.graph (h.linked.modify id (fun node hw => ⟨?_, ?_, hguard node hw⟩) hdeps hobs)
    (fun _ => ⟨FlowGraph.modify_field FlowNode.dependencies hdeps,
      FlowGraph.modify_field FlowNode.derivation hderiv,
      fun _ _ => FlowGraph.modify_field FlowNode.type htype⟩)
    (fun _ => FlowGraph.modify_field FlowNode.type htype) fun _ =>
      FlowGraph.modify_field FlowNode.dirty hdirty
  · rw [htype]; exact hw.type
  · rw [hderiv]; exact hw.targets

theorem of_nodes_eq {g : FlowGraph} (h : n.Orderly X) (hg : g.nodes = n.graph.nodes) :
    Orderly X { n with graph := g } := by
  have hnode : ∀ id, g.node id = n.graph.node id :=
    fun id => by rw [FlowGraph.node, FlowGraph.node, hg]
  have htype : ∀ id, g.typeOf id = n.graph.typeOf id := fun id => congrArg FlowNode.type (hnode id)
  have hlinked : Linked { n with graph := g } :=
    ⟨h.linked.whole, fun id => hnode id ▸ h.linked.nodes id,
      h.linked.tied.of_nodes (fun id => by rw [hnode]) fun id o ho => by rwa [hnode]⟩
  exact h.graph hlinked
    (fun id => ⟨congrArg _ (hnode id), congrArg _ (hnode id), fun d _ => htype d⟩) htype
    fun id => congrArg _ (hnode id)

/-- A new node depends on nothing. -/
theorem push {node : FlowNode} (h : n.Orderly X) (hwithin : node.Within n.types.size)
    (hdeps : node.dependencies = []) (hdirty : node.dirty = false) :
    Orderly X { n with graph := { n.graph with nodes := n.graph.nodes.push node } } := by
  have hnode : ∀ id : NodeId, FlowGraph.node { n.graph with nodes := n.graph.nodes.push node } id =
      if id.index = n.graph.size then node else n.graph.node id := n.graph.node_push node
  have hold : ∀ id : NodeId, id.index = n.graph.size → n.graph.node id = default :=
    fun id hid => FlowGraph.node_of_le (Nat.le_of_eq hid.symm)
  have hsame : ∀ id : NodeId,
      (FlowGraph.node { n.graph with nodes := n.graph.nodes.push node } id).dependencies =
      (n.graph.node id).dependencies := fun id => by
    rw [hnode]; split
    · rw [hdeps, hold id ‹_›]; rfl
    · rfl
  have hlinked : Linked { n with graph := { n.graph with nodes := n.graph.nodes.push node } } := by
    refine ⟨h.linked.whole, fun id => ?_, h.linked.tied.of_nodes hsame fun id o ho => ?_⟩
    · dsimp only
      rw [hnode]; split
      · exact hwithin
      · exact h.linked.nodes id
    · rw [hnode]; split
      · rw [hold id ‹_›] at ho; cases ho
      · exact ho
  refine ⟨hlinked, fun id => ?_, fun id hd => ?_⟩
  · by_cases hid : id.index = n.graph.size
    · refine (steady_orderly X).of_isEmpty hlinked ((hsame id).trans (by rw [hold id hid]; rfl))
    · have hne : ∀ d ∈ (n.graph.node id).dependencies, d.index ≠ n.graph.size :=
        fun d hd => Nat.ne_of_lt (h.linked.tied.lt_of_mem hd)
      refine (steady_orderly X).congr h.linked (h.steady id) (.refl _)
        ⟨hsame id, ?_, fun d hd => ?_⟩ ?_
      · simp only [hnode, if_neg hid]
      · simp only [FlowGraph.typeOf, hnode, if_neg (hne d hd)]
      · simp only [FlowGraph.typeOf, hnode, if_neg hid]
  · simp only [Dirty, hnode] at hd
    split at hd
    · rw [hdirty] at hd; cases hd
    · exact h.clean id hd

theorem addNode (h : n.Orderly X) {derivation : Derivation}
    (hd : ∀ target ∈ derivation.targets, target.index < n.types.size) :
    Orderly X { n with graph := (n.graph.addNode derivation).2 } :=
  h.push ⟨fun _ h => (nomatch h), hd, fun _ h => nomatch h⟩ rfl rfl

theorem addTyped (h : n.Orderly X) {a : TypeId} (ha : a.index < n.types.size) :
    Orderly X { n with graph := (n.graph.addTyped a).2 } :=
  h.push ⟨fun _ h => by cases h; exact ha, fun _ h => (nomatch h), fun _ h => nomatch h⟩ rfl rfl

/-- The node keeps its type, and has to be bound again. -/
theorem unbind (h : n.Orderly X) (id : NodeId) (deps : List NodeId) :
    Orderly (id :: X) { n with graph := n.graph.unbind id deps } := by
  refine ⟨h.linked.graph (h.linked.tied.unbind deps) (fun _ => FlowGraph.typeOf_unbind deps)
    (fun _ => FlowGraph.derivation_unbind deps) fun _ => FlowGraph.guard_unbind deps,
      fun other => ?_, fun other hd => h.clean other ((FlowGraph.dirty_unbind deps).symm.trans hd)⟩
  by_cases hid : other = id
  · exact .inr (by simp [hid])
  · refine (steady_orderly (id :: X)).congr h.linked
      ((h.steady other).imp_right (List.mem_cons_of_mem _)) (.refl _)
      ⟨?_, ?_, fun d _ => ?_⟩ (FlowGraph.typeOf_unbind deps)
    · exact FlowGraph.dependencies_unbind_of_ne hid deps
    · exact FlowGraph.derivation_unbind deps
    · exact FlowGraph.typeOf_unbind deps

end Orderly

end Network

namespace Binding
open Network
variable {n n' : Network} {id : NodeId} {X : List NodeId} {a : TypeId}

/-- Once it is bound, a node is justified. -/
theorem orderly_bindNode {deps : List NodeId} (hn : n.Orderly (id :: X))
    (hdeps : ∀ d ∈ deps, d.index < n.graph.size) (h : (bind id deps).Does n () n') :
    n'.Orderly X := by
  refine (steady_orderly X).bindNode hn.linked (hn.linked.link id hdeps)
    (fun other hne => ?_) hn.clean h
  exact (hn.steady other).imp_right fun hmem => (List.mem_cons.mp hmem).resolve_left hne

/-- A node that depends on nothing that has a type may be given any. -/
theorem orderly_setType (hn : n.Orderly X)
    (hid : ∀ d ∈ (n.graph.node id).dependencies, n.graph.typeOf d = none ∧ d ≠ id)
    (ha : a.index < n.types.size) (h : (setType id a).Does n () n') : n'.Orderly X := by
  refine (steady_orderly X).setType hn (hn.linked.retype id ha) (.inl ?_) h
  have hnone : (n.retype id a).graph.deriveIn id n.types = (none, n.types) := by
    refine FlowGraph.deriveIn_of_untyped fun d hd => ?_
    obtain ⟨hd, hne⟩ := hid d (dependencies_retype ▸ hd)
    rwa [typeOf_retype_of_ne hne]
  refine ⟨n.types, hn.linked.whole.toSolid, (hn.linked.retype id ha).known id, ?_, fun b hb => ?_⟩
  · rw [hnone]; exact .refl _
  · rw [hnone] at hb; cases hb

/-- A node that is to be bound later may be given any type before. -/
theorem orderly_setType_excused (hn : n.Orderly X) (hid : id ∈ X) (ha : a.index < n.types.size)
    (h : (setType id a).Does n () n') : n'.Orderly X :=
  (steady_orderly X).setType hn (hn.linked.retype id ha) (.inr hid) h

end Binding

end TypeFlow

import TypeFlow.Proofs.Flow.Extends
import TypeFlow.Proofs.Types.Canonical
import TypeFlow.Proofs.Types.Kinds

/-!
# Members that nodes keep

A node that depends on another of type `a`, and passes on the join of its dependencies, has `a` as a
member of its type (`n.Carries m c a`). It keeps this member, whatever else it is bound to later, if
that other node is a source: one that derives nothing and whose type is no union.
`n.Source c a held` says that `c` is such a source and that all nodes in `held` carry its type.
-/

namespace TypeFlow

namespace Network

structure Carries (n : Network) (m c : NodeId) (a : TypeId) : Prop where
  dependency : c ∈ (n.graph.node m).dependencies
  derivation : (n.graph.node m).derivation = .identity
  member : ∃ t, n.graph.typeOf m = some t ∧ a ∈ n.types.atoms t

structure Source (n : Network) (c : NodeId) (a : TypeId) (held : NodeId → Prop) : Prop where
  typed : n.graph.typeOf c = some a
  dependencies : (n.graph.node c).dependencies = []
  type_lt : a.index < n.types.size
  atoms : n.types.atoms a = [a]
  ne_noReturn : a ≠ .noReturn
  carried : ∀ m, held m → n.Carries m c a

variable {n n' : Network} {c m id : NodeId} {a t : TypeId} {held : NodeId → Prop}

theorem Carries.lt (h : n.Carries m c a) : m.index < n.graph.size := by
  refine Nat.lt_of_not_le fun hle => ?_
  have := h.dependency
  rw [FlowGraph.node_of_le hle] at this
  cases this

/-- Only a change of type may take the member away. -/
theorem Carries.congr (h : n.Carries m c a) (ha : a.index < n.types.size)
    (hkinds : n.types.KeepsKinds n'.types) (htype : n'.graph.typeOf m = n.graph.typeOf m)
    (hdeps : c ∈ (n.graph.node m).dependencies → c ∈ (n'.graph.node m).dependencies)
    (hderiv : (n'.graph.node m).derivation = (n.graph.node m).derivation) : n'.Carries m c a := by
  obtain ⟨t, ht, hm⟩ := h.member
  exact ⟨hdeps h.dependency, hderiv.trans h.derivation, t, htype.trans ht, hkinds.mem_atoms ha hm⟩

namespace Source

theorem lt (h : n.Source c a held) : c.index < n.graph.size := by
  refine Nat.lt_of_not_le fun hle => ?_
  have := h.typed
  rw [FlowGraph.typeOf, FlowGraph.node_of_le hle] at this
  cases this

theorem hold (h : n.Source c a held) (hm : n.Carries m c a) :
    n.Source c a (fun m' => held m' ∨ m' = m) :=
  ⟨h.typed, h.dependencies, h.type_lt, h.atoms, h.ne_noReturn, fun _ hm' =>
    hm'.elim (h.carried _) fun heq => heq ▸ hm⟩

theorem congr_source (h : n.Source c a held) (hkinds : n.types.KeepsKinds n'.types)
    (htype : n'.graph.typeOf c = n.graph.typeOf c)
    (hdeps : (n'.graph.node c).dependencies = (n.graph.node c).dependencies)
    (hcarried : ∀ m, held m → n'.Carries m c a) : n'.Source c a held := by
  refine ⟨htype.trans h.typed, hdeps.trans h.dependencies,
    Nat.lt_of_lt_of_le h.type_lt hkinds.size_le, ?_,
    h.ne_noReturn, hcarried⟩
  rw [Types.atoms, hkinds.kind_eq a h.type_lt]
  exact h.atoms

/-- A change that leaves the types and the edges of nodes that were there. -/
theorem congr (h : n.Source c a held) (hkinds : n.types.KeepsKinds n'.types)
    (hnodes : ∀ m, m.index < n.graph.size → n'.graph.typeOf m = n.graph.typeOf m ∧
      (n'.graph.node m).dependencies = (n.graph.node m).dependencies ∧
      (n'.graph.node m).derivation = (n.graph.node m).derivation) : n'.Source c a held := by
  obtain ⟨htype, hdeps, -⟩ := hnodes c h.lt
  refine h.congr_source hkinds htype hdeps fun m hm => ?_
  obtain ⟨htype, hdeps, hderiv⟩ := hnodes m (h.carried m hm).lt
  exact (h.carried m hm).congr h.type_lt hkinds htype (fun hc => by rwa [hdeps]) hderiv

/-! ### Deriving -/

theorem derivedType_self (h : n.Source c a held) : (n.derivedType c).1 = none := by
  rw [derivedType_eq, FlowGraph.deriveIn_of_isEmpty _ h.dependencies]

/-- What a node derives from a source, among others, has the type of the source as a member. -/
theorem derivedType (h : n.Source c a held) (hdep : c ∈ (n.graph.node m).dependencies)
    (hderiv : (n.graph.node m).derivation = .identity) :
    ∃ t, (n.derivedType m).1 = some t ∧ a ∈ (n.derivedType m).2.types.atoms t := by
  have hjoin : ∃ t, (joinOfDependencies n.graph n.types m).1 = some t ∧
      a ∈ (joinOfDependencies n.graph n.types m).2.atoms t := by
    have htyped := h.typed
    unfold joinOfDependencies
    split
    · rename_i heq; rw [heq] at hdep; cases hdep
    · rename_i d heq
      rw [heq, List.mem_singleton] at hdep
      subst hdep
      exact ⟨a, htyped, by simp [h.atoms]⟩
    · have hmem : a ∈ (n.graph.node m).dependencies.filterMap n.graph.typeOf :=
        List.mem_filterMap.mpr ⟨c, hdep, htyped⟩
      exact Types.exists_join hmem h.atoms h.ne_noReturn
  obtain ⟨t, ht, hmem⟩ := hjoin
  rw [derivedType_eq, FlowGraph.deriveIn]
  rcases hj : joinOfDependencies n.graph n.types m with ⟨_ | j, ts⟩ <;> rw [hj] at ht hmem
  · cases ht
  · cases ht
    simp only [hderiv, Derivation.apply]
    exact ⟨t, rfl, hmem⟩

/-! ### Changes -/

theorem after_derivedType (h : n.Source c a held) (id : NodeId) :
    (n.derivedType id).2.Source c a held := by
  have hgraph := n.derivedType_graph id
  exact h.congr (growsTo_derivedType n id).keepsKinds fun m _ => by
    rw [hgraph]; exact ⟨rfl, rfl, rfl⟩

theorem clean (h : n.Source c a held) (id : NodeId) : (n.clean id).Source c a held :=
  h.congr (.refl _) fun _ _ => ⟨typeOf_clean, dependencies_clean, derivation_clean⟩

theorem link (h : n.Source c a held) (hid : id ≠ c) (deps : List NodeId) :
    (n.link id deps).Source c a held := by
  refine h.congr_source (.refl _) (FlowGraph.typeOf_link deps)
    (FlowGraph.dependencies_link_of_ne hid.symm deps) fun m hm => ?_
  refine (h.carried m hm).congr h.type_lt (.refl _) (FlowGraph.typeOf_link deps)
    (fun hc => (FlowGraph.mem_dependencies_link deps).mpr (.inl hc)) ?_
  exact FlowGraph.link_field FlowNode.derivation (fun _ _ => rfl) (fun _ _ => rfl) deps

theorem retype_of_ne (h : n.Source c a held) (hid : id ≠ c) (hheld : ¬ held id) :
    (n.retype id t).Source c a held := by
  refine h.congr_source (.refl _) (typeOf_retype_of_ne hid.symm) dependencies_retype fun m hm => ?_
  have hne : m ≠ id := fun heq => hheld (heq ▸ hm)
  exact (h.carried m hm).congr h.type_lt (.refl _) (typeOf_retype_of_ne hne)
    (fun hc => by rwa [dependencies_retype]) derivation_retype

theorem typeOf_retype_self (hid : id.index < n.graph.size) :
    (n.retype id t).graph.typeOf id = some t :=
  congrArg FlowNode.type (FlowGraph.node_modify_self hid)

/-- A node may be given any type that has the member. -/
theorem retype (h : n.Source c a held) (hid : id ≠ c) (hmem : held id → a ∈ n.types.atoms t) :
    (n.retype id t).Source c a held := by
  refine h.congr_source (.refl _) (typeOf_retype_of_ne hid.symm) dependencies_retype fun m hm => ?_
  by_cases hmid : m = id
  · subst hmid
    have hc := h.carried m hm
    exact ⟨by rw [dependencies_retype]; exact hc.dependency,
      derivation_retype.trans hc.derivation, t, typeOf_retype_self hc.lt, hmem hm⟩
  · exact (h.carried m hm).congr h.type_lt (.refl _) (typeOf_retype_of_ne hmid)
      (fun hc => by rwa [dependencies_retype]) derivation_retype

theorem keeps_refresh (c : NodeId) (a : TypeId) (held : NodeId → Prop) (id : NodeId) :
    Binding.Keeps (·.Source c a held) (Binding.refresh id) := by
  refine Binding.keeps_refresh (fun n h => h.after_derivedType id) fun n t h hd _ _ => ?_
  refine (h.after_derivedType id).retype ?_ fun hheld => ?_
  · rintro rfl
    rw [h.derivedType_self] at hd
    cases hd
  · have hc := h.carried id hheld
    obtain ⟨t', ht', hmem⟩ := h.derivedType hc.dependency hc.derivation
    rw [hd] at ht'; cases ht'
    exact hmem

theorem keeps_propagate (c : NodeId) (a : TypeId) (held : NodeId → Prop) (id : NodeId) :
    Binding.Keeps (·.Source c a held) (Binding.propagate id) :=
  Binding.keeps_propagate (fun _ id h => h.clean id)
    (fun _ _ h => h.congr (.refl _) fun _ _ => ⟨rfl, rfl, rfl⟩) (keeps_refresh c a held) id

theorem keeps_setType (hid : id ≠ c) (hheld : ¬ held id) (a t : TypeId) :
    Binding.Keeps (·.Source c a held) (Binding.setType id t) :=
  Binding.keeps_setType (fun _ h _ _ => h.retype_of_ne hid hheld) (keeps_propagate c a held id)

theorem keeps_bindNode (hid : id ≠ c) (a : TypeId) (held : NodeId → Prop) (deps : List NodeId) :
    Binding.Keeps (·.Source c a held) (Binding.bind id deps) :=
  Binding.keeps_bindNode (fun _ h => h.link hid deps) (keeps_refresh c a held id)
    (keeps_propagate c a held id)

/-- A node that has been bound to a source carries its type. -/
theorem does_bindNode {deps : List NodeId} (h : n.Source c a held) (hid : id ≠ c)
    (hlt : id.index < n.graph.size) (hderiv : (n.graph.node id).derivation = .identity)
    (hdep : c ∈ deps) (hd : (Binding.bind id deps).Does n () n') :
    n'.Source c a (fun m => held m ∨ m = id) := by
  obtain ⟨changed, k, hr, hk⟩ := Binding.does_bindNode.mp hd
  have hs := h.link hid deps
  have hdep' : c ∈ ((n.link id deps).graph.node id).dependencies :=
    (FlowGraph.mem_dependencies_link deps).mpr (.inr ⟨rfl, hlt, hdep⟩)
  have hderiv' : ((n.link id deps).graph.node id).derivation = .identity :=
    (FlowGraph.link_field FlowNode.derivation (fun _ _ => rfl) (fun _ _ => rfl) deps).trans hderiv
  have hsize : id.index < (n.link id deps).graph.size := by
    rw [show (n.link id deps).graph.size = n.graph.size from FlowGraph.size_link ..]; exact hlt
  generalize n.link id deps = l at hs hdep' hderiv' hsize hr
  have hgraph := l.derivedType_graph id
  obtain ⟨t, ht, hmem⟩ := hs.derivedType hdep' hderiv'
  have hl := hs.after_derivedType id
  -- the derived type is the node's own, or becomes it
  have hk' : k.Source c a (fun m => held m ∨ m = id) := by
    rcases Binding.refresh_cases hr with ⟨-, rfl, hsame⟩ | ⟨t', -, rfl, ht', -, -⟩
    · exact hl.hold ⟨by rwa [hgraph], by rwa [hgraph], t, by rw [hgraph]; exact hsame t ht, hmem⟩
    · rw [ht] at ht'; cases ht'
      refine (hl.retype hid fun _ => hmem).hold
        ⟨?_, ?_, t, typeOf_retype_self (by rwa [hgraph]), hmem⟩
      · rw [dependencies_retype, hgraph]; exact hdep'
      · rw [derivation_retype, hgraph]; exact hderiv'
  cases changed
  · exact hk ▸ hk'
  · exact (keeps_propagate c a _ id).does hk' hk

end Source

end Network

end TypeFlow

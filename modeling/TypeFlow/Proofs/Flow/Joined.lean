import TypeFlow.Proofs.Flow.Single

/-!
# Nodes that join

A justified node that passes on what it depends on has the join of the types that its dependencies
have (`Lawful.typeOf_eq_join`). So it has the type that all of them have, if there is one. One more
dependency, with the type that the node has already, changes nothing
(`Binding.typeOf_bind_of_typed`).
-/

namespace TypeFlow

theorem canonicalMembers_congr {as bs : List TypeId} (h : ∀ a, a ∈ as ↔ a ∈ bs) :
    canonicalMembers as = canonicalMembers bs := by
  refine (increasing_canonicalMembers as).eq_of_mem_iff (increasing_canonicalMembers bs) fun a => ?_
  simp only [mem_canonicalMembers, h]

/-- The members of a join have the same join as what has been joined. -/
theorem canonicalMembers_append_self (as : List TypeId) :
    canonicalMembers (as ++ canonicalMembers as) = canonicalMembers as :=
  canonicalMembers_congr fun _ => by
    rw [List.mem_append]
    exact or_iff_left_of_imp mem_of_mem_canonicalMembers

namespace Types.Canonical
variable {t : Types} {id : TypeId} {ids : List TypeId}

theorem join_of_forall (h : t.Canonical) (hne : ids ≠ []) (hall : ∀ a ∈ ids, a = id) :
    t.join ids = (some id, t) := by
  refine h.join_eq ((canonicalMembers_congr fun a => ?_).trans (h.canonicalMembers_atoms id))
  obtain ⟨first, hfirst⟩ := List.exists_mem_of_ne_nil ids hne
  rw [List.mem_flatMap]
  constructor
  · rintro ⟨other, hother, ha⟩
    exact hall other hother ▸ ha
  · exact fun ha => ⟨first, hfirst, (hall first hfirst).symm ▸ ha⟩

/-- A type that is the join of some is also their join with itself. -/
theorem join_of_mem_iff (h : t.Canonical) (hid : id.index < t.size) {ids' : List TypeId}
    (hjoin : (t.join ids).1 = some id) (hmem : ∀ a, a ∈ ids' ↔ a ∈ ids ∨ a = id) :
    t.join ids' = (some id, t) := by
  have hatoms : t.atoms id = canonicalMembers (ids.flatMap t.atoms) :=
    ((t.growsTo_join ids).atoms_eq hid).symm.trans (h.atoms_join hjoin)
  have hmembers : ∀ a, a ∈ ids'.flatMap t.atoms ↔ a ∈ ids.flatMap t.atoms ++ canonicalMembers
      (ids.flatMap t.atoms) :=
    fun a => by
      rw [List.mem_append, ← hatoms, List.mem_flatMap, List.mem_flatMap]
      simp only [hmem, or_and_right, exists_or, exists_eq_left]
  refine h.join_eq ?_
  rw [canonicalMembers_congr hmembers, canonicalMembers_append_self, hatoms]

end Types.Canonical

namespace Network
variable {n n' : Network} {id d : NodeId} {type : TypeId} {t : Types}

/-- The types that the dependencies of a node have. -/
def inputTypes (n : Network) (id : NodeId) : List TypeId :=
  (n.graph.node id).dependencies.filterMap n.graph.typeOf

theorem mem_inputTypes :
    type ∈ n.inputTypes id ↔ ∃ d ∈ (n.graph.node id).dependencies, n.graph.typeOf d = some type :=
  List.mem_filterMap

theorem inputTypes_congr (hdeps : (n'.graph.node id).dependencies = (n.graph.node id).dependencies)
    (htypes : ∀ d, n'.graph.typeOf d = n.graph.typeOf d) : n'.inputTypes id = n.inputTypes id := by
  rw [inputTypes, inputTypes, hdeps]
  exact List.filterMap_congr fun d _ => htypes d

theorem Linked.inputTypes_lt (h : n.Linked) (ht : type ∈ n.inputTypes id) :
    type.index < n.types.size := by
  obtain ⟨d, -, hd⟩ := mem_inputTypes.mp ht
  exact h.typed d type hd

theorem joinOfDependencies_eq_join (h : n.Linked) (id : NodeId) :
    joinOfDependencies n.graph n.types id = n.types.join (n.inputTypes id) := by
  have hlt : ∀ type ∈ n.inputTypes id, type.index < n.types.size := fun _ => h.inputTypes_lt
  unfold inputTypes at hlt ⊢
  unfold joinOfDependencies
  split
  · rename_i hnil
    rw [hnil]
    rfl
  · rename_i d hd
    rw [hd] at hlt ⊢
    rcases htype : n.graph.typeOf d with _ | type <;>
      simp only [List.filterMap_cons, htype, List.filterMap_nil] at hlt ⊢
    · rfl
    · refine (h.whole.toSolid.canonical.join_of_forall ?_ ?_).symm <;> simp
  · rfl

theorem Linked.derivedType_eq_join (h : n.Linked)
    (hderivation : (n.graph.node id).derivation = .identity) :
    (n.derivedType id).1 = (n.types.join (n.inputTypes id)).1 := by
  rw [derivedType_eq, FlowGraph.deriveIn, joinOfDependencies_eq_join h]
  rcases n.types.join (n.inputTypes id) with ⟨_ | join, t⟩
  · rfl
  · simp only [hderivation, Derivation.apply]

theorem Lawful.typeOf_eq_join (h : n.Lawful id) (hn : n.Linked)
    (hderivation : (n.graph.node id).derivation = .identity) (hne : n.inputTypes id ≠ []) :
    n.graph.typeOf id = (n.types.join (n.inputTypes id)).1 := by
  obtain ⟨t, ht⟩ := h
  have hnow := ht.now hn (.inl (by rw [hderivation]; rfl))
  have hderived := hn.derivedType_eq_join hderivation
  rcases hjoin : (n.types.join (n.inputTypes id)).1 with _ | join
  · exact absurd (hn.whole.toSolid.canonical.join_eq_none_iff.mp hjoin) hne
  · rw [hjoin, derivedType_eq] at hderived
    exact hnow.type join hderived

theorem mem_inputTypes_link {deps : List NodeId} (hid : id.index < n.graph.size) :
    type ∈ (n.link id deps).inputTypes id ↔ type ∈ n.inputTypes id ∨
      ∃ d ∈ deps, n.graph.typeOf d = some type := by
  have htype : ∀ d, (n.link id deps).graph.typeOf d = n.graph.typeOf d :=
    fun _ => FlowGraph.typeOf_link deps
  have hmem : ∀ d, d ∈ ((n.link id deps).graph.node id).dependencies ↔
      d ∈ (n.graph.node id).dependencies ∨ d ∈ deps := fun d =>
    (FlowGraph.mem_dependencies_link deps).trans (or_congr_right (by simp [hid]))
  simp only [mem_inputTypes, hmem, htype, or_and_right, exists_or]

end Network

/-- A node that is bound to one that gives a type joins this type. -/
theorem Binding.joins_bind {n n' : Network} {id d : NodeId} {type : TypeId} (hn : n.Orderly [])
    (hid : id.index < n.graph.size) (hderivation : (n.graph.node id).derivation = .identity)
    (hgives : n.graph.Gives type d) (hne : d ≠ id) (hbind : (Binding.bind id [d]).Does n () n') :
    type ∈ n'.inputTypes id ∧ n'.graph.typeOf id = (n'.types.join (n'.inputTypes id)).1 := by
  have hdeps : ∀ dep ∈ [d], dep.index < n.graph.size :=
    fun _ h => List.mem_singleton.mp h ▸ hgives.lt
  have hext := Network.Extends.outcome_bindNode n id [d]
  rw [show (Binding.bind id [d]).outcome n = _ from hbind] at hext
  have hn' : n'.Orderly [] := orderly_bindNode (hn.mono nofun) hdeps hbind
  have hmem : type ∈ n'.inputTypes id := by
    refine Network.mem_inputTypes.mpr
      ⟨d, ?_, ((FlowGraph.Gives.keeps_bind hne type [d]).does hgives hbind).typed⟩
    rw [hext.dependencies]
    exact (FlowGraph.mem_dependencies_link [d]).mpr (.inr ⟨rfl, hid, List.mem_singleton.mpr rfl⟩)
  refine ⟨hmem, Network.Lawful.typeOf_eq_join ((hn'.steady id).resolve_right nofun) hn'.linked ?_
    (List.ne_nil_of_mem hmem)⟩
  refine (hext.derivation id).trans (Eq.trans ?_ hderivation)
  exact FlowGraph.link_field FlowNode.derivation (fun _ _ => rfl) (fun _ _ => rfl) [d]

/-- What is bound has the type of the node already. -/
theorem Binding.typeOf_bind_of_typed {n n' : Network} {id d : NodeId} {type : TypeId}
    (hn : n.Linked) (hlawful : n.Lawful id) (hderivation : (n.graph.node id).derivation = .identity)
    (htype : n.graph.typeOf id = some type) (hd : n.graph.typeOf d = some type)
    (hbind : (Binding.bind id [d]).Does n () n') : n'.graph.typeOf id = some type := by
  have hid : id.index < n.graph.size := Network.lt_of_typeOf htype
  have hlt : type.index < n.types.size := hn.typed id type htype
  have hlinked : (n.link id [d]).Linked :=
    hn.link id fun _ h => List.mem_singleton.mp h ▸ Network.lt_of_typeOf hd
  have hcanonical : n.types.Canonical := hn.whole.toSolid.canonical
  have hmem : ∀ a, a ∈ (n.link id [d]).inputTypes id ↔ a ∈ n.inputTypes id ∨ a = type := fun a => by
    simp only [Network.mem_inputTypes_link hid, List.mem_singleton, exists_eq_left,
      hd, Option.some.injEq]
    exact or_congr_right eq_comm
  have hderived : ((n.link id [d]).derivedType id).1 = some type := by
    rw [hlinked.derivedType_eq_join ?_]
    · show (n.types.join _).1 = _
      by_cases hne : n.inputTypes id = []
      · rw [hcanonical.join_of_forall
          (List.ne_nil_of_mem ((hmem type).mpr (.inr rfl))) fun a ha => ?_]
        rcases (hmem a).mp ha with ha | ha
        · rw [hne] at ha; cases ha
        · exact ha
      · have hjoin := (hlawful.typeOf_eq_join hn hderivation hne).symm.trans htype
        rw [hcanonical.join_of_mem_iff hlt hjoin hmem]
    · exact (FlowGraph.link_field FlowNode.derivation (fun _ _ => rfl) (fun _ _ => rfl)
        [d]).trans hderivation
  have hlink : (n.link id [d]).graph.typeOf id = some type :=
    (FlowGraph.typeOf_link [d]).trans htype
  obtain ⟨changed, m, hrefresh, hrest⟩ := does_bindNode.mp hbind
  rcases refresh_cases hrefresh with ⟨rfl, rfl, -⟩ | ⟨other, -, -, hother, hne, -⟩
  · rw [← show _ = n' from hrest, Network.derivedType_graph]
    exact hlink
  · rw [hderived] at hother
    exact absurd (hlink.trans hother) hne

end TypeFlow

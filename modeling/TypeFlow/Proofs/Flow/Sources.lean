import Mathlib.Logic.Relation
import TypeFlow.Proofs.Flow.Edits
import TypeFlow.Proofs.Types.Canonical

/-!
# What flows from sources

In a graph where every node passes types on as they are, the atoms of a node's type come from the
sources that reach it. `Fed` is what every step of propagation keeps: nodes know nothing but what
sources tell (`Fed.sound`), and nothing that their dependencies do not know by now
(`Fed.supported`). Once the network is calm, a node knows all that sources tell, so that its type is
the join of the types of the sources that reach it (`Fed.join_eq`).
-/

namespace TypeFlow

/-! ### Comparing atoms -/

/-- All of the first that a join with the second would keep is in the second. -/
structure Below (as bs : List TypeId) : Prop where
  ne_nil : as ≠ [] → bs ≠ []
  mem : ∀ a ∈ as, a ≠ .noReturn → a ∈ bs

namespace Below
variable {as bs cs : List TypeId}

theorem of_subset (h : as ⊆ bs) : Below as bs :=
  ⟨fun hne => List.ne_nil_of_mem (h (List.head_mem hne)), fun _ ha _ => h ha⟩

theorem refl (as : List TypeId) : Below as as := of_subset (List.Subset.refl as)

theorem trans (h : Below as bs) (h' : Below bs cs) : Below as cs :=
  ⟨fun ha => h'.ne_nil (h.ne_nil ha), fun a ha hn => h'.mem a (h.mem a ha hn) hn⟩

theorem canonicalMembers (as : List TypeId) : Below as (canonicalMembers as) :=
  ⟨Types.Canonical.canonicalMembers_ne_nil, fun _ ha hn => mem_canonicalMembers.mpr ⟨ha, .inl hn⟩⟩

theorem of_canonicalMembers (as : List TypeId) : Below (TypeFlow.canonicalMembers as) as :=
  of_subset fun _ => mem_of_mem_canonicalMembers

theorem flatMap {ids ids' : List NodeId} {f f' : NodeId → List TypeId}
    (h : ∀ id ∈ ids, Below (f id) (f' id)) (hids : ids ⊆ ids') :
    Below (ids.flatMap f) (ids'.flatMap f') := by
  refine ⟨fun hne => ?_, fun a ha hn => ?_⟩
  · obtain ⟨a, ha⟩ := List.exists_mem_of_ne_nil _ hne
    obtain ⟨id, hid, ha⟩ := List.mem_flatMap.mp ha
    obtain ⟨b, hb⟩ := List.exists_mem_of_ne_nil _ ((h id hid).ne_nil (List.ne_nil_of_mem ha))
    exact List.ne_nil_of_mem (List.mem_flatMap.mpr ⟨id, hids hid, hb⟩)
  · obtain ⟨id, hid, ha⟩ := List.mem_flatMap.mp ha
    exact List.mem_flatMap.mpr ⟨id, hids hid, (h id hid).mem a ha hn⟩

end Below

/-! ### Paths -/

namespace FlowGraph
variable {g g' : FlowGraph} {s id d : NodeId}

/-- The first node is the second, or is passed on to it along dependencies. -/
def Reaches (g : FlowGraph) : NodeId → NodeId → Prop :=
  Relation.ReflTransGen fun d id => d ∈ (g.node id).dependencies

theorem Reaches.mono (h : g.Reaches s id)
    (hdeps : ∀ id, (g.node id).dependencies ⊆ (g'.node id).dependencies) : g'.Reaches s id :=
  Relation.ReflTransGen.mono (fun _ id hd => hdeps id hd) _ _ h

theorem Reaches.eq_of_isEmpty (h : g.Reaches s id) (hd : (g.node id).dependencies = []) :
    s = id := by
  cases h.cases_tail with
  | inl h => exact h.symm
  | inr h => obtain ⟨d, -, h⟩ := h; rw [hd] at h; cases h

end FlowGraph

namespace Network
variable {n n' : Network} {id d : NodeId} {t : TypeId}

/-- The atoms of the type of a node, none if it has no type. -/
def atomsOf (n : Network) (id : NodeId) : List TypeId := (n.graph.typeOf id).elim [] n.types.atoms

theorem atomsOf_of_typeOf (h : n.graph.typeOf id = some t) : n.atomsOf id = n.types.atoms t := by
  rw [atomsOf, h]; rfl

theorem atomsOf_eq_nil_iff (h : n.types.Canonical) :
    n.atomsOf id = [] ↔ n.graph.typeOf id = none := by
  unfold atomsOf
  cases n.graph.typeOf id with
  | none => simp
  | some t => simp [h.atoms_ne_nil t]

theorem canonicalMembers_atomsOf (h : n.types.Canonical) (id : NodeId) :
    canonicalMembers (n.atomsOf id) = n.atomsOf id := by
  unfold atomsOf
  cases n.graph.typeOf id with
  | none => rfl
  | some t => exact h.canonicalMembers_atoms t

theorem atomsOf_congr (hw : n.WellLinked) (ht : n.types.GrowsTo n'.types)
    (htype : n'.graph.typeOf id = n.graph.typeOf id) : n'.atomsOf id = n.atomsOf id := by
  unfold atomsOf
  rw [htype]
  cases h : n.graph.typeOf id with
  | none => rfl
  | some t => exact ht.atoms_eq (hw.typed id t h)

theorem atomsOf_clean : (n.clean id).atomsOf d = n.atomsOf d := by
  rw [atomsOf, atomsOf, typeOf_clean]; rfl

/-! ### What a node derives -/

theorem flatMap_atoms_typeOf (n : Network) (deps : List NodeId) :
    (deps.filterMap n.graph.typeOf).flatMap n.types.atoms = deps.flatMap n.atomsOf := by
  induction deps with
  | nil => rfl
  | cons d deps ih =>
    rw [List.flatMap_cons, ← ih]
    cases h : n.graph.typeOf d with
    | none => rw [List.filterMap_cons_none h, atomsOf, h]; rfl
    | some t => rw [List.filterMap_cons_some h, List.flatMap_cons, atomsOf, h]; rfl

section
variable (hw : n.WellLinked) (hc : n.types.Canonical)
  (hi : (n.graph.node id).derivation = .identity)
include hi

theorem deriveIn_identity :
    n.graph.deriveIn id n.types = joinOfDependencies n.graph n.types id := by
  unfold FlowGraph.deriveIn
  rcases joinOfDependencies n.graph n.types id with ⟨_ | join, t⟩
  · rfl
  · simp only [hi, Derivation.apply]

include hc

/-- A node derives the canonical members of what its dependencies know. -/
theorem atoms_deriveIn (ht : (n.graph.deriveIn id n.types).1 = some t) :
    (n.graph.deriveIn id n.types).2.atoms t =
      canonicalMembers ((n.graph.node id).dependencies.flatMap n.atomsOf) := by
  rw [deriveIn_identity hi] at ht ⊢
  revert ht
  unfold joinOfDependencies
  rcases (n.graph.node id).dependencies with _ | ⟨d, _ | ⟨d', deps⟩⟩
  · exact nofun
  · intro ht
    rw [List.flatMap_singleton, canonicalMembers_atomsOf hc, atomsOf_of_typeOf ht]
  · intro ht
    rw [hc.atoms_join ht, flatMap_atoms_typeOf]

theorem deriveIn_eq_none_iff : (n.graph.deriveIn id n.types).1 = none ↔
    (n.graph.node id).dependencies.flatMap n.atomsOf = [] := by
  rw [deriveIn_identity hi]
  unfold joinOfDependencies
  rcases (n.graph.node id).dependencies with _ | ⟨d, _ | ⟨d', deps⟩⟩
  · simp
  · rw [List.flatMap_singleton, atomsOf_eq_nil_iff hc]
  · rw [hc.join_eq_none_iff, List.filterMap_eq_nil_iff, List.flatMap_eq_nil_iff]
    simp only [atomsOf_eq_nil_iff hc]

include hw

theorem canonical_deriveIn : (n.graph.deriveIn id n.types).2.Canonical := by
  rw [deriveIn_identity hi]
  unfold joinOfDependencies
  split
  · exact hc
  · exact hc
  · refine hc.join hw.closed.membersHeld fun t ht => ?_
    obtain ⟨d, -, hd⟩ := List.mem_filterMap.mp ht
    exact hw.typed d t hd

end

/-! ### Networks fed by sources -/

variable {source source' : NodeId → TypeId → Prop}

/-- Nodes pass types on as they are, sources have the types that they were given, and every node
knows only what sources tell that reach it and what its dependencies know. -/
structure Fed (source : NodeId → TypeId → Prop) (n : Network) : Prop where
  linked : n.WellLinked
  canonical : n.types.Canonical
  identity : ∀ id, (n.graph.node id).derivation = .identity
  unfrozen : ∀ id, (n.graph.node id).frozen = false
  given : ∀ s t, source s t → n.graph.typeOf s = some t ∧ (n.graph.node s).dependencies = []
  sound : ∀ id, ∀ a ∈ n.atomsOf id,
    ∃ s t, source s t ∧ n.graph.Reaches s id ∧ a ∈ n.types.atoms t
  supported : ∀ id, (n.graph.node id).dependencies ≠ [] →
    Below (n.atomsOf id) ((n.graph.node id).dependencies.flatMap n.atomsOf)

namespace Fed

theorem source_lt {s : NodeId} (h : n.Fed source) (hs : source s t) : t.index < n.types.size :=
  h.linked.typed s t (h.given s t hs).1

/-- A node that was never given dependencies has a type only if it is a source. -/
theorem source_of_isEmpty (h : n.Fed source) (hd : (n.graph.node id).dependencies = [])
    (ht : n.graph.typeOf id ≠ none) : ∃ t, source id t := by
  have hne : n.atomsOf id ≠ [] := fun hnil => ht ((atomsOf_eq_nil_iff h.canonical).mp hnil)
  obtain ⟨s, t, hs, hreach, -⟩ := h.sound id _ (List.head_mem hne)
  exact ⟨t, hreach.eq_of_isEmpty hd ▸ hs⟩

/-- A change that leaves dependencies and derivations as they are, and takes no knowledge away. -/
theorem step (h : n.Fed source) (hw : n'.WellLinked) (hc : n'.types.Canonical)
    (hgrow : n.types.GrowsTo n'.types)
    (hdeps : ∀ id, (n'.graph.node id).dependencies = (n.graph.node id).dependencies)
    (hderiv : ∀ id, (n'.graph.node id).derivation = (n.graph.node id).derivation)
    (hfrozen : ∀ id, (n'.graph.node id).frozen = (n.graph.node id).frozen)
    (hsource : ∀ s t, source' s t → n'.graph.typeOf s = some t ∧ (n.graph.node s).dependencies = [])
    (hmono : ∀ s t, source s t → source' s t)
    (hatoms : ∀ id, n'.atomsOf id = n.atomsOf id ∨ Below (n.atomsOf id) (n'.atomsOf id) ∧
      (∀ a ∈ n'.atomsOf id, ∃ s t, source' s t ∧ n'.graph.Reaches s id ∧ a ∈ n'.types.atoms t) ∧
      ((n.graph.node id).dependencies ≠ [] →
        Below (n'.atomsOf id) ((n.graph.node id).dependencies.flatMap n.atomsOf))) :
    n'.Fed source' := by
  have hup : ∀ id, Below (n.atomsOf id) (n'.atomsOf id) := fun id =>
    (hatoms id).elim (fun heq => heq ▸ Below.refl _) fun h => h.1
  refine ⟨hw, hc, fun id => (hderiv id).trans (h.identity id),
    fun id => (hfrozen id).trans (h.unfrozen id), fun s t hs => ?_,
      fun id a ha => ?_, fun id hd => ?_⟩
  · rw [hdeps]; exact hsource s t hs
  · rcases hatoms id with heq | hnew
    · obtain ⟨s, t, hs, hreach, hat⟩ := h.sound id a (heq ▸ ha)
      refine ⟨s, t, hmono s t hs, hreach.mono fun id => (hdeps id).symm ▸ List.Subset.refl _, ?_⟩
      rwa [hgrow.atoms_eq (h.source_lt hs)]
    · exact hnew.2.1 a ha
  · rw [hdeps] at hd ⊢
    have hbelow : Below (n'.atomsOf id) ((n.graph.node id).dependencies.flatMap n.atomsOf) :=
      (hatoms id).elim (fun heq => heq ▸ h.supported id hd) fun hnew => hnew.2.2 hd
    exact hbelow.trans (.flatMap (fun d _ => hup d) (List.Subset.refl _))

theorem clean (h : n.Fed source) (id : NodeId) : (n.clean id).Fed source :=
  h.step (h.linked.clean id) h.canonical (.refl _) (fun _ => dependencies_clean)
    (fun _ => FlowGraph.modify_field FlowNode.derivation fun _ => rfl)
    (fun _ => FlowGraph.modify_field FlowNode.frozen fun _ => rfl)
    (fun s t hs => ⟨typeOf_clean.trans (h.given s t hs).1, (h.given s t hs).2⟩) (fun _ _ hs => hs)
    fun _ => .inl atomsOf_clean

theorem enqueue (h : n.Fed source) (call : ExprId) : (n.enqueue call).Fed source :=
  ⟨h.linked.enqueue call, h.canonical, h.identity, h.unfrozen, h.given, h.sound, h.supported⟩

theorem derivedType (h : n.Fed source) (id : NodeId) : (n.derivedType id).2.Fed source := by
  have hgraph := n.derivedType_graph id
  have hgrow := growsTo_derivedType n id
  refine h.step (h.linked.derivedType id) ?_ hgrow (fun _ => by rw [hgraph])
    (fun _ => by rw [hgraph])
    (fun _ => by rw [hgraph])
      (fun s t hs => by rw [hgraph]; exact h.given s t hs) (fun _ _ hs => hs)
    fun other => .inl (atomsOf_congr h.linked hgrow (by rw [hgraph]))
  rw [derivedType_eq]; exact canonical_deriveIn h.linked h.canonical (h.identity id)

theorem atoms_derivedType (h : n.Fed source) (ht : (n.derivedType id).1 = some t) :
    (n.derivedType id).2.types.atoms t =
      canonicalMembers ((n.graph.node id).dependencies.flatMap n.atomsOf) := by
  rw [derivedType_eq] at ht ⊢
  exact atoms_deriveIn h.canonical (h.identity id) ht

theorem dependencies_ne_nil_of_derivedType (ht : (n.derivedType id).1 = some t) :
    (n.graph.node id).dependencies ≠ [] := fun hnil => by
  rw [derivedType_eq, FlowGraph.deriveIn_of_isEmpty _ hnil] at ht; cases ht

/-- What a node derives is at least what it knows. -/
theorem below_derivedType (h : n.Fed source) (ht : (n.derivedType id).1 = some t) :
    Below (n.atomsOf id) ((n.derivedType id).2.types.atoms t) := by
  rw [h.atoms_derivedType ht]
  exact (h.supported id (dependencies_ne_nil_of_derivedType ht)).trans (.canonicalMembers _)

theorem atomsOf_retype (hlt : id.index < n.graph.size) :
    (n.retype id t).atomsOf d = if d = id then n.types.atoms t else n.atomsOf d := by
  split
  · rename_i hd; subst hd
    refine atomsOf_of_typeOf (n := n.retype d t) ?_
    exact congrArg FlowNode.type (FlowGraph.node_modify_self hlt)
  · rename_i hd
    rw [atomsOf, atomsOf, typeOf_retype_of_ne hd]; rfl

theorem retype (h : n.Fed source) (ht : (n.derivedType id).1 = some t) :
    ((n.derivedType id).2.retype id t).Fed source := by
  have hgraph := n.derivedType_graph id
  have hm := h.derivedType id
  have hne := dependencies_ne_nil_of_derivedType ht
  have hlt : id.index < (n.derivedType id).2.graph.size := hgraph ▸ lt_of_derivedType ht
  have hold : ∀ d, (n.derivedType id).2.atomsOf d = n.atomsOf d := fun d =>
    atomsOf_congr h.linked (growsTo_derivedType n id) (by rw [hgraph])
  have hsource : ∀ {s t}, source s t → s ≠ id := fun {s t} hs hid => hne (hid ▸ (h.given s t hs).2)
  refine hm.step (hm.linked.retype (h.linked.derivedType_lt ht)) hm.canonical (.refl _)
    (fun _ => dependencies_retype) (fun _ => derivation_retype)
    (fun _ => FlowGraph.modify_field FlowNode.frozen fun _ => rfl)
      (fun s t' hs => ?_) (fun _ _ hs => hs)
    fun other => ?_
  · rw [typeOf_retype_of_ne (hsource hs)]; exact hm.given s t' hs
  · simp only [atomsOf_retype hlt, hold]
    by_cases hid : other = id
    · subst hid
      refine .inr ?_
      rw [if_pos rfl]
      refine ⟨h.below_derivedType ht, fun a ha => ?_, fun _ => ?_⟩
      · rw [h.atoms_derivedType ht] at ha
        obtain ⟨d, hd, ha⟩ := List.mem_flatMap.mp (mem_of_mem_canonicalMembers ha)
        obtain ⟨s, t', hs, hreach, hat⟩ := hm.sound d a ((hold d).symm ▸ ha)
        refine ⟨s, t', hs, .tail (hreach.mono fun _ => ?_) ?_, hat⟩
        · exact fun _ hd => by rwa [dependencies_retype]
        · rwa [dependencies_retype, hgraph]
      · rw [h.atoms_derivedType ht, hgraph, funext hold]
        exact .of_canonicalMembers _
    · rw [if_neg hid]; exact .inl rfl

/-- Giving a type to a node that has neither a type nor dependencies makes it a source. -/
theorem give (h : n.Fed source) (hlt : id.index < n.graph.size) (ht : t.index < n.types.size)
    (hd : (n.graph.node id).dependencies = []) (hnone : n.graph.typeOf id = none) :
    (n.retype id t).Fed fun s u => source s u ∨ s = id ∧ u = t := by
  have hnil : n.atomsOf id = [] := (atomsOf_eq_nil_iff h.canonical).mpr hnone
  refine h.step (h.linked.retype ht) h.canonical (.refl _) (fun _ => dependencies_retype)
    (fun _ => derivation_retype) (fun _ => FlowGraph.modify_field FlowNode.frozen fun _ => rfl)
    (fun s u hs => ?_) (fun _ _ => .inl) fun other => ?_
  · rcases hs with hs | ⟨rfl, rfl⟩
    · have hne : s ≠ id := fun hid => by
        have := (h.given s u hs).1
        rw [hid, hnone] at this; cases this
      rw [typeOf_retype_of_ne hne]; exact h.given s u hs
    · exact ⟨congrArg FlowNode.type (FlowGraph.node_modify_self hlt), hd⟩
  · rw [atomsOf_retype hlt]
    by_cases hid : other = id
    · subst hid
      rw [if_pos rfl, hnil]
      refine .inr ⟨.of_subset (List.nil_subset _), fun a ha => ?_, fun hne => absurd hd hne⟩
      exact ⟨other, t, .inr ⟨rfl, rfl⟩, .refl, ha⟩
    · rw [if_neg hid]; exact .inl rfl

/-- More dependencies for a node that is not a source. -/
theorem link {deps : List NodeId} (h : n.Fed source) (hid : id.index < n.graph.size)
    (hdeps : ∀ d ∈ deps, d.index < n.graph.size) (hs : deps ≠ [] → ∀ t, ¬ source id t) :
    (n.link id deps).Fed source := by
  have htype : ∀ other, (n.link id deps).graph.typeOf other = n.graph.typeOf other := fun _ =>
    FlowGraph.typeOf_link deps
  have hatoms : ∀ other, (n.link id deps).atomsOf other = n.atomsOf other := fun other =>
    atomsOf_congr h.linked (.refl _) (htype other)
  have hmem : ∀ {other d}, d ∈ ((n.link id deps).graph.node other).dependencies ↔
      d ∈ (n.graph.node other).dependencies ∨ (other = id ∧ id.index < n.graph.size ∧ d ∈ deps) :=
    FlowGraph.mem_dependencies_link deps
  have hsub : ∀ other, (n.graph.node other).dependencies ⊆
      ((n.link id deps).graph.node other).dependencies := fun _ _ hd => hmem.mpr (.inl hd)
  refine ⟨h.linked.link hdeps, h.canonical, fun other => ?_, fun other => ?_, fun s t hst => ?_,
    fun other a ha => ?_, fun other hne => ?_⟩
  · exact (FlowGraph.link_field FlowNode.derivation (fun _ _ => rfl) (fun _ _ => rfl) deps).trans
      (h.identity other)
  · exact (FlowGraph.link_field FlowNode.frozen (fun _ _ => rfl) (fun _ _ => rfl) deps).trans
      (h.unfrozen other)
  · refine ⟨(htype s).trans (h.given s t hst).1, List.eq_nil_iff_forall_not_mem.mpr fun d hd => ?_⟩
    rcases hmem.mp hd with hd | ⟨rfl, -, hd⟩
    · rw [(h.given s t hst).2] at hd; cases hd
    · exact hs (List.ne_nil_of_mem hd) t hst
  · obtain ⟨s, t, hst, hreach, hat⟩ := h.sound other a (hatoms other ▸ ha)
    exact ⟨s, t, hst, hreach.mono hsub, hat⟩
  · rw [hatoms, funext hatoms]
    by_cases hold : (n.graph.node other).dependencies = []
    · -- the node has just been given its first dependencies, so that it has no type yet
      obtain ⟨d, hd⟩ := List.exists_mem_of_ne_nil _ hne
      obtain ⟨rfl, -, hd⟩ := (hmem.mp hd).resolve_left (by simp [hold])
      have hnone : n.graph.typeOf other = none := by
        by_contra hsome
        obtain ⟨t, ht⟩ := h.source_of_isEmpty hold hsome
        exact hs (List.ne_nil_of_mem hd) t ht
      rw [(atomsOf_eq_nil_iff h.canonical).mpr hnone]
      exact .of_subset (List.nil_subset _)
    · exact (h.supported other hold).trans (.flatMap (fun _ _ => .refl _) (hsub other))

/-! ### What sources tell -/

/-- In a calm network every node knows what the sources tell that reach it. -/
theorem complete {s : NodeId} {u : TypeId} (h : n.Fed source) (hcalm : n.Calm) (hs : source s u)
    (hreach : n.graph.Reaches s id) : Below (n.types.atoms u) (n.atomsOf id) := by
  induction hreach with
  | refl => rw [atomsOf_of_typeOf (h.given s u hs).1]; exact .refl _
  | @tail d id _ hd ih =>
    have hset := hcalm.settled id
    have hknown : (n.graph.node id).dependencies.flatMap n.atomsOf ≠ [] := fun hnil =>
      ih.ne_nil (h.canonical.atoms_ne_nil u) (List.flatMap_eq_nil_iff.mp hnil d hd)
    cases ht : (n.graph.deriveIn id n.types).1 with
    | none => exact absurd ((deriveIn_eq_none_iff h.canonical (h.identity id)).mp ht) hknown
    | some t =>
      have hatoms := atoms_deriveIn h.canonical (h.identity id) ht
      rw [hset.types] at hatoms
      rw [atomsOf_of_typeOf (hset.type t ht), hatoms]
      refine ih.trans (.trans (.of_subset fun a ha => ?_) (.canonicalMembers _))
      exact List.mem_flatMap.mpr ⟨d, hd, ha⟩

/-- In a calm network the type of a node is the join of the types of the sources that reach it. -/
theorem join_eq {types : List TypeId} (h : n.Fed source) (hcalm : n.Calm)
    (htypes : ∀ t, t ∈ types ↔ ∃ s, source s t ∧ n.graph.Reaches s id) :
    n.types.join types = (n.graph.typeOf id, n.types) := by
  have hcomplete : ∀ t ∈ types, Below (n.types.atoms t) (n.atomsOf id) := fun t ht => by
    obtain ⟨s, hs, hreach⟩ := (htypes t).mp ht
    exact h.complete hcalm hs hreach
  have hsound : ∀ a ∈ n.atomsOf id, a ∈ types.flatMap n.types.atoms := fun a ha => by
    obtain ⟨s, t, hs, hreach, hat⟩ := h.sound id a ha
    exact List.mem_flatMap.mpr ⟨t, (htypes t).mpr ⟨s, hs, hreach⟩, hat⟩
  cases htype : n.graph.typeOf id with
  | none =>
    have hnil : types = [] := List.eq_nil_iff_forall_not_mem.mpr fun t ht =>
      (hcomplete t ht).ne_nil (h.canonical.atoms_ne_nil t)
        ((atomsOf_eq_nil_iff h.canonical).mpr htype)
    rw [hnil]; rfl
  | some v =>
    rw [atomsOf_of_typeOf htype] at hcomplete hsound
    have hmem : ∀ a ∈ types.flatMap n.types.atoms, a ≠ .noReturn → a ∈ n.types.atoms v := by
      intro a ha hn
      obtain ⟨t, ht, ha⟩ := List.mem_flatMap.mp ha
      exact (hcomplete t ht).mem a ha hn
    refine h.canonical.join_eq
      ((increasing_canonicalMembers _).eq_of_mem_iff (h.canonical.increasing_atoms v) fun a => ?_)
    rw [mem_canonicalMembers]
    constructor
    · rintro ⟨ha, hn | hall⟩
      · exact hmem a ha hn
      · -- nothing but NoReturn is told, so that this is all the node knows
        have hv := List.head_mem (h.canonical.atoms_ne_nil v)
        rw [hall a ha, ← hall _ (hsound _ hv)]; exact hv
    · intro ha
      refine ⟨hsound a ha, ?_⟩
      by_cases hn : a = .noReturn
      · refine .inr fun b hb => ?_
        by_contra hbn
        have hv := h.canonical.eq_noReturn_of_mem (hn ▸ ha)
        have := hmem b hb hbn
        rw [hv, h.canonical.atoms_noReturn, List.mem_singleton] at this
        exact hbn this
      · exact .inl hn

end Fed

end Network

end TypeFlow

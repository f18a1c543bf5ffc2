import TypeFlow.Proofs.Flow.Orderly
import TypeFlow.Proofs.Types.LeastUpperBound

/-!
# What never gets a type

In the end every node that has no type gets `NoReturn`, and nobody is notified. A join drops
`NoReturn` beside anything else, so that a node derives what it derived before if one of its
dependencies had a type (`deriveIn_settleUntyped`). If none had, it derives `NoReturn`, unless it is
the node of a pointer or of a metaclass (`deriveIn_settleUntyped_bottom`).
-/

namespace TypeFlow

namespace Types
variable {t : Types} {ids ids' : List TypeId}

/-- A join drops `NoReturn` beside anything else. -/
theorem join_noReturn_beside (h : t.Canonical) (hne : ids ≠ []) (hsub : ∀ id ∈ ids, id ∈ ids')
    (hnew : ∀ id ∈ ids', id ∈ ids ∨ id = .noReturn) : t.join ids' = t.join ids := by
  have hatoms : ∀ {a}, a ∈ ids.flatMap t.atoms → a ∈ ids'.flatMap t.atoms := fun {a} ha => by
    obtain ⟨id, hid, ha⟩ := List.mem_flatMap.mp ha
    exact List.mem_flatMap.mpr ⟨id, hsub id hid, ha⟩
  have hback : ∀ {a}, a ∈ ids'.flatMap t.atoms →
      a ∈ ids.flatMap t.atoms ∨ a = .noReturn := fun {a} ha => by
    obtain ⟨id, hid, ha⟩ := List.mem_flatMap.mp ha
    rcases hnew id hid with hid | rfl
    · exact .inl (List.mem_flatMap.mpr ⟨id, hid, ha⟩)
    · rw [h.atoms_noReturn, List.mem_singleton] at ha
      exact .inr ha
  have hsome : ∃ a, a ∈ ids.flatMap t.atoms :=
    List.exists_mem_of_ne_nil _ (h.flatMap_atoms_ne_nil hne)
  have hmembers : canonicalMembers (ids'.flatMap t.atoms) = canonicalMembers
      (ids.flatMap t.atoms) := by
    refine canonicalMembers_eq_iff.mpr fun a => ?_
    rw [mem_canonicalMembers, mem_canonicalMembers]
    constructor
    · rintro ⟨ha, hor⟩
      refine ⟨?_, hor.imp_right fun hall other hother => hall other (hatoms hother)⟩
      rcases hback ha with ha | rfl
      · exact ha
      · -- `NoReturn` is there already when there is nothing else
        obtain ⟨b, hb⟩ := hsome
        exact (hor.resolve_left fun hne => hne rfl) b (hatoms hb) ▸ hb
    · rintro ⟨ha, hor⟩
      exact ⟨hatoms ha, hor.imp_right fun hall other hother =>
        (hback hother).elim (hall other) fun heq => heq⟩
  rw [join, join, hmembers]

/-- Nothing but `NoReturn` has the join `NoReturn`. -/
theorem join_noReturn (h : t.Canonical) (hne : ids ≠ []) (hall : ∀ id ∈ ids, id = .noReturn) :
    t.join ids = (some .noReturn, t) := by
  have hone : canonicalMembers ([TypeId.noReturn].flatMap t.atoms) = t.atoms .noReturn := by
    rw [List.flatMap_singleton, h.canonicalMembers_atoms]
  have hsame : t.join [.noReturn] = t.join ids :=
    join_noReturn_beside h hne (fun id hid => List.mem_singleton.mpr (hall id hid)) fun _ hid =>
      .inr (List.mem_singleton.mp hid)
  rw [← hsame]
  exact h.join_eq hone

end Types

/-! ### Narrowing to nothing -/

namespace Narrowing
variable {t : Types}

mutual

/-- Whatever it compares with, a narrowing leaves `NoReturn` as it is. -/
theorem apply_noReturn (h : t.Canonical) (f : Narrowing) :
    f.apply t .noReturn = (some .noReturn, t) := by
  match f with
  | .notNil =>
    rw [apply, applyNotNil, h.noReturn]
    rfl
  | .isA target =>
    rw [apply, applyIsA, h.noReturn]
    simp [h.isSubtype_noReturn target]
  | .all parts => exact applyAll_noReturn h parts

theorem applyAll_noReturn (h : t.Canonical) (fs : List Narrowing) :
    applyAll t .noReturn fs = (some .noReturn, t) := by
  match fs with
  | [] => rfl
  | f :: rest =>
    rw [applyAll, apply_noReturn h f]
    exact applyAll_noReturn h rest

end

end Narrowing

/-- The node has the type of what it depends on, or a view of it. -/
def Derivation.PassesOn : Derivation → Prop
  | .identity | .narrow _ => True
  | .pointerOf | .metaclass => False

theorem Derivation.PassesOn.apply_noReturn {d : Derivation} {t : Types} (hd : d.PassesOn)
    (h : t.Canonical) : d.apply t .noReturn = (some .noReturn, t) := by
  cases d with
  | identity => rfl
  | narrow f => exact f.apply_noReturn h
  | pointerOf | metaclass => exact hd.elim

/-! ### The last phase -/

namespace FlowGraph
variable {g : FlowGraph} {id : NodeId} {t : Types}

theorem lt_of_dependencies (h : (g.node id).dependencies ≠ []) : id.index < g.size := by
  by_contra hle
  exact h (by rw [node_of_le (Nat.le_of_not_lt hle)]; rfl)

/-- A node of whose dependencies one had a type derives what it derived before. -/
theorem deriveIn_settleUntyped (hg : g.Tied) (h : t.Canonical)
    (htyped : ∃ d ∈ (g.node id).dependencies, g.typeOf d ≠ none) :
    (g.settleUntyped .noReturn).2.deriveIn id t = g.deriveIn id t := by
  have hlt : ∀ d ∈ (g.node id).dependencies, d.index < g.size := fun d hd => hg.lt_of_mem hd
  have hjoin : Network.joinOfDependencies (g.settleUntyped .noReturn).2 t id =
      Network.joinOfDependencies g t id := by
    unfold Network.joinOfDependencies
    rw [dependencies_settleUntyped]
    revert hlt htyped
    generalize (g.node id).dependencies = deps
    intro ⟨d, hd, htyped⟩ hlt
    obtain ⟨a, ha⟩ := Option.ne_none_iff_exists'.mp htyped
    match deps with
    | [] => rfl
    | [dep] =>
      obtain rfl := List.mem_singleton.mp hd
      dsimp only
      rw [ha, typeOf_settleUntyped (hlt d hd) ha]
    | first :: second :: rest =>
      refine Types.join_noReturn_beside h (List.ne_nil_of_mem (List.mem_filterMap.mpr ⟨d, hd, ha⟩))
        (fun b hb => ?_) fun b hb => ?_
      · obtain ⟨e, he, heb⟩ := List.mem_filterMap.mp hb
        exact List.mem_filterMap.mpr ⟨e, he, typeOf_settleUntyped (hlt e he) heb⟩
      · obtain ⟨e, he, heb⟩ := List.mem_filterMap.mp hb
        rw [typeOf_settleUntyped_eq (hlt e he)] at heb
        rcases hte : g.typeOf e with _ | c <;> rw [hte] at heb <;> cases heb
        · exact .inr rfl
        · exact .inl (List.mem_filterMap.mpr ⟨e, he, hte⟩)
  rw [deriveIn, deriveIn, hjoin, derivation_settleUntyped]

/-- A node none of whose dependencies had a type derives `NoReturn` then. -/
theorem deriveIn_settleUntyped_bottom (hg : g.Tied) (h : t.Canonical)
    (hne : (g.node id).dependencies ≠ [])
    (hnone : ∀ d ∈ (g.node id).dependencies, g.typeOf d = none)
    (hd : (g.node id).derivation.PassesOn) :
    (g.settleUntyped .noReturn).2.deriveIn id t = (some .noReturn, t) := by
  have htype : ∀ d ∈ (g.node id).dependencies,
      (g.settleUntyped .noReturn).2.typeOf d = some .noReturn := fun d hd => by
    rw [typeOf_settleUntyped_eq (hg.lt_of_mem hd), hnone d hd]; rfl
  have hjoin : Network.joinOfDependencies (g.settleUntyped .noReturn).2 t id =
      (some .noReturn, t) := by
    unfold Network.joinOfDependencies
    rw [dependencies_settleUntyped]
    revert htype hne
    generalize (g.node id).dependencies = deps
    intro hne htype
    match deps with
    | [] => exact absurd rfl hne
    | [dep] => dsimp only; rw [htype dep (by simp)]
    | first :: second :: rest =>
      refine Types.join_noReturn h ?_ fun a ha => ?_
      · exact List.ne_nil_of_mem (List.mem_filterMap.mpr ⟨first, by simp, htype first (by simp)⟩)
      · obtain ⟨e, he, hea⟩ := List.mem_filterMap.mp ha
        exact (Option.some.inj ((htype e he).symm.trans hea)).symm
  rw [deriveIn, hjoin, derivation_settleUntyped]
  exact hd.apply_noReturn h

end FlowGraph

/-! ### Orderly networks -/

namespace Network
variable {n : Network} {id : NodeId} {t : Types}

/-- Some dependency of the node has a type, or the node itself has none and only passes types on. -/
def Sourced (n : Network) (id : NodeId) : Prop :=
  (∃ d ∈ (n.graph.node id).dependencies, n.graph.typeOf d ≠ none) ∨
    n.graph.typeOf id = none ∧ (n.graph.node id).derivation.PassesOn

def settled (n : Network) : Network := { n with graph := (n.graph.settleUntyped .noReturn).2 }

theorem dependencies_settled (n : Network) (id : NodeId) :
    (n.settled.graph.node id).dependencies = (n.graph.node id).dependencies :=
  FlowGraph.dependencies_settleUntyped ..

theorem derivation_settled (n : Network) (id : NodeId) :
    (n.settled.graph.node id).derivation = (n.graph.node id).derivation :=
  FlowGraph.derivation_settleUntyped ..

theorem typeOf_settled (hid : id.index < n.graph.size) {a : TypeId}
    (ha : n.settled.graph.typeOf id = some a) :
    n.graph.typeOf id = some a ∨ n.graph.typeOf id = none ∧ a = .noReturn := by
  have heq : some ((n.graph.typeOf id).getD .noReturn) = some a :=
    (FlowGraph.typeOf_settleUntyped_eq hid).symm.trans ha
  rcases ht : n.graph.typeOf id with _ | b <;> rw [ht] at heq <;> cases heq
  · exact .inr ⟨rfl, rfl⟩
  · exact .inl rfl

theorem known_settled (hn : n.Linked) (hs : t.Solid) (hk : n.graph.Known id t) :
    n.settled.graph.Known id t := by
  refine ⟨fun d hd a ha => ?_, fun target ht => hk.targets target (n.derivation_settled id ▸ ht)⟩
  rw [dependencies_settled] at hd
  rcases typeOf_settled (hn.tied.lt_of_mem hd) ha with ha | ⟨-, rfl⟩
  · exact hk.types d hd a ha
  · exact hs.toClosed.builtins

theorem Justified.settled (h : n.Justified id t) (hn : n.Linked)
    (htyped : ∃ d ∈ (n.graph.node id).dependencies, n.graph.typeOf d ≠ none) :
    n.settled.Justified id t := by
  have hderive : n.settled.graph.deriveIn id t = n.graph.deriveIn id t :=
    FlowGraph.deriveIn_settleUntyped hn.tied h.solid.canonical htyped
  obtain ⟨d, hd, -⟩ := htyped
  have hid := FlowGraph.lt_of_dependencies (List.ne_nil_of_mem hd)
  refine ⟨h.solid, known_settled hn h.solid h.known,
    by rw [hderive]; exact h.precedes, fun a ha => ?_⟩
  rw [hderive] at ha
  exact FlowGraph.typeOf_settleUntyped hid (h.type a ha)

/-- What is compared after the last phase was compared before. -/
theorem Clear.of_settled (h : n.settled.Clear id) (hn : n.Linked) : n.Clear id := by
  refine ⟨fun target ht => h.targets target ?_, fun d hd a ha => h.dependencies d ?_ a ?_⟩
  · rwa [derivation_settled]
  · rwa [dependencies_settled]
  · exact FlowGraph.typeOf_settleUntyped (hn.tied.lt_of_mem hd) ha

/-- After the last phase the nodes that are sourced before it are justified, in the present table
unless their comparisons may have come out differently since. -/
theorem Orderly.settled (h : n.Orderly []) (hne : (n.graph.node id).dependencies ≠ [])
    (hsourced : n.Sourced id) : ∃ t, n.settled.Justified id t ∧
      ((n.settled.graph.node id).derivation.targets = [] ∨ n.settled.Clear id → t = n.types) := by
  have hn := h.linked
  by_cases htyped : ∃ d ∈ (n.graph.node id).dependencies, n.graph.typeOf d ≠ none
  · obtain ⟨t, ht⟩ := (h.steady id).resolve_right List.not_mem_nil
    by_cases hnow : (n.settled.graph.node id).derivation.targets = [] ∨ n.settled.Clear id
    · refine ⟨n.types, (ht.now hn (hnow.imp (fun hnone => ?_) fun hc => hc.of_settled hn)).settled
        hn htyped, fun _ => rfl⟩
      rwa [derivation_settled] at hnone
    · exact ⟨t, ht.settled hn htyped, fun hc => absurd hc hnow⟩
  · obtain ⟨huntyped, hpasses⟩ := hsourced.resolve_left htyped
    have hnone : ∀ d ∈ (n.graph.node id).dependencies, n.graph.typeOf d = none := fun d hd => by
      by_contra hsome
      exact htyped ⟨d, hd, hsome⟩
    have hderive : n.settled.graph.deriveIn id n.types = (some .noReturn, n.types) :=
      FlowGraph.deriveIn_settleUntyped_bottom hn.tied hn.whole.canonical hne hnone hpasses
    refine ⟨n.types, ⟨hn.whole.toSolid, known_settled hn hn.whole.toSolid (hn.known id), ?_,
      fun a ha => ?_⟩, fun _ => rfl⟩
    · rw [hderive]; exact .refl _
    · rw [hderive] at ha
      refine (FlowGraph.typeOf_settleUntyped_eq (FlowGraph.lt_of_dependencies hne)).trans ?_
      rw [huntyped]; exact ha

end Network

end TypeFlow

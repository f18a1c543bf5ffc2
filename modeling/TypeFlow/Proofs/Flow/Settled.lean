import TypeFlow.Proofs.Flow.Derived

/-!
# Settled nodes

A node is `Settled` when it has the type that it derives. While changes are carried on, a node that
is not settled either depends on a node that is marked, or is among the observers still to be
notified (`Covered`). Notifying an observer takes it off that list, and propagation takes away every
mark that it makes (`dirty_propagateWithin`), so that in the end every node is settled.

Of being settled this only uses that it is `Steady`: a node stays settled as long as what it derives
its type from stays, and it is settled once it has the type that it derives.
-/

namespace TypeFlow

namespace Network
variable {n n' : Network} {id d : NodeId}

/-! ### What the steps of propagation keep -/

namespace WellLinked

theorem grow (h : n.WellLinked) (hg : n'.graph = n.graph) (ht : n.types.GrowsTo n'.types)
    (hc : n'.types.Closed) : n'.WellLinked := by
  refine ⟨hc, fun id t hid => ht.lt ?_, fun id t hid => ht.lt ?_, fun id d => ?_⟩
  · rw [hg] at hid; exact h.typed id t hid
  · rw [hg] at hid; exact h.targets id t hid
  · rw [hg]; exact h.edges id d

theorem derivedType (h : n.WellLinked) (id : NodeId) : (n.derivedType id).2.WellLinked := by
  rw [derivedType_eq]
  exact h.grow rfl (growsTo_deriveIn ..) (h.narrows_deriveIn id).closed

theorem derivedType_lt {t : TypeId} (h : n.WellLinked) (ht : (n.derivedType id).1 = some t) :
    t.index < (n.derivedType id).2.types.size := by
  rw [derivedType_eq] at ht ⊢
  exact (h.narrows_deriveIn id).lt t ht

theorem modify {f : FlowNode → FlowNode} (h : n.WellLinked)
    (htype : ∀ node t, (f node).type = some t → node.type = some t ∨ t.index < n.types.size)
    (hderiv : ∀ node, (f node).derivation = node.derivation)
    (hdeps : ∀ node, (f node).dependencies = node.dependencies)
    (hobs : ∀ node, ∀ o ∈ node.observers, o ∈ (f node).observers) :
    WellLinked { n with graph := n.graph.modify id f } := by
  refine ⟨h.closed, fun other t ht => ?_, fun other t ht => ?_,
    FlowGraph.Tied.modify h.edges hdeps hobs id⟩
  · simp only [FlowGraph.typeOf, FlowGraph.node_modify] at ht
    split at ht
    · exact (htype _ t ht).elim (h.typed id t) fun ht => ht
    · exact h.typed other t ht
  · refine h.targets other t ?_
    rwa [show ((n.graph.modify id f).node other).derivation = _ from
      FlowGraph.modify_field FlowNode.derivation hderiv] at ht

theorem clean (h : n.WellLinked) (id : NodeId) : (n.clean id).WellLinked :=
  h.modify (fun _ _ => .inl) (fun _ => rfl) (fun _ => rfl) fun _ _ ho => ho

theorem retype {t : TypeId} (h : n.WellLinked) (ht : t.index < n.types.size) :
    (n.retype id t).WellLinked :=
  h.modify (fun _ t' ht' => .inr (by rwa [← Option.some.inj ht'])) (fun _ => rfl) (fun _ => rfl)
    fun _ _ ho => ho

theorem enqueue (h : n.WellLinked) (call : ExprId) : (n.enqueue call).WellLinked :=
  ⟨h.closed, h.typed, h.targets, h.edges⟩

theorem link {deps : List NodeId} (h : n.WellLinked)
    (hdeps : ∀ d ∈ deps, d.index < n.graph.size) : (n.link id deps).WellLinked := by
  refine ⟨h.closed, fun other t ht => ?_, fun other t ht => ?_, FlowGraph.Tied.link h.edges hdeps⟩
  · exact h.typed other t ((FlowGraph.typeOf_link deps).symm.trans ht)
  · refine h.targets other t ?_
    rwa [show ((n.link id deps).graph.node other).derivation = _ from
      FlowGraph.link_field FlowNode.derivation (fun _ _ => rfl) (fun _ _ => rfl) deps] at ht

end WellLinked

/-! ### Settled nodes -/

/-- The node has the type that it derives, if it derives one, and deriving it adds nothing to the
table. -/
structure Settled (n : Network) (id : NodeId) : Prop where
  types : (n.graph.deriveIn id n.types).2 = n.types
  type : ∀ t, (n.graph.deriveIn id n.types).1 = some t → n.graph.typeOf id = some t

theorem settled_of_isEmpty (h : (n.graph.node id).dependencies = []) : n.Settled id := by
  have := FlowGraph.deriveIn_of_isEmpty n.types h
  exact ⟨by rw [this], fun t ht => by rw [this] at ht; cases ht⟩

/-- What was derived once is derived again in every larger table. -/
theorem settled_of_deriveIn (h : n.WellLinked)
    (ht : (n.graph.deriveIn id n.types).2.GrowsTo n'.types)
    (hd : n'.graph.deriveIn id n'.types = n.graph.deriveIn id n'.types)
    (htype : ∀ t, (n.graph.deriveIn id n.types).1 = some t → n'.graph.typeOf id = some t) :
    n'.Settled id := by
  have hs := (h.narrows_deriveIn id).settles.2 n'.types ht
  refine ⟨?_, fun t => ?_⟩
  · rw [hd, hs]
  · rw [hd, hs]; exact htype t

theorem Settled.congr (h : n.Settled id) (hw : n.WellLinked) (ht : n.types.GrowsTo n'.types)
    (hdeps : (n'.graph.node id).dependencies = (n.graph.node id).dependencies)
    (hderiv : (n'.graph.node id).derivation = (n.graph.node id).derivation)
    (hd : ∀ d ∈ (n.graph.node id).dependencies, n'.graph.typeOf d = n.graph.typeOf d)
    (htype : n'.graph.typeOf id = n.graph.typeOf id) : n'.Settled id :=
  settled_of_deriveIn hw (h.types.symm ▸ ht) (FlowGraph.deriveIn_congr _ hdeps hderiv hd)
    fun t h' => htype.trans (h.type t h')

/-! ### Steady conditions -/

/-- The node derives its type from the same types in the same way, in a table that has at most
grown. -/
structure SameSources (n n' : Network) (id : NodeId) : Prop where
  dependencies : (n'.graph.node id).dependencies = (n.graph.node id).dependencies
  derivation : (n'.graph.node id).derivation = (n.graph.node id).derivation
  types : ∀ d ∈ (n.graph.node id).dependencies, n'.graph.typeOf d = n.graph.typeOf d

theorem SameSources.deriveIn_eq (h : n.SameSources n' id) (t : Types) :
    n'.graph.deriveIn id t = n.graph.deriveIn id t :=
  FlowGraph.deriveIn_congr t h.dependencies h.derivation h.types

/-- A condition on nodes that stays while what the node derives its type from stays, and that a node
meets which has the type that it derives. It is only asked for in networks of which `W` holds, and
`W` is kept by the steps of propagation. -/
structure Steady (W : Network → Prop) (P : Network → NodeId → Prop) : Prop where
  edges : ∀ {n : Network}, W n → n.graph.Tied
  keeps_clean : ∀ {n : Network} (id : NodeId), W n → W (n.clean id)
  keeps_enqueue : ∀ {n : Network} (call : ExprId), W n → W (n.enqueue call)
  keeps_derivedType : ∀ {n : Network}, W n → ∀ id, W (n.derivedType id).2
  keeps_retype : ∀ {n : Network} {id : NodeId} {t : TypeId}, W n → (n.derivedType id).1 = some t →
    W ((n.derivedType id).2.retype id t)
  congr : ∀ {n n' : Network} {id : NodeId}, W n → P n id → n.types.GrowsTo n'.types →
    n.SameSources n' id → n'.graph.typeOf id = n.graph.typeOf id → P n' id
  derived : ∀ {n n' : Network} {id : NodeId}, W n →
    (n.graph.deriveIn id n.types).2.GrowsTo n'.types →
    n.SameSources n' id →
      (∀ t, (n.graph.deriveIn id n.types).1 = some t → n'.graph.typeOf id = some t) → P n' id

theorem steady_settled : Steady WellLinked Settled where
  edges h := h.edges
  keeps_clean id h := h.clean id
  keeps_enqueue call h := h.enqueue call
  keeps_derivedType h id := h.derivedType id
  keeps_retype h ht := (h.derivedType _).retype (h.derivedType_lt ht)
  congr hw h ht hs htype := h.congr hw ht hs.dependencies hs.derivation hs.types htype
  derived hw ht hs htype := settled_of_deriveIn hw ht (hs.deriveIn_eq _) htype

/-! ### Nodes that are not settled yet -/

def Dirty (n : Network) (id : NodeId) : Prop := (n.graph.node id).dirty = true

/-- A node that does not meet the condition depends on a marked one, or is among `os`. -/
def Covered (P : Network → NodeId → Prop) (n : Network) (os : List Observer) : Prop :=
  ∀ id, P n id ∨ (∃ d ∈ (n.graph.node id).dependencies, n.Dirty d) ∨ .node id ∈ os

theorem lt_of_derivedType {t : TypeId} (h : (n.derivedType id).1 = some t) :
    id.index < n.graph.size := by
  refine Nat.lt_of_not_le fun hle => ?_
  rw [derivedType_eq, FlowGraph.deriveIn_of_isEmpty] at h
  · cases h
  · rw [FlowGraph.node_of_le hle]; rfl

section
variable {t : TypeId}

theorem dirty_clean : (n.clean id).Dirty d ↔ n.Dirty d ∧ d ≠ id := by
  have hdirty : ∀ {d : NodeId}, n.Dirty d → d.index < n.graph.size := fun {d} h =>
    Nat.lt_of_not_le fun hle => by
      rw [Dirty, FlowGraph.node_of_le hle] at h; cases h
  by_cases hd : d = id
  · subst hd
    refine ⟨fun h => ?_, fun h => absurd rfl h.2⟩
    by_cases hlt : d.index < n.graph.size
    · rw [Dirty, clean, FlowGraph.node_modify_self hlt] at h; cases h
    · exact absurd (hdirty ((congrArg FlowNode.dirty
        ((FlowGraph.node_modify ..).trans (if_neg fun h => hlt h.2))).symm.trans h)) hlt
  · rw [Dirty, clean, FlowGraph.node_modify_of_ne hd]
    exact ⟨fun h => ⟨h, hd⟩, fun h => h.1⟩

theorem dirty_retype : (n.retype id t).Dirty d → n.Dirty d ∨ d = id := by
  by_cases hd : d = id
  · exact fun _ => .inr hd
  · rw [Dirty, retype, FlowGraph.node_modify_of_ne hd]; exact .inl

theorem dirty_retype_of (hid : id.index < n.graph.size) (h : n.Dirty d ∨ d = id) :
    (n.retype id t).Dirty d := by
  by_cases hd : d = id
  · rw [Dirty, retype, hd, FlowGraph.node_modify_self hid]
  · rw [Dirty, retype, FlowGraph.node_modify_of_ne hd]; exact h.resolve_right hd

theorem sameSources_clean : n.SameSources (n.clean id) d :=
  ⟨dependencies_clean, derivation_clean, fun _ _ => typeOf_clean⟩

theorem sameSources_retype (hdeps : id ∉ (n.graph.node d).dependencies) :
    n.SameSources (n.retype id t) d :=
  ⟨dependencies_retype, derivation_retype, fun _ he => typeOf_retype_of_ne fun h => hdeps (h ▸ he)⟩

end

theorem sameSources_derivedType (id : NodeId) : n.SameSources (n.derivedType id).2 d := by
  have hgraph := n.derivedType_graph id
  exact ⟨by rw [hgraph], by rw [hgraph], fun _ _ => by rw [hgraph]⟩

end Network

namespace Network.Steady
open Binding
variable {W : Network → Prop} {P : Network → NodeId → Prop} {n n' : Network} {id d : NodeId}
  {os : List Observer}

theorem clean (h : Steady W P) (hw : W n) (hd : P n d) : P (n.clean id) d :=
  h.congr hw hd (.refl _) sameSources_clean typeOf_clean

/-- Only a node that depends on a retyped one, or is it, can become unsettled. -/
theorem retype {t : TypeId} (h : Steady W P) (hw : W n) (hd : P n d) (hne : d ≠ id)
    (hdeps : id ∉ (n.graph.node d).dependencies) : P (n.retype id t) d :=
  h.congr hw hd (.refl _) (sameSources_retype hdeps) (typeOf_retype_of_ne hne)

theorem derivedType (h : Steady W P) (hw : W n) (hd : P n d) (id : NodeId) :
    P (n.derivedType id).2 d :=
  h.congr hw hd (growsTo_derivedType n id) (sameSources_derivedType id)
    (by rw [n.derivedType_graph id])

/-- A mark can be cleared when its observers are notified next. -/
theorem covered_clean (h : Steady W P) (hc : n.Covered P os) (hw : W n) (id : NodeId) :
    (n.clean id).Covered P ((n.graph.node id).observers ++ os) := by
  intro other
  rcases hc other with hp | ⟨d, hd, hdirty⟩ | ho
  · exact .inl (h.clean hw hp)
  · by_cases hid : d = id
    · exact .inr (.inr (List.mem_append_left _ (h.edges hw other id (hid ▸ hd))))
    · exact .inr (.inl ⟨d, by rwa [dependencies_clean], dirty_clean.mpr ⟨hdirty, hid⟩⟩)
  · exact .inr (.inr (List.mem_append_right _ ho))

theorem covered_refresh {changed : Bool} (h : Steady W P) (hw : W n)
    (hc : n.Covered P (.node id :: os)) (hd : (refresh id).Does n changed n') :
    n'.Covered P os := by
  have hgraph := n.derivedType_graph id
  have htypes : (n.derivedType id).2.types = (n.graph.deriveIn id n.types).2 :=
    by rw [derivedType_eq]
  have hfst : (n.derivedType id).1 = (n.graph.deriveIn id n.types).1 := by rw [derivedType_eq]
  rcases refresh_cases hd with ⟨-, rfl, htype⟩ | ⟨t, -, rfl, htype, -, -⟩
  · intro other
    by_cases hid : other = id
    · subst hid
      refine .inl (h.derived hw (htypes ▸ .refl _) (sameSources_derivedType other) fun t ht => ?_)
      rw [hgraph]; exact htype t (hfst.trans ht)
    · rcases hc other with hp | ⟨d, hd, hdirty⟩ | ho
      · exact .inl (h.derivedType hw hp id)
      · exact .inr (.inl ⟨d, by rwa [hgraph], by rwa [Dirty, hgraph]⟩)
      · rcases List.mem_cons.mp ho with ho | ho
        · exact absurd (Observer.node.inj ho) hid
        · exact .inr (.inr ho)
  · have hlt : id.index < (n.derivedType id).2.graph.size := hgraph ▸ lt_of_derivedType htype
    intro other
    by_cases hdep : id ∈ ((n.derivedType id).2.graph.node other).dependencies
    · exact .inr (.inl ⟨id, by rwa [dependencies_retype], dirty_retype_of hlt (.inr rfl)⟩)
    · by_cases hid : other = id
      · subst hid
        refine .inl (h.derived hw (htypes ▸ .refl _) ⟨?_, ?_, fun d hd => ?_⟩ fun t' ht' => ?_)
        · exact dependencies_retype.trans (by rw [hgraph])
        · exact derivation_retype.trans (by rw [hgraph])
        · rw [typeOf_retype_of_ne fun h => hdep (by rw [hgraph]; exact h ▸ hd), hgraph]
        · rw [← hfst, htype] at ht'
          rw [← ht']; exact congrArg FlowNode.type (FlowGraph.node_modify_self hlt)
      · rcases hc other with hp | ⟨d, hd, hdirty⟩ | ho
        · exact .inl (h.retype (h.keeps_derivedType hw id) (h.derivedType hw hp id) hid hdep)
        · refine .inr
            (.inl ⟨d, by rwa [dependencies_retype, hgraph], dirty_retype_of hlt (.inl ?_)⟩)
          rwa [Dirty, hgraph]
        · rcases List.mem_cons.mp ho with ho | ho
          · exact absurd (Observer.node.inj ho) hid
          · exact .inr (.inr ho)

end Network.Steady

namespace Binding
open Network
variable {n n' : Network} {id : NodeId}

theorem dirty_refresh {changed : Bool} {d : NodeId} (h : (refresh id).Does n changed n')
    (hd : n'.Dirty d) : n.Dirty d ∨ d = id := by
  have hgraph := n.derivedType_graph id
  rcases refresh_cases h with ⟨-, rfl, -⟩ | ⟨t, -, rfl, -, -, -⟩
  · exact .inl (by rwa [Dirty, hgraph] at hd)
  · exact (dirty_retype hd).imp_left fun h => by rwa [Dirty, hgraph] at h

theorem dirty_refresh_false {d : NodeId} (h : (refresh id).Does n false n') (hd : n'.Dirty d) :
    n.Dirty d := by
  rcases refresh_cases h with ⟨-, rfl, -⟩ | ⟨t, h, -⟩
  · rwa [Dirty, n.derivedType_graph id] at hd
  · cases h

/-- Notifying observers marks only them. -/
theorem dirty_notify (os : List Observer) {d : NodeId} (h : (os.forM notify).Does n () n')
    (hd : n'.Dirty d) :
    n.Dirty d ∨ .node d ∈ os := by
  induction os generalizing n with
  | nil => cases does_forM_nil.mp h; exact .inl hd
  | cons o os ih =>
    obtain ⟨m, hm, hrest⟩ := does_forM_cons.mp h
    rcases ih hrest with hd | hd
    · cases o with
      | node id =>
        obtain ⟨changed, hm⟩ := does_notify_node.mp hm
        exact (dirty_refresh hm hd).imp_right fun h => by simp [h]
      | call call =>
        rw [does_notify_call] at hm; subst hm
        exact .inl hd
    · exact .inr (List.mem_cons_of_mem _ hd)

/-- Propagation from a node takes its mark away, and every mark that it makes on the way. -/
theorem dirty_propagateWithin (fuel : Nat) {d : NodeId} (h : (propagateWithin fuel id).Does n () n')
    (hd : n'.Dirty d) : n.Dirty d ∧ d ≠ id := by
  induction fuel generalizing n n' id with
  | zero => cases h
  | succ fuel ih =>
    have hloop : ∀ (os : List Observer) {m m' : Network}, (os.forM (carryOn fuel)).Does m () m' →
        m'.Dirty d → m.Dirty d ∧ .node d ∉ os := by
      intro os
      induction os with
      | nil => intro m m' h hd; cases does_forM_nil.mp h; exact ⟨hd, by simp⟩
      | cons o os ihos =>
        intro m m' h hd
        obtain ⟨k, hk, hrest⟩ := does_forM_cons.mp h
        obtain ⟨hd, hos⟩ := ihos hrest hd
        cases o with
        | node id =>
          obtain ⟨hd, hne⟩ := ih hk hd
          exact ⟨hd, by simp [hos, hne]⟩
        | call _ =>
          cases (does_pure.mp hk).2
          exact ⟨hd, by simp [hos]⟩
    rw [does_propagateWithin] at h
    split at h
    · obtain ⟨m, hm, hrest⟩ := h
      obtain ⟨hd, hos⟩ := hloop _ hrest hd
      exact dirty_clean.mp ((dirty_notify _ hm hd).resolve_right hos)
    · subst h
      refine ⟨hd, ?_⟩
      rintro rfl; exact absurd hd ‹_›

end Binding

namespace Network.Steady
open Binding
variable {W : Network → Prop} {P : Network → NodeId → Prop} {n n' : Network} {id : NodeId}
  {os : List Observer}

theorem keeps_refresh (h : Steady W P) (id : NodeId) : Keeps W (refresh id) :=
  Binding.keeps_refresh (fun _ hw => h.keeps_derivedType hw id) fun _ _ hw ht _ _ =>
    h.keeps_retype hw ht

theorem keeps_notify (h : Steady W P) : ∀ o, Keeps W (notify o) :=
  Binding.keeps_notify (fun _ call hw => h.keeps_enqueue call hw) h.keeps_refresh

theorem keeps_propagate (h : Steady W P) (id : NodeId) : Keeps W (propagate id) :=
  Binding.keeps_propagate (fun _ id hw => h.keeps_clean id hw)
    (fun _ call hw => h.keeps_enqueue call hw) h.keeps_refresh id

theorem covered_notify {o : Observer} (h : Steady W P) (hw : W n) (hc : n.Covered P (o :: os))
    (hd : (notify o).Does n () n') : n'.Covered P os := by
  cases o with
  | node id =>
    obtain ⟨changed, hd⟩ := does_notify_node.mp hd
    exact h.covered_refresh hw hc hd
  | call call =>
    rw [does_notify_call] at hd; subst hd
    intro other
    rcases hc other with hp | hd | ho
    · exact .inl (h.congr hw hp (.refl _) ⟨rfl, rfl, fun _ _ => rfl⟩ rfl)
    · exact .inr (.inl hd)
    · exact .inr (.inr ((List.mem_cons.mp ho).resolve_left nofun))

theorem covered_propagateWithin (h : Steady W P) (fuel : Nat) (hw : W n) (hc : n.Covered P os)
    (hd : (propagateWithin fuel id).Does n () n') : n'.Covered P os := by
  refine (settles_propagateWithin (O := fun os' m => W m ∧
    m.Covered P (os' ++ os)) ?_ ?_ fuel ⟨hw, hc⟩ hd).2
  · exact fun m id hm => ⟨h.keeps_clean id hm.1, h.covered_clean hm.2 hm.1 id⟩
  · exact fun m m' o os hm hd => ⟨(h.keeps_notify o).does hm.1 hd, h.covered_notify hm.1 hm.2 hd⟩

end Network.Steady

end TypeFlow

import Mathlib.Algebra.Order.BigOperators.Group.Finset
import Mathlib.Algebra.Group.Action.Defs
import TypeFlow.Proofs.Flow.Sources

/-!
# Propagation comes to an end

A node that changes its type in a `Fed` network climbs: `rank` counts the atoms that a join would
keep. The `cost` of a network is what its nodes can still climb, and one for every mark. Clearing a
mark lowers it and nothing raises it (`cost_refresh`), so that propagation never goes deeper than
the cost, which is below `Network.propagationFuel` (`cost_lt_propagationFuel`).
-/

namespace TypeFlow

/-- How high atoms stand: nothing, `NoReturn` alone, and then by their number. -/
def rank (as : List TypeId) : Nat := if as = [] then 0 else 1 + (as.filter (· ≠ .noReturn)).length

theorem rank_of_ne_nil {as : List TypeId} (h : as ≠ []) :
    rank as = 1 + (as.filter (· ≠ .noReturn)).length :=
  if_neg h

theorem Increasing.length_le {ids : List TypeId} {bound : Nat} (h : Increasing ids)
    (hb : ∀ id ∈ ids, id.index < bound) : ids.length ≤ bound := by
  have hnodup : (ids.map TypeId.index).Nodup := List.pairwise_map.mpr (h.imp Nat.ne_of_lt)
  have hsub : ids.map TypeId.index ⊆ List.range bound := fun i hi => by
    obtain ⟨id, hid, rfl⟩ := List.mem_map.mp hi
    exact List.mem_range.mpr (hb id hid)
  simpa using (List.subperm_of_subset hnodup hsub).length_le

theorem rank_le {as : List TypeId} {bound : Nat} (h : Increasing as)
    (hb : ∀ a ∈ as, a.index < bound) : rank as ≤ bound + 1 := by
  have := h.length_le hb
  have := List.length_filter_le (· ≠ TypeId.noReturn) as
  unfold rank; split <;> omega

section
variable {as bs : List TypeId}

theorem Below.filter_subset (h : Below as bs) :
    as.filter (· ≠ .noReturn) ⊆ bs.filter (· ≠ TypeId.noReturn) := fun a ha => by
  obtain ⟨ha, hn⟩ := List.mem_filter.mp ha
  exact List.mem_filter.mpr ⟨h.mem a ha (of_decide_eq_true hn), hn⟩

theorem rank_le_of_below (h : Below as bs) (ha : Increasing as) : rank as ≤ rank bs := by
  by_cases hnil : as = []
  · rw [rank, if_pos hnil]; exact Nat.zero_le _
  · rw [rank_of_ne_nil hnil, rank_of_ne_nil (h.ne_nil hnil)]
    exact Nat.add_le_add_left
      (List.subperm_of_subset (ha.filter _).nodup h.filter_subset).length_le 1

/-- Canonical members are known by those other than `NoReturn`. -/
theorem eq_of_filter_eq (ha : canonicalMembers as = as) (hb : canonicalMembers bs = bs)
    (hne : as ≠ []) (hne' : bs ≠ [])
    (heq : as.filter (· ≠ .noReturn) = bs.filter (· ≠ TypeId.noReturn)) : as = bs := by
  have hmem : ∀ {cs ds : List TypeId}, canonicalMembers cs = cs → ds ≠ [] →
      cs.filter (· ≠ .noReturn) = ds.filter (· ≠ TypeId.noReturn) → ∀ a ∈ cs, a ∈ ds := by
    intro cs ds hc hd heq a hac
    by_cases hn : a = .noReturn
    · -- `NoReturn` is alone here, so that there can be nothing else there
      have hall := (mem_canonicalMembers.mp (hc.symm ▸ hac)).2.resolve_left (· hn)
      obtain ⟨d, hd⟩ := List.exists_mem_of_ne_nil _ hd
      by_cases hdn : d = .noReturn
      · rwa [hn, ← hdn]
      · have : d ∈ cs.filter (· ≠ .noReturn) := heq ▸ List.mem_filter.mpr ⟨hd, by simpa using hdn⟩
        exact absurd (hall d (List.mem_filter.mp this).1) hdn
    · have : a ∈ cs.filter (· ≠ .noReturn) := List.mem_filter.mpr ⟨hac, by simpa using hn⟩
      exact (List.mem_filter.mp (heq ▸ this)).1
  refine Increasing.eq_of_mem_iff (ha ▸ increasing_canonicalMembers _)
    (hb ▸ increasing_canonicalMembers _) fun a => ⟨hmem ha hne' heq a, hmem hb hne heq.symm a⟩

theorem rank_lt_of_below (h : Below as bs) (ha : canonicalMembers as = as)
    (hb : canonicalMembers bs = bs) (hne : as ≠ bs) : rank as < rank bs := by
  have hia : Increasing as := ha ▸ increasing_canonicalMembers _
  have hib : Increasing bs := hb ▸ increasing_canonicalMembers _
  refine Nat.lt_of_le_of_ne (rank_le_of_below h hia) fun heq => hne ?_
  by_cases hnil : as = []
  · have hbs : bs = [] := by
      by_contra hbs
      rw [rank, if_pos hnil, rank_of_ne_nil hbs] at heq; omega
    rw [hnil, hbs]
  · have hnil' := h.ne_nil hnil
    rw [rank_of_ne_nil hnil, rank_of_ne_nil hnil'] at heq
    have hperm := (List.subperm_of_subset (hia.filter _).nodup h.filter_subset).perm_of_length_le
      (Nat.le_of_eq (Nat.add_left_cancel heq).symm)
    exact eq_of_filter_eq ha hb hnil hnil'
      (Increasing.eq_of_mem_iff (hia.filter _) (hib.filter _) fun a => hperm.mem_iff)

end

namespace Network
variable {n n' : Network} {id d : NodeId} {t : TypeId}
  {source : NodeId → TypeId → Prop} {bound : Nat}

/-- No node knows an atom from the bound on. -/
def Bounded (bound : Nat) (n : Network) : Prop := ∀ id, ∀ a ∈ n.atomsOf id, a.index < bound

/-- What a node can still climb, and one for its mark. -/
def nodeCost (bound : Nat) (n : Network) (id : NodeId) : Nat :=
  (n.graph.node id).dirty.toNat + (bound + 1 - rank (n.atomsOf id))

def cost (bound : Nat) (n : Network) : Nat :=
  ∑ i ∈ Finset.range n.graph.size, n.nodeCost bound ⟨i⟩

theorem Fed.bounded (h : n.Fed source) : n.Bounded n.types.size := fun id a ha => by
  obtain ⟨s, t, hs, -, hat⟩ := h.sound id a ha
  exact h.linked.closed.membersHeld.atom_lt (h.source_lt hs) hat

theorem cost_lt_propagationFuel (n : Network) : n.cost n.types.size < n.propagationFuel := by
  have hnode : ∀ i ∈ Finset.range n.graph.size, n.nodeCost n.types.size ⟨i⟩ ≤ n.types.size + 2 := by
    intro i _
    have := Bool.toNat_le (n.graph.node ⟨i⟩).dirty
    unfold nodeCost; omega
  have hsum := Finset.sum_le_card_nsmul _ _ _ hnode
  rw [Finset.card_range, smul_eq_mul] at hsum
  refine Nat.lt_of_le_of_lt hsum ?_
  unfold propagationFuel
  calc n.graph.size * (n.types.size + 2)
      ≤ n.graph.size * (n.types.size + n.graph.size + 64) := Nat.mul_le_mul_left _ (by omega)
    _ < (n.graph.size + 1) * (n.types.size + n.graph.size + 64) :=
        Nat.mul_lt_mul_of_pos_right (Nat.lt_succ_self _) (by omega)

theorem cost_le (hsize : n'.graph.size = n.graph.size)
    (h : ∀ id, n'.nodeCost bound id ≤ n.nodeCost bound id) : n'.cost bound ≤ n.cost bound := by
  rw [cost, cost, hsize]; exact Finset.sum_le_sum fun i _ => h ⟨i⟩

theorem cost_lt (hsize : n'.graph.size = n.graph.size)
    (h : ∀ id, n'.nodeCost bound id ≤ n.nodeCost bound id) (hid : id.index < n.graph.size)
    (hlt : n'.nodeCost bound id < n.nodeCost bound id) : n'.cost bound < n.cost bound := by
  rw [cost, cost, hsize]
  exact Finset.sum_lt_sum (fun i _ => h ⟨i⟩) ⟨id.index, Finset.mem_range.mpr hid, hlt⟩

theorem cost_clean (hd : n.Dirty id) : (n.clean id).cost bound < n.cost bound := by
  have hlt : id.index < n.graph.size := Nat.lt_of_not_le fun hle => by
    rw [Dirty, FlowGraph.node_of_le hle] at hd; cases hd
  have hself : (n.clean id).nodeCost bound id < n.nodeCost bound id := by
    have hd : (n.graph.node id).dirty = true := hd
    rw [nodeCost, nodeCost, atomsOf_clean, clean, FlowGraph.node_modify_self hlt, hd]
    exact Nat.add_lt_add_right Nat.one_pos _
  refine cost_lt (FlowGraph.size_modify ..) (fun other => ?_) hlt hself
  by_cases hid : other = id
  · rw [hid]; exact Nat.le_of_lt hself
  · rw [nodeCost, nodeCost, atomsOf_clean, clean, FlowGraph.node_modify_of_ne hid]

namespace Fed

theorem bounded_derivedType (h : n.Fed source) (hb : n.Bounded bound) (id : NodeId) :
    (n.derivedType id).2.Bounded bound := fun other a ha => by
  refine hb other a ?_
  rwa [atomsOf_congr h.linked (growsTo_derivedType n id) (by rw [n.derivedType_graph id])] at ha

theorem bounded_retype (h : n.Fed source) (hb : n.Bounded bound)
    (ht : (n.derivedType id).1 = some t) :
    ((n.derivedType id).2.retype id t).Bounded bound := fun other a ha => by
  have hgraph := n.derivedType_graph id
  rw [atomsOf_retype (hgraph ▸ lt_of_derivedType ht)] at ha
  split at ha
  · rw [h.atoms_derivedType ht] at ha
    obtain ⟨d, -, ha⟩ := List.mem_flatMap.mp (mem_of_mem_canonicalMembers ha)
    exact hb d a ha
  · exact h.bounded_derivedType hb id other a ha

/-- Retyping a node marks it, but makes it climb. -/
theorem cost_retype (h : n.Fed source) (hb : n.Bounded bound) (ht : (n.derivedType id).1 = some t)
    (hne : n.graph.typeOf id ≠ some t) :
    ((n.derivedType id).2.retype id t).cost bound ≤ n.cost bound := by
  have hgraph := n.derivedType_graph id
  have hlt : id.index < (n.derivedType id).2.graph.size := hgraph ▸ lt_of_derivedType ht
  have hold : ∀ d, (n.derivedType id).2.atomsOf d = n.atomsOf d := fun d =>
    atomsOf_congr h.linked (growsTo_derivedType n id) (by rw [hgraph])
  have hm := h.derivedType id
  have hatoms : n.atomsOf id ≠ (n.derivedType id).2.types.atoms t := by
    rw [← hold id, atomsOf]
    cases htype : (n.derivedType id).2.graph.typeOf id with
    | none => exact (hm.canonical.atoms_ne_nil t).symm
    | some u =>
      refine fun heq => hne ?_
      rw [← hgraph, htype, hm.canonical.eq_of_atoms heq]
  refine cost_le ((FlowGraph.size_modify ..).trans (by rw [hgraph])) fun other => ?_
  rw [nodeCost, nodeCost, atomsOf_retype hlt, hold]
  by_cases hid : other = id
  · subst hid
    have hrank :=
      rank_lt_of_below (h.below_derivedType ht) (canonicalMembers_atomsOf h.canonical other)
      (hm.canonical.canonicalMembers_atoms t) hatoms
    have hle := rank_le (hm.canonical.increasing_atoms t) fun a ha =>
      h.bounded_retype hb ht other a (by rwa [atomsOf_retype hlt, if_pos rfl])
    have := Bool.toNat_le (((n.derivedType other).2.retype other t).graph.node other).dirty
    rw [if_pos rfl]; omega
  · rw [if_neg hid, show ((n.derivedType id).2.retype id t).graph.node other =
      n.graph.node other from (FlowGraph.node_modify_of_ne hid).trans (by rw [hgraph])]

end Fed

end Network

namespace Binding
open Network
variable {n n' : Network} {id : NodeId} {source : NodeId → TypeId → Prop} {bound : Nat}

/-- A change from a fed network is carried through and does not raise the cost. -/
def Descends (bound : Nat) (source : NodeId → TypeId → Prop) (n : Network)
    (x : Binding Unit) : Prop :=
  ∃ n', x.Does n () n' ∧ n'.Fed source ∧ n'.Bounded bound ∧ n'.cost bound ≤ n.cost bound

theorem refresh_does (h : n.Fed source) (hb : n.Bounded bound) (id : NodeId) :
    ∃ changed n', (refresh id).Does n changed n' ∧ n'.Fed source ∧ n'.Bounded bound ∧
      n'.cost bound ≤ n.cost bound := by
  have hgraph := n.derivedType_graph id
  have hkeep : (n.derivedType id).2.cost bound ≤ n.cost bound := by
    refine cost_le (by rw [hgraph]) fun other => ?_
    rw [nodeCost, nodeCost, hgraph,
      atomsOf_congr h.linked (growsTo_derivedType n id) (by rw [hgraph])]
  have hout := outcome_refresh id n
  rcases hr : n.derivedType id with ⟨_ | t, m⟩
  · rw [hr] at hout
    have hm : m = (n.derivedType id).2 := by rw [hr]
    subst hm
    exact ⟨false, _, hout, h.derivedType id, h.bounded_derivedType hb id, hkeep⟩
  · have hm : m = (n.derivedType id).2 := by rw [hr]
    have ht : (n.derivedType id).1 = some t := by rw [hr]
    rw [hr] at hout
    subst hm
    by_cases htype : n.graph.typeOf id = some t
    · simp only [hgraph, htype, if_true] at hout
      exact ⟨false, _, hout, h.derivedType id, h.bounded_derivedType hb id, hkeep⟩
    · simp only [hgraph, htype, if_false, h.unfrozen id] at hout
      exact ⟨true, _, hout, h.retype ht, h.bounded_retype hb ht, h.cost_retype hb ht htype⟩

theorem notify_descends (h : n.Fed source) (hb : n.Bounded bound) :
    ∀ o, Descends bound source n (notify o)
  | .node id => by
    obtain ⟨changed, n', hdo, hrest⟩ := refresh_does h hb id
    exact ⟨n', does_notify_node.mpr ⟨changed, hdo⟩, hrest⟩
  | .call call =>
    ⟨n.enqueue call, does_notify_call.mpr rfl, h.enqueue call, hb, Nat.le_refl _⟩

theorem forM_descends {β : Type} (bs : List β) {f : β → Binding Unit} (h : n.Fed source)
    (hb : n.Bounded bound)
    (hf : ∀ b ∈ bs, ∀ m, m.Fed source → m.Bounded bound → m.cost bound ≤ n.cost bound →
      Descends bound source m (f b)) : Descends bound source n (bs.forM f) := by
  induction bs generalizing n with
  | nil => exact ⟨n, does_forM_nil.mpr rfl, h, hb, Nat.le_refl _⟩
  | cons b bs ih =>
    obtain ⟨m, hdo, hm, hbm, hcost⟩ := hf b (by simp) n h hb (Nat.le_refl _)
    obtain ⟨n', hdo', h', hb', hcost'⟩ := ih hm hbm fun b' hb' k hk hbk hle =>
      hf b' (by simp [hb']) k hk hbk (Nat.le_trans hle hcost)
    exact ⟨n', does_forM_cons.mpr ⟨m, hdo, hdo'⟩, h', hb', Nat.le_trans hcost' hcost⟩

/-- Fuel above the cost is enough. -/
theorem propagateWithin_descends (fuel : Nat) (h : n.Fed source) (hb : n.Bounded bound)
    (hfuel : n.cost bound < fuel) : Descends bound source n (propagateWithin fuel id) := by
  induction fuel generalizing n id with
  | zero => omega
  | succ fuel ih =>
    by_cases hd : (n.graph.node id).dirty = true
    · have hclean : (n.clean id).cost bound < n.cost bound := cost_clean hd
      have hbc : (n.clean id).Bounded bound :=
        fun other a ha => hb other a (by rwa [atomsOf_clean] at ha)
      obtain ⟨m, hdo, hm, hbm, hcost⟩ := forM_descends (n.graph.node id).observers (h.clean id) hbc
        fun o _ k hk hbk _ => notify_descends hk hbk o
      obtain ⟨n', hdo', h', hb', hcost'⟩ :=
        forM_descends (f := carryOn fuel) (n.graph.node id).observers
          hm hbm fun o _ k hk hbk hle => by
        cases o with
        | node other => exact ih hk hbk (by omega)
        | call _ => exact ⟨k, does_pure.mpr ⟨rfl, rfl⟩, hk, hbk, Nat.le_refl _⟩
      refine ⟨n', does_propagateWithin.mpr ?_, h', hb', by omega⟩
      rw [if_pos hd]; exact ⟨m, hdo, hdo'⟩
    · refine ⟨n, does_propagateWithin.mpr ?_, h, hb, Nat.le_refl _⟩
      rw [if_neg hd]

theorem propagate_does (h : n.Fed source) (id : NodeId) :
    ∃ n', (propagate id).Does n () n' ∧ n'.Fed source := by
  obtain ⟨n', hdo, h', -⟩ := propagateWithin_descends _ h h.bounded n.cost_lt_propagationFuel
  exact ⟨n', does_propagate.mpr hdo, h'⟩

end Binding

end TypeFlow

import TypeFlow.Proofs.Flow.Descent
import TypeFlow.Proofs.Flow.Extends

/-!
# The least fixpoint

Edges and types given to nodes in any order make the least fixpoint of what the edges say: every
edit is carried through, and in the end the type of a node is the join of the types of the sources
that reach it along the edges (`Edit.Feeding.leastFixpoint`). So the order of the edits does not
matter.
-/

namespace TypeFlow

namespace Network
variable {n n' : Network} {id : NodeId}

/-- A network whose nodes pass types on as they are, before the first edge and the first type. -/
structure Blank (n : Network) : Prop where
  closed : n.types.Closed
  canonical : n.types.Canonical
  identity : ∀ id, (n.graph.node id).derivation = .identity
  unfrozen : ∀ id, (n.graph.node id).frozen = false
  clean : ∀ id, (n.graph.node id).dirty = false
  untyped : ∀ id, n.graph.typeOf id = none
  independent : ∀ id, (n.graph.node id).dependencies = []
  unobserved : ∀ id other, .node other ∉ (n.graph.node id).observers

namespace Blank

theorem calm (h : n.Blank) : n.Calm := by
  refine ⟨⟨h.closed, fun id t ht => ?_, fun id t ht => ?_, fun id d hd => ?_⟩,
    fun id => settled_of_isEmpty (h.independent id), fun id hd => ?_⟩
  · rw [h.untyped] at ht; cases ht
  · rw [h.identity] at ht; cases ht
  · rw [h.independent] at hd; cases hd
  · rw [Dirty, h.clean] at hd; cases hd

theorem fed (h : n.Blank) : n.Fed fun _ _ => False := by
  refine ⟨h.calm.linked, h.canonical, h.identity, h.unfrozen, nofun, fun id a ha => ?_,
    fun id hd => absurd (h.independent id) hd⟩
  rw [atomsOf, h.untyped] at ha; cases ha

end Blank

theorem Blank.replicate {t : Types} (hc : t.Closed) (hcan : t.Canonical) (k : Nat) :
    Blank ⟨t, { nodes := .replicate k {} }⟩ := by
  have hnode : ∀ id, FlowGraph.node { nodes := .replicate k {} } id = {} := fun id => by
    rw [FlowGraph.node, Array.getElem?_replicate]; split <;> rfl
  constructor <;> intros <;> simp_all [FlowGraph.typeOf]

end Network

namespace Binding
open Network
variable {n m n' : Network} {id : NodeId} {source : NodeId → TypeId → Prop}

theorem does_forM_append {β : Type} {bs bs' : List β} {f : β → Binding Unit}
    (h : (bs.forM f).Does n () m) (h' : (bs'.forM f).Does m () n') :
    ((bs ++ bs').forM f).Does n () n' := by
  induction bs generalizing n with
  | nil => rw [does_forM_nil.mp h]; exact h'
  | cons b bs ih =>
    obtain ⟨k, hk, h⟩ := does_forM_cons.mp h
    exact does_forM_cons.mpr ⟨k, hk, ih h⟩

theorem does_forM_singleton {β : Type} {b : β} {f : β → Binding Unit} (h : (f b).Does n () n') :
    ([b].forM f).Does n () n' :=
  does_forM_cons.mpr ⟨n', h, does_forM_nil.mpr rfl⟩

/-- A source is given its type. -/
theorem setType_does {t : TypeId} (h : n.Fed source) (hlt : id.index < n.graph.size)
    (ht : t.index < n.types.size) (hd : (n.graph.node id).dependencies = [])
    (hnone : n.graph.typeOf id = none) :
    ∃ n', (setType id t).Does n () n' ∧ n'.Fed (fun s u => source s u ∨ s = id ∧ u = t) ∧
      n.Extends n' := by
  have hgive := h.give hlt ht hd hnone
  obtain ⟨n', hdo, hfed⟩ := propagate_does hgive id
  refine ⟨n', does_setType.mpr ?_, hfed, ?_⟩
  · rw [if_neg (by simp [hnone])]; exact ⟨h.unfrozen id, hdo⟩
  · exact (Extends.keeps_propagate n id).does ((Extends.refl n).retype id t) hdo

/-- A node that is not a source is made to depend on others. -/
theorem bindNode_does {deps : List NodeId} (h : n.Fed source) (hlt : id.index < n.graph.size)
    (hdeps : ∀ d ∈ deps, d.index < n.graph.size) (hs : deps ≠ [] → ∀ t, ¬ source id t) :
    ∃ n', (bind id deps).Does n () n' ∧ n'.Fed source ∧ (n.link id deps).Extends n' := by
  have hlink := h.link hlt hdeps hs
  obtain ⟨changed, m, hdo, hm, -⟩ := refresh_does hlink hlink.bounded id
  have hext := (Extends.keeps_refresh (n.link id deps) id).does (.refl _) hdo
  cases changed with
  | false => exact ⟨m, does_bindNode.mpr ⟨false, m, hdo, rfl⟩, hm, hext⟩
  | true =>
    obtain ⟨n', hdo', h'⟩ := propagate_does hm id
    exact ⟨n', does_bindNode.mpr ⟨true, m, hdo, hdo'⟩, h',
      (Extends.keeps_propagate (n.link id deps) id).does hext hdo'⟩

end Binding

namespace Edit
open Network
variable {n n' : Network} {es es' : List Edit} {s id d : NodeId} {t : TypeId}

/-- The node that an edit gives a type, and the type. -/
def given? : Edit → Option (NodeId × TypeId)
  | .setType id type => some (id, type)
  | _ => none

/-- The edit makes edges between nodes of the network, or gives a type to one. -/
def Feeds (n : Network) : Edit → Prop
  | .bind id deps => id.index < n.graph.size ∧ ∀ d ∈ deps, d.index < n.graph.size
  | .setType id _ => id.index < n.graph.size
  | _ => False

/-- The last node depends on the first by one of the edits. -/
def Links (es : List Edit) (d id : NodeId) : Prop := ∃ deps, .bind id deps ∈ es ∧ d ∈ deps

def Reaches (es : List Edit) : NodeId → NodeId → Prop := Relation.ReflTransGen (Links es)

/-- Edits that make edges and give types, where a node is given a type once at most, and no
dependencies beside it. A type is in the table by the time that it is given. -/
structure Feeding (n : Network) (es : List Edit) : Prop where
  feeds : ∀ e ∈ es, e.Feeds n
  once : ((es.filterMap given?).map Prod.fst).Nodup
  apart : ∀ id type deps, .setType id type ∈ es → .bind id deps ∈ es → deps = []
  known : ∀ before id type after, es = before ++ .setType id type :: after →
    type.index < ((before.forM perform).outcome n).2.types.size

namespace Feeding

theorem init {e : Edit} (h : Feeding n (es ++ [e])) : Feeding n es where
  feeds e' he' := h.feeds e' (by simp [he'])
  once := by
    have := h.once
    rw [List.filterMap_append, List.map_append] at this
    exact (List.nodup_append.mp this).1
  apart id type deps ht hd := h.apart id type deps (by simp [ht]) (by simp [hd])
  known before id type after heq := h.known before id type (after ++ [e]) (by simp [heq])

theorem given_notMem {type : TypeId} (h : Feeding n (es ++ [.setType id type])) :
    .setType id t ∉ es := fun hmem => by
  have := h.once
  rw [List.filterMap_append, List.map_append] at this
  refine (List.nodup_append.mp this).2.2 id ?_ id (by simp [given?]) rfl
  exact List.mem_map.mpr ⟨(id, t), List.mem_filterMap.mpr ⟨_, hmem, rfl⟩, rfl⟩

/-- A network that such edits made: it is calm, fed by the given types, and its edges are theirs. -/
structure Made (n : Network) (es : List Edit) (n' : Network) : Prop where
  calm : n'.Calm
  fed : n'.Fed fun s t => .setType s t ∈ es
  size : n'.graph.size = n.graph.size
  types : n.types.GrowsTo n'.types
  links : ∀ d id, d ∈ (n'.graph.node id).dependencies ↔ Links es d id

theorem made_perform {e : Edit} (h : Feeding n (es ++ [e])) (hm : Made n es n')
    (hdo : (es.forM perform).Does n () n') :
    ∃ n'', e.perform.Does n' () n'' ∧ Made n (es ++ [e]) n'' := by
  have hlinks : ∀ {d id}, Links (es ++ [e]) d id ↔ Links es d id ∨
      ∃ deps, .bind id deps = e ∧ d ∈ deps := by
    intro d id
    simp only [Links, List.mem_append, List.mem_singleton, or_and_right, exists_or]
  have he := h.feeds e (by simp)
  cases e with
  | bind id deps =>
    have hdeps : ∀ d ∈ deps, d.index < n'.graph.size := hm.size ▸ he.2
    have hlt : id.index < n'.graph.size := hm.size ▸ he.1
    obtain ⟨n'', hdo', hfed, hext⟩ := Binding.bindNode_does hm.fed hlt hdeps fun hne t ht =>
      hne (h.apart id t deps (by simp [ht]) (by simp))
    refine ⟨n'', hdo', Binding.calm_bindNode hm.calm hdeps hdo', ?_, ?_, ?_, fun d id' => ?_⟩
    · simpa using hfed
    · exact hext.size.trans ((FlowGraph.size_link ..).trans hm.size)
    · exact hm.types.trans hext.types
    · rw [hext.dependencies, hlinks, ← hm.links]
      refine (FlowGraph.mem_dependencies_link deps).trans (or_congr .rfl ⟨?_, ?_⟩)
      · rintro ⟨rfl, -, hd⟩; exact ⟨deps, rfl, hd⟩
      · rintro ⟨ds, heq, hd⟩; cases heq; exact ⟨rfl, hlt, hd⟩
  | setType id type =>
    have hd : (n'.graph.node id).dependencies = [] :=
      List.eq_nil_iff_forall_not_mem.mpr fun d hd => by
        obtain ⟨deps, hbind, hd⟩ := (hm.links d id).mp hd
        rw [h.apart id type deps (by simp) (by simp [hbind])] at hd; cases hd
    have hnone : n'.graph.typeOf id = none := by
      by_contra hsome
      obtain ⟨t, ht⟩ := hm.fed.source_of_isEmpty hd hsome
      exact h.given_notMem ht
    have ht : type.index < n'.types.size := by
      have := h.known es id type [] rfl
      rwa [hdo] at this
    obtain ⟨n'', hdo', hfed, hext⟩ := Binding.setType_does hm.fed (hm.size ▸ he) ht hd hnone
    refine ⟨n'', hdo', Binding.calm_setType hm.calm hd ht hdo', ?_, hext.size.trans hm.size,
      hm.types.trans hext.types, fun d id' => ?_⟩
    · simpa using hfed
    · rw [hext.dependencies, hlinks, hm.links]; simp
  | addNode | freeze | observe => exact he.elim

/-- All the edits are carried through. -/
theorem made (hn : n.Blank) (h : Feeding n es) :
    ∃ n', (es.forM perform).Does n () n' ∧ Made n es n' := by
  induction es using List.reverseRecOn with
  | nil =>
    refine ⟨n, Binding.does_forM_nil.mpr rfl, hn.calm, ?_, rfl, .refl _, fun d id => ?_⟩
    · simpa using hn.fed
    · simp [hn.independent, Links]
  | append_singleton es e ih =>
    obtain ⟨m, hdo, hm⟩ := ih h.init
    obtain ⟨n', hdo', hm'⟩ := made_perform h hm hdo
    exact ⟨n', Binding.does_forM_append hdo (Binding.does_forM_singleton hdo'), hm'⟩

namespace Made

theorem reaches_iff (h : Made n es n') : n'.graph.Reaches s id ↔ Reaches es s id := by
  rw [Reaches, FlowGraph.Reaches,
    show (fun d id => d ∈ (n'.graph.node id).dependencies) = Links es from
    funext fun d => funext fun id => propext (h.links d id)]

theorem join_eq {types : List TypeId} (h : Made n es n')
    (htypes : ∀ t, t ∈ types ↔ ∃ s, .setType s t ∈ es ∧ Reaches es s id) :
    n'.types.join types = (n'.graph.typeOf id, n'.types) :=
  h.fed.join_eq h.calm fun t => (htypes t).trans (by simp only [h.reaches_iff])

/-- The atoms of a node, told from the first table alone. -/
theorem atomsOf_eq {types : List TypeId} (h : Made n es n')
    (hknown : ∀ s t, .setType s t ∈ es → t.index < n.types.size)
    (htypes : ∀ t, t ∈ types ↔ ∃ s, .setType s t ∈ es ∧ Reaches es s id) :
    n'.atomsOf id = canonicalMembers (types.flatMap n.types.atoms) := by
  have hjoin := h.join_eq htypes
  have hlt : ∀ t ∈ types, t.index < n.types.size := fun t ht => by
    obtain ⟨s, hs, -⟩ := (htypes t).mp ht
    exact hknown s t hs
  cases htype : n'.graph.typeOf id with
  | none =>
    have hnone : (n'.types.join types).1 = none := by rw [hjoin, htype]
    rw [h.fed.canonical.join_eq_none_iff.mp hnone, atomsOf, htype]; rfl
  | some v =>
    have hsome : (n'.types.join types).1 = some v := by rw [hjoin, htype]
    have hatoms := h.fed.canonical.atoms_join hsome
    rw [hjoin] at hatoms
    rw [atomsOf_of_typeOf htype, hatoms, Types.flatMap_atoms_eq h.types hlt]

end Made

/-- The types that reach a node, as a list. -/
theorem exists_types (es : List Edit) (id : NodeId) : ∃ types : List TypeId,
    ∀ t, t ∈ types ↔ ∃ s, .setType s t ∈ es ∧ Reaches es s id := by
  classical
  refine ⟨((es.filterMap given?).filter fun p => Reaches es p.1 id).map Prod.snd, fun t => ?_⟩
  have hgiven : ∀ {s t}, (s, t) ∈ es.filterMap given? ↔ .setType s t ∈ es := by
    intro s t
    rw [List.mem_filterMap]
    refine ⟨fun ⟨e, he, heq⟩ => ?_, fun h => ⟨_, h, rfl⟩⟩
    cases e with
    | setType => cases heq; exact he
    | _ => cases heq
  simp only [List.mem_map, List.mem_filter, Prod.exists, hgiven, decide_eq_true_iff]
  exact ⟨fun ⟨s, _, h, heq⟩ => ⟨s, heq ▸ h⟩, fun ⟨s, h⟩ => ⟨s, t, h, rfl⟩⟩

/-- Types of the first table are in every later one. -/
theorem of_known (hn : n.Blank) (hfeeds : ∀ e ∈ es, e.Feeds n)
    (honce : ((es.filterMap given?).map Prod.fst).Nodup)
    (hapart : ∀ id type deps, .setType id type ∈ es → .bind id deps ∈ es → deps = [])
    (hknown : ∀ s t, .setType s t ∈ es → t.index < n.types.size) : Feeding n es := by
  induction es using List.reverseRecOn with
  | nil => exact ⟨nofun, .nil, nofun, fun before _ _ _ heq => by simp at heq⟩
  | append_singleton es e ih =>
    have hinit : Feeding n es := by
      refine ih (fun e' he' => hfeeds e' (by simp [he'])) ?_ (fun id type deps ht hd => ?_)
        fun s t ht => hknown s t (by simp [ht])
      · rw [List.filterMap_append, List.map_append] at honce
        exact (List.nodup_append.mp honce).1
      · exact hapart id type deps (by simp [ht]) (by simp [hd])
    refine ⟨hfeeds, honce, hapart, fun before id type after heq => ?_⟩
    rcases List.eq_nil_or_concat after with rfl | ⟨rest, last, rfl⟩
    · obtain ⟨rfl, he⟩ := List.append_inj' heq rfl
      obtain ⟨m, hdo, hm⟩ := hinit.made hn
      rw [hdo]
      exact hm.types.lt (hknown id type (by simp [heq]))
    · refine hinit.known before id type rest ?_
      rw [List.concat_eq_append, ← List.cons_append, ← List.append_assoc] at heq
      exact (List.append_inj' heq rfl).1

theorem perm (h : Feeding n es) (hn : n.Blank) (hperm : es.Perm es')
    (hknown : ∀ s t, .setType s t ∈ es → t.index < n.types.size) : Feeding n es' :=
  of_known hn (fun e he => h.feeds e (hperm.mem_iff.mpr he))
    (((hperm.filterMap given?).map Prod.fst).nodup_iff.mp h.once)
    (fun id type deps ht hd => h.apart id type deps (hperm.mem_iff.mpr ht) (hperm.mem_iff.mpr hd))
    fun s t ht => hknown s t (hperm.mem_iff.mpr ht)

/-- Edges and types, in whatever order they come, are all carried through. In the end every node
has the join of the types that were given to nodes that reach it, and none if there are no such
types; another order of the edits makes the same of every node. -/
theorem leastFixpoint (hn : n.Blank) (h : Feeding n es) :
    ∃ n', (es.forM perform).Does n () n' ∧
      (∀ id, (∀ s t, Reaches es s id → .setType s t ∉ es) → n'.graph.typeOf id = none) ∧
      (∀ id types, (∀ t, t ∈ types ↔ ∃ s, .setType s t ∈ es ∧ Reaches es s id) →
        n'.types.join types = (n'.graph.typeOf id, n'.types)) ∧
      ∀ es', es.Perm es' → (∀ s t, .setType s t ∈ es → t.index < n.types.size) →
        ∃ n'', (es'.forM perform).Does n () n'' ∧ ∀ id, n''.atomsOf id = n'.atomsOf id := by
  obtain ⟨n', hdo, hm⟩ := h.made hn
  refine ⟨n', hdo, fun id hid => ?_, fun id types htypes => hm.join_eq htypes,
    fun es' hperm hknown => ?_⟩
  · have hnil : n'.types.join [] = (n'.graph.typeOf id, n'.types) :=
      hm.join_eq fun t => iff_of_false List.not_mem_nil fun ⟨s, ht, hs⟩ => hid s t hs ht
    exact (congrArg Prod.fst hnil).symm
  · obtain ⟨n'', hdo', hm'⟩ := (h.perm hn hperm hknown).made hn
    refine ⟨n'', hdo', fun id => ?_⟩
    obtain ⟨types, htypes⟩ := exists_types es id
    have hmem : ∀ {e}, e ∈ es' ↔ e ∈ es := hperm.mem_iff.symm
    have hlinks : Links es' = Links es := by
      funext d id; simp only [Links, hmem]
    have htypes' : ∀ t, t ∈ types ↔ ∃ s, .setType s t ∈ es' ∧ Reaches es' s id := fun t => by
      rw [htypes t, Reaches, Reaches, hlinks]; simp only [hmem]
    rw [hm.atomsOf_eq hknown htypes, hm'.atomsOf_eq (fun s t ht => hknown s t (hmem.mp ht)) htypes']

/-- Two nodes that depend on each other and on one source each. -/
def cycle : List Edit :=
  [.bind ⟨1⟩ [⟨0⟩, ⟨2⟩], .setType ⟨3⟩ .float64, .bind ⟨2⟩ [⟨1⟩, ⟨3⟩], .setType ⟨0⟩ .int32]

theorem leastFixpoint_cycle : (Blank ⟨.initial, { nodes := .replicate 4 {} }⟩) ∧
    Feeding ⟨.initial, { nodes := .replicate 4 {} }⟩ cycle ∧
    ∃ n', (cycle.forM perform).Does ⟨.initial, { nodes := .replicate 4 {} }⟩ () n' ∧
      n'.types.join [.int32, .float64] = (n'.graph.typeOf ⟨1⟩, n'.types) ∧
      ∃ n'', (cycle.reverse.forM perform).Does ⟨.initial, { nodes := .replicate 4 {} }⟩ () n'' ∧
        ∀ id, n''.atomsOf id = n'.atomsOf id := by
  have hknown : ∀ s t, .setType s t ∈ cycle → t.index < Types.initial.size := fun s t ht => by
    simp only [cycle, List.mem_cons, setType.injEq, reduceCtorEq, false_or, List.not_mem_nil,
      or_false] at ht
    rcases ht with ⟨-, rfl⟩ | ⟨-, rfl⟩ <;> decide +kernel
  have hn := Blank.replicate Types.closed_initial Types.canonical_initial 4
  have h : Feeding ⟨.initial, { nodes := .replicate 4 {} }⟩ cycle := by
    refine of_known hn (fun e he => ?_) (by decide) (fun id type deps ht hd => ?_) hknown
    · simp only [cycle, List.mem_cons, List.not_mem_nil, or_false] at he
      rcases he with rfl | rfl | rfl | rfl <;> simp [Feeds, FlowGraph.size]
    · simp [cycle] at ht hd
      rcases ht with ⟨rfl, -⟩ | ⟨rfl, -⟩ <;> simp at hd
  obtain ⟨n', hdo, -, hjoin, hperm⟩ := leastFixpoint hn h
  refine ⟨hn, h, n', hdo, hjoin ⟨1⟩ _ fun t => ?_, hperm _ (List.reverse_perm _).symm hknown⟩
  have h01 : Links cycle ⟨0⟩ ⟨1⟩ := ⟨[⟨0⟩, ⟨2⟩], by simp [cycle], by simp⟩
  have h21 : Links cycle ⟨2⟩ ⟨1⟩ := ⟨[⟨0⟩, ⟨2⟩], by simp [cycle], by simp⟩
  have h32 : Links cycle ⟨3⟩ ⟨2⟩ := ⟨[⟨1⟩, ⟨3⟩], by simp [cycle], by simp⟩
  constructor
  · intro ht
    rcases List.mem_pair.mp ht with rfl | rfl
    · exact ⟨⟨0⟩, by simp [cycle], .single h01⟩
    · exact ⟨⟨3⟩, by simp [cycle], .tail (.single h32) h21⟩
  · rintro ⟨s, hs, -⟩
    simp [cycle] at hs
    rcases hs with ⟨-, rfl⟩ | ⟨-, rfl⟩ <;> simp

end Feeding

end Edit

end TypeFlow

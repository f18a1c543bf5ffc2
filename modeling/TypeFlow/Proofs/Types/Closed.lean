import TypeFlow.Proofs.Types.Growth
import TypeFlow.Types.Ancestry

/-!
# Closed tables

A table is `Closed` when its entries mention only types that it holds. Joins, pointers and
metaclasses of types of the table keep it closed, and answer types of the table.
-/

namespace TypeFlow

theorem mem_insertSorted {id other : TypeId} (ids : List TypeId) :
    other ∈ insertSorted id ids ↔ other = id ∨ other ∈ ids := by
  induction ids with
  | nil => simp [insertSorted]
  | cons a rest ih =>
    rw [insertSorted]
    split
    · simp
    · split
      · subst a; simp
      · simp [ih, or_left_comm]

theorem mem_sortIds {id : TypeId} (ids : List TypeId) : id ∈ sortIds ids ↔ id ∈ ids := by
  induction ids with
  | nil => simp [sortIds]
  | cons a rest ih =>
    rw [List.mem_cons, ← ih]; exact mem_insertSorted _

theorem mem_of_mem_canonicalMembers {id : TypeId} {ids : List TypeId}
    (h : id ∈ canonicalMembers ids) : id ∈ ids := by
  unfold canonicalMembers at h
  simp only at h
  split at h
  · exact (mem_sortIds ids).mp (List.mem_filter.mp h).1
  · exact (mem_sortIds ids).mp h

/-- The types that a kind is made of. -/
def TypeKind.mentions : TypeKind → List TypeId
  | .classType head => head.superclass.toList
  | .applied generic args => generic :: args
  | .union members => members
  | .metaclass subject => [subject]
  | .alias target => [target]
  | .cStruct fields | .cUnion fields => fields.entries.map Prod.snd
  | .program | .moduleType _ | .noReturn | .lib _ | .cEnum _ => []

namespace Types

/-- The builtin types are there, and so are the members of every union. -/
structure MembersHeld (t : Types) : Prop where
  builtins : TypeId.noReturn.index < t.size
  member_lt : ∀ id members m, t.kind id = .union members → m ∈ members → m.index < t.size

namespace MembersHeld
variable {t t' : Types} {id : TypeId} {name : String} {container : Option TypeId} {kind : TypeKind}

theorem atom_lt {m : TypeId} (h : t.MembersHeld) (hid : id.index < t.size) (hm : m ∈ t.atoms id) :
    m.index < t.size := by
  unfold atoms at hm
  split at hm
  · exact h.member_lt id _ m ‹_› hm
  · rwa [List.mem_singleton.mp hm]

theorem canonicalMember_lt {ids : List TypeId} {m : TypeId} (h : t.MembersHeld)
    (hids : ∀ id ∈ ids, id.index < t.size) (hm : m ∈ canonicalMembers (ids.flatMap t.atoms)) :
    m.index < t.size := by
  obtain ⟨id, hid, hm⟩ := List.mem_flatMap.mp (mem_of_mem_canonicalMembers hm)
  exact h.atom_lt (hids id hid) hm

theorem gains (h : t.MembersHeld) (hg : t.Gains name container kind t')
    (hu : ∀ members, kind = .union members → ∀ m ∈ members, m.index < t.size) :
    t'.MembersHeld := by
  refine ⟨Nat.lt_trans h.builtins hg.new_lt, fun id members m hk hm => hg.lt ?_⟩
  rw [hg.kind_eq] at hk
  split at hk
  · exact hu members hk m hm
  · exact h.member_lt id members m hk hm

theorem join {ids : List TypeId} (h : t.MembersHeld) (hids : ∀ id ∈ ids, id.index < t.size) :
    (t.join ids).2.MembersHeld := by
  refine join_preserves h fun _ hg => h.gains hg fun members hk m hm => ?_
  cases hk
  exact h.canonicalMember_lt hids hm

theorem join_lt {ids : List TypeId} (h : t.MembersHeld) (hids : ∀ id ∈ ids, id.index < t.size)
    (hj : (t.join ids).1 = some id) : id.index < (t.join ids).2.size := by
  have hm := fun m => h.canonicalMember_lt (m := m) hids
  unfold Types.join at hj ⊢
  split at hj
  · cases hj
  · rename_i heq
    obtain rfl := Option.some.inj hj
    exact hm _ (by simp [heq])
  · obtain rfl := Option.some.inj hj
    exact (interns_unionOf t _).lt

end MembersHeld

/-- The builtin types are there, and every entry mentions only types that are there. -/
structure Closed (t : Types) : Prop where
  builtins : TypeId.noReturn.index < t.size
  mentions : ∀ id, ∀ m ∈ (t.kind id).mentions, m.index < t.size
  modules : ∀ id, ∀ i ∈ (t.get id).includes, i.module.index < t.size

theorem closed_of_entries {t : Types} (hb : TypeId.noReturn.index < t.size)
    (hm : ∀ e ∈ t.entries.toList, ∀ m ∈ e.kind.mentions, m.index < t.size)
    (hi : ∀ e ∈ t.entries.toList, ∀ i ∈ e.includes, i.module.index < t.size) : t.Closed := by
  have hget : ∀ id : TypeId, t.get id ∈ t.entries.toList ∨ t.get id = default := fun id => by
    rcases Nat.lt_or_ge id.index t.size with h | h
    · exact .inl (get_of_lt h ▸ Array.getElem_mem_toList h)
    · exact .inr (get_of_le h)
  refine ⟨hb, fun id m h => ?_, fun id i h => ?_⟩
  · rcases hget id with he | he
    · exact hm _ he m h
    · rw [kind, he] at h; cases h
  · rcases hget id with he | he
    · exact hi _ he i h
    · rw [he] at h; cases h

theorem closed_initial : initial.Closed :=
  closed_of_entries (by decide +kernel) (by decide +kernel) (by decide +kernel)

namespace Closed
variable {t t' : Types} {id : TypeId} {name : String} {container : Option TypeId} {kind : TypeKind}

theorem gains (h : t.Closed) (hg : t.Gains name container kind t')
    (hk : ∀ m ∈ kind.mentions, m.index < t.size) : t'.Closed := by
  refine ⟨Nat.lt_trans h.builtins hg.new_lt, fun id m hm => hg.lt ?_, fun id i hi => hg.lt ?_⟩
  · rw [hg.kind_eq] at hm
    split at hm
    · exact hk m hm
    · exact h.mentions id m hm
  · rw [hg.includes_eq] at hi
    split at hi
    · cases hi
    · exact h.modules id i hi

theorem apply {generic : TypeId} {args : List TypeId} (h : t.Closed)
    (hids : ∀ id ∈ generic :: args, id.index < t.size) : (t.apply generic args).2.Closed :=
  (interns_apply t generic args).preserves h fun _ hg => h.gains hg hids

theorem pointerTo (h : t.Closed) (hid : id.index < t.size) : (t.pointerTo id).2.Closed := by
  refine h.apply fun m hm => ?_
  rcases List.mem_cons.mp hm with rfl | hm
  · exact Nat.lt_trans (by decide) h.builtins
  · rwa [List.mem_singleton.mp hm]

theorem metaclassOf (h : t.Closed) (hid : id.index < t.size) : (t.metaclassOf id).2.Closed :=
  metaclassOf_preserves h fun _ hg => h.gains hg fun m hm => by rwa [List.mem_singleton.mp hm]

theorem superclass_lt {parent : TypeId} (h : t.Closed) (hs : t.superclass id = some parent) :
    parent.index < t.size := by
  have hclass : ∀ {id : TypeId} {head : ClassHead}, t.kind id = .classType head →
      head.superclass = some parent → parent.index < t.size := fun {id _} hk hs =>
    h.mentions id parent (by simp [hk, TypeKind.mentions, hs])
  unfold superclass at hs
  split at hs
  · exact hclass ‹_› hs
  · split at hs
    · exact hclass ‹_› hs
    · cases hs
  · cases hs

theorem inclusion_lt {i : Inclusion} (h : t.Closed) (hi : i ∈ t.inclusions id) :
    i.module.index < t.size := by
  unfold inclusions at hi
  split at hi
  · exact h.modules _ i hi
  · exact h.modules _ i hi

theorem generic_lt {generic : TypeId} {args : List TypeId} (h : t.Closed)
    (hk : t.kind id = .applied generic args) : generic.index < t.size :=
  h.mentions id generic (by simp [hk, TypeKind.mentions])

theorem member_lt {members : List TypeId} {m : TypeId} (h : t.Closed)
    (hk : t.kind id = .union members) (hm : m ∈ members) : m.index < t.size :=
  h.mentions id m (by simpa [hk, TypeKind.mentions] using hm)

theorem membersHeld (h : t.Closed) : t.MembersHeld := ⟨h.builtins, fun _ _ _ => h.member_lt⟩

theorem join {ids : List TypeId} (h : t.Closed) (hids : ∀ id ∈ ids, id.index < t.size) :
    (t.join ids).2.Closed :=
  join_preserves h fun _ hg => h.gains hg fun _ hm => h.membersHeld.canonicalMember_lt hids hm

theorem join_lt {ids : List TypeId} (h : t.Closed) (hids : ∀ id ∈ ids, id.index < t.size)
    (hj : (t.join ids).1 = some id) : id.index < (t.join ids).2.size :=
  h.membersHeld.join_lt hids hj

end Closed

end Types

end TypeFlow

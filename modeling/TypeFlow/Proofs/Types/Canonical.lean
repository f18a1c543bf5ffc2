import Mathlib.Data.List.Sort
import TypeFlow.Proofs.Types.Closed

/-!
# Canonical tables

In a `Canonical` table every union has two members or more, none of which is a union or `NoReturn`,
and is remembered by its members, so that there is one union for each set of them. Then a type is
known by its atoms (`Canonical.eq_of_atoms`), and a join by the atoms of the types that are joined:
it has them all, apart from `NoReturn` beside anything else (`Canonical.mem_atoms_join`).
-/

namespace TypeFlow

/-- The identifiers increase, so that each is there once. -/
def Increasing (ids : List TypeId) : Prop := ids.Pairwise fun a b => a.index < b.index

theorem Increasing.nodup {ids : List TypeId} (h : Increasing ids) : ids.Nodup :=
  List.Pairwise.imp (fun {_ _} hlt heq => Nat.ne_of_lt hlt (congrArg TypeId.index heq)) h

theorem Increasing.eq_of_mem_iff {ids ids' : List TypeId} (h : Increasing ids)
    (h' : Increasing ids') (hmem : ∀ id, id ∈ ids ↔ id ∈ ids') : ids = ids' :=
  haveI : Std.Antisymm fun a b : TypeId => a.index < b.index :=
    ⟨fun _ _ h h' => absurd (Nat.lt_trans h h') (Nat.lt_irrefl _)⟩
  haveI : Std.Irrefl fun a b : TypeId => a.index < b.index := ⟨fun _ => Nat.lt_irrefl _⟩
  List.Pairwise.eq_of_mem_iff h h' hmem

theorem increasing_insertSorted {id : TypeId} {ids : List TypeId} (h : Increasing ids) :
    Increasing (insertSorted id ids) := by
  induction ids with
  | nil => exact List.pairwise_singleton ..
  | cons a rest ih =>
    obtain ⟨ha, hrest⟩ := List.pairwise_cons.mp h
    rw [insertSorted]
    split
    · rename_i hlt
      refine List.pairwise_cons.mpr ⟨fun b hb => ?_, h⟩
      rcases List.mem_cons.mp hb with rfl | hb
      · exact hlt
      · exact Nat.lt_trans hlt (ha b hb)
    · split
      · exact h
      · rename_i hge hne
        have hlt : a.index < id.index := by
          refine Nat.lt_of_le_of_ne (Nat.le_of_not_lt hge) fun heq => hne ?_
          cases a; cases id; exact congrArg TypeId.mk heq.symm
        refine List.pairwise_cons.mpr ⟨fun b hb => ?_, ih hrest⟩
        rcases (mem_insertSorted rest).mp hb with rfl | hb
        · exact hlt
        · exact ha b hb

theorem increasing_sortIds (ids : List TypeId) : Increasing (sortIds ids) := by
  induction ids with
  | nil => exact List.Pairwise.nil
  | cons a rest ih => exact increasing_insertSorted ih

theorem increasing_canonicalMembers (ids : List TypeId) : Increasing (canonicalMembers ids) := by
  unfold canonicalMembers
  simp only
  split
  · exact (increasing_sortIds ids).filter _
  · exact increasing_sortIds ids

/-- `NoReturn` stays only where there is nothing else. -/
theorem mem_canonicalMembers {id : TypeId} {ids : List TypeId} :
    id ∈ canonicalMembers ids ↔ id ∈ ids ∧ (id ≠ .noReturn ∨ ∀ other ∈ ids, other = .noReturn) := by
  have hnodup := (increasing_sortIds ids).nodup
  simp only [← mem_sortIds ids]
  unfold canonicalMembers
  simp only
  revert hnodup
  rcases sortIds ids with _ | ⟨a, _ | ⟨b, rest⟩⟩
  · simp
  · simp only [List.length_singleton, Nat.lt_irrefl, if_false, List.mem_singleton, forall_eq]
    intro _
    exact ⟨fun h => ⟨h, h ▸ (Decidable.em _).symm⟩, fun h => h.1⟩
  · intro hnodup
    have hne : ¬ ∀ other ∈ a :: b :: rest, other = TypeId.noReturn := fun h =>
      (List.nodup_cons.mp hnodup).1 (by rw [h a (by simp), h b (by simp)]; simp)
    rw [if_pos (by simp), List.mem_filter, decide_eq_true_iff]
    exact and_congr_right fun _ => (or_iff_left hne).symm

theorem canonicalMembers_eq_iff {ids ids' : List TypeId} :
    canonicalMembers ids = canonicalMembers ids' ↔ ∀ id, id ∈ canonicalMembers ids ↔
      id ∈ canonicalMembers ids' :=
  ⟨fun h _ => h ▸ Iff.rfl, (increasing_canonicalMembers ids).eq_of_mem_iff
    (increasing_canonicalMembers ids')⟩

/-- Lists may be put in canonical form one by one before they are taken together. -/
theorem canonicalMembers_flatMap (idss : List (List TypeId)) :
    canonicalMembers (idss.flatMap canonicalMembers) = canonicalMembers idss.flatten := by
  refine canonicalMembers_eq_iff.mpr fun id => ?_
  rw [mem_canonicalMembers, mem_canonicalMembers]
  simp only [List.mem_flatMap, List.mem_flatten]
  constructor
  · rintro ⟨⟨ids, hids, hid⟩, hall⟩
    refine ⟨⟨ids, hids, mem_of_mem_canonicalMembers hid⟩, hall.imp_right ?_⟩
    rintro hall other ⟨ids', hids', hother⟩
    by_contra hne
    exact hne (hall other ⟨ids', hids', mem_canonicalMembers.mpr ⟨hother, .inl hne⟩⟩)
  · rintro ⟨⟨ids, hids, hid⟩, hall⟩
    refine ⟨⟨ids, hids, mem_canonicalMembers.mpr ⟨hid, hall.imp_right ?_⟩⟩, hall.imp_right ?_⟩
    · exact fun hall other hother => hall other ⟨ids, hids, hother⟩
    · rintro hall other ⟨ids', hids', hother⟩
      exact hall other ⟨ids', hids', mem_of_mem_canonicalMembers hother⟩

def TypeKind.isUnion : TypeKind → Bool
  | .union _ => true
  | _ => false

namespace Types

/-- Unions are made of two atoms or more other than `NoReturn`, and each is found by its members. -/
structure Canonical (t : Types) : Prop where
  noReturn : t.kind .noReturn = .noReturn
  increasing : ∀ id members, t.kind id = .union members → Increasing members
  two_le : ∀ id members, t.kind id = .union members → 2 ≤ members.length
  noReturn_notMem : ∀ id members, t.kind id = .union members → .noReturn ∉ members
  flat : ∀ id members, t.kind id = .union members → ∀ m ∈ members, ∀ ms, t.kind m ≠ .union ms
  cached : ∀ id members, t.kind id = .union members → t.unions.get? members = some id

theorem canonical_of_entries {t : Types} (hb : t.kind .noReturn = .noReturn)
    (hu : ∀ e ∈ t.entries.toList, e.kind.isUnion = false) : t.Canonical := by
  have hno : ∀ id members, t.kind id ≠ .union members := fun id members hk => by
    rcases Nat.lt_or_ge id.index t.size with h | h
    · rw [kind, get_of_lt h] at hk
      have := hu _ (Array.getElem_mem_toList h)
      rw [hk] at this; cases this
    · rw [kind_of_le h] at hk; cases hk
  exact ⟨hb, fun id _ hk => absurd hk (hno id _), fun id _ hk => absurd hk (hno id _),
    fun id _ hk => absurd hk (hno id _), fun id _ hk => absurd hk (hno id _),
    fun id _ hk => absurd hk (hno id _)⟩

theorem canonical_initial : initial.Canonical :=
  canonical_of_entries (by decide +kernel) (by decide +kernel)

variable {t t' : Types} {id id' : TypeId} {ids : List TypeId}

theorem atoms_of_union {members : List TypeId} (h : t.kind id = .union members) :
    t.atoms id = members := by
  rw [atoms, h]

theorem atoms_of_not_union (h : ∀ members, t.kind id ≠ .union members) : t.atoms id = [id] := by
  unfold atoms; split
  · exact absurd ‹_› (h _)
  · rfl

theorem atoms_cases (t : Types) (id : TypeId) :
    t.kind id = .union (t.atoms id) ∨ (∀ members, t.kind id ≠ .union members) ∧
      t.atoms id = [id] := by
  by_cases h : ∃ members, t.kind id = .union members
  · obtain ⟨members, h⟩ := h
    exact .inl (by rw [atoms_of_union h, h])
  · have h := not_exists.mp h
    exact .inr ⟨h, atoms_of_not_union h⟩

/-- A join has each of its atoms as a member. -/
theorem exists_join {a : TypeId} (hmem : a ∈ ids) (hatoms : t.atoms a = [a]) (hne : a ≠ .noReturn) :
    ∃ join, (t.join ids).1 = some join ∧ a ∈ (t.join ids).2.atoms join := by
  have ha : a ∈ canonicalMembers (ids.flatMap t.atoms) :=
    mem_canonicalMembers.mpr ⟨List.mem_flatMap.mpr ⟨a, hmem, by simp [hatoms]⟩, .inl hne⟩
  unfold Types.join
  split
  · rename_i heq; rw [heq] at ha; cases ha
  · rename_i b heq
    rw [heq, List.mem_singleton] at ha
    subst ha
    exact ⟨a, rfl, by simp [hatoms]⟩
  · exact ⟨_, rfl, by rwa [atoms_of_union (interns_unionOf t _).kind_eq]⟩

namespace Canonical

theorem unique {members : List TypeId} (h : t.Canonical) (hk : t.kind id = .union members)
    (hk' : t.kind id' = .union members) : id = id' :=
  Option.some.inj ((h.cached id members hk).symm.trans (h.cached id' members hk'))

/-- The unions that are remembered are those that there are. -/
theorem unions_iff {members : List TypeId} (h : t.Canonical) :
    t.unions.get? members = some id ↔ t.kind id = .union members :=
  ⟨fun hm => (known?_eq_some (show t.known? (.union members) = some id from hm)).2,
    h.cached id members⟩

theorem increasing_atoms (h : t.Canonical) (id : TypeId) : Increasing (t.atoms id) := by
  rcases t.atoms_cases id with hk | ⟨-, hk⟩
  · exact h.increasing id _ hk
  · rw [hk]; exact List.pairwise_singleton ..

theorem atoms_ne_nil (h : t.Canonical) (id : TypeId) : t.atoms id ≠ [] := by
  rcases t.atoms_cases id with hk | ⟨-, hk⟩
  · intro hnil
    have := h.two_le id _ hk
    rw [hnil] at this; simp at this
  · simp [hk]

theorem not_union_of_mem_atoms {a : TypeId} (h : t.Canonical) (ha : a ∈ t.atoms id)
    (members : List TypeId) : t.kind a ≠ .union members := by
  rcases t.atoms_cases id with hk | ⟨hne, hk⟩
  · exact h.flat id _ hk a ha members
  · rw [hk, List.mem_singleton] at ha; exact ha ▸ hne members

theorem atoms_noReturn (h : t.Canonical) : t.atoms .noReturn = [.noReturn] :=
  atoms_of_not_union fun members hk => by rw [h.noReturn] at hk; cases hk

theorem eq_noReturn_of_mem (h : t.Canonical) (ha : .noReturn ∈ t.atoms id) : id = .noReturn := by
  rcases t.atoms_cases id with hk | ⟨-, hk⟩
  · exact absurd ha (h.noReturn_notMem id _ hk)
  · rw [hk, List.mem_singleton] at ha; exact ha.symm

/-- A type is known by its atoms. -/
theorem eq_of_atoms (h : t.Canonical) (heq : t.atoms id = t.atoms id') : id = id' := by
  rcases t.atoms_cases id with hk | ⟨-, hk⟩ <;> rcases t.atoms_cases id' with hk' | ⟨-, hk'⟩
  · exact h.unique hk (heq ▸ hk')
  · have := h.two_le id _ hk
    rw [heq, hk'] at this; simp at this
  · have := h.two_le id' _ hk'
    rw [← heq, hk] at this; simp at this
  · rw [hk, hk'] at heq; exact List.singleton_inj.mp heq

theorem canonicalMembers_atoms (h : t.Canonical) (id : TypeId) :
    canonicalMembers (t.atoms id) = t.atoms id := by
  refine (increasing_canonicalMembers _).eq_of_mem_iff (h.increasing_atoms id) fun a => ?_
  refine mem_canonicalMembers.trans (and_iff_left_of_imp fun ha => ?_)
  by_cases hn : a = .noReturn
  · have := h.eq_noReturn_of_mem (hn ▸ ha)
    subst this
    exact .inr fun b hb => by rwa [h.atoms_noReturn, List.mem_singleton] at hb
  · exact .inl hn

/-- A type that has the canonical members of the joined types is their join. -/
theorem join_eq (h : t.Canonical) (heq : canonicalMembers (ids.flatMap t.atoms) = t.atoms id) :
    t.join ids = (some id, t) := by
  unfold join
  rw [heq]
  rcases t.atoms_cases id with hk | ⟨-, hk⟩
  · have hlen := h.two_le id _ hk
    split
    · rename_i hnil; simp [hnil] at hlen
    · rename_i hone; simp [hone] at hlen
    · rw [unionOf_of_known (h.cached id _ hk)]
  · rw [hk]

theorem flatMap_atoms_ne_nil (h : t.Canonical) (hids : ids ≠ []) : ids.flatMap t.atoms ≠ [] := by
  obtain ⟨id, rest, rfl⟩ := List.exists_cons_of_ne_nil hids
  rw [List.flatMap_cons]
  exact List.append_ne_nil_of_left_ne_nil (h.atoms_ne_nil id) _

theorem canonicalMembers_ne_nil {as : List TypeId} (h : as ≠ []) : canonicalMembers as ≠ [] := by
  by_cases hn : ∃ a ∈ as, a ≠ TypeId.noReturn
  · obtain ⟨a, ha, hn⟩ := hn
    exact List.ne_nil_of_mem (mem_canonicalMembers.mpr ⟨ha, .inl hn⟩)
  · obtain ⟨a, rest, rfl⟩ := List.exists_cons_of_ne_nil h
    refine List.ne_nil_of_mem (mem_canonicalMembers.mpr ⟨List.mem_cons_self, .inr fun b hb => ?_⟩)
    exact Decidable.not_not.mp fun hne => hn ⟨b, hb, hne⟩

theorem atom_not_union {a : TypeId} (h : t.Canonical)
    (ha : a ∈ canonicalMembers (ids.flatMap t.atoms)) (members : List TypeId) :
    t.kind a ≠ .union members := by
  obtain ⟨id, -, ha⟩ := List.mem_flatMap.mp (mem_of_mem_canonicalMembers ha)
  exact h.not_union_of_mem_atoms ha members

/-- What is added is no union, or one of atoms that is found by its members from then on. -/
theorem gains {name : String} {container : Option TypeId} {kind : TypeKind} (h : t.Canonical)
    (hc : t.MembersHeld) (hg : t.Gains name container kind t')
    (hu : ∀ members, kind = .union members → Increasing members ∧ 2 ≤ members.length ∧
      .noReturn ∉ members ∧ (∀ m ∈ members, m.index < t.size ∧ ∀ ms, t.kind m ≠ .union ms) ∧
      t'.unions.get? members = some ⟨t.size⟩) : t'.Canonical := by
  have hcases : ∀ {id members}, t'.kind id = .union members →
      id = ⟨t.size⟩ ∧ kind = .union members ∨ t.kind id = .union members := by
    intro id members hk
    rw [hg.kind_eq] at hk
    split at hk
    · exact .inl ⟨by cases id; exact congrArg TypeId.mk ‹_›, hk⟩
    · exact .inr hk
  refine ⟨?_, fun id members hk => ?_, fun id members hk => ?_, fun id members hk => ?_,
    fun id members hk m hm ms => ?_, fun id members hk => ?_⟩
  · rw [hg.kind_of_lt hc.builtins, h.noReturn]
  · exact (hcases hk).elim (fun hk => (hu members hk.2).1) fun hk => h.increasing id _ hk
  · exact (hcases hk).elim (fun hk => (hu members hk.2).2.1) fun hk => h.two_le id _ hk
  · exact (hcases hk).elim (fun hk => (hu members hk.2).2.2.1) fun hk => h.noReturn_notMem id _ hk
  · rcases hcases hk with ⟨-, hk⟩ | hk
    · have hold := (hu members hk).2.2.2.1 m hm
      rw [hg.kind_of_lt hold.1]; exact hold.2 ms
    · rw [hg.kind_of_lt (hc.member_lt _ _ m hk hm)]; exact h.flat id _ hk m hm ms
  · rcases hcases hk with ⟨rfl, hnew⟩ | hk
    · exact (hu members hnew).2.2.2.2
    · exact hg.known (.union members) id (h.cached id members hk)

theorem gains_of_not_union {name : String} {container : Option TypeId} {kind : TypeKind}
    (h : t.Canonical) (hc : t.MembersHeld) (hg : t.Gains name container kind t')
    (hk : kind.isUnion = false) : t'.Canonical :=
  h.gains hc hg fun members hu => by rw [hu] at hk; cases hk

theorem join (h : t.Canonical) (hc : t.MembersHeld) (hids : ∀ id ∈ ids, id.index < t.size) :
    (t.join ids).2.Canonical := by
  unfold Types.join
  split
  · exact h
  · exact h
  · rename_i hnil hone
    have hi := interns_unionOf t (canonicalMembers (ids.flatMap t.atoms))
    have htwo : 2 ≤ (canonicalMembers (ids.flatMap t.atoms)).length := by
      generalize canonicalMembers _ = ms at hnil hone
      rcases ms with _ | ⟨a, _ | ⟨b, rest⟩⟩
      · exact absurd rfl hnil
      · exact absurd rfl (hone a)
      · simp
    have hnot : TypeId.noReturn ∉ canonicalMembers (ids.flatMap t.atoms) := fun hn => by
      rcases (mem_canonicalMembers.mp hn).2 with hne | hall
      · exact hne rfl
      · refine hone .noReturn ((increasing_canonicalMembers _).eq_of_mem_iff
          (List.pairwise_singleton ..) fun a => ⟨fun ha => ?_, fun ha => ?_⟩)
        · exact List.mem_singleton.mpr (hall a (mem_of_mem_canonicalMembers ha))
        · rwa [List.mem_singleton.mp ha]
    revert hi
    generalize t.unionOf _ = r
    intro hi
    cases hi with
    | known => exact h
    | added _ hg hfound =>
      refine h.gains hc hg fun ms hms => ?_
      cases hms
      exact ⟨increasing_canonicalMembers _, htwo, hnot,
        fun m hm => ⟨hc.canonicalMember_lt hids hm, h.atom_not_union hm⟩, hfound nofun⟩

theorem join_eq_none_iff (h : t.Canonical) : (t.join ids).1 = none ↔ ids = [] := by
  constructor
  · intro hj
    refine Decidable.not_not.mp fun hids => ?_
    have := canonicalMembers_ne_nil (h.flatMap_atoms_ne_nil hids)
    unfold Types.join at hj
    split at hj
    · exact this ‹_›
    · cases hj
    · cases hj
  · rintro rfl; rfl

/-- The join of types has the canonical members of theirs. -/
theorem atoms_join {join : TypeId} (h : t.Canonical) (hj : (t.join ids).1 = some join) :
    (t.join ids).2.atoms join = canonicalMembers (ids.flatMap t.atoms) := by
  revert hj
  unfold Types.join
  split
  · exact nofun
  · rename_i a heq
    intro hj; cases hj
    have ha : join ∈ canonicalMembers (ids.flatMap t.atoms) := by simp [heq]
    rw [heq, atoms_of_not_union (h.atom_not_union ha)]
  · intro hj; cases hj
    exact atoms_of_union (interns_unionOf t _).kind_eq

theorem mem_atoms_join {join a : TypeId} (h : t.Canonical) (hj : (t.join ids).1 = some join)
    (ha : a ≠ .noReturn) : a ∈ (t.join ids).2.atoms join ↔ ∃ id ∈ ids, a ∈ t.atoms id := by
  rw [h.atoms_join hj, mem_canonicalMembers, List.mem_flatMap]
  exact and_iff_left (.inl ha)

end Canonical

end Types

end TypeFlow

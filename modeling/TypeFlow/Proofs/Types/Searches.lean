import Mathlib.Data.Finset.Card
import Mathlib.Data.Finset.Range
import TypeFlow.Proofs.Types.Founded

/-!
# The search for methods

From a type the search goes on at its sources. What it comes to is `Below` the type: a metaclass of
an older type, an older class, or a module that is included. If no module includes itself, nothing
is below itself, so that the search meets no type twice and the size of the table is enough room for
it (`findIn_eq`).
-/

namespace TypeFlow.Types

theorem findSome?_congr {α β : Type} {f g : α → Option β} {l : List α} (h : ∀ a ∈ l, f a = g a) :
    l.findSome? f = l.findSome? g := by
  induction l with
  | nil => rfl
  | cons a l ih =>
    rw [List.findSome?_cons, List.findSome?_cons, h a (by simp), ih fun b hb =>
      h b (List.mem_cons_of_mem _ hb)]

variable {t : Types} {a b c : TypeId}

/-- How a type that a search comes to lies to the one it started from. -/
inductive Below (t : Types) (a b : TypeId) : Prop where
  | metaclass {subject older : TypeId} : t.kind a = .metaclass subject →
      t.kind b = .metaclass older →
      older.index < subject.index → Below t a b
  | older : t.isMetaclass a = false → t.isModule a = false → (t.kind b).isInheritable = true →
      b.index < a.index → Below t a b
  | enters : t.isModule a = false → t.isModule b = true → Below t a b
  | module : t.isModule a = true → t.includes a b = true → Below t a b

/-- A type of which classes inherit is neither a module nor a metaclass. -/
theorem isModule_of_isInheritable (h : (t.kind a).isInheritable = true) : t.isModule a = false := by
  unfold isModule
  split
  · rename_i hk
    rw [hk] at h; cases h
  · rfl

theorem kind_ne_metaclass_of_isInheritable (h : (t.kind a).isInheritable = true)
    (subject : TypeId) : t.kind a ≠ .metaclass subject := fun hk => by rw [hk] at h; cases h

theorem kind_ne_metaclass_of_isModule (h : t.isModule a = true) (subject : TypeId) :
    t.kind a ≠ .metaclass subject := fun hk => by rw [isModule, hk] at h; cases h

theorem metaclass?_eq_some (h : t.metaclass? a = some b) :
    b.index < t.size ∧ t.kind b = .metaclass a :=
  known?_eq_some (show t.known? (.metaclass a) = some b from h)

namespace Founded

theorem isModule_of_includes (hf : t.Founded) (h : t.includes a b = true) : t.isModule b = true :=
  hf.hierarchy.isModule_of_includes h

theorem below_trans (hf : t.Founded) (hab : t.Below a b) (hbc : t.Below b c) : t.Below a c := by
  cases hab with
  | metaclass hka hkb hlt =>
    cases hbc with
    | metaclass hkb' hkc hlt' =>
      obtain rfl := TypeKind.metaclass.inj (hkb.symm.trans hkb')
      exact .metaclass hka hkc (Nat.lt_trans hlt' hlt)
    | older hb => rw [isMetaclass, hkb] at hb; cases hb
    | enters _ hc =>
      exact .enters (Bool.eq_false_iff.mpr fun h => kind_ne_metaclass_of_isModule h _ hka) hc
    | module hb => exact absurd hkb (kind_ne_metaclass_of_isModule hb _)
  | older hmeta hmodule hb hlt =>
    cases hbc with
    | metaclass hkb => exact absurd hkb (kind_ne_metaclass_of_isInheritable hb _)
    | older _ _ hc hlt' => exact .older hmeta hmodule hc (Nat.lt_trans hlt' hlt)
    | enters _ hc => exact .enters hmodule hc
    | module hb' => rw [isModule_of_isInheritable hb] at hb'; cases hb'
  | enters ha hb =>
    cases hbc with
    | metaclass hkb => exact absurd hkb (kind_ne_metaclass_of_isModule hb _)
    | older _ hb' => rw [hb] at hb'; cases hb'
    | enters hb' => rw [hb] at hb'; cases hb'
    | module _ hi => exact .enters ha (hf.isModule_of_includes hi)
  | module ha hi =>
    have hb := hf.isModule_of_includes hi
    cases hbc with
    | metaclass hkb => exact absurd hkb (kind_ne_metaclass_of_isModule hb _)
    | older _ hb' => rw [hb] at hb'; cases hb'
    | enters hb' => rw [hb] at hb'; cases hb'
    | module _ hi' => exact .module ha (includes_trans hi hi')

theorem below_of_mem_sources (hf : t.Founded) (h : b ∈ t.methodSources a) : t.Below a b := by
  unfold methodSources at h
  split at h
  · rename_i generic args hk
    obtain rfl := List.mem_singleton.mp h
    obtain ⟨head, hclass⟩ := hf.hierarchy.generic a b args hk
    refine .older ?_ ?_ (by rw [hclass]; rfl) (hf.aged.generic_lt hk)
    · rw [isMetaclass, hk]
    · rw [isModule, hk]
  · rename_i subject hk
    rcases List.mem_append.mp h with h | h
    · split at h
      · rename_i hsubject
        have hb := (metaclass?_eq_some (Option.mem_toList.mp h)).2
        exact .metaclass hk hb (hf.aged.generic_lt hsubject)
      · cases h
    · obtain ⟨parent, hs, hb⟩ := Option.bind_eq_some_iff.mp (Option.mem_toList.mp h)
      exact .metaclass hk (metaclass?_eq_some hb).2 (hf.aged.superclass_lt hs)
  · rename_i happlied hmeta
    rcases List.mem_append.mp h with h | h
    · obtain ⟨i, hi, rfl⟩ := List.mem_map.mp h
      have hi := List.mem_reverse.mp hi
      cases ha : t.isModule a with
      | false => exact .enters ha (hf.hierarchy.modules a i hi)
      | true =>
        refine .module ha (includes_iff.mpr ⟨i, ?_, .inl rfl⟩)
        unfold inclusions
        split
        · exact absurd ‹_› (happlied _ _)
        · exact hi
    · have hs := Option.mem_toList.mp h
      refine .older ?_ ?_ (hf.hierarchy.superclass_isInheritable hs) (hf.aged.superclass_lt hs)
      · unfold isMetaclass
        split
        · exact absurd ‹_› (hmeta _)
        · rfl
      · unfold isModule
        split
        · rename_i hk
          simp only [superclass, hk] at hs
          cases hs
        · rfl

theorem source_lt (hf : t.Founded) (h : b ∈ t.methodSources a) : b.index < t.size := by
  unfold methodSources at h
  split at h
  · rename_i hk
    obtain rfl := List.mem_singleton.mp h
    exact hf.whole.toClosed.generic_lt hk
  · rcases List.mem_append.mp h with h | h
    · split at h
      · exact (metaclass?_eq_some (Option.mem_toList.mp h)).1
      · cases h
    · obtain ⟨parent, -, hb⟩ := Option.bind_eq_some_iff.mp (Option.mem_toList.mp h)
      exact (metaclass?_eq_some hb).1
  · rcases List.mem_append.mp h with h | h
    · obtain ⟨i, hi, rfl⟩ := List.mem_map.mp h
      exact (hf.whole.within a).modules i (List.mem_reverse.mp hi)
    · exact hf.whole.toClosed.superclass_lt (Option.mem_toList.mp h)

end Founded

/-- A founded table in which no module includes itself. -/
structure Searchable (t : Types) : Prop extends t.Founded where
  acyclic : ∀ id, t.includes id id = false

/-- The types that a search comes to. -/
abbrev Searches (t : Types) : TypeId → TypeId → Prop :=
  Relation.ReflTransGen fun a b => b ∈ t.methodSources a

open Classical in
/-- All that a search from the type comes to. -/
noncomputable def searched (t : Types) (a : TypeId) : Finset Nat :=
  (Finset.range t.size).filter fun i => t.Searches a ⟨i⟩

theorem mem_searched {i : Nat} : i ∈ t.searched a ↔ i < t.size ∧ t.Searches a ⟨i⟩ := by
  simp [searched]

theorem card_searched_le (t : Types) (a : TypeId) : (t.searched a).card ≤ t.size :=
  (Finset.card_le_card fun _ hi => Finset.mem_range.mpr (mem_searched.mp hi).1).trans_eq
    (Finset.card_range _)

namespace Searchable

theorem not_below_self (hs : t.Searchable) : ¬ t.Below a a := fun h => by
  cases h with
  | metaclass hk hk' hlt =>
    obtain rfl := TypeKind.metaclass.inj (hk.symm.trans hk')
    exact Nat.lt_irrefl _ hlt
  | older _ _ _ hlt => exact Nat.lt_irrefl _ hlt
  | enters h h' => rw [h] at h'; cases h'
  | module _ hi => rw [hs.acyclic a] at hi; cases hi

theorem below_of_searches (hs : t.Searchable) (h : b ∈ t.methodSources a) (hbc : t.Searches b c) :
    t.Below a c := by
  have hab := hs.toFounded.below_of_mem_sources h
  induction hbc with
  | refl => exact hab
  | tail _ hstep ih => exact hs.toFounded.below_trans ih (hs.toFounded.below_of_mem_sources hstep)

/-- A source has less to search than the type itself. -/
theorem card_searched_lt (hs : t.Searchable) (ha : a.index < t.size) (h : b ∈ t.methodSources a) :
    (t.searched b).card < (t.searched a).card := by
  refine Finset.card_lt_card
    ((Finset.ssubset_iff_of_subset fun i hi => ?_).mpr ⟨a.index, ?_, fun hmem => ?_⟩)
  · have hi := mem_searched.mp hi
    exact mem_searched.mpr ⟨hi.1, .head h hi.2⟩
  · exact mem_searched.mpr ⟨ha, .refl⟩
  · exact hs.not_below_self (hs.below_of_searches h (mem_searched.mp hmem).2)

variable (methods : TypeEntry → OrderedMap MethodKey ExprId) (key : MethodKey)

theorem methodWithin_eq (hs : t.Searchable) {room room' : Nat} (ha : a.index < t.size)
    (hroom : (t.searched a).card ≤ room) (hroom' : (t.searched a).card ≤ room') :
    t.methodWithin methods key room a = t.methodWithin methods key room' a := by
  have hpos : 0 < (t.searched a).card := Finset.card_pos.mpr ⟨a.index, mem_searched.mpr ⟨ha, .refl⟩⟩
  induction room generalizing a room' with
  | zero => omega
  | succ room ih =>
    obtain ⟨room', rfl⟩ :=
      Nat.exists_eq_succ_of_ne_zero (Nat.ne_of_gt (Nat.lt_of_lt_of_le hpos hroom'))
    have hnext : ∀ b ∈ t.methodSources a,
        t.methodWithin methods key room b = t.methodWithin methods key room' b := fun b hb => by
      have hlt := hs.card_searched_lt ha hb
      have hb' := hs.toFounded.source_lt hb
      exact ih hb' (by omega) (by omega)
        (Finset.card_pos.mpr ⟨b.index, mem_searched.mpr ⟨hb', .refl⟩⟩)
    rw [methodWithin, methodWithin]
    split
    · rfl
    · exact findSome?_congr hnext

/-- A search tries the type itself, then the search from each of its sources. -/
theorem findIn_eq (hs : t.Searchable) (ha : a.index < t.size) : t.findIn methods a key =
    ((methods (t.get a)).get? key).or ((t.methodSources a).findSome? (t.findIn methods · key)) := by
  obtain ⟨room, hroom⟩ := Nat.exists_eq_succ_of_ne_zero (Nat.ne_of_gt (Nat.zero_lt_of_lt ha))
  have hnext : ∀ b ∈ t.methodSources a,
      t.methodWithin methods key room b = t.findIn methods b key := fun b hb => by
    have hlt := hs.card_searched_lt ha hb
    have hle := t.card_searched_le a
    exact hs.methodWithin_eq methods key (hs.toFounded.source_lt hb) (by omega)
      (t.card_searched_le b)
  rw [findIn, hroom, methodWithin]
  cases (methods (t.get a)).get? key with
  | some definition => rfl
  | none => exact findSome?_congr hnext

end Searchable

end TypeFlow.Types

import Mathlib.Data.Finset.Card
import Mathlib.Data.Finset.Range
import TypeFlow.Guard.Narrowing
import TypeFlow.Proofs.Types.Closed

/-!
# Subtyping and narrowing in a growing table

In a closed table, what is a subtype of what stays the same while the table grows: the searches
through superclasses and modules are bounded by the size of the table, and more room finds nothing
more, because a search over `n` types has found all that it ever will after `n` steps
(`steps_saturate`). So narrowings settle.
-/

namespace TypeFlow

namespace Types

/-! ### Bounded searches -/

/-- A search that only ever finds more, and of which each step follows from the one before, has
found everything among `n` candidates after `n` steps. -/
theorem steps_saturate {n : Nat} {found : Nat → TypeId → Bool}
    (mono : ∀ k id, found k id = true → found (k + 1) id = true)
    (step : ∀ j k, found j = found k → found (j + 1) = found (k + 1))
    (outside : ∀ j k id, n ≤ id.index → found j id = found k id) {k : Nat} (hk : n ≤ k) :
    found k = found n := by
  let hits (k : Nat) : Finset Nat := (Finset.range n).filter fun i => found k ⟨i⟩ = true
  have hsub : ∀ k, hits k ⊆ hits (k + 1) := fun k i hi => by
    simp only [hits, Finset.mem_filter] at hi ⊢
    exact ⟨hi.1, mono k _ hi.2⟩
  have hsame : ∀ k, hits k = hits (k + 1) → found (k + 1) = found k := fun k h => by
    funext id
    by_cases hid : n ≤ id.index
    · exact outside _ _ id hid
    · have := Finset.ext_iff.mp h id.index
      simp only [hits, Finset.mem_filter, Finset.mem_range] at this
      rw [Bool.eq_iff_iff]
      exact ⟨fun h => (this.mpr ⟨by omega, h⟩).2, mono k id⟩
  obtain ⟨j, hj, hstop⟩ : ∃ j ≤ n, hits j = hits (j + 1) := by
    by_contra hnone
    -- while it goes on, every step adds a candidate
    have hcard : ∀ k, k ≤ n + 1 → k ≤ (hits k).card := by
      intro k
      induction k with
      | zero => intro _; exact Nat.zero_le _
      | succ k ih =>
        intro hle
        have hne : hits k ≠ hits (k + 1) := fun h => hnone ⟨k, by omega, h⟩
        have := Finset.card_lt_card ((hsub k).ssubset_of_ne hne)
        have := ih (by omega)
        omega
    have h1 := hcard (n + 1) (Nat.le_refl _)
    have h2 : (hits (n + 1)).card ≤ n := by
      simpa using Finset.card_le_card
        (Finset.filter_subset (fun i => found (n + 1) ⟨i⟩ = true) (Finset.range n))
    omega
  have hfrom : ∀ k, j ≤ k → found k = found j := fun k hjk => by
    induction k, hjk using Nat.le_induction with
    | base => rfl
    | succ k _ ih => exact (step k j ih).trans (hsame j hstop)
  rw [hfrom k (Nat.le_trans hj hk), hfrom n hj]

variable {t t' : Types} {id of : TypeId}

theorem superclass_of_le (h : t.size ≤ id.index) : t.superclass id = none := by
  unfold superclass; rw [kind_of_le h]

theorem inclusions_of_le (h : t.size ≤ id.index) : t.inclusions id = [] := by
  unfold inclusions; rw [kind_of_le h, get_of_le h]; rfl

theorem includesWithin_mono {module : TypeId} (k : Nat) (id : TypeId)
    (h : t.includesWithin module k id = true) : t.includesWithin module (k + 1) id = true := by
  induction k generalizing id with
  | zero => simp [includesWithin] at h
  | succ k ih =>
    rw [includesWithin, List.any_eq_true] at h ⊢
    obtain ⟨i, hi, h⟩ := h
    exact ⟨i, hi, Bool.or_eq_true_iff.mpr ((Bool.or_eq_true_iff.mp h).imp_right (ih _))⟩

theorem includesWithin_eq {module : TypeId} {k : Nat} (hk : t.size ≤ k) :
    t.includesWithin module k = t.includesWithin module t.size := by
  refine steps_saturate includesWithin_mono (fun j k h => ?_) (fun j k id hid => ?_) hk
  · funext id; simp only [includesWithin, h]
  · cases j <;> cases k <;> simp [includesWithin, inclusions_of_le hid]

/-- Whether a type or one of its first `k` superclasses passes a test. -/
def someWithin (t : Types) (test : TypeId → Bool) (k : Nat) (id : TypeId) : Bool :=
  (id :: t.ancestorsWithin k id).any test

theorem someWithin_succ (test : TypeId → Bool) (k : Nat) (id : TypeId) :
    t.someWithin test (k + 1) id =
      (test id || (t.superclass id).elim false (t.someWithin test k)) := by
  rw [someWithin, ancestorsWithin]
  cases t.superclass id <;> simp [someWithin]

theorem someWithin_mono {test : TypeId → Bool} (k : Nat) (id : TypeId)
    (h : t.someWithin test k id = true) : t.someWithin test (k + 1) id = true := by
  induction k generalizing id with
  | zero =>
    have h : test id = true := by simpa [someWithin, ancestorsWithin] using h
    rw [someWithin_succ, h, Bool.true_or]
  | succ k ih =>
    rw [someWithin_succ, Bool.or_eq_true] at h ⊢
    refine h.imp_right fun h => ?_
    cases hs : t.superclass id with
    | none => simp [hs] at h
    | some parent => rw [hs] at h; exact ih parent h

theorem someWithin_eq {test : TypeId → Bool} {k : Nat} (hk : t.size ≤ k) :
    t.someWithin test k = t.someWithin test t.size := by
  refine steps_saturate someWithin_mono (fun j k h => ?_) (fun j k id hid => ?_) hk
  · funext id; simp only [someWithin_succ, h]
  · cases j <;> cases k <;> simp [someWithin, ancestorsWithin, superclass_of_le hid]

/-! ### Subtypes -/

namespace GrowsTo

theorem superclass_eq (h : t.GrowsTo t') (hc : t.Closed) (hid : id.index < t.size) :
    t'.superclass id = t.superclass id := by
  unfold superclass; rw [h.kind_eq hid]
  split
  · rfl
  · rw [h.kind_eq (hc.generic_lt ‹_›)]
  · rfl

theorem inclusions_eq (h : t.GrowsTo t') (hc : t.Closed) (hid : id.index < t.size) :
    t'.inclusions id = t.inclusions id := by
  unfold inclusions; rw [h.kind_eq hid]
  split
  · exact h.field_eq TypeEntry.includes (fun _ => rfl) (hc.generic_lt ‹_›)
  · exact h.field_eq TypeEntry.includes (fun _ => rfl) hid

theorem includesWithin_eq (h : t.GrowsTo t') (hc : t.Closed) {module : TypeId} (k : Nat)
    (hid : id.index < t.size) : t'.includesWithin module k id = t.includesWithin module k id := by
  induction k generalizing id with
  | zero => rfl
  | succ k ih =>
    simp only [includesWithin, h.inclusions_eq hc hid]
    rw [Bool.eq_iff_iff, List.any_eq_true, List.any_eq_true]
    refine exists_congr fun i => and_congr_right fun hi => ?_
    rw [ih (hc.inclusion_lt hi)]

theorem includes_eq (h : t.GrowsTo t') (hc : t.Closed) (hid : id.index < t.size) (module : TypeId) :
    t'.includes id module = t.includes id module := by
  rw [includes, includes, h.includesWithin_eq hc _ hid, Types.includesWithin_eq h.size_le]

theorem someWithin_eq (h : t.GrowsTo t') (hc : t.Closed) (test test' : TypeId → Bool)
    (htest : ∀ id : TypeId, id.index < t.size → test' id = test id) (k : Nat)
    (hid : id.index < t.size) : t'.someWithin test' k id = t.someWithin test k id := by
  induction k generalizing id with
  | zero => simp [someWithin, ancestorsWithin, htest id hid]
  | succ k ih =>
    rw [someWithin_succ, someWithin_succ, htest id hid, h.superclass_eq hc hid]
    cases hs : t.superclass id with
    | none => rfl
    | some parent => simp only [Option.elim, ih (hc.superclass_lt hs)]

theorem isAtomSubtype_eq (h : t.GrowsTo t') (hc : t.Closed) (hid : id.index < t.size) :
    t'.isAtomSubtype id of = t.isAtomSubtype id of := by
  have hsome := h.someWithin_eq hc (fun a => a == of || t.includes a of)
    (fun a => a == of || t'.includes a of)
    (fun a ha => by rw [h.includes_eq hc ha]) t'.size hid
  rw [Types.someWithin_eq h.size_le] at hsome
  simp only [someWithin] at hsome
  unfold isAtomSubtype ancestors
  rw [h.kind_eq hid, hsome]

theorem isSubtype_eq (h : t.GrowsTo t') (hc : t.Closed) (hid : id.index < t.size) :
    t'.isSubtype id of = t.isSubtype id of := by
  unfold isSubtype
  rw [h.kind_eq hid]
  congr 1
  split
  · rename_i members hk
    rw [Bool.eq_iff_iff, List.all_eq_true, List.all_eq_true]
    refine forall₂_congr fun m hm => ?_
    rw [h.isAtomSubtype_eq hc (hc.member_lt hk hm)]
  · exact h.isAtomSubtype_eq hc hid

end GrowsTo

end Types

/-! ### Narrowings -/

namespace Narrowing
open TypeFlow.Types

variable {t : Types} {id : TypeId}

mutual

/-- The types that a narrowing compares with. -/
def targets : Narrowing → List TypeId
  | .notNil => []
  | .isA target => [target]
  | .all parts => targetsAll parts

def targetsAll : List Narrowing → List TypeId
  | [] => []
  | f :: rest => f.targets ++ targetsAll rest

end

theorem growsTo_applyIsA (t : Types) (id target : TypeId) : t.GrowsTo (applyIsA t id target).2 := by
  unfold applyIsA; split
  · exact growsTo_join t _
  · split
    · exact .refl t
    · split <;> exact .refl t

theorem growsTo_applyNotNil (t : Types) (id : TypeId) : t.GrowsTo (applyNotNil t id).2 := by
  unfold applyNotNil; split
  · exact growsTo_join t _
  · split <;> exact .refl t

mutual

theorem growsTo_apply (f : Narrowing) (t : Types) (id : TypeId) : t.GrowsTo (f.apply t id).2 := by
  match f with
  | .notNil => exact growsTo_applyNotNil t id
  | .isA target => exact growsTo_applyIsA t id target
  | .all parts => exact growsTo_applyAll parts t id

theorem growsTo_applyAll (fs : List Narrowing) (t : Types) (id : TypeId) :
    t.GrowsTo (applyAll t id fs).2 := by
  match fs with
  | [] => exact .refl t
  | f :: rest =>
    have h := growsTo_apply f t id
    rw [applyAll]
    rcases hr : f.apply t id with ⟨_ | narrowed, t'⟩ <;> rw [hr] at h
    · exact h
    · exact h.trans (growsTo_applyAll rest t' narrowed)

end

/-- An answer that is a type of the table, keeps the table closed, and settles. -/
structure Narrows (f : Types → Option TypeId × Types) (t : Types) : Prop where
  closed : (f t).2.Closed
  lt : ∀ narrowed, (f t).1 = some narrowed → narrowed.index < (f t).2.size
  settles : Settles f t

namespace Narrows
variable {f g : Types → Option TypeId × Types}

theorem congr (h : Narrows f t) (hg : ∀ t', t.GrowsTo t' → g t' = f t') : Narrows g t := by
  have heq := hg t (.refl t)
  refine ⟨by rw [heq]; exact h.closed, by rw [heq]; exact h.lt, by rw [heq]; exact h.settles.1,
    fun t' ht' => ?_⟩
  rw [heq] at ht' ⊢
  rw [hg t' (h.settles.1.trans ht')]; exact h.settles.2 t' ht'

theorem const {r : Option TypeId} (hc : t.Closed) (hr : ∀ id, r = some id → id.index < t.size) :
    Narrows (fun t => (r, t)) t :=
  ⟨hc, hr, .refl t, fun _ _ => rfl⟩

theorem join (ids : List TypeId) (hc : t.Closed) (hids : ∀ id ∈ ids, id.index < t.size) :
    Narrows (·.join ids) t :=
  ⟨hc.join hids, fun _ h => hc.join_lt hids h, settles_join hids⟩

theorem applyNotNil (hc : t.Closed) (hid : id.index < t.size) :
    Narrows (Narrowing.applyNotNil · id) t := by
  by_cases hu : ∃ members, t.kind id = .union members
  · obtain ⟨members, hk⟩ := hu
    refine (join (members.filter (· ≠ TypeId.nil)) hc fun m hm => ?_).congr fun t' ht' => ?_
    · exact hc.member_lt hk (List.mem_filter.mp hm).1
    · simp only [Narrowing.applyNotNil, ht'.kind_eq hid, hk]
  · refine (const (r := if id = .nil then none else some id) hc fun n hn => ?_).congr
      fun t' ht' => ?_
    · split at hn
      · cases hn
      · rwa [← Option.some.inj hn]
    · unfold Narrowing.applyNotNil
      rw [ht'.kind_eq hid]
      split
      · exact absurd ⟨_, ‹_›⟩ hu
      · split <;> rfl

theorem applyIsA {target : TypeId} (hc : t.Closed) (hid : id.index < t.size)
    (ht : target.index < t.size) : Narrows (Narrowing.applyIsA · id target) t := by
  by_cases hu : ∃ members, t.kind id = .union members
  · obtain ⟨members, hk⟩ := hu
    refine (join (members.filter fun m => t.isSubtype m target) hc fun m hm => ?_).congr
      fun t' ht' => ?_
    · exact hc.member_lt hk (List.mem_filter.mp hm).1
    · simp only [Narrowing.applyIsA, ht'.kind_eq hid, hk]
      congr 1
      exact List.filter_congr fun m hm => ht'.isSubtype_eq hc (hc.member_lt hk hm)
  · refine (const (r := if t.isSubtype id target then some id
        else if t.isSubtype target id then some target else none) hc fun n hn => ?_).congr
      fun t' ht' => ?_
    · split at hn
      · rwa [← Option.some.inj hn]
      · split at hn
        · rwa [← Option.some.inj hn]
        · cases hn
    · unfold Narrowing.applyIsA
      rw [ht'.kind_eq hid]
      split
      · exact absurd ⟨_, ‹_›⟩ hu
      · rw [ht'.isSubtype_eq hc hid, ht'.isSubtype_eq hc ht]
        split
        · rfl
        · split <;> rfl

/-- Narrowing what is left of a first narrowing. -/
theorem andThen (next : TypeId → Types → Option TypeId × Types) (h : Narrows f t)
    (hnext : ∀ narrowed, (f t).1 = some narrowed → Narrows (next narrowed) (f t).2)
    (hnone : ∀ t', f t' = (none, (f t').2) → g t' = (none, (f t').2))
    (hsome : ∀ t' n, f t' = (some n, (f t').2) → g t' = next n (f t').2) : Narrows g t := by
  cases hr : (f t).1 with
  | none =>
    have heq : g t = (none, (f t).2) := hnone t (by rw [← hr])
    refine ⟨by rw [heq]; exact h.closed, by simp [heq], by rw [heq]; exact h.settles.1,
      fun t' ht' => ?_⟩
    rw [heq] at ht' ⊢
    have := h.settles.2 t' ht'
    rw [hnone t' (by rw [this, hr]), this]
  | some narrowed =>
    have hn := hnext narrowed hr
    have heq : g t = next narrowed (f t).2 := hsome t narrowed (by rw [← hr])
    refine ⟨by rw [heq]; exact hn.closed, by rw [heq]; exact hn.lt,
      by rw [heq]; exact h.settles.1.trans hn.settles.1, fun t' ht' => ?_⟩
    rw [heq] at ht' ⊢
    have := h.settles.2 t' (hn.settles.1.trans ht')
    rw [hsome t' narrowed (by rw [this, hr]), this]
    exact hn.settles.2 t' ht'

end Narrows

mutual

theorem narrows_apply (f : Narrowing) : ∀ {t : Types} {id : TypeId}, t.Closed → id.index < t.size →
    (∀ target ∈ f.targets, target.index < t.size) → Narrows (apply · id f) t := by
  intro t id hc hid hf
  match f with
  | .notNil => exact .applyNotNil hc hid
  | .isA target => exact .applyIsA hc hid (hf target (by simp [targets]))
  | .all parts => exact narrows_applyAll parts hc hid hf

theorem narrows_applyAll (fs : List Narrowing) : ∀ {t : Types} {id : TypeId}, t.Closed →
    id.index < t.size → (∀ target ∈ targetsAll fs, target.index < t.size) →
      Narrows (applyAll · id fs) t := by
  intro t id hc hid hf
  match fs with
  | [] => exact .const hc fun n hn => by rwa [← Option.some.inj hn]
  | f :: rest =>
    have h := narrows_apply f hc hid fun target ht => hf target (List.mem_append_left _ ht)
    refine h.andThen (fun n t => applyAll t n rest) (fun narrowed hn => ?_)
      (fun t' h' => ?_) (fun t' n h' => ?_)
    · exact narrows_applyAll rest h.closed (h.lt narrowed hn)
        fun target ht => h.settles.1.lt (hf target (List.mem_append_right _ ht))
    · rw [applyAll, h']
    · rw [applyAll, h']

end

end Narrowing

end TypeFlow

import TypeFlow.Proofs.Guard.Unions

/-!
# What a narrowed type is

What is left of a type is of its kind and of the kind of every target, whichever targets have taken
the place of others (`isOf_apply`): it is below them, or it inherits from an instance of what it
should be below. `Nil` is gone after a test for it, unless a later target brings it back.
-/

namespace TypeFlow

namespace Types
variable {t : Types} {a b c target : TypeId}

/-- Below the type, or a class that inherits from an instance of it, which is not below it. -/
def IsOf (t : Types) (a b : TypeId) : Prop :=
  t.isSubtype a b = true ∨ ∃ parent ∈ t.ancestors a, ∃ args, t.kind parent = .applied b args

theorem isOf_self (t : Types) (a : TypeId) : t.IsOf a a := .inl (t.isSubtype_self a)

theorem isSubtype_iff_of_atom (ha : t.atoms a = [a]) :
    t.isSubtype a b = true ↔ t.isAtomSubtype a b = true := by
  rw [isSubtype_iff, ha]
  simp only [List.mem_singleton, forall_eq, or_iff_right_iff_imp]
  rintro rfl
  exact t.isAtomSubtype_self a

theorem isSubtype_of_mem_ancestors (ha : t.atoms a = [a]) (h : b ∈ t.ancestors a) :
    t.isSubtype a b = true :=
  (isSubtype_iff_of_atom ha).mpr
    (isAtomSubtype_iff.mpr (.inr (.inr (.inr ⟨b, List.mem_cons_of_mem _ h, .inl rfl⟩))))

/-- What is below an instance is below its class or inherits from the instance. -/
theorem Hierarchy.isOf_of_instance (h : t.Hierarchy) {args : List TypeId}
    (hb : t.kind b = .applied c args) (ha : t.atoms a = [a]) (hab : t.isSubtype a b = true) :
    t.IsOf a c := by
  have hbelow : ∀ {a}, t.kind a = .noReturn ∨
      (∃ args, t.kind a = .applied c args) → t.atoms a = [a] →
      t.IsOf a c := fun hk ha =>
    .inl ((isSubtype_iff_of_atom ha).mpr (isAtomSubtype_iff.mpr (.inr (hk.imp_right .inl))))
  rcases isAtomSubtype_iff.mp ((isSubtype_iff_of_atom ha).mp hab) with rfl | hk | ⟨args',
    hk⟩ | ⟨x, hx, rfl | hincl⟩
  · exact hbelow (.inr ⟨args, hb⟩) ha
  · exact hbelow (.inl hk) ha
  · obtain ⟨head, hclass⟩ := h.generic a b args' hk
    rw [hb] at hclass; cases hclass
  · rcases List.mem_cons.mp hx with rfl | hx
    · exact hbelow (.inr ⟨args, hb⟩) ha
    · exact .inr ⟨x, hx, args, hb⟩
  · have hmodule := h.isModule_of_includes hincl
    rw [isModule, hb] at hmodule; cases hmodule

/-- Subtypes of what is of a kind are of that kind. -/
theorem Makings.isOf_trans (ht : Makings initial t) (ha : t.atoms a = [a]) (hb : t.atoms b = [b])
    (hab : t.isSubtype a b = true) (hbc : t.IsOf b c) : t.IsOf a c := by
  rcases hbc with hbc | ⟨parent, hparent, args, hk⟩
  · rcases ht.declarations.isSubtype_trans_or hab hbc with h | ⟨⟨args, hk⟩, m, hm, hmem⟩
    · exact .inl h
    · rw [ha, List.mem_singleton] at hm
      exact .inr ⟨b, hm ▸ hmem, args, hk⟩
  · rcases ht.declarations.isSubtype_trans_or hab (isSubtype_of_mem_ancestors hb hparent) with
      h | ⟨⟨args', hk'⟩, -⟩
    · exact ht.founded.hierarchy.isOf_of_instance hk ha h
    · obtain ⟨head, hclass⟩ := ht.founded.hierarchy.generic b parent args' hk'
      rw [hk] at hclass; cases hclass

/-- The atoms of a type are below what the type is below. -/
theorem Canonical.isSubtype_of_mem_atoms (h : t.Canonical) (ha : a ∈ t.atoms target)
    (hsub : t.isSubtype target b = true) (hne : target ≠ b) : t.isSubtype a b = true :=
  (isSubtype_iff_of_atom (atoms_of_not_union (h.not_union_of_mem_atoms ha))).mpr
    ((isSubtype_iff.mp hsub).resolve_left hne a ha)

end Types

open TypeFlow.Types

namespace Fact
variable {t : Types} {fact : Fact} {facts post : List Fact} {as bs : List TypeId} {target : TypeId}

/-! ### Of the same kind -/

/-- The types are no unions, and each is of the kind of one of the others. -/
structure Below (t : Types) (bs as : List TypeId) : Prop where
  atom : ∀ a ∈ as, t.atoms a = [a]
  isOf : ∀ a ∈ as, ∃ b ∈ bs, t.IsOf a b

theorem below_self (has : ∀ a ∈ as, t.atoms a = [a]) : Below t as as :=
  ⟨has, fun a ha => ⟨a, ha, t.isOf_self a⟩⟩

theorem Below.left (ht : Makings initial t) (h : Below t bs as) (fact : Fact) :
    Below t bs (fact.left t as) := by
  have hcan := ht.founded.whole.canonical
  refine ⟨fun a ha => ?_, fun a ha => ?_⟩ <;>
    rcases mem_left ha with ⟨ha, -⟩ | ⟨b, target, rfl, -, hsub, hne, ha⟩
  · exact h.atom a ha
  · exact atoms_of_not_union (hcan.not_union_of_mem_atoms ha)
  · exact h.isOf a ha
  · obtain ⟨c, hc, hbc⟩ := h.isOf b (List.mem_singleton_self b)
    exact ⟨c, hc, ht.isOf_trans (atoms_of_not_union (hcan.not_union_of_mem_atoms ha))
      (h.atom b (List.mem_singleton_self b)) (hcan.isSubtype_of_mem_atoms ha hsub hne) hbc⟩

theorem Below.leftBy (ht : Makings initial t) (h : Below t bs as) (facts : List Fact) :
    Below t bs (leftBy t facts as) := by
  induction facts generalizing as with
  | nil => exact h
  | cons fact rest ih => exact ih (h.left ht fact)

/-- What is left of a type is of its kind. -/
theorem below_leftBy (ht : Makings initial t) (id : TypeId) (facts : List Fact) :
    Below t (t.atoms id) (leftBy t facts (t.atoms id)) :=
  (below_self fun _ ha =>
    atoms_of_not_union (ht.founded.whole.canonical.not_union_of_mem_atoms ha)).leftBy ht facts

/-- A fact that compares with a type leaves what is of that kind. -/
theorem below_left_isA (ht : Makings initial t)
    (has : ∀ a ∈ as, t.atoms a = [a]) (target : TypeId) :
    Below t (t.atoms target) ((isA target).left t as) := by
  have hcan := ht.founded.whole.canonical
  have hatom := ((below_self has).left ht (isA target)).atom
  refine ⟨hatom, fun a ha => ?_⟩
  have haa := hatom a ha
  rcases mem_left ha with ⟨-, hholds⟩ | ⟨b, other, -, heq, -, -, ha⟩
  · rcases t.atoms_cases target with hu | ⟨-, hu⟩
    · -- only what has no values is below a union without being one
      have hne : a ≠ target := fun h => by
        have htwo := hcan.two_le target _ hu
        rw [← h, haa] at htwo; simp at htwo
      have hno :=
        ht.founded.hierarchy.noReturn_of_union hu hne ((isSubtype_iff_of_atom haa).mp hholds)
      obtain ⟨b, hb⟩ := List.exists_mem_of_ne_nil _ (hcan.atoms_ne_nil target)
      exact ⟨b, hb,
        .inl ((isSubtype_iff_of_atom haa).mpr (isAtomSubtype_iff.mpr (.inr (.inl hno))))⟩
    · exact ⟨target, by simp [hu], .inl hholds⟩
  · cases heq
    exact ⟨a, ha, t.isOf_self a⟩

/-- What is left is of the kind of every target. -/
theorem below_leftBy_of_mem (ht : Makings initial t) (has : ∀ a ∈ as, t.atoms a = [a])
    (h : isA target ∈ facts) : Below t (t.atoms target) (leftBy t facts as) := by
  induction facts generalizing as with
  | nil => cases h
  | cons fact rest ih =>
    rcases List.mem_cons.mp h with rfl | h
    · exact (below_left_isA ht has target).leftBy ht rest
    · exact ih ((below_self has).left ht fact).atom h

/-! ### Without `Nil` -/

theorem nil_notMem_left (h : .nil ∉ as)
    (hpost : ∀ target, fact = isA target → .nil ∉ t.atoms target) :
    .nil ∉ fact.left t as := fun hn => by
  rcases mem_left hn with ⟨hn, -⟩ | ⟨b, target, -, heq, -, -, hn⟩
  · exact h hn
  · exact hpost target heq hn

theorem nil_notMem_leftBy (h : .nil ∉ as)
    (hpost : ∀ target, isA target ∈ facts → .nil ∉ t.atoms target) :
    .nil ∉ leftBy t facts as := by
  induction facts generalizing as with
  | nil => exact h
  | cons fact rest ih =>
    refine ih (nil_notMem_left h fun target heq => hpost target (heq ▸ List.mem_cons_self)) ?_
    exact fun target hmem => hpost target (List.mem_cons_of_mem _ hmem)

theorem nil_notMem_left_notNil : .nil ∉ notNil.left t as := fun hn => by
  rcases mem_left hn with ⟨-, hn⟩ | ⟨b, target, -, heq, -⟩
  · exact holds_notNil.mp hn rfl
  · cases heq

/-- `Nil` is gone for good, unless a later target has it. -/
theorem nil_notMem_leftBy_append (pre : List Fact)
    (hpost : ∀ target, isA target ∈ post → .nil ∉ t.atoms target) :
    .nil ∉ leftBy t (pre ++ notNil :: post) as := by
  rw [leftBy_append, leftBy_cons]
  exact nil_notMem_leftBy nil_notMem_left_notNil hpost

end Fact

namespace Narrowing
variable {t : Types} {id narrowed : TypeId} {f : Narrowing}

/-- Every atom that is left of a type is of the kind of one of its atoms, and of every target. So
what is left is a subtype of every target that is no union and of which no instance is inherited,
and `Nil` is no part of it after a test for `Nil`, unless a later target has it. -/
theorem isOf_apply (ht : Makings initial t) (hid : id.index < t.size)
    (hf : ∀ target ∈ f.targets, target.index < t.size) (hn : (f.apply t id).1 = some narrowed) :
    let t' := (f.apply t id).2
    (∀ a ∈ t'.atoms narrowed, ∃ b ∈ t.atoms id, t.IsOf a b) ∧
      (∀ target ∈ f.targets, ∀ a ∈ t'.atoms narrowed, ∃ b ∈ t.atoms target, t.IsOf a b) ∧
      (∀ target ∈ f.targets, (∀ members, t.kind target ≠ .union members) →
        (∀ a ∈ t'.atoms narrowed, ∀ parent ∈ t.ancestors a, ∀ args,
          t.kind parent ≠ .applied target args) → t'.isSubtype narrowed target = true) ∧
      ∀ pre post, f.facts = pre ++ .notNil :: post →
        (∀ target, .isA target ∈ post → .nil ∉ t.atoms target) → .nil ∉ t'.atoms narrowed := by
  intro t'
  have hs := ht.founded.whole.toSolid
  have hgrows := growsTo_apply f t id
  have hatoms : t'.atoms narrowed = Fact.leftBy t f.facts (t.atoms id) := by
    rw [← answerAtoms_apply f hs hid hf, ← answerAtoms_some, ← hn]
  have hatom : ∀ a ∈ t.atoms id, t.atoms a = [a] := fun a ha =>
    atoms_of_not_union (hs.canonical.not_union_of_mem_atoms ha)
  have htarget : ∀ target ∈ f.targets,
      Fact.Below t (t.atoms target) (t'.atoms narrowed) := fun target h =>
    hatoms ▸ Fact.below_leftBy_of_mem ht hatom ((mem_targets_iff f).mp h)
  refine ⟨hatoms ▸ (Fact.below_leftBy ht id f.facts).isOf, fun target h => (htarget target h).isOf,
    fun target h hu hinherited => isSubtype_iff.mpr (.inr fun a ha => ?_),
      fun pre post heq hpost => ?_⟩
  · obtain ⟨b, hb, hab⟩ := (htarget target h).isOf a ha
    rw [atoms_of_not_union hu, List.mem_singleton] at hb
    subst hb
    have hlt : a.index < t.size := by
      rw [hatoms] at ha
      exact Fact.lt_of_mem_leftBy hs.toClosed (fun fact h => known_of_mem_facts hf h)
        (fun a ha => hs.held.atom_lt hid ha) ha
    rw [hgrows.isAtomSubtype_eq hs.toClosed hlt]
    refine (isSubtype_iff_of_atom ((htarget b h).atom a ha)).mp (hab.resolve_right ?_)
    rintro ⟨parent, hparent, args, hk⟩
    exact hinherited a ha parent hparent args hk
  · rw [hatoms, heq]
    exact Fact.nil_notMem_leftBy_append pre hpost

/-- A `Value` that is a `Number`, and not `Nil`, and an `Int32`. -/
def int32Number : Narrowing := .all [.isA .number, .all [.notNil, .isA .int32]]

theorem isOf_apply_int32Number : Makings initial initial ∧ TypeId.value.index < initial.size ∧
    (∀ target ∈ int32Number.targets, target.index < initial.size) ∧
    (int32Number.apply initial .value).1 = some .int32 ∧
    (int32Number.apply initial .value).2.isSubtype .int32 .number = true ∧
    .nil ∉ (int32Number.apply initial .value).2.atoms .int32 := by
  have hlt : TypeId.value.index < initial.size := by decide +kernel
  have hf : ∀ target ∈ int32Number.targets, target.index < initial.size := by decide +kernel
  have hn : (int32Number.apply initial .value).1 = some .int32 := by decide +kernel
  obtain ⟨-, -, hsub, hnil⟩ := isOf_apply .refl hlt hf hn
  refine ⟨.refl, hlt, hf, hn, hsub .number (by decide) (fun members hk => ?_)
    fun a _ parent _ args hk => ?_, hnil [.isA .number] [.isA .int32] rfl fun target h => ?_⟩
  · have := isInterned_initial .number
    rw [hk] at this; cases this
  · have := isInterned_initial parent
    rw [hk] at this; cases this
  · cases List.mem_singleton.mp h
    decide +kernel

/-- A `Value` that is not `Nil` and then is `Nil` is `Nil`. -/
theorem not_isOf_apply :
    ¬ ∀ t, Makings initial t → ∀ (id narrowed : TypeId) (f : Narrowing), id.index < t.size →
    (∀ target ∈ f.targets, target.index < t.size) → (f.apply t id).1 = some narrowed →
      (∀ a ∈ (f.apply t id).2.atoms narrowed, ∃ b ∈ t.atoms id,
        (f.apply t id).2.isSubtype a b = true) ∧
      (.notNil ∈ f.facts → .nil ∉ (f.apply t id).2.atoms narrowed) ∧
      ∀ target ∈ f.targets, (f.apply t id).2.isSubtype narrowed target = true := fun h =>
  have hall :=
    h initial .refl .value .nil (.all [.notNil, .isA .nil]) (by decide +kernel) (by decide +kernel)
    (by decide +kernel)
  hall.2.1 (by decide) (by decide +kernel)

end Narrowing

end TypeFlow

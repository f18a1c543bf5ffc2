import TypeFlow.Proofs.Types.Built
import TypeFlow.Proofs.Types.Subtyping

/-!
# The hierarchy of types

What declarations build is a `Hierarchy`: superclasses are classes or instances of generic classes,
what is included are modules, and only classes have instances. In it, subtypes of subtypes are
subtypes, with one exception (`isSubtype_trans_or`): an instance of a generic class is a subtype of
that class, but a class that inherits from the instance is not.
-/

namespace TypeFlow

/-- The kinds that a superclass may have. -/
def TypeKind.isInheritable : TypeKind → Bool
  | .classType _ | .applied _ _ => true
  | _ => false

namespace Types
variable {t t' : Types} {a b c id m : TypeId}

/-- An operation as declarations take it. -/
inductive Declaration (t : Types) : Types → Prop where
  | join {ids : List TypeId} : (∀ id ∈ ids, id.index < t.size) → Declaration t (t.join ids).2
  | metaclassOf (id : TypeId) : Declaration t (t.metaclassOf id).2
  | applyGeneric {generic type : TypeId} {args : List TypeId} {t' : Types} :
      t.applyGeneric generic args = .ok (type, t') → Declaration t t'
  | pointerTo (id : TypeId) : Declaration t (t.pointerTo id).2
  | includeModule (owner : TypeId) {inclusion : Inclusion} : t.isModule inclusion.module = true →
      Declaration t (t.includeModule owner inclusion)
  | declare (container : TypeId) (name : String) {kind : TypeKind} : kind.isDeclared = true →
      (∀ head parent, kind = .classType head → head.superclass = some parent →
        (t.kind parent).isInheritable = true) → Declaration t (t.declare container name kind).2
  /-- Methods, macros, constants, functions and instance variables of a type. -/
  | extend (owner : TypeId) {f : TypeEntry → TypeEntry} (hf : TypeEntry.Extends f) :
      (∀ e, (f e).includes = e.includes) → Declaration t (t.modify owner f hf)

abbrev Declarations : Types → Types → Prop := Relation.ReflTransGen Declaration

theorem Declaration.operation (h : Declaration t t') : Operation t t' := by
  cases h with
  | join hids => exact .join hids
  | metaclassOf id => exact .metaclassOf id
  | applyGeneric h => exact .applyGeneric h
  | pointerTo id => exact .pointerTo id
  | includeModule owner => exact .includeModule owner _
  | declare container name hk => exact .declare container name hk
  | extend owner hf => exact .extend owner hf

theorem Declarations.operations (h : Declarations t t') : Operations t t' := by
  induction h with
  | refl => exact .refl
  | tail _ h ih => exact ih.tail h.operation

structure Hierarchy (t : Types) : Prop where
  superclass : ∀ id head parent, t.kind id = .classType head → head.superclass = some parent →
    (t.kind parent).isInheritable = true
  generic : ∀ id generic args, t.kind id = .applied generic args →
    ∃ head, t.kind generic = .classType head
  modules : ∀ id, ∀ i ∈ (t.get id).includes, t.isModule i.module = true

/-! ### What declarations keep -/

theorem KeepsKinds.kind_eq_of_ne (h : t.KeepsKinds t') (hne : t.kind id ≠ .program) :
    t'.kind id = t.kind id :=
  h.kind_eq id (Nat.lt_of_not_le fun hle => hne (kind_of_le hle))

theorem KeepsKinds.isInheritable (h : t.KeepsKinds t') (hi : (t.kind id).isInheritable = true) :
    (t'.kind id).isInheritable = true := by
  rw [h.kind_eq_of_ne fun hp => by rw [hp] at hi; cases hi]; exact hi

theorem KeepsKinds.kind_classType (h : t.KeepsKinds t') {head : ClassHead}
    (hk : t.kind id = .classType head) : t'.kind id = .classType head := by
  rw [h.kind_eq_of_ne fun hp => by rw [hp] at hk; cases hk]; exact hk

theorem KeepsKinds.isModule (h : t.KeepsKinds t') (hm : t.isModule id = true) :
    t'.isModule id = true := by
  unfold Types.isModule at hm ⊢
  rwa [h.kind_eq_of_ne fun hp => by rw [hp] at hm; cases hm]

namespace Hierarchy

/-- What is added has a superclass that may be one, and as an instance a class that is generic. -/
theorem gains {name : String} {container : Option TypeId} {kind : TypeKind} (h : t.Hierarchy)
    (hadds : t.Gains name container kind t')
    (hs : ∀ head parent, kind = .classType head → head.superclass = some parent →
      (t.kind parent).isInheritable = true)
    (hg : ∀ generic args, kind = .applied generic args → ∃ head, t.kind generic = .classType head) :
    t'.Hierarchy := by
  have hkeeps := hadds.growsTo.keepsKinds
  refine ⟨fun id head parent hk hp => hkeeps.isInheritable ?_,
    fun id generic args hk => ?_, fun id i hi => ?_⟩
  · rw [hadds.kind_eq] at hk
    split at hk
    · exact hs head parent hk hp
    · exact h.superclass id head parent hk hp
  · have hclass : ∃ head, t.kind generic = .classType head := by
      rw [hadds.kind_eq] at hk
      split at hk
      · exact hg generic args hk
      · exact h.generic id generic args hk
    obtain ⟨head, hclass⟩ := hclass
    exact ⟨head, hkeeps.kind_classType hclass⟩
  · rw [hadds.includes_eq] at hi
    split at hi
    · cases hi
    · exact hkeeps.isModule (h.modules id i hi)

theorem modify {f : TypeEntry → TypeEntry} (h : t.Hierarchy) (hf : TypeEntry.Extends f)
    (owner : TypeId) (hi : ∀ i ∈ (f (t.get owner)).includes, t.isModule i.module = true) :
    (t.modify owner f hf).Hierarchy := by
  have hkind : ∀ id, (t.modify owner f hf).kind id = t.kind id := kind_modify hf t owner
  refine ⟨fun id head parent hc hp => ?_, fun id generic args hc => ?_, fun id i him => ?_⟩
  · rw [hkind] at hc ⊢; exact h.superclass id head parent hc hp
  · rw [hkind] at hc; simp only [hkind]; exact h.generic id generic args hc
  · rw [Types.isModule, hkind]
    rw [get_modify] at him
    split at him
    · exact hi i him
    · exact h.modules id i him

theorem apply {generic : TypeId} {args : List TypeId} (h : t.Hierarchy)
    (hg : ∃ head, t.kind generic = .classType head) : (t.apply generic args).2.Hierarchy := by
  refine (interns_apply t generic args).preserves h fun _ hadds =>
    h.gains hadds nofun fun _ _ hk => ?_
  cases hk; exact hg

end Hierarchy

theorem kind_of_applyGeneric {generic : TypeId} {args : List TypeId} {r : TypeId × Types}
    (h : t.applyGeneric generic args = .ok r) : ∃ head, t.kind generic = .classType head := by
  unfold applyGeneric at h
  split at h
  · exact ⟨_, ‹_›⟩
  · cases h

theorem Declaration.hierarchy (h : Declaration t t') (ht : t.Hierarchy)
    (hp : t.kind .pointer = pointerClass) : t'.Hierarchy := by
  cases h with
  | join => exact join_preserves ht fun _ hadds => ht.gains hadds nofun nofun
  | metaclassOf => exact metaclassOf_preserves ht fun _ hadds => ht.gains hadds nofun nofun
  | @applyGeneric generic type args _ h =>
    rw [show t' = (t.apply generic args).2 from congrArg Prod.snd (eq_apply_of_applyGeneric h)]
    exact ht.apply (kind_of_applyGeneric h)
  | pointerTo => exact ht.apply ⟨_, hp⟩
  | includeModule owner hm =>
    refine ht.modify _ owner fun i hi => ?_
    split at hi
    · exact ht.modules owner i hi
    · rcases List.mem_append.mp hi with hi | hi
      · exact ht.modules owner i hi
      · rwa [List.mem_singleton.mp hi]
  | @declare container name kind hk hs =>
    have hpush := ht.gains (gains_push t name (some container) kind) hs fun _ _ (h : kind = _) => by
      rw [h] at hk; cases hk
    refine hpush.modify ?_ container (hpush.modules container)
    exact ⟨fun _ => rfl, fun _ => rfl⟩
  | extend owner hf hi => exact ht.modify hf owner ((hi (t.get owner)).symm ▸ ht.modules owner)

theorem hierarchy_initial : initial.Hierarchy := by
  have hsuper : ∀ e ∈ initial.entries.toList, ∀ p ∈ e.kind.mentions,
      (initial.kind p).isInheritable = true := by
    decide +kernel
  have hplain : ∀ e ∈ initial.entries.toList, e.includes = [] ∧
      (e.kind.isDeclared = true ∨ e.kind = .program ∨ e.kind = .noReturn) := by decide +kernel
  have hget : ∀ id : TypeId, initial.get id ∈ initial.entries.toList ∨
      initial.get id = default := fun id => by
    rcases Nat.lt_or_ge id.index initial.size with h | h
    · exact .inl (get_of_lt h ▸ Array.getElem_mem_toList h)
    · exact .inr (get_of_le h)
  refine ⟨fun id head parent hk hp => ?_, fun id generic args hk => ?_, fun id i hi => ?_⟩
  · rcases hget id with he | he
    · refine hsuper _ he parent ?_
      rw [show (initial.get id).kind = _ from hk]
      simpa [TypeKind.mentions] using hp
    · rw [kind, he] at hk; cases hk
  · rcases hget id with he | he
    · have := (hplain _ he).2
      rw [show (initial.get id).kind = _ from hk] at this
      rcases this with h | h | h <;> cases h
    · rw [kind, he] at hk; cases hk
  · rcases hget id with he | he
    · rw [(hplain _ he).1] at hi; cases hi
    · rw [he] at hi; cases hi

set_option maxRecDepth 3000 in
theorem kind_pointer_initial : initial.kind .pointer = pointerClass := rfl

theorem Declarations.hierarchy (h : Declarations initial t) : t.Hierarchy := by
  have hall : t.Hierarchy ∧ t.kind .pointer = pointerClass := by
    induction h with
    | refl => exact ⟨hierarchy_initial, kind_pointer_initial⟩
    | tail _ h ih =>
      refine ⟨h.hierarchy ih.1 ih.2, ?_⟩
      rw [h.operation.keepsKinds.kind_eq_of_ne, ih.2]
      rw [ih.2]; exact fun h => nomatch h
  exact hall.1

/-! ### Chains of superclasses -/

/-- A type and its superclasses. -/
def chain (t : Types) (id : TypeId) : List TypeId := id :: t.ancestors id

theorem includes_iff :
    t.includes a m = true ↔ ∃ i ∈ t.inclusions a, i.module = m ∨ t.includes i.module m = true := by
  have hmore : t.includes a m = t.includesWithin m (t.size + 1) a := by
    rw [includes, includesWithin_eq (Nat.le_succ t.size)]
  rw [hmore, includesWithin, List.any_eq_true]
  simp only [Bool.or_eq_true, beq_iff_eq, includes]

theorem includes_trans (hab : t.includes a b = true) (hbc : t.includes b c = true) :
    t.includes a c = true := by
  have hwithin : ∀ k a, t.includesWithin b k a = true → t.includes a c = true := by
    intro k
    induction k with
    | zero => exact fun _ h => nomatch h
    | succ k ih =>
      intro a h
      rw [includesWithin, List.any_eq_true] at h
      obtain ⟨i, hi, h⟩ := h
      refine includes_iff.mpr ⟨i, hi, .inr ?_⟩
      rcases Bool.or_eq_true_iff.mp h with h | h
      · rw [beq_iff_eq.mp h]; exact hbc
      · exact ih _ h
  exact hwithin t.size a hab

theorem mem_chain_iff : b ∈ t.chain a ↔ b = a ∨ ∃ p, t.superclass a = some p ∧ b ∈ t.chain p := by
  have hsome : ∀ x, b ∈ t.chain x ↔ t.someWithin (· == b) t.size x = true := fun x => by
    simp only [chain, ancestors, someWithin, List.any_eq_true, beq_iff_eq, exists_eq_right]
  rw [hsome, ← someWithin_eq (Nat.le_succ t.size), someWithin_succ, Bool.or_eq_true, beq_iff_eq]
  refine or_congr eq_comm ?_
  cases t.superclass a <;> simp [hsome]

theorem mem_chain_self : a ∈ t.chain a := List.mem_cons_self

theorem mem_ancestors_of_mem_chain (h : b ∈ t.chain a) (hne : b ≠ a) : b ∈ t.ancestors a :=
  (List.mem_cons.mp h).resolve_left hne

theorem chain_trans (hab : b ∈ t.chain a) (hbc : c ∈ t.chain b) : c ∈ t.chain a := by
  have hwithin : ∀ k a, b ∈ a :: t.ancestorsWithin k a → c ∈ t.chain a := by
    intro k
    induction k with
    | zero =>
      intro a h
      rw [← List.mem_singleton.mp h]; exact hbc
    | succ k ih =>
      intro a h
      rcases List.mem_cons.mp h with rfl | h
      · exact hbc
      · rw [ancestorsWithin] at h
        split at h
        · exact mem_chain_iff.mpr (.inr ⟨_, ‹_›, ih _ h⟩)
        · cases h
  exact hwithin t.size a hab

/-! ### Subtypes -/

/-- The type or one of its superclasses is the other type or includes it. -/
def Reaches (t : Types) (a b : TypeId) : Prop := ∃ x ∈ t.chain a, x = b ∨ t.includes x b = true

theorem isAtomSubtype_iff : t.isAtomSubtype a b = true ↔
    a = b ∨ t.kind a = .noReturn ∨ (∃ args, t.kind a = .applied b args) ∨ t.Reaches a b := by
  have hreaches : ((a :: t.ancestors a).any fun x => x == b || t.includes x b) =
      true ↔ t.Reaches a b := by
    simp only [Reaches, chain, List.any_eq_true, Bool.or_eq_true, beq_iff_eq]
  unfold isAtomSubtype
  rw [Bool.or_eq_true, beq_iff_eq]
  refine or_congr_right ?_
  split
  · simp [*]
  · rename_i hk
    rw [Bool.or_eq_true, beq_iff_eq, hreaches, hk]
    simp
  · rename_i hnoReturn happlied
    rw [hreaches]
    refine ⟨fun h => .inr (.inr h), ?_⟩
    rintro (h | ⟨args, h⟩ | h)
    · exact (hnoReturn h).elim
    · exact (happlied _ _ h).elim
    · exact h

theorem isSubtype_iff :
    t.isSubtype a b = true ↔ a = b ∨ ∀ m ∈ t.atoms a, t.isAtomSubtype m b = true := by
  unfold isSubtype
  rw [Bool.or_eq_true, beq_iff_eq]
  refine or_congr_right ?_
  split
  · rw [atoms_of_union ‹_›, List.all_eq_true]
  · rw [atoms_of_not_union ‹_›]; simp

namespace Hierarchy

theorem superclass_isInheritable (h : t.Hierarchy) (hs : t.superclass a = some b) :
    (t.kind b).isInheritable = true := by
  unfold Types.superclass at hs
  split at hs
  · exact h.superclass a _ b ‹_› hs
  · split at hs
    · exact h.superclass _ _ b ‹_› hs
    · cases hs
  · cases hs

theorem mem_chain (h : t.Hierarchy) (hb : b ∈ t.chain a) :
    b = a ∨ (t.kind b).isInheritable = true := by
  have hwithin : ∀ k a, b ∈ t.ancestorsWithin k a → (t.kind b).isInheritable = true := by
    intro k
    induction k with
    | zero => exact fun _ h => nomatch h
    | succ k ih =>
      intro a hb
      rw [ancestorsWithin] at hb
      split at hb
      · rcases List.mem_cons.mp hb with rfl | hb
        · exact h.superclass_isInheritable ‹_›
        · exact ih _ hb
      · cases hb
  exact (List.mem_cons.mp hb).imp_right (hwithin t.size a)

theorem inclusion_isModule (h : t.Hierarchy) {i : Inclusion} (hi : i ∈ t.inclusions a) :
    t.isModule i.module = true := by
  unfold Types.inclusions at hi
  split at hi
  · exact h.modules _ i hi
  · exact h.modules _ i hi

theorem isModule_of_includes (h : t.Hierarchy) (hi : t.includes a b = true) :
    t.isModule b = true := by
  have hwithin : ∀ k a, t.includesWithin b k a = true → t.isModule b = true := by
    intro k
    induction k with
    | zero => exact fun _ h => nomatch h
    | succ k ih =>
      intro a hi
      rw [includesWithin, List.any_eq_true] at hi
      obtain ⟨i, hi, hb⟩ := hi
      rcases Bool.or_eq_true_iff.mp hb with hb | hb
      · rw [← beq_iff_eq.mp hb]; exact h.inclusion_isModule hi
      · exact ih _ hb
  exact hwithin t.size a hi

/-- An instance has the superclass and the inclusions of its class. -/
theorem reaches_of_applied (h : t.Hierarchy) {args : List TypeId} (ha : t.kind a = .applied b args)
    (hbc : t.Reaches b c) (hne : b ≠ c) : t.Reaches a c := by
  obtain ⟨head, hb⟩ := h.generic a b args ha
  have hsuper : t.superclass a = t.superclass b := by
    simp only [Types.superclass, ha, hb]
  have hincl : t.includes a c = t.includes b c := by
    rw [Bool.eq_iff_iff, includes_iff, includes_iff]
    simp only [inclusions, ha, hb]
  obtain ⟨x, hx, hc⟩ := hbc
  rcases mem_chain_iff.mp hx with rfl | ⟨p, hp, hx⟩
  · exact ⟨a, mem_chain_self, .inr (hincl.trans (hc.resolve_left hne))⟩
  · exact ⟨x, mem_chain_iff.mpr (.inr ⟨p, hsuper.trans hp, hx⟩), hc⟩

/-- What is neither a union nor the subtype of an instance goes on up the chain. -/
theorem isAtomSubtype_trans_or (h : t.Hierarchy) (hab : t.isAtomSubtype a b = true)
    (hbc : t.isAtomSubtype b c = true) :
    t.isAtomSubtype a c = true ∨ (∃ args, t.kind b = .applied c args) ∧ b ∈ t.ancestors a := by
  by_cases heq : b = c
  · exact .inl (heq ▸ hab)
  by_cases heq' : a = b
  · exact .inl (heq' ▸ hbc)
  rcases isAtomSubtype_iff.mp hab with rfl | hk | ⟨args, hk⟩ | ⟨x, hx, hb⟩
  · exact absurd rfl heq'
  · exact .inl (isAtomSubtype_iff.mpr (.inr (.inl hk)))
  · -- `a` is an instance of `b`, which is a class
    obtain ⟨head, hb⟩ := h.generic a b args hk
    rcases isAtomSubtype_iff.mp hbc with rfl | hk' | ⟨args', hk'⟩ | hr
    · exact absurd rfl heq
    · rw [hb] at hk'; cases hk'
    · rw [hb] at hk'; cases hk'
    · exact .inl (isAtomSubtype_iff.mpr (.inr (.inr (.inr (h.reaches_of_applied hk hr heq)))))
  · rcases hb with rfl | hb
    · -- `x` is a superclass of `a`
      have hinherit := (h.mem_chain hx).resolve_left fun h => heq' h.symm
      rcases isAtomSubtype_iff.mp hbc with rfl | hk' | ⟨args', hk'⟩ | ⟨y, hy, hc⟩
      · exact absurd rfl heq
      · rw [hk'] at hinherit; cases hinherit
      · exact .inr ⟨⟨args', hk'⟩, mem_ancestors_of_mem_chain hx fun h => heq' h.symm⟩
      · exact .inl (isAtomSubtype_iff.mpr (.inr (.inr (.inr ⟨y, chain_trans hx hy, hc⟩))))
    · -- `b` is a module, and modules only include others
      have hmodule := h.isModule_of_includes hb
      have hincludes : t.includes b c = true := by
        unfold Types.isModule at hmodule
        split at hmodule
        · rename_i vars hk
          rcases isAtomSubtype_iff.mp hbc with rfl | hk' | ⟨args', hk'⟩ | ⟨y, hy, hc⟩
          · exact absurd rfl heq
          · rw [hk] at hk'; cases hk'
          · rw [hk] at hk'; cases hk'
          · rcases mem_chain_iff.mp hy with rfl | ⟨p, hp, -⟩
            · exact hc.resolve_left heq
            · simp [Types.superclass, hk] at hp
        · cases hmodule
      exact .inl
        (isAtomSubtype_iff.mpr (.inr (.inr (.inr ⟨x, hx, .inr (includes_trans hb hincludes)⟩))))

/-- Only `NoReturn` is below a union without being one. -/
theorem noReturn_of_union (h : t.Hierarchy) {members : List TypeId} (hb : t.kind b = .union members)
    (hne : a ≠ b) (hab : t.isAtomSubtype a b = true) : t.kind a = .noReturn := by
  rcases isAtomSubtype_iff.mp hab with rfl | hk | ⟨args, hk⟩ | ⟨x, hx, rfl | hb'⟩
  · exact absurd rfl hne
  · exact hk
  · obtain ⟨head, hc⟩ := h.generic a b args hk
    rw [hb] at hc; cases hc
  · have hinherit := (h.mem_chain hx).resolve_left fun h => hne h.symm
    rw [hb] at hinherit; cases hinherit
  · have hmodule := h.isModule_of_includes hb'
    rw [Types.isModule, hb] at hmodule; cases hmodule

end Hierarchy

/-- A subtype of a subtype is a subtype, unless it gets there by inheriting from an instance of a
generic class: this is a subtype of the generic class, but the class that inherits from it is
not. -/
theorem Declarations.isSubtype_trans_or (h : Declarations initial t) (hab : t.isSubtype a b = true)
    (hbc : t.isSubtype b c = true) :
    t.isSubtype a c = true ∨ (∃ args, t.kind b = .applied c args) ∧
      ∃ m ∈ t.atoms a, b ∈ t.ancestors m := by
  have hh := h.hierarchy
  have hcan := (h.operations.lawful lawful_initial).canonical
  by_cases heq : a = b
  · exact .inl (heq ▸ hbc)
  by_cases heq' : b = c
  · exact .inl (heq' ▸ hab)
  have hatoms := (isSubtype_iff.mp hab).resolve_left heq
  have hatoms' := (isSubtype_iff.mp hbc).resolve_left heq'
  rcases t.atoms_cases b with hunion | ⟨-, hb⟩
  · -- only `NoReturn` can be below a union and be no part of it
    refine .inl (isSubtype_iff.mpr (.inr fun m hm => ?_))
    have hne : m ≠ b := fun h => hcan.not_union_of_mem_atoms hm _ (h ▸ hunion)
    exact isAtomSubtype_iff.mpr (.inr (.inl (hh.noReturn_of_union hunion hne (hatoms m hm))))
  · rw [hb] at hatoms'
    have hbc' := hatoms' b (List.mem_singleton.mpr rfl)
    by_cases hall : ∀ m ∈ t.atoms a, t.isAtomSubtype m c = true
    · exact .inl (isSubtype_iff.mpr (.inr hall))
    · obtain ⟨m, hm⟩ := not_forall.mp hall
      obtain ⟨hm, hmc⟩ := Classical.not_imp.mp hm
      obtain ⟨hargs, hanc⟩ := (hh.isAtomSubtype_trans_or (hatoms m hm) hbc').resolve_left hmc
      exact .inr ⟨hargs, m, hm, hanc⟩

/-! ### A class that inherits from an instance -/

/-- A table with a generic class `Box`. -/
def withBox : Types :=
  (initial.declare .program "Box"
    (.classType { superclass := some .reference, typeVars := some ["T"] })).2

/-- `Box`, `Box(Int32)`, and a class `Foo` that inherits from `Box(Int32)`. -/
def withInstanceParent : Types :=
  ((withBox.apply ⟨24⟩ [.int32]).2.declare .program "Foo" (plainClass ⟨25⟩)).2

set_option maxRecDepth 3000 in
theorem applyGeneric_withBox :
    withBox.applyGeneric ⟨24⟩ [.int32] = .ok (withBox.apply ⟨24⟩ [.int32]) := by
  have hk : withBox.kind ⟨24⟩ = .classType
      { superclass := some .reference, typeVars := some ["T"] } := rfl
  simp [applyGeneric, hk]

set_option maxRecDepth 3000 in
theorem declarations_withInstanceParent : Declarations initial withInstanceParent := by
  have hbox : Declaration initial withBox :=
    .declare .program "Box" rfl fun head parent hk hp => by cases hk; cases hp; rfl
  have hinstance : Declaration withBox (withBox.apply ⟨24⟩ [.int32]).2 :=
    .applyGeneric applyGeneric_withBox
  have hfoo : Declaration (withBox.apply ⟨24⟩ [.int32]).2 withInstanceParent :=
    .declare .program "Foo" rfl fun head parent hk hp => by cases hk; cases hp; decide +kernel
  exact ((Relation.ReflTransGen.single hbox).tail hinstance).tail hfoo

theorem Declarations.isSubtype_trans_or_foo :
    Declarations initial withInstanceParent ∧ withInstanceParent.isSubtype ⟨26⟩ ⟨25⟩ = true ∧
      withInstanceParent.isSubtype ⟨25⟩ .reference = true ∧
      (withInstanceParent.isSubtype ⟨26⟩ .reference = true ∨
        (∃ args, withInstanceParent.kind ⟨25⟩ = .applied .reference args) ∧
          ∃ m ∈ withInstanceParent.atoms ⟨26⟩, ⟨25⟩ ∈ withInstanceParent.ancestors m) :=
  ⟨declarations_withInstanceParent, by decide +kernel, by decide +kernel,
    declarations_withInstanceParent.isSubtype_trans_or (by decide +kernel) (by decide +kernel)⟩

/-- `Foo` is a `Box(Int32)` and `Box(Int32)` is a `Box`, but `Foo` is no `Box`. -/
theorem not_isSubtype_trans : ¬ ∀ t, Declarations initial t → ∀ a b c : TypeId,
    t.isSubtype a b = true → t.isSubtype b c = true → t.isSubtype a c = true := fun h =>
  absurd (h withInstanceParent declarations_withInstanceParent ⟨26⟩ ⟨25⟩ ⟨24⟩ (by decide +kernel)
    (by decide +kernel)) (by decide +kernel)

end Types

end TypeFlow

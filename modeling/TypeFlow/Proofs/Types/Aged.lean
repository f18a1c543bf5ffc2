import TypeFlow.Proofs.Types.Built
import TypeFlow.Proofs.Types.Hierarchy
import TypeFlow.Types.Lookup

/-!
# Tables that age

`Forming` are the operations on a table when the types that they are given are types of the table.
What they lead to knows a union, an instance or a metaclass by what it is made of, which is older
than the type itself, as is what the type was declared in. So the searches through superclasses and
the names of types end (`Formings.wellFounded`).
-/

namespace TypeFlow

/-- The kinds of the types that are found again by what they are made of. -/
def TypeKind.isInterned : TypeKind → Bool
  | .applied _ _ | .union _ | .metaclass _ => true
  | _ => false

theorem TypeKind.isInterned_of_isDeclared {kind : TypeKind} (h : kind.isDeclared = true) :
    kind.isInterned = false := by
  cases kind <;> first | rfl | cases h

namespace Types
variable {t t' : Types} {id : TypeId} {f : TypeEntry → TypeEntry}

/-! ### Ages -/

/-- What a type is made of and what it was declared in was there before it. An instance of a generic
class lies where that class was declared. -/
structure Aged (t : Types) : Prop where
  mentions : ∀ id, ∀ m ∈ (t.kind id).mentions, m.index < id.index
  container : ∀ id c, (t.get id).container = some c → c.index < id.index
  instances : ∀ id generic args, t.kind id = .applied generic args →
    (t.get id).container = (t.get generic).container

theorem aged_initial : initial.Aged := by
  have hmentions : ∀ i < initial.size, ∀ m ∈ (initial.kind ⟨i⟩).mentions, m.index < i := by
    decide +kernel
  have hcontainer : ∀ i < initial.size, ∀ c ∈ (initial.get ⟨i⟩).container, c.index < i := by
    decide +kernel
  have hplain : ∀ e ∈ initial.entries.toList, ∀ m ∈ e.kind.mentions, e.kind.isDeclared = true := by
    decide +kernel
  refine ⟨fun id m hm => ?_, fun id c hc => ?_, fun id generic args hk => ?_⟩ <;>
    rcases Nat.lt_or_ge id.index initial.size with hlt | hge
  · exact hmentions id.index hlt m hm
  · rw [kind_of_le hge] at hm; cases hm
  · exact hcontainer id.index hlt c hc
  · rw [get_of_le hge] at hc; cases hc
  · have hk' : (initial.get id).kind = .applied generic args := hk
    have h :=
      hplain _ (get_of_lt hlt ▸ Array.getElem_mem_toList hlt) generic
        (by rw [hk']; simp [TypeKind.mentions])
    rw [hk'] at h; cases h
  · rw [kind_of_le hge] at hk; cases hk

namespace Aged

theorem gains {name : String} {container : Option TypeId} {kind : TypeKind} (h : t.Aged)
    (hg : t.Gains name container kind t') (hm : ∀ m ∈ kind.mentions, m.index < t.size)
    (hc : ∀ c, container = some c → c.index < t.size)
    (hi : ∀ generic args, kind = .applied generic args → container = (t.get generic).container) :
    t'.Aged := by
  have hcontainer : ∀ id, (t'.get id).container =
      if id.index = t.size then container else (t.get id).container :=
    hg.field_eq TypeEntry.container fun _ => rfl
  refine ⟨fun id m hmem => ?_, fun id c hcont => ?_, fun id generic args hk => ?_⟩
  · rw [hg.kind_eq] at hmem
    split at hmem
    · rename_i heq
      rw [heq]; exact hm m hmem
    · exact h.mentions id m hmem
  · rw [hcontainer] at hcont
    split at hcont
    · rename_i heq
      rw [heq]; exact hc c hcont
    · exact h.container id c hcont
  · rw [hg.kind_eq] at hk
    rw [hcontainer, hcontainer]
    split at hk
    · rename_i heq
      have hgeneric := hm generic (by rw [hk]; simp [TypeKind.mentions])
      rw [if_pos heq, if_neg (Nat.ne_of_lt hgeneric)]
      exact hi generic args hk
    · rename_i hne
      have hid : id.index < t.size :=
        Nat.lt_of_not_le fun hle => by rw [kind_of_le hle] at hk; cases hk
      have hgeneric := h.mentions id generic (by rw [hk]; simp [TypeKind.mentions])
      rw [if_neg hne, if_neg (Nat.ne_of_lt (Nat.lt_trans hgeneric hid))]
      exact h.instances id generic args hk

theorem modify (h : t.Aged) (hf : TypeEntry.Extends f) (hc : ∀ e, (f e).container = e.container)
    (owner : TypeId) : (t.modify owner f hf).Aged := by
  refine ⟨fun id m hm => ?_, fun id c hcont => ?_, fun id generic args hgeneric => ?_⟩
  · rw [kind_modify] at hm
    exact h.mentions id m hm
  · rw [modify_field TypeEntry.container hc] at hcont
    exact h.container id c hcont
  · rw [kind_modify] at hgeneric
    rw [modify_field TypeEntry.container hc, modify_field TypeEntry.container hc]
    exact h.instances id generic args hgeneric

/-- The container of a type is in the table if the type is. -/
theorem container_lt (h : t.Aged) (hid : id.index < t.size) {c : TypeId}
    (hc : (t.get id).container = some c) :
    c.index < t.size :=
  Nat.lt_trans (h.container id c hc) hid

theorem subject_lt (h : t.Aged) {subject : TypeId} (hk : t.kind id = .metaclass subject) :
    subject.index < id.index :=
  h.mentions id subject (by simp [hk, TypeKind.mentions])

theorem generic_lt (h : t.Aged) {generic : TypeId} {args : List TypeId}
    (hk : t.kind id = .applied generic args) :
    generic.index < id.index :=
  h.mentions id generic (by simp [hk, TypeKind.mentions])

theorem superclass_lt (h : t.Aged) {parent : TypeId} (hs : t.superclass id = some parent) :
    parent.index < id.index := by
  have hclass : ∀ {id : TypeId} {head : ClassHead}, t.kind id = .classType head →
      head.superclass = some parent → parent.index < id.index := fun {id _} hk hs =>
    h.mentions id parent (by simp [hk, TypeKind.mentions, hs])
  unfold Types.superclass at hs
  split at hs
  · exact hclass ‹_› hs
  · rename_i hk
    split at hs
    · exact Nat.lt_trans (hclass ‹_› hs) (h.generic_lt hk)
    · cases hs
  · cases hs

theorem containerWithin_lt (h : t.Aged) (fuel : Nat) {c : TypeId}
    (hc : t.containerWithin fuel id = some c) : c.index < id.index := by
  induction fuel generalizing id with
  | zero => cases hc
  | succ fuel ih =>
    rw [containerWithin] at hc
    split at hc
    · exact Nat.lt_trans (ih hc) (h.subject_lt ‹_›)
    · exact h.container id c hc

theorem lt_of_mem_ancestors (h : t.Aged) (hb : b ∈ t.ancestors a) : b.index < a.index := by
  have hwithin : ∀ k a, b ∈ t.ancestorsWithin k a → b.index < a.index := by
    intro k
    induction k with
    | zero => exact fun _ h => nomatch h
    | succ k ih =>
      intro a hb
      rw [ancestorsWithin] at hb
      split at hb
      · have hlt := h.superclass_lt ‹_›
        rcases List.mem_cons.mp hb with rfl | hb
        · exact hlt
        · exact Nat.lt_trans (ih _ hb) hlt
      · cases hb
  exact hwithin t.size a hb

end Aged

/-! ### Names and superclasses -/

theorem GrowsTo.nameWithin_eq (h : t.GrowsTo t') (ha : t.Aged) {room room' : Nat}
    (hid : id.index < t.size) (hroom : id.index < room) (hroom' : id.index < room') :
    t'.nameWithin room' id = t.nameWithin room id := by
  induction room generalizing id room' with
  | zero => omega
  | succ room ih =>
    obtain ⟨room', rfl⟩ := Nat.exists_eq_succ_of_ne_zero (Nat.ne_of_gt (Nat.zero_lt_of_lt hroom'))
    have hnext : ∀ older : TypeId, older.index < id.index →
        t'.nameWithin room' older = t.nameWithin room older := fun older hlt =>
      ih (by omega) (by omega) (by omega)
    have hmap : ∀ ids : List TypeId, (∀ m ∈ ids, m.index < id.index) →
        ids.map (t'.nameWithin room') = ids.map (t.nameWithin room) := fun ids hids =>
      List.map_congr_left fun m hm => hnext m (hids m hm)
    have hmentions := ha.mentions id
    have hkind : (t'.get id).kind = (t.get id).kind := h.kind_eq hid
    have hname := h.field_eq TypeEntry.name (fun _ => rfl) hid
    have hcontainer := h.field_eq TypeEntry.container (fun _ => rfl) hid
    simp only [nameWithin, hkind, hname, hcontainer]
    unfold kind at hmentions
    split <;> rename_i hk <;> simp only [hk, TypeKind.mentions] at hmentions
    · rfl
    · rfl
    · rw [hnext _ (hmentions _ (by simp)), hmap _ fun m hm => hmentions m (by simp [hm])]
    · rw [hmap _ hmentions]
    · rw [hnext _ (hmentions _ (by simp))]
    · cases hc : (t.get id).container with
      | none => rfl
      | some container => simp only [hnext container (ha.container id container hc)]

theorem Aged.ancestorsWithin_eq (h : t.Aged) {room room' : Nat} (hroom : id.index < room)
    (hroom' : id.index < room') : t.ancestorsWithin room id = t.ancestorsWithin room' id := by
  induction room generalizing id room' with
  | zero => omega
  | succ room ih =>
    obtain ⟨room', rfl⟩ := Nat.exists_eq_succ_of_ne_zero (Nat.ne_of_gt (Nat.zero_lt_of_lt hroom'))
    rw [ancestorsWithin, ancestorsWithin]
    cases hs : t.superclass id with
    | none => rfl
    | some parent =>
      have hlt := h.superclass_lt hs
      exact congrArg (parent :: ·) (ih (by omega) (by omega))

/-- Behind a type comes its superclass with those behind that one. -/
theorem Aged.ancestors_eq (h : t.Aged) (hid : id.index < t.size) :
    t.ancestors id = match t.superclass id with
      | some parent => t.chain parent
      | none => [] := by
  rw [ancestors, h.ancestorsWithin_eq hid (Nat.lt_succ_of_lt hid), ancestorsWithin]
  rfl

/-- By induction on the type: the superclass is older. -/
theorem Aged.isChain (h : t.Aged) (hid : id.index < t.size) :
    (t.chain id).Nodup ∧ (t.chain id).IsChain (fun a b => t.superclass a = some b) ∧
      ∃ top ∈ (t.chain id).getLast?, t.superclass top = none := by
  induction hn : id.index using Nat.strong_induction_on generalizing id with
  | _ n ih =>
    subst hn
    have hself : id ∉ t.ancestors id := fun hmem => Nat.lt_irrefl _ (h.lt_of_mem_ancestors hmem)
    have heq := h.ancestors_eq hid
    rw [chain]
    cases hs : t.superclass id with
    | none =>
      rw [hs] at heq
      rw [heq]
      exact ⟨List.nodup_singleton id, .singleton id, id, rfl, hs⟩
    | some parent =>
      rw [hs] at heq
      have hlt := h.superclass_lt hs
      obtain ⟨hnodup, hchain, top, htop, hnone⟩ := ih _ hlt (Nat.lt_trans hlt hid) rfl
      rw [heq] at hself ⊢
      refine ⟨List.nodup_cons.mpr ⟨hself, hnodup⟩, .cons_cons hs hchain, top, ?_, hnone⟩
      show top ∈ (id :: parent :: t.ancestors parent).getLast?
      rw [List.getLast?_cons_cons]
      exact htop

/-! ### Types that are found again -/

/-- What is known by its parts is found by them. -/
def Identified (t : Types) : Prop :=
  ∀ id, (t.kind id).isInterned = true → t.known? (t.kind id) = some id

theorem isInterned_initial (id : TypeId) : (initial.kind id).isInterned = false := by
  have hnone : ∀ e ∈ initial.entries.toList, e.kind.isInterned = false := by decide +kernel
  rcases Nat.lt_or_ge id.index initial.size with hlt | hge
  · rw [kind, get_of_lt hlt]
    exact hnone _ (Array.getElem_mem_toList hlt)
  · rw [kind_of_le hge]; rfl

theorem identified_initial : initial.Identified := fun id hid => by
  rw [isInterned_initial id] at hid; cases hid

namespace Identified
variable {name : String} {container : Option TypeId} {kind : TypeKind}

/-- A type that is known by its parts is the one that is remembered by them. -/
theorem known?_iff (h : t.Identified) (kind : TypeKind) (hk : kind.isInterned = true) :
    t.known? kind = some id ↔ t.kind id = kind :=
  ⟨fun hid => (known?_eq_some hid).2, fun heq => heq ▸ h id (heq ▸ hk)⟩

/-- Two types that are made in one way from one and the same are one type. -/
theorem eq {other : TypeId} (h : t.Identified) (hk : kind.isInterned = true)
    (hid : t.kind id = kind) (hother : t.kind other = kind) : id = other :=
  Option.some.inj (((h.known?_iff kind hk).mpr hid).symm.trans ((h.known?_iff kind hk).mpr hother))

theorem gains (h : t.Identified) (hg : t.Gains name container kind t')
    (hfound : kind.isInterned = true → t'.known? kind = some ⟨t.size⟩) :
    t'.Identified := fun id hid => by
  rw [hg.kind_eq] at hid ⊢
  split at hid
  · rename_i heq
    rw [if_pos heq, hfound hid, ← heq]
  · rename_i hne
    rw [if_neg hne]
    exact hg.known _ id (h id hid)

theorem interns {r : TypeId × Types} (h : t.Identified) (hi : t.Interns name container kind r)
    (hs : ∀ subject, kind = .metaclass subject → subject.index < t.size) : r.2.Identified := by
  cases hi with
  | known => exact h
  | added _ hg hfound => exact h.gains hg fun _ => hfound hs

theorem apply (h : t.Identified) (generic : TypeId) (args : List TypeId) :
    (t.apply generic args).2.Identified :=
  h.interns (interns_apply t generic args) nofun

theorem metaclassOf (h : t.Identified) (hid : id.index < t.size) :
    (t.metaclassOf id).2.Identified := by
  by_cases hp : id = .program
  · subst hp; rw [metaclassOf_program]; exact h
  · refine h.interns (interns_metaclassOf t hp) fun subject heq => ?_
    cases heq; exact hid

theorem join (h : t.Identified) (ids : List TypeId) : (t.join ids).2.Identified := by
  unfold Types.join
  split
  · exact h
  · exact h
  · exact h.interns (interns_unionOf t _) nofun

theorem modify (h : t.Identified) (hf : TypeEntry.Extends f) (owner : TypeId) :
    (t.modify owner f hf).Identified := by
  intro id hid
  rw [kind_modify] at hid ⊢
  exact (keepsKinds_modify hf t owner).known _ id (h id hid)

end Identified

/-! ### Operations -/

/-- An operation that is given types of the table. -/
inductive Forming (t : Types) : Types → Prop where
  | join {ids : List TypeId} : (∀ id ∈ ids, id.index < t.size) → Forming t (t.join ids).2
  | metaclassOf {id : TypeId} : id.index < t.size → Forming t (t.metaclassOf id).2
  | applyGeneric {generic type : TypeId} {args : List TypeId}
      {t' : Types} : (∀ a ∈ args, a.index < t.size) →
      t.applyGeneric generic args = .ok (type, t') → Forming t t'
  | pointerTo {id : TypeId} : id.index < t.size → Forming t (t.pointerTo id).2
  | includeModule (owner : TypeId) (inclusion : Inclusion) : Forming t
      (t.includeModule owner inclusion)
  | declare {container : TypeId} (name : String) {kind : TypeKind} : container.index < t.size →
      kind.isDeclared = true → (∀ m ∈ kind.mentions, m.index < t.size) →
        Forming t (t.declare container name kind).2
  /-- Methods, macros, constants, functions and instance variables of a type. -/
  | extend (owner : TypeId) {f : TypeEntry → TypeEntry} (hf : TypeEntry.Extends f) :
      (∀ e, (f e).container = e.container) → Forming t (t.modify owner f hf)

abbrev Formings : Types → Types → Prop := Relation.ReflTransGen Forming

theorem Forming.operation (h : Forming t t') : Operation t t' := by
  cases h with
  | join hids => exact .join hids
  | metaclassOf => exact .metaclassOf _
  | applyGeneric _ h => exact .applyGeneric h
  | pointerTo => exact .pointerTo _
  | includeModule owner inclusion => exact .includeModule owner inclusion
  | declare name _ hk => exact .declare _ name hk
  | extend owner hf => exact .extend owner hf

theorem Forming.aged (h : Forming t t') (ht : t.MembersHeld) (ha : t.Aged) : t'.Aged := by
  have hbuiltin : ∀ {id : TypeId},
      id.index ≤ TypeId.noReturn.index → id.index < t.size := fun hle =>
    Nat.lt_of_le_of_lt hle ht.builtins
  have happly : ∀ {generic : TypeId} {args : List TypeId}, generic.index < t.size →
      (∀ a ∈ args, a.index < t.size) →
      (t.apply generic args).2.Aged := fun {generic args} hg hargs => by
    refine (interns_apply t generic args).preserves ha fun t' hadds =>
      ha.gains hadds (fun m hm => ?_) (fun c hc => ha.container_lt hg hc) fun other args' heq => ?_
    · rcases List.mem_cons.mp hm with rfl | hm
      · exact hg
      · exact hargs m hm
    · cases heq; rfl
  have hprogram : ∀ c, some TypeId.program = some c → c.index < t.size := fun c hc => by
    cases hc; exact hbuiltin (by decide)
  cases h with
  | join hids =>
    exact join_preserves ha fun _ hadds =>
      ha.gains hadds (fun m hm => ht.canonicalMember_lt hids hm) hprogram nofun
  | metaclassOf hid =>
    exact metaclassOf_preserves ha fun _ hadds =>
      ha.gains hadds (fun m hm => by rwa [List.mem_singleton.mp hm])
        (fun c hc => ha.container_lt hid hc) nofun
  | @applyGeneric generic type args _ hargs h =>
    rw [show t' = (t.apply generic args).2 from congrArg Prod.snd (eq_apply_of_applyGeneric h)]
    obtain ⟨head, hk⟩ := kind_of_applyGeneric h
    refine happly (Nat.lt_of_not_le fun hle => ?_) hargs
    rw [kind_of_le hle] at hk; cases hk
  | pointerTo hid =>
    exact happly (hbuiltin (by decide)) fun a ha => by rwa [List.mem_singleton.mp ha]
  | includeModule owner =>
    refine ha.modify _ (fun e => ?_) owner
    split <;> rfl
  | @declare container name kind hc hk hm =>
    have hpush := ha.gains (gains_push t name (some container) kind) hm
      (fun c heq => Option.some.inj heq ▸ hc) fun _ _ (h : kind = _) => by rw [h] at hk; cases hk
    refine hpush.modify ?_ ?_ container
    · exact ⟨fun _ => rfl, fun _ => rfl⟩
    · exact fun _ => rfl
  | extend owner hf hc => exact ha.modify hf hc owner

theorem Forming.identified (h : Forming t t') (ht : t.Identified) : t'.Identified := by
  cases h with
  | join => exact ht.join _
  | metaclassOf hid => exact ht.metaclassOf hid
  | @applyGeneric generic type args _ _ h =>
    rw [show t' = (t.apply generic args).2 from congrArg Prod.snd (eq_apply_of_applyGeneric h)]
    exact ht.apply generic args
  | pointerTo => exact ht.apply _ _
  | includeModule owner => exact ht.modify _ owner
  | @declare container name kind _ hk =>
    have hpush := ht.gains (gains_push t name (some container) kind) fun hi => by
      rw [TypeKind.isInterned_of_isDeclared hk] at hi; cases hi
    refine hpush.modify ?_ container
    exact ⟨fun _ => rfl, fun _ => rfl⟩
  | extend owner hf => exact ht.modify hf owner

theorem Formings.kept (h : Formings initial t) : t.Lawful ∧ t.Aged ∧ t.Identified := by
  induction h with
  | refl => exact ⟨lawful_initial, aged_initial, identified_initial⟩
  | tail _ h ih =>
    obtain ⟨hlawful, haged, hidentified⟩ := ih
    exact ⟨h.operation.lawful hlawful, h.aged hlawful.held haged, h.identified hidentified⟩

/-- The unions and the instances that are remembered by their parts, and the metaclasses that stand
in the entries of types, are those that there are, so that types that are made of the same are the
same. A union has two members or more in increasing order, and neither unions nor `NoReturn` among
them. What a type is made of, its superclass and its container are older than the type: the
superclasses end at one that has none, and the room for the search of them and for the name is never
used up. -/
theorem Formings.wellFounded (h : Formings initial t) :
    (∀ a b members members', t.kind a = .union members → t.kind b = .union members' →
      (∀ m, m ∈ members ↔ m ∈ members') → a = b) ∧
    (∀ a b generic args, t.kind a = .applied generic args →
      t.kind b = .applied generic args → a = b) ∧
    (∀ a b subject, t.kind a = .metaclass subject → t.kind b = .metaclass subject → a = b) ∧
    (∀ members a, t.unions.get? members = some a ↔ t.kind a = .union members) ∧
    (∀ generic args a, t.instances.get? (generic, args) = some a ↔
      t.kind a = .applied generic args) ∧
    (∀ subject a, t.metaclass? subject = some a ↔ t.kind a = .metaclass subject) ∧
    (∀ a members, t.kind a = .union members → 2 ≤ members.length ∧ Increasing members ∧
      ∀ m ∈ members, m ≠ .noReturn ∧ ∀ ms, t.kind m ≠ .union ms) ∧
    (∀ a, (∀ m ∈ (t.kind a).mentions, m.index < a.index) ∧
      (∀ c, (t.get a).container = some c → c.index < a.index) ∧
      ∀ parent, t.superclass a = some parent → parent.index < a.index) ∧
    ∀ a, a.index < t.size →
      (t.chain a).Nodup ∧ (t.chain a).IsChain (fun b c => t.superclass b = some c) ∧
      (∃ top ∈ (t.chain a).getLast?, t.superclass top = none) ∧
      ∀ room, a.index < room → t.ancestorsWithin room a = t.ancestors a ∧
        t.nameWithin room a = t.name a := by
  obtain ⟨⟨hcanonical, -⟩, haged, hidentified⟩ := h.kept
  refine ⟨fun a b members members' ha hb hmem => ?_, fun a b generic args ha hb => ?_,
    fun a b subject ha hb => ?_, fun members a => hidentified.known?_iff (.union members) rfl,
    fun generic args a => hidentified.known?_iff (.applied generic args) rfl,
    fun subject a => hidentified.known?_iff (.metaclass subject) rfl, fun a members ha =>
      ⟨hcanonical.two_le a members ha, hcanonical.increasing a members ha, fun m hm => ⟨?_, ?_⟩⟩,
    fun a => ⟨haged.mentions a, haged.container a, fun parent => haged.superclass_lt⟩,
      fun a ha => ?_⟩
  · have hsame :=
      (hcanonical.increasing a members ha).eq_of_mem_iff (hcanonical.increasing b members' hb) hmem
    exact hidentified.eq rfl ha (hsame ▸ hb)
  · exact hidentified.eq rfl ha hb
  · exact hidentified.eq rfl ha hb
  · rintro rfl
    exact hcanonical.noReturn_notMem a members ha hm
  · exact hcanonical.flat a members ha m hm
  · obtain ⟨hnodup, hchain, htop⟩ := haged.isChain ha
    refine ⟨hnodup, hchain, htop, fun room hroom => ⟨haged.ancestorsWithin_eq hroom ha, ?_⟩⟩
    exact (GrowsTo.refl t).nameWithin_eq haged ha ha hroom

/-- `Box(Int32) | Nil` with its metaclass, and the alias `Box::Item` of it. -/
def withItem : Types :=
  (((withBox.apply ⟨24⟩ [.int32]).2.join [⟨25⟩, .nil]).2.metaclassOf ⟨26⟩).2.declare
    ⟨24⟩ "Item" (.alias ⟨26⟩) |>.2

theorem formings_withItem : Formings initial withItem := by
  have hbox : Forming initial withBox := .declare "Box" (by decide +kernel) rfl (by decide +kernel)
  have hinstance : Forming withBox (withBox.apply ⟨24⟩ [.int32]).2 :=
    .applyGeneric (by decide +kernel) applyGeneric_withBox
  have hjoin : Formings initial ((withBox.apply ⟨24⟩ [.int32]).2.join [⟨25⟩, .nil]).2 :=
    ((Relation.ReflTransGen.single hbox).tail hinstance).tail (.join (by decide +kernel))
  refine (hjoin.tail (.metaclassOf ?_)).tail (.declare "Item" ?_ rfl ?_) <;> decide +kernel

theorem Formings.wellFounded_withItem : Formings initial withItem ∧
    (∀ b, withItem.kind b = .applied ⟨24⟩ [.int32] → ⟨25⟩ = b) ∧
    (∀ b, withItem.kind b = .metaclass ⟨26⟩ → ⟨27⟩ = b) ∧
    (∀ b members, withItem.kind b = .union members →
      (∀ m, m ∈ [⟨25⟩, .nil] ↔ m ∈ members) → ⟨26⟩ = b) ∧
    ∀ room, 28 < room → withItem.nameWithin room ⟨28⟩ = "Box::Item" ∧
      withItem.nameWithin room ⟨27⟩ = "Nil | Box(Int32):Class" ∧
      withItem.ancestorsWithin room ⟨25⟩ = [.reference, .object] := by
  obtain ⟨hunion, happlied, hmetaclass, -, -, -, -, -, hends⟩ := formings_withItem.wellFounded
  have hkinds : withItem.kind ⟨25⟩ = .applied ⟨24⟩ [.int32] ∧
      withItem.kind ⟨26⟩ = .union [.nil, ⟨25⟩] ∧
      withItem.kind ⟨27⟩ = .metaclass ⟨26⟩ := by decide +kernel
  have hnames : withItem.name ⟨28⟩ = "Box::Item" ∧ withItem.name ⟨27⟩ = "Nil | Box(Int32):Class" ∧
      withItem.ancestors ⟨25⟩ = [.reference, .object] := by decide +kernel
  have hsize : withItem.size = 29 := by decide +kernel
  refine ⟨formings_withItem, fun b => happlied _ b _ _ hkinds.1, fun b =>
    hmetaclass _ b _ hkinds.2.2,
    fun b members hb hmem => hunion _ b _ members hkinds.2.1 hb fun m => ?_,
      fun room hroom => ⟨?_, ?_, ?_⟩⟩
  · rw [← hmem]
    simp [or_comm]
  · rw [((hends ⟨28⟩ (by rw [hsize]; decide)).2.2.2 room hroom).2, hnames.1]
  · rw [((hends ⟨27⟩ (by rw [hsize]; decide)).2.2.2 room (Nat.lt_of_succ_lt hroom)).2, hnames.2.1]
  · rw [((hends ⟨25⟩ (by rw [hsize]; decide)).2.2.2 room (Nat.lt_trans (by decide) hroom)).1,
      hnames.2.2]

end Types

end TypeFlow

import TypeFlow.Types.Ancestry
import TypeFlow.Types.Join

/-!
# Growth of the table of types

`t.GrowsTo t'`: the table `t'` has the entries of `t`, of which some may have got metaclasses since,
and perhaps more after them in which nothing is declared yet. Unions, instances and metaclasses are
known by what they are made of (`known?`): looking one up finds it, or adds an entry and remembers
it (`Interns`). What is known stays known in every larger table, so that `Settles f t`: once `f` has
answered, it gives the same answer in every table that has grown from the one it left, and adds
nothing more.
-/

namespace TypeFlow

namespace TypeEntry

/-- All that an entry says, but for its metaclass. -/
def content (e : TypeEntry) : TypeEntry := { e with metaclass := none }

theorem field_of_content {β : Type} {e e' : TypeEntry} (h : e.content = e'.content)
    (field : TypeEntry → β) (hf : ∀ e, field e.content = field e) : field e = field e' := by
  rw [← hf, h, hf]

/-- Nothing is declared in the type. -/
def Bare (e : TypeEntry) : Prop :=
  e.content = { name := e.name, container := e.container, kind := e.kind }

theorem Bare.of_content {e e' : TypeEntry} (h : e.content = e'.content) (hb : e'.Bare) :
    e.Bare := by
  change e.content = { name := e.content.name, container := e.content.container,
                       kind := e.content.kind }
  rw [h]
  exact hb

theorem Bare.field_eq {β : Type} {e : TypeEntry} (h : e.Bare) (field : TypeEntry → β)
    (hf : ∀ e, field e.content = field e) :
    field e = field { name := e.name, container := e.container, kind := e.kind } := by
  rw [← hf, h]

end TypeEntry

namespace Types
variable {t t' t'' : Types} {id : TypeId} {name : String}
  {container : Option TypeId} {kind : TypeKind}

theorem get_of_lt (h : id.index < t.size) : t.get id = t.entries[id.index] := by
  rw [get, Array.getElem?_eq_getElem h]; rfl

theorem get_of_le (h : t.size ≤ id.index) : t.get id = default := by
  rw [get, Array.getElem?_eq_none h]; rfl

theorem kind_of_le (h : t.size ≤ id.index) : t.kind id = .program := by
  rw [Types.kind, get_of_le h]; rfl

theorem metaclass?_of_le (h : t.size ≤ id.index) : t.metaclass? id = none := by
  rw [metaclass?, get_of_le h]; rfl

/-! ### What is known -/

/-- The type of a kind that is known by its parts, if it was asked for before. -/
def known? (t : Types) : TypeKind → Option TypeId
  | .union members => t.unions.get? members
  | .applied generic args => t.instances.get? (generic, args)
  | .metaclass subject => t.metaclass? subject
  | _ => none

theorem kindIn?_eq_some :
    kindIn? t.entries id = some kind ↔ id.index < t.size ∧ t.kind id = kind := by
  rw [kindIn?, Option.map_eq_some_iff]
  constructor
  · rintro ⟨entry, he, rfl⟩
    obtain ⟨hlt, rfl⟩ := Array.getElem?_eq_some_iff.mp he
    exact ⟨hlt, by rw [Types.kind, get_of_lt hlt]⟩
  · rintro ⟨hlt, rfl⟩
    exact ⟨t.entries[id.index], Array.getElem?_eq_getElem hlt, by rw [Types.kind, get_of_lt hlt]⟩

/-- What is known by some parts is made of them. -/
theorem known?_eq_some (h : t.known? kind = some id) : id.index < t.size ∧ t.kind id = kind := by
  refine kindIn?_eq_some.mp ?_
  cases kind with
  | union members => exact t.inStep.union members id h
  | applied generic args => exact t.inStep.applied generic args id h
  | metaclass subject =>
    have hlt : subject.index < t.size := Nat.lt_of_not_le fun hle => by
      rw [show t.known? (.metaclass subject) = none from metaclass?_of_le hle] at h; cases h
    refine t.inStep.metaclass subject _ id (Array.getElem?_eq_getElem hlt) ?_
    rw [← get_of_lt hlt]
    exact h
  | _ => cases h

/-- What is known stays known. -/
structure Remembers (t t' : Types) : Prop where
  known : ∀ kind id, t.known? kind = some id → t'.known? kind = some id

/-- The caches and the metaclasses of types are as they were. -/
theorem Remembers.of_eq (hunions : t'.unions = t.unions) (hinstances : t'.instances = t.instances)
    (hmetaclass : ∀ id, t.metaclass? id ≠ none → t'.metaclass? id = t.metaclass? id) :
    t.Remembers t' := by
  refine ⟨fun kind id h => ?_⟩
  cases kind with
  | union members => rwa [known?, hunions]
  | applied generic args => rwa [known?, hinstances]
  | metaclass subject =>
    have h : t.metaclass? subject = some id := h
    exact (hmetaclass subject (by simp [h])).trans h
  | _ => cases h

/-! ### Growing tables -/

structure GrowsTo (t t' : Types) : Prop extends t.Remembers t' where
  size_le : t.size ≤ t'.size
  content_eq : ∀ id : TypeId, id.index < t.size → (t'.get id).content = (t.get id).content
  bare : ∀ id : TypeId, t.size ≤ id.index → (t'.get id).Bare

namespace GrowsTo

theorem refl (t : Types) : t.GrowsTo t :=
  ⟨⟨fun _ _ h => h⟩, Nat.le_refl _, fun _ _ => rfl, fun _ h => by rw [get_of_le h]; rfl⟩

theorem trans (h : t.GrowsTo t') (h' : t'.GrowsTo t'') : t.GrowsTo t'' := by
  refine ⟨⟨fun kind id hk => h'.known kind id (h.known kind id hk)⟩,
    Nat.le_trans h.size_le h'.size_le, fun id hid => ?_, fun id hid => ?_⟩
  · exact (h'.content_eq id (Nat.lt_of_lt_of_le hid h.size_le)).trans (h.content_eq id hid)
  · rcases Nat.lt_or_ge id.index t'.size with hlt | hle
    · exact (h.bare id hid).of_content (h'.content_eq id hlt)
    · exact h'.bare id hle

theorem lt (h : t.GrowsTo t') (hid : id.index < t.size) : id.index < t'.size :=
  Nat.lt_of_lt_of_le hid h.size_le

/-- What an entry says stays. -/
theorem field_eq {β : Type} (h : t.GrowsTo t') (field : TypeEntry → β)
    (hf : ∀ e, field e.content = field e) (hid : id.index < t.size) :
    field (t'.get id) = field (t.get id) :=
  TypeEntry.field_of_content (h.content_eq id hid) field hf

/-- What is declared in a type stays, and nothing is declared in what is added. -/
theorem declared_eq {β : Type} (h : t.GrowsTo t') (field : TypeEntry → β)
    (hf : ∀ e, field e.content = field e)
    (hbare : ∀ name container kind, field { name, container, kind } = field default) (id : TypeId) :
    field (t'.get id) = field (t.get id) := by
  rcases Nat.lt_or_ge id.index t.size with hlt | hge
  · exact h.field_eq field hf hlt
  · rw [(h.bare id hge).field_eq field hf, hbare, get_of_le hge]

theorem kind_eq (h : t.GrowsTo t') (hid : id.index < t.size) : t'.kind id = t.kind id :=
  h.field_eq TypeEntry.kind (fun _ => rfl) hid

theorem atoms_eq (h : t.GrowsTo t') (hid : id.index < t.size) : t'.atoms id = t.atoms id := by
  rw [atoms, atoms, h.kind_eq hid]

end GrowsTo

/-! ### Adding entries -/

theorem getD_modify (entries : Array TypeEntry) (id other : TypeId)
    (f : TypeEntry → TypeEntry) :
    (entries.modify id.index f)[other.index]?.getD default =
      if other = id ∧ id.index < entries.size then f (entries[id.index]?.getD default)
      else entries[other.index]?.getD default := by
  have hidx : other = id ↔ id.index = other.index :=
    ⟨fun h => h ▸ rfl, fun h => by cases id; cases other; cases h; rfl⟩
  simp only [Array.getElem?_modify, hidx]
  by_cases h : id.index = other.index
  · rw [← h]
    by_cases hlt : id.index < entries.size <;> simp [hlt]
  · simp [h]

@[simp] theorem size_push (t : Types) (name : String)
    (container : Option TypeId) (kind : TypeKind) :
    (t.push name container kind).2.size = t.size + 1 :=
  Array.size_push ..

theorem get_push (t : Types) (name : String) (container : Option TypeId) (kind : TypeKind)
    (id : TypeId) :
    (t.push name container kind).2.get id = if id.index = t.size then
      { name, container, kind } else t.get id := by
  simp only [get, push, Array.getElem?_push, size]
  by_cases h : id.index = t.entries.size <;> simp [h]

/-- The later table has one entry more. -/
structure Gains (t : Types) (name : String) (container : Option TypeId)
    (kind : TypeKind) (t' : Types) : Prop extends t.Remembers t' where
  size : t'.size = t.size + 1
  content : ∀ id : TypeId, (t'.get id).content =
    if id.index = t.size then { name, container, kind } else (t.get id).content

theorem gains_push (t : Types) (name : String) (container : Option TypeId) (kind : TypeKind) :
    t.Gains name container kind (t.push name container kind).2 := by
  refine ⟨.of_eq rfl rfl fun id hid => ?_, size_push .., fun id => ?_⟩
  · have hne : id.index ≠ t.size := fun heq => hid (metaclass?_of_le (Nat.le_of_eq heq.symm))
    rw [metaclass?, get_push, if_neg hne]; rfl
  · rw [get_push]; split <;> rfl

namespace Gains

theorem field_eq {β : Type} (h : t.Gains name container kind t') (field : TypeEntry → β)
    (hf : ∀ e, field e.content = field e) (id : TypeId) :
    field (t'.get id) = if id.index = t.size then field { name, container, kind }
      else field (t.get id) := by
  rw [← hf, h.content]
  split
  · rfl
  · exact hf _

theorem kind_eq (h : t.Gains name container kind t') (id : TypeId) :
    t'.kind id = if id.index = t.size then kind else t.kind id :=
  h.field_eq TypeEntry.kind (fun _ => rfl) id

theorem kind_of_lt (h : t.Gains name container kind t') (hid : id.index < t.size) :
    t'.kind id = t.kind id := by
  rw [h.kind_eq, if_neg (Nat.ne_of_lt hid)]

theorem kind_new (h : t.Gains name container kind t') :
    t'.kind ⟨t.size⟩ = kind := by rw [h.kind_eq, if_pos rfl]

theorem includes_eq (h : t.Gains name container kind t') (id : TypeId) :
    (t'.get id).includes = if id.index = t.size then [] else (t.get id).includes :=
  h.field_eq TypeEntry.includes (fun _ => rfl) id

theorem lt (h : t.Gains name container kind t') (hid : id.index < t.size) : id.index < t'.size := by
  rw [h.size]; exact Nat.lt_succ_of_lt hid

theorem new_lt (h : t.Gains name container kind t') : t.size < t'.size := by
  rw [h.size]; exact Nat.lt_succ_self _

theorem growsTo (h : t.Gains name container kind t') : t.GrowsTo t' := by
  refine ⟨h.toRemembers, ?_, fun id hid => ?_, fun id hid => ?_⟩
  · rw [h.size]; exact Nat.le_succ _
  · rw [h.content, if_neg (Nat.ne_of_lt hid)]
  · have hcontent := h.content id
    rw [get_of_le hid] at hcontent
    split at hcontent
    · exact @TypeEntry.Bare.of_content _ { name, container, kind } hcontent rfl
    · exact @TypeEntry.Bare.of_content _ default hcontent rfl

/-- What has been added is remembered after that. -/
theorem remember (h : t.Gains name container kind t') (hr : t.Remembers t'')
    (hsize : t''.size = t'.size) (hcontent : ∀ id, (t''.get id).content = (t'.get id).content) :
    t.Gains name container kind t'' :=
  ⟨hr, hsize.trans h.size, fun id => (hcontent id).trans (h.content id)⟩

end Gains

theorem growsTo_push (t : Types) (name : String) (container : Option TypeId) (kind : TypeKind) :
    t.GrowsTo (t.push name container kind).2 :=
  (gains_push t name container kind).growsTo

/-! ### Looking types up -/

/-- How a type is found that is known by its parts: it is known, or an entry is added for it, and
remembered if the parts are there. -/
inductive Interns (t : Types) (name : String) (container : Option TypeId) (kind : TypeKind) :
    TypeId × Types → Prop where
  | known {id : TypeId} : t.known? kind = some id → Interns t name container kind (id, t)
  | added {t' : Types} : t.known? kind = none → t.Gains name container kind t' →
      ((∀ subject, kind = .metaclass subject → subject.index < t.size) →
        t'.known? kind = some ⟨t.size⟩) →
      Interns t name container kind (⟨t.size⟩, t')

namespace Interns
variable {r : TypeId × Types}

/-- What holds of a table, and after an entry was added to it, holds after looking a type up. -/
theorem preserves {P : Types → Prop} (h : t.Interns name container kind r) (ht : P t)
    (hg : ∀ t', t.Gains name container kind t' → P t') : P r.2 := by
  cases h with
  | known => exact ht
  | added _ hgains => exact hg _ hgains

theorem growsTo (h : t.Interns name container kind r) : t.GrowsTo r.2 :=
  h.preserves (.refl t) fun _ hg => hg.growsTo

theorem kind_eq (h : t.Interns name container kind r) : r.2.kind r.1 = kind := by
  cases h with
  | known hk => exact (known?_eq_some hk).2
  | added _ hgains => exact hgains.kind_new

theorem lt (h : t.Interns name container kind r) : r.1.index < r.2.size := by
  cases h with
  | known hk => exact (known?_eq_some hk).1
  | added _ hgains => exact hgains.new_lt

theorem known?_eq (h : t.Interns name container kind r)
    (hs : ∀ subject, kind = .metaclass subject → subject.index < t.size) :
    r.2.known? kind = some r.1 := by
  cases h with
  | known hk => exact hk
  | added _ _ hfound => exact hfound hs

end Interns

theorem interns_unionOf (t : Types) (members : List TypeId) :
    t.Interns "" (some .program) (.union members) (t.unionOf members) := by
  unfold unionOf
  cases hm : t.unions.get? members with
  | some id => exact .known hm
  | none =>
    have hgains := gains_push t "" (some .program) (.union members)
    refine .added hm (hgains.remember ⟨fun kind id hk => ?_⟩ rfl fun _ => rfl) fun _ => ?_
    · have hkept := hgains.known kind id hk
      cases kind with
      | union => exact OrderedMap.get?_insert_of_new hm hkept
      | _ => exact hkept
    · exact OrderedMap.get?_insert_self ..

/-- A new union leaves the entries that are there as they are. -/
theorem get_unionOf {members : List TypeId} (hid : id.index < t.size) :
    (t.unionOf members).2.get id = t.get id := by
  unfold unionOf; split
  · rfl
  · exact (get_push t "" (some .program) (.union members) id).trans (if_neg (Nat.ne_of_lt hid))

theorem interns_apply (t : Types) (generic : TypeId) (args : List TypeId) :
    t.Interns (t.get generic).name (t.get generic).container (.applied generic args)
      (t.apply generic args) := by
  unfold apply
  cases hi : t.instances.get? (generic, args) with
  | some id => exact .known hi
  | none =>
    have hgains :=
      gains_push t (t.get generic).name (t.get generic).container (.applied generic args)
    refine .added hi (hgains.remember ⟨fun kind id hk => ?_⟩ rfl fun _ => rfl) fun _ => ?_
    · have hkept := hgains.known kind id hk
      cases kind with
      | applied => exact OrderedMap.get?_insert_of_new hi hkept
      | _ => exact hkept
    · exact OrderedMap.get?_insert_self ..

theorem size_metaclassOf_of_none (hne : id ≠ .program) (hm : t.metaclass? id = none) :
    (t.metaclassOf id).2.size = t.size + 1 := by
  rw [metaclassOf, if_neg hne, hm]
  exact Array.size_modify.trans (Array.size_push _)

/-- A new metaclass stands in the entry of its type. -/
theorem get_metaclassOf_of_none (hne : id ≠ .program) (hm : t.metaclass? id = none)
    (other : TypeId) :
    (t.metaclassOf id).2.get other =
      if other = id ∧ id.index < t.size + 1 then
        { (t.push "" (t.get id).container (.metaclass id)).2.get id with
          metaclass := some ⟨t.size⟩ }
      else (t.push "" (t.get id).container (.metaclass id)).2.get other := by
  rw [metaclassOf, if_neg hne, hm, ← size_push t "" (t.get id).container (.metaclass id)]
  exact getD_modify ..

theorem interns_metaclassOf (t : Types) (hne : id ≠ .program) :
    t.Interns "" (t.get id).container (.metaclass id) (t.metaclassOf id) := by
  cases hm : t.metaclass? id with
  | some known =>
    rw [metaclassOf, if_neg hne, hm]
    exact .known hm
  | none =>
    have hfst : (t.metaclassOf id).1 = ⟨t.size⟩ := by rw [metaclassOf, if_neg hne, hm]; rfl
    have hget := get_metaclassOf_of_none hne hm
    have hsize := size_metaclassOf_of_none hne hm
    have hunions : (t.metaclassOf id).2.unions = t.unions := by
      rw [metaclassOf, if_neg hne, hm]; rfl
    have hinstances : (t.metaclassOf id).2.instances = t.instances := by
      rw [metaclassOf, if_neg hne, hm]; rfl
    have hgains := gains_push t "" (t.get id).container (.metaclass id)
    rw [show t.metaclassOf id = (⟨t.size⟩, (t.metaclassOf id).2) from Prod.ext hfst rfl]
    refine .added hm (hgains.remember (.of_eq hunions hinstances fun other ho => ?_) ?_
      fun other => ?_) fun hs => ?_
    · have hne : ¬ (other = id ∧ id.index < t.size + 1) := fun h => ho (h.1 ▸ hm)
      rw [metaclass?, hget, if_neg hne]
      obtain ⟨known, hk⟩ := Option.ne_none_iff_exists'.mp ho
      exact (hgains.known (.metaclass other) known hk).trans hk.symm
    · rw [hsize, size_push]
    · rw [hget]; split
      · rename_i h; rw [h.1]; rfl
      · rfl
    · have hlt := hs id rfl
      show ((t.metaclassOf id).2.get id).metaclass = _
      rw [hget, if_pos ⟨rfl, Nat.lt_succ_of_lt hlt⟩]

/-- The metaclass of the program is itself. -/
theorem metaclassOf_program (t : Types) : t.metaclassOf .program = (.program, t) := by
  rw [metaclassOf, if_pos rfl]

theorem pointerTo_lt (t : Types) (id : TypeId) :
    (t.pointerTo id).1.index < (t.pointerTo id).2.size :=
  (interns_apply t .pointer [id]).lt

theorem metaclassOf_lt (hid : id.index < t.size) :
    (t.metaclassOf id).1.index < (t.metaclassOf id).2.size := by
  by_cases hp : id = .program
  · subst hp; rw [metaclassOf_program]; exact hid
  · exact (interns_metaclassOf t hp).lt

theorem metaclassOf_preserves {P : Types → Prop} (ht : P t)
    (hg : ∀ t', t.Gains "" (t.get id).container (.metaclass id) t' → P t') :
    P (t.metaclassOf id).2 := by
  by_cases hp : id = .program
  · subst hp; rw [metaclassOf_program]; exact ht
  · exact (interns_metaclassOf t hp).preserves ht hg

theorem join_preserves {P : Types → Prop} {ids : List TypeId} (ht : P t)
    (hg : ∀ t', t.Gains "" (some .program) (.union (canonicalMembers (ids.flatMap t.atoms))) t' →
      P t') : P (t.join ids).2 := by
  unfold join; split
  · exact ht
  · exact ht
  · exact (interns_unionOf t _).preserves ht hg

/-! ### Settled answers -/

/-- `f` adds to the table at most, and in every table that grows from the one it leaves it gives
the same answer and adds nothing. -/
def Settles {α : Type} (f : Types → α × Types) (t : Types) : Prop :=
  t.GrowsTo (f t).2 ∧ ∀ t', (f t).2.GrowsTo t' → f t' = ((f t).1, t')

theorem unionOf_of_known {members : List TypeId} (h : t.known? (.union members) = some id) :
    t.unionOf members = (id, t) := by
  rw [unionOf, show t.unions.get? members = some id from h]

theorem apply_of_known {generic : TypeId} {args : List TypeId}
    (h : t.known? (.applied generic args) = some id) :
    t.apply generic args = (id, t) := by
  rw [apply, show t.instances.get? (generic, args) = some id from h]

theorem metaclassOf_of_known {subject : TypeId} (hne : subject ≠ .program)
    (h : t.known? (.metaclass subject) = some id) : t.metaclassOf subject = (id, t) := by
  rw [metaclassOf, if_neg hne, show t.metaclass? subject = some id from h]

/-- What a type is made of again, after the table has been asked for it. -/
theorem Remembers.unionOf_eq {members : List TypeId} (h : (t.unionOf members).2.Remembers t') :
    t'.unionOf members = ((t.unionOf members).1, t') :=
  unionOf_of_known (h.known _ _ ((interns_unionOf t members).known?_eq nofun))

theorem Remembers.apply_eq {generic : TypeId} {args : List TypeId}
    (h : (t.apply generic args).2.Remembers t') :
    t'.apply generic args = ((t.apply generic args).1, t') :=
  apply_of_known (h.known _ _ ((interns_apply t generic args).known?_eq nofun))

theorem Remembers.metaclassOf_eq (hid : id.index < t.size) (h : (t.metaclassOf id).2.Remembers t') :
    t'.metaclassOf id = ((t.metaclassOf id).1, t') := by
  by_cases hp : id = .program
  · subst hp
    rw [metaclassOf_program, metaclassOf_program]
  · refine metaclassOf_of_known hp
      (h.known _ _ ((interns_metaclassOf t hp).known?_eq fun subject heq => ?_))
    cases heq; exact hid

theorem growsTo_apply (t : Types) (generic : TypeId) (args : List TypeId) :
    t.GrowsTo (t.apply generic args).2 :=
  (interns_apply t generic args).growsTo

theorem settles_apply (t : Types) (generic : TypeId) (args : List TypeId) :
    Settles (·.apply generic args) t :=
  ⟨growsTo_apply t generic args, fun _ h => h.toRemembers.apply_eq⟩

/-- A generic class is applied as any type is, once the arguments have been counted. -/
theorem eq_apply_of_applyGeneric {generic : TypeId} {args : List TypeId} {r : TypeId × Types}
    (h : t.applyGeneric generic args = .ok r) : r = t.apply generic args := by
  unfold applyGeneric at h
  split at h
  · split at h
    · exact (Except.ok.inj h).symm
    · cases h
  · cases h

theorem settles_pointerTo (t : Types) (id : TypeId) : Settles (·.pointerTo id) t :=
  settles_apply t .pointer [id]

theorem growsTo_pointersTo (t : Types) (id : TypeId) (count : Nat) :
    t.GrowsTo (t.pointersTo id count).2 := by
  induction count generalizing t id with
  | zero => exact .refl t
  | succ count ih => exact (settles_pointerTo t id).1.trans (ih ..)

theorem growsTo_metaclassOf (t : Types) (id : TypeId) : t.GrowsTo (t.metaclassOf id).2 :=
  metaclassOf_preserves (.refl t) fun _ hg => hg.growsTo

theorem settles_metaclassOf (hid : id.index < t.size) : Settles (·.metaclassOf id) t :=
  ⟨growsTo_metaclassOf t id, fun _ h => h.toRemembers.metaclassOf_eq hid⟩

theorem flatMap_atoms_eq {ids : List TypeId} (h : t.GrowsTo t')
    (hids : ∀ id ∈ ids, id.index < t.size) : ids.flatMap t'.atoms = ids.flatMap t.atoms :=
  congrArg List.flatten (List.map_congr_left fun id hid => h.atoms_eq (hids id hid))

theorem growsTo_join (t : Types) (ids : List TypeId) : t.GrowsTo (t.join ids).2 :=
  join_preserves (.refl t) fun _ hg => hg.growsTo

theorem settles_join {ids : List TypeId} (hids : ∀ id ∈ ids, id.index < t.size) :
    Settles (·.join ids) t := by
  refine ⟨growsTo_join t ids, fun t' h => ?_⟩
  have hgrows := (growsTo_join t ids).trans h
  revert h
  simp only [join, flatMap_atoms_eq hgrows hids]
  split
  · exact fun _ => rfl
  · exact fun _ => rfl
  · intro h; simp only [h.toRemembers.unionOf_eq]

end Types

end TypeFlow

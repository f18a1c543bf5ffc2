import TypeFlow.Proofs.Types.Precedes
import TypeFlow.Types.Lookup

/-!
# Whole tables

A table is `Whole` when it is solid and holds whatever its entries speak of, so that every type that
inference takes from it is one of its types. There is one lemma for each way in which inference
changes the table, and one for each way in which it takes a type from it.
-/

namespace TypeFlow

namespace OrderedMap
variable {κ ν : Type} [DecidableEq κ] {k : κ} {v w : ν}

def values (m : OrderedMap κ ν) : List ν := m.entries.map Prod.snd

theorem mem_values_of_get? {m : OrderedMap κ ν} (h : m.get? k = some v) : v ∈ m.values := by
  obtain ⟨es⟩ := m
  change lookupIn k es = some v at h
  show v ∈ es.map Prod.snd
  induction es with
  | nil => cases h
  | cons e es ih =>
    rw [lookupIn] at h
    split at h
    · cases h; simp
    · exact List.mem_cons_of_mem _ (ih h)

theorem mem_values_insert {m : OrderedMap κ ν} (h : w ∈ (m.insert k v).values) :
    w = v ∨ w ∈ m.values := by
  obtain ⟨es⟩ := m
  change w ∈ (insertIn k v es).map Prod.snd at h
  show w = v ∨ w ∈ es.map Prod.snd
  induction es with
  | nil => exact .inl (List.mem_singleton.mp h)
  | cons e es ih =>
    rw [insertIn] at h
    split at h
    · exact (List.mem_cons.mp h).imp_right (List.mem_cons_of_mem _)
    · rcases List.mem_cons.mp h with rfl | h
      · exact .inr (by simp)
      · exact (ih h).imp_right (List.mem_cons_of_mem _)

end OrderedMap

/-- An entry speaks only of types below `size`: the modules it includes and what they bind their
parameters to, what it names, and what its functions return. -/
structure TypeEntry.Within (e : TypeEntry) (size : Nat) : Prop where
  modules : ∀ i ∈ e.includes, i.module.index < size
  bound : ∀ i ∈ e.includes, ∀ name type, i.binding? name = some (.type type) → type.index < size
  named : ∀ name type, e.types.get? name = some (.type type) → type.index < size
  results : ∀ name sig, e.funs.get? name = some sig → sig.returnType.index < size

namespace TypeEntry
variable {e : TypeEntry} {size size' : Nat}

theorem Within.mono (h : e.Within size) (hle : size ≤ size') : e.Within size' :=
  ⟨fun i hi => Nat.lt_of_lt_of_le (h.modules i hi) hle, fun i hi n t hb =>
    Nat.lt_of_lt_of_le (h.bound i hi n t hb) hle,
    fun n t hn => Nat.lt_of_lt_of_le (h.named n t hn) hle, fun n s hs =>
      Nat.lt_of_lt_of_le (h.results n s hs) hle⟩

theorem Within.of_content {e' : TypeEntry} (h : e'.content = e.content) (hw : e.Within size) :
    e'.Within size := by
  have hincludes := field_of_content h TypeEntry.includes fun _ => rfl
  have htypes := field_of_content h TypeEntry.types fun _ => rfl
  have hfuns := field_of_content h TypeEntry.funs fun _ => rfl
  exact ⟨hincludes ▸ hw.modules, hincludes ▸ hw.bound, htypes ▸ hw.named, hfuns ▸ hw.results⟩

theorem Bare.within (h : e.Bare) (size : Nat) : e.Within size := by
  have hcontent :
      e.content = content { name := e.name, container := e.container, kind := e.kind } := h
  refine Within.of_content hcontent ⟨fun i hi => ?_, fun i hi => ?_, fun name type hn => ?_,
    fun name sig hs => ?_⟩
  · cases hi
  · cases hi
  · cases hn
  · cases hs

end TypeEntry

namespace Types
variable {t t' : Types} {id owner : TypeId} {f : TypeEntry → TypeEntry}

structure Whole (t : Types) : Prop extends t.Solid where
  within : ∀ id, (t.get id).Within t.size

theorem within_initial (id : TypeId) : (initial.get id).Within initial.size := by
  rcases Nat.lt_or_ge id.index initial.size with hlt | hge
  · have hincludes : ∀ e ∈ initial.entries.toList, e.includes = [] := by decide +kernel
    have hfuns : ∀ e ∈ initial.entries.toList, e.funs = ∅ := by decide +kernel
    have hnames : ∀ e ∈ initial.entries.toList, ∀ v ∈ e.types.values, ∀ type, v = .type type →
        type.index < initial.size := by
      have hall : ∀ e ∈ initial.entries.toList, ∀ v ∈ e.types.values,
          (v.casesOn (fun type => decide (type.index < initial.size)) fun _ => true : Bool) =
            true := by decide +kernel
      intro e he v hv type heq
      have h := hall e he v hv
      rw [heq] at h
      exact of_decide_eq_true h
    have hmem : initial.get id ∈ initial.entries.toList := by
      rw [get_of_lt hlt]; exact Array.mem_toList_iff.mpr (Array.getElem_mem hlt)
    refine ⟨fun i hi => ?_, fun i hi => ?_, fun name type hn => ?_, fun name sig hs => ?_⟩
    · rw [hincludes _ hmem] at hi; cases hi
    · rw [hincludes _ hmem] at hi; cases hi
    · exact hnames _ hmem _ (OrderedMap.mem_values_of_get? hn) type rfl
    · rw [hfuns _ hmem] at hs; cases hs
  · have hbare : (initial.get id).Bare := by rw [get_of_le hge]; rfl
    exact hbare.within _

theorem whole_initial : initial.Whole := ⟨solid_initial, within_initial⟩

namespace Whole

theorem grow (h : t.Whole) (ht : t.GrowsTo t') (hs : t'.Solid) : t'.Whole := by
  refine ⟨hs, fun id => ?_⟩
  rcases Nat.lt_or_ge id.index t.size with hlt | hge
  · exact ((h.within id).mono ht.size_le).of_content (ht.content_eq id hlt)
  · exact (ht.bare id hge).within _

theorem modify (h : t.Whole) (hf : TypeEntry.Extends f)
    (hw : ∀ e, e.Within t.size → (f e).Within t.size) :
    (t.modify owner f hf).Whole := by
  have hwithin : ∀ id, ((t.modify owner f hf).get id).Within t.size := fun id => by
    rw [get_modify]; split
    · exact hw _ (h.within owner)
    · exact h.within id
  refine ⟨⟨⟨?_, fun id m hm => ?_, fun id => ?_⟩, h.toLawful.modify hf owner⟩, fun id => ?_⟩
  · rw [size_modify]; exact h.builtins
  · rw [size_modify]
    rw [kind_modify] at hm
    exact h.mentions id m hm
  · rw [size_modify]; exact (hwithin id).modules
  · rw [size_modify]; exact hwithin id

theorem setName (h : t.Whole) (owner : TypeId) (name : String) {entry : Named}
    (he : ∀ type, entry = .type type → type.index < t.size) :
    (t.setName owner name entry).Whole := by
  refine h.modify _ fun e hw => ⟨hw.modules, hw.bound, fun other type hn => ?_, hw.results⟩
  rw [OrderedMap.get?_insert] at hn
  split at hn
  · exact he type (Option.some.inj hn)
  · exact hw.named other type hn

theorem includeModule (h : t.Whole) (owner : TypeId) {inclusion : Inclusion}
    (hm : inclusion.module.index < t.size)
    (hb : ∀ name type, inclusion.binding? name = some (.type type) → type.index < t.size) :
    (t.includeModule owner inclusion).Whole := by
  refine h.modify _ fun e hw => ?_
  split
  · exact hw
  · refine ⟨fun i hi => ?_, fun i hi => ?_, hw.named, hw.results⟩ <;>
      rcases List.mem_append.mp hi with hi | hi
    · exact hw.modules i hi
    · rwa [List.mem_singleton.mp hi]
    · exact hw.bound i hi
    · rw [List.mem_singleton.mp hi]; exact hb

theorem addFun (h : t.Whole) (owner : TypeId) (name : String) {signature : Signature}
    (hs : signature.returnType.index < t.size) : (t.addFun owner name signature).Whole := by
  refine h.modify _ fun e hw => ⟨hw.modules, hw.bound, hw.named, fun other sig hf => ?_⟩
  rw [OrderedMap.get?_insert] at hf
  split at hf
  · cases hf; exact hs
  · exact hw.results other sig hf

theorem declare (h : t.Whole) (owner : TypeId) (name : String) {kind : TypeKind}
    (hk : ∀ m ∈ kind.mentions, m.index < t.size) (hu : kind.isUnion = false) :
    (t.declare owner name kind).2.Whole := by
  have hadds := gains_push t name (some owner) kind
  refine (h.grow hadds.growsTo (h.toSolid.gains hadds hk hu)).setName owner name fun type heq => ?_
  obtain rfl := Named.type.inj heq
  exact hadds.new_lt

theorem declare_lt (t : Types) (owner : TypeId) (name : String) (kind : TypeKind) :
    (t.declare owner name kind).1.index < (t.declare owner name kind).2.size := by
  show t.size < (Types.setName (t.push name (some owner) kind).2 owner name (.type ⟨t.size⟩)).size
  rw [Types.setName, size_modify]
  simp

theorem metaclassOf (h : t.Whole) (hid : id.index < t.size) : (t.metaclassOf id).2.Whole :=
  h.grow (growsTo_metaclassOf t id) (h.toSolid.metaclassOf hid)

theorem join {ids : List TypeId} (h : t.Whole) (hids : ∀ id ∈ ids, id.index < t.size) :
    (t.join ids).2.Whole :=
  h.grow (growsTo_join t ids) (h.toSolid.join hids)

theorem apply (h : t.Whole) {generic : TypeId} {args : List TypeId}
    (hgeneric : generic.index < t.size) (hargs : ∀ a ∈ args, a.index < t.size) :
    (t.apply generic args).2.Whole :=
  h.grow (growsTo_apply t generic args) (h.toSolid.apply hgeneric hargs)

theorem builtin_lt (h : t.Whole) (hid : id.index ≤ TypeId.noReturn.index) : id.index < t.size :=
  Nat.lt_of_le_of_lt hid h.toClosed.builtins

theorem pointersTo (h : t.Whole) (hid : id.index < t.size) (count : Nat) :
    (t.pointersTo id count).2.Whole ∧
    (t.pointersTo id count).1.index < (t.pointersTo id count).2.size := by
  induction count generalizing t id with
  | zero => exact ⟨h, hid⟩
  | succ count ih =>
    have hargs : ∀ a ∈ [id], a.index < t.size := fun a ha => by rwa [List.mem_singleton.mp ha]
    exact ih (h.apply (h.builtin_lt (by decide)) hargs) (pointerTo_lt t id)

/-! ### Types taken from the table -/

theorem described_lt (h : t.Whole) (hid : id.index < t.size) : (t.described id).index < t.size := by
  unfold described
  split
  · rename_i subject hk
    exact h.mentions id subject (by simp [hk, TypeKind.mentions])
  · exact hid

theorem subject_lt (h : t.Whole) {subject : TypeId} (hk : t.kind id = .metaclass subject) :
    subject.index < t.size :=
  h.mentions id subject (by simp [hk, TypeKind.mentions])

theorem arg_lt (h : t.Whole) {generic a : TypeId} {args : List TypeId}
    (hk : t.kind id = .applied generic args) (ha : a ∈ args) : a.index < t.size :=
  h.mentions id a (by simp [hk, TypeKind.mentions, ha])

theorem field_lt (h : t.Whole) {fields : OrderedMap String TypeId} {name : String} {field : TypeId}
    (hk : t.kind id = .cStruct fields ∨ t.kind id = .cUnion fields)
    (hf : fields.get? name = some field) : field.index < t.size := by
  refine h.mentions id field ?_
  have hmem := OrderedMap.mem_values_of_get? hf
  rcases hk with hk | hk <;> rw [hk] <;> exact hmem

theorem result_lt (h : t.Whole) {name : String} {sig : Signature}
    (hf : (t.get id).funs.get? name = some sig) : sig.returnType.index < t.size :=
  (h.within id).results name sig hf

theorem boundType?_lt (h : t.Whole) {name : String} {type : TypeId}
    (hb : boundType? (t.get id).includes.reverse name = some type) : type.index < t.size := by
  obtain ⟨i, hi, heq⟩ := List.exists_of_findSome?_eq_some hb
  split at heq
  · cases heq; exact (h.within id).bound i (List.mem_reverse.mp hi) name _ ‹_›
  · cases heq

theorem argumentFor_lt (h : t.Whole) {generic type : TypeId} {args : List TypeId} {name : String}
    (hargs : ∀ a ∈ args, a.index < t.size) (ha : t.argumentFor generic args name = some type) :
    type.index < t.size := by
  have hown : ∀ (own : List String) (param : String),
      ((own.idxOf? param).bind fun i => args[i]?) = some type →
      type.index < t.size := fun own param ho => by
    obtain ⟨i, -, hi⟩ := Option.bind_eq_some_iff.mp ho
    exact hargs type (List.mem_of_getElem? hi)
  have hgo : ∀ (own : List String) (is : List Inclusion), (∀ i ∈ is, i ∈ (t.get generic).includes) →
      argumentFor.go name own (fun param => (own.idxOf? param).bind fun i =>
        args[i]?) is = some type →
        type.index < t.size := fun own is his hi => by
    induction is with
    | nil => cases hi
    | cons i is ih =>
      have hrest := ih fun j hj => his j (List.mem_cons_of_mem _ hj)
      rw [argumentFor.go] at hi
      split at hi
      · cases hi; exact (h.within generic).bound i (his i (by simp)) name _ ‹_›
      · split at hi
        · exact hown _ _ hi
        · exact hrest hi
      · exact hrest hi
  unfold argumentFor at ha
  simp only at ha
  split at ha
  · exact hown _ _ ha
  · exact hgo _ _ (fun i hi => List.mem_reverse.mp hi) ha

theorem memberWithin_lt (h : t.Whole) {name : String} {type : TypeId} (fuel : Nat)
    (hm : t.memberWithin name fuel id = some (.type type)) : type.index < t.size := by
  induction fuel generalizing id with
  | zero => cases hm
  | succ fuel ih =>
    rw [memberWithin] at hm
    split at hm
    · exact ih hm
    · rename_i hk
      split at hm
      · cases hm; exact h.argumentFor_lt (fun a ha => h.arg_lt hk ha) ‹_›
      · exact ih hm
    · split at hm
      · rename_i hnamed
        exact (h.within id).named name type (hnamed.trans hm)
      · split at hm
        · cases hm; exact h.boundType?_lt ‹_›
        · split at hm
          · exact ih hm
          · cases hm

theorem visibleWithin_lt (h : t.Whole) {name : String} {type : TypeId} (fuel : Nat)
    (hv : t.visibleWithin name fuel id = some (.type type)) : type.index < t.size := by
  induction fuel generalizing id with
  | zero => cases hv
  | succ fuel ih =>
    rw [visibleWithin] at hv
    split at hv
    · rename_i hm
      exact h.memberWithin_lt t.size (hm.trans hv)
    · split at hv
      · exact ih hv
      · cases hv

theorem follow_lt (h : t.Whole) {type : TypeId} {entry : Named} {names : List String}
    (hentry : ∀ type, entry = .type type → type.index < t.size)
    (hf : t.follow entry names = some (.type type)) :
    type.index < t.size := by
  induction names generalizing entry with
  | nil =>
    rw [follow] at hf
    exact hentry type (Option.some.inj hf)
  | cons name rest ih =>
    cases entry with
    | const => cases hf
    | type id =>
      rw [follow] at hf
      split at hf
      · rename_i hm
        exact ih (fun type heq => h.memberWithin_lt t.size (heq ▸ hm)) hf
      · cases hf

theorem resolvePath_lt (h : t.Whole) {scope type : TypeId} {names : List String}
    (hr : t.resolvePath scope names = some (.type type)) : type.index < t.size := by
  cases names with
  | nil => cases hr
  | cons name rest =>
    rw [resolvePath] at hr
    split at hr
    · rename_i hv
      exact h.follow_lt (fun type heq => h.visibleWithin_lt t.size (heq ▸ hv)) hr
    · cases hr

theorem resolveRootPath_lt (h : t.Whole) {type : TypeId} {names : List String}
    (hr : t.resolveRootPath names = some (.type type)) : type.index < t.size := by
  cases names with
  | nil => cases hr
  | cons name rest =>
    rw [resolveRootPath] at hr
    split at hr
    · rename_i hn
      exact h.follow_lt (fun type heq => (h.within _).named name type (heq ▸ hn)) hr
    · cases hr

end Whole

end Types

end TypeFlow

import TypeFlow.Proofs.Types.Founded

/-!
# Names in a growing table

The name of a type and what names mean inside it are made of what the type mentions, of its
containers and of its superclasses. In a founded table all of these are older than the type, so that
the table bounds every search and what is added later changes no answer.
-/

namespace TypeFlow.Types.GrowsTo
variable {t t' : Types} {id : TypeId}

theorem argumentFor_eq (h : t.GrowsTo t') (hid : id.index < t.size) (args : List TypeId)
    (name : String) :
    t'.argumentFor id args name = t.argumentFor id args name := by
  have hvars : t'.typeVars id = t.typeVars id := by rw [typeVars, typeVars, h.kind_eq hid]
  have hincludes := h.field_eq TypeEntry.includes (fun _ => rfl) hid
  rw [argumentFor, argumentFor, hvars, hincludes]

/-- Room for the types up to `id` is all that the search needs, in the older table and in the later
one. -/
theorem memberWithin_eq (h : t.GrowsTo t') (hf : t.Founded) (name : String) {room room' : Nat}
    (hid : id.index < t.size) (hroom : id.index < room) (hroom' : id.index < room') :
    t'.memberWithin name room' id = t.memberWithin name room id := by
  induction room generalizing id room' with
  | zero => omega
  | succ room ih =>
    obtain ⟨room', rfl⟩ := Nat.exists_eq_succ_of_ne_zero (Nat.ne_of_gt (Nat.zero_lt_of_lt hroom'))
    have hnext : ∀ older : TypeId, older.index < id.index →
        t'.memberWithin name room' older = t.memberWithin name room older := fun older hlt =>
      ih (by omega) (by omega) (by omega)
    simp only [memberWithin, h.kind_eq hid]
    split
    · exact hnext _ (hf.aged.subject_lt ‹_›)
    · have hlt := hf.aged.generic_lt ‹_›
      rw [h.argumentFor_eq (Nat.lt_trans hlt hid), hnext _ hlt]
    · rw [h.field_eq TypeEntry.types (fun _ => rfl) hid,
        h.field_eq TypeEntry.includes (fun _ => rfl) hid,
        h.superclass_eq hf.whole.toClosed hid]
      cases hs : t.superclass id with
      | none => rfl
      | some parent => simp only [hnext parent (hf.aged.superclass_lt hs)]

theorem member?_eq (h : t.GrowsTo t') (hf : t.Founded) (hid : id.index < t.size) (name : String) :
    t'.member? id name = t.member? id name :=
  h.memberWithin_eq hf name hid hid (h.lt hid)

theorem containerWithin_eq (h : t.GrowsTo t') (hf : t.Founded) {room room' : Nat}
    (hid : id.index < t.size) (hroom : id.index < room) (hroom' : id.index < room') :
    t'.containerWithin room' id = t.containerWithin room id := by
  induction room generalizing id room' with
  | zero => omega
  | succ room ih =>
    obtain ⟨room', rfl⟩ := Nat.exists_eq_succ_of_ne_zero (Nat.ne_of_gt (Nat.zero_lt_of_lt hroom'))
    simp only [containerWithin, h.kind_eq hid, h.field_eq TypeEntry.container (fun _ => rfl) hid]
    split
    · have hlt := hf.aged.subject_lt ‹_›
      exact ih (by omega) (by omega) (by omega)
    · rfl

theorem containerOf_eq (h : t.GrowsTo t') (hf : t.Founded) (hid : id.index < t.size) :
    t'.containerOf id = t.containerOf id :=
  h.containerWithin_eq hf hid hid (h.lt hid)

theorem visibleWithin_eq (h : t.GrowsTo t') (hf : t.Founded) (name : String) {room room' : Nat}
    (hid : id.index < t.size) (hroom : id.index < room) (hroom' : id.index < room') :
    t'.visibleWithin name room' id = t.visibleWithin name room id := by
  induction room generalizing id room' with
  | zero => omega
  | succ room ih =>
    obtain ⟨room', rfl⟩ := Nat.exists_eq_succ_of_ne_zero (Nat.ne_of_gt (Nat.zero_lt_of_lt hroom'))
    simp only [visibleWithin, h.member?_eq hf hid, h.containerOf_eq hf hid]
    cases hc : t.containerOf id with
    | none => rfl
    | some container =>
      have hlt : container.index < id.index := hf.aged.containerWithin_lt t.size hc
      have hnext : t'.visibleWithin name room' container = t.visibleWithin name room container :=
        ih (by omega) (by omega) (by omega)
      simp only [hnext]

theorem visible?_eq (h : t.GrowsTo t') (hf : t.Founded) (hid : id.index < t.size) (name : String) :
    t'.visible? id name = t.visible? id name :=
  h.visibleWithin_eq hf name hid hid (h.lt hid)

theorem follow_eq (h : t.GrowsTo t') (hf : t.Founded) {entry : Named}
    (hentry : ∀ type, entry = .type type → type.index < t.size) (names : List String) :
    t'.follow entry names = t.follow entry names := by
  induction names generalizing entry with
  | nil => cases entry <;> rfl
  | cons name rest ih =>
    cases entry with
    | const => rfl
    | type id =>
      rw [follow, follow, h.member?_eq hf (hentry id rfl)]
      cases hm : t.member? id name with
      | none => rfl
      | some next => exact ih fun type heq => hf.whole.memberWithin_lt t.size (heq ▸ hm)

theorem resolvePath_eq (h : t.GrowsTo t') (hf : t.Founded) (hid : id.index < t.size)
    (names : List String) : t'.resolvePath id names = t.resolvePath id names := by
  cases names with
  | nil => rfl
  | cons name rest =>
    rw [resolvePath, resolvePath, h.visible?_eq hf hid]
    cases hv : t.visible? id name with
    | none => rfl
    | some next =>
      exact h.follow_eq hf (fun type heq => hf.whole.visibleWithin_lt t.size (heq ▸ hv)) rest

theorem resolveRootPath_eq (h : t.GrowsTo t') (hf : t.Founded) (names : List String) :
    t'.resolveRootPath names = t.resolveRootPath names := by
  cases names with
  | nil => rfl
  | cons name rest =>
    have hprogram : TypeId.program.index < t.size := hf.whole.builtin_lt (by decide)
    rw [resolveRootPath, resolveRootPath, h.field_eq TypeEntry.types (fun _ => rfl) hprogram]
    cases hn : (t.get .program).types.get? name with
    | none => rfl
    | some next =>
      exact h.follow_eq hf (fun type heq => (hf.whole.within _).named name type (heq ▸ hn)) rest

theorem name_eq (h : t.GrowsTo t') (hf : t.Founded) (hid : id.index < t.size) :
    t'.name id = t.name id :=
  h.nameWithin_eq hf.aged hid hid (h.lt hid)

end TypeFlow.Types.GrowsTo

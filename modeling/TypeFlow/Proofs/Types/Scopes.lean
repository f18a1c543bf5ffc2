import TypeFlow.Proofs.Types.Lookups

/-!
# Names seen from two types

A path means what its first name means, seen from the type it is resolved in. `SeesAs`: nothing on
the way from one type to the other, through subjects, generic classes and superclasses, gives the
name a meaning of its own. Then every path that starts with the name means the same in both
(`Founded.resolvePath_eq`).
-/

namespace TypeFlow.Types
variable {t : Types} {a b generic parent subject : TypeId} {args : List TypeId} {name : String}

namespace Founded

theorem lt_of_kind_ne (h : t.kind a ≠ .program) : a.index < t.size :=
  Nat.lt_of_not_le fun hle => h (kind_of_le hle)

/-! ### One step of a search -/

theorem member?_eq_within (hf : t.Founded) (ha : a.index < t.size) :
    t.member? a name = t.memberWithin name (t.size + 1) a :=
  (GrowsTo.refl t).memberWithin_eq hf name ha (Nat.lt_succ_of_lt ha) ha

theorem member?_metaclass (hf : t.Founded) (hk : t.kind a = .metaclass subject) :
    t.member? a name = t.member? subject name := by
  rw [hf.member?_eq_within (lt_of_kind_ne (by rw [hk]; nofun)), memberWithin, hk]
  rfl

theorem member?_applied (hf : t.Founded) (hk : t.kind a = .applied generic args)
    (hname : t.argumentFor generic args name = none) :
    t.member? a name = t.member? generic name := by
  rw [hf.member?_eq_within (lt_of_kind_ne (by rw [hk]; nofun)), memberWithin, hk]
  simp only [hname]
  rfl

theorem member?_superclass (hf : t.Founded) {head : ClassHead} (hk : t.kind a = .classType head)
    (hown : (t.get a).types.get? name = none)
    (hbound : boundType? (t.get a).includes.reverse name = none)
    (hp : t.superclass a = some parent) : t.member? a name = t.member? parent name := by
  rw [hf.member?_eq_within (lt_of_kind_ne (by rw [hk]; nofun)), memberWithin, hk]
  simp only [hown, hbound, hp]
  rfl

theorem containerOf_eq_within (hf : t.Founded) (ha : a.index < t.size) :
    t.containerOf a = t.containerWithin (t.size + 1) a :=
  (GrowsTo.refl t).containerWithin_eq hf ha (Nat.lt_succ_of_lt ha) ha

theorem containerOf_metaclass (hf : t.Founded) (hk : t.kind a = .metaclass subject) :
    t.containerOf a = t.containerOf subject := by
  rw [hf.containerOf_eq_within (lt_of_kind_ne (by rw [hk]; nofun)), containerWithin, hk]
  rfl

theorem containerOf_applied (hf : t.Founded) (hk : t.kind a = .applied generic args) :
    t.containerOf a = t.containerOf generic := by
  obtain ⟨head, hclass⟩ := hf.hierarchy.generic a generic args hk
  rw [hf.containerOf_eq_within (lt_of_kind_ne (by rw [hk]; nofun)),
    hf.containerOf_eq_within (lt_of_kind_ne (a := generic) (by rw [hclass]; nofun)),
      containerWithin, containerWithin,
    hk, hclass]
  exact hf.aged.instances a generic args hk

theorem visible?_eq_or (hf : t.Founded) (ha : a.index < t.size) :
    t.visible? a name = (t.member? a name).or ((t.containerOf a).bind (t.visible? · name)) := by
  have hwithin : t.visible? a name = t.visibleWithin name (t.size + 1) a :=
    (GrowsTo.refl t).visibleWithin_eq hf name ha (Nat.lt_succ_of_lt ha) ha
  rw [hwithin, visibleWithin]
  cases t.member? a name with
  | some entry => rfl
  | none => cases t.containerOf a <;> rfl

end Founded

/-! ### The same meaning -/

/-- On the way from the first type to the second nothing gives the name a meaning. Where the way
goes to a superclass, this or the container of both decides what it means. -/
inductive SeesAs (t : Types) (name : String) : TypeId → TypeId → Prop where
  | here (a : TypeId) : SeesAs t name a a
  | subject {a b subject : TypeId} : t.kind a = .metaclass subject →
      SeesAs t name subject b → SeesAs t name a b
  | generic {a b generic : TypeId} {args : List TypeId} : t.kind a = .applied generic args →
      t.argumentFor generic args name = none → SeesAs t name generic b → SeesAs t name a b
  | superclass {a b parent : TypeId} {head : ClassHead} : t.kind a = .classType head →
      (t.get a).types.get? name = none → boundType? (t.get a).includes.reverse name = none →
      t.superclass a = some parent →
        (t.member? parent name ≠ none ∨ t.containerOf a = t.containerOf parent) →
      SeesAs t name parent b → SeesAs t name a b

namespace Founded

theorem visible?_eq (hf : t.Founded) (h : t.SeesAs name a b) :
    t.visible? a name = t.visible? b name := by
  induction h with
  | here => rfl
  | @subject a b subject hk _ ih =>
    have ha : a.index < t.size := lt_of_kind_ne (by rw [hk]; nofun)
    rw [← ih, hf.visible?_eq_or ha, hf.visible?_eq_or (hf.whole.subject_lt hk),
      hf.member?_metaclass hk, hf.containerOf_metaclass hk]
  | @generic a b generic args hk hname _ ih =>
    have ha : a.index < t.size := lt_of_kind_ne (by rw [hk]; nofun)
    rw [← ih, hf.visible?_eq_or ha, hf.visible?_eq_or (hf.whole.toClosed.generic_lt hk),
      hf.member?_applied hk hname, hf.containerOf_applied hk]
  | @superclass a b parent head hk hown hbound hp hseen _ ih =>
    have ha : a.index < t.size := lt_of_kind_ne (by rw [hk]; nofun)
    rw [← ih, hf.visible?_eq_or ha, hf.visible?_eq_or (hf.whole.toClosed.superclass_lt hp),
      hf.member?_superclass hk hown hbound hp]
    rcases hseen with hmember | hcontainer
    · obtain ⟨entry, hentry⟩ := Option.ne_none_iff_exists'.mp hmember
      rw [hentry, Option.some_or, Option.some_or]
    · rw [hcontainer]

theorem resolvePath_eq (hf : t.Founded) (h : t.SeesAs name a b) (rest : List String) :
    t.resolvePath a (name :: rest) = t.resolvePath b (name :: rest) := by
  rw [resolvePath, resolvePath, hf.visible?_eq h]

/-- A metaclass sees what the type sees that it describes. -/
theorem resolvePath_described (hf : t.Founded) (names : List String) :
    t.resolvePath (t.described a) names = t.resolvePath a names := by
  unfold described
  split
  · rename_i hk
    cases names with
    | nil => rfl
    | cons name rest => exact (hf.resolvePath_eq (.subject hk (.here _)) rest).symm
  · rfl

end Founded

end TypeFlow.Types

import TypeFlow.Proofs.Types.Lookups
import TypeFlow.Proofs.Types.Searches

/-!
# Metaclasses made on demand

Asking for the metaclass of a type may add it to the table. Names, paths and subtypes stay as they
are, and so does the search for methods from any type that is no metaclass. The search from the
metaclass of a class goes up through the metaclasses of the superclasses and ends where one is
missing: it can come further once that one has been made (`Makings.answers_metaclassOf`).
-/

namespace TypeFlow.Types
variable {t t' : Types} {a b c u subject : TypeId}
  (methods : TypeEntry → OrderedMap MethodKey ExprId) (key : MethodKey)

/-! ### Superclasses are older -/

theorem Aged.le_of_mem_chain (h : t.Aged) (hb : b ∈ t.chain a) : b.index ≤ a.index := by
  rcases List.mem_cons.mp hb with rfl | hb
  · exact Nat.le_refl _
  · exact Nat.le_of_lt (h.lt_of_mem_ancestors hb)

theorem Aged.mem_ancestors_iff (h : t.Aged) :
    b ∈ t.ancestors a ↔ ∃ p, t.superclass a = some p ∧ b ∈ t.chain p := by
  constructor
  · intro hb
    rcases mem_chain_iff.mp (List.mem_cons_of_mem a hb) with rfl | hp
    · exact absurd (h.lt_of_mem_ancestors hb) (Nat.lt_irrefl _)
    · exact hp
  · rintro ⟨p, hp, hb⟩
    refine mem_ancestors_of_mem_chain (mem_chain_iff.mpr (.inr ⟨p, hp, hb⟩)) ?_
    rintro rfl
    exact Nat.lt_irrefl _ (Nat.lt_of_le_of_lt (h.le_of_mem_chain hb) (h.superclass_lt hp))

/-! ### The search from a metaclass -/

/-- A generic class is no instance of another, and its instances share its superclass. -/
theorem Hierarchy.superclass_generic (h : t.Hierarchy) {generic : TypeId} {args : List TypeId}
    (hk : t.kind subject = .applied generic args) :
    (∀ generic' args', t.kind generic ≠ .applied generic' args') ∧
    t.superclass generic = t.superclass subject := by
  obtain ⟨head, hclass⟩ := h.generic subject generic args hk
  refine ⟨fun _ _ h => ?_, by simp only [Types.superclass, hk, hclass]⟩
  rw [hclass] at h; cases h

/-- Where the search goes on from the metaclass of a type, if at all: an instance of a generic class
shares the superclass of that class. -/
def aboveMetaclass (t : Types) (subject : TypeId) : Option TypeId :=
  match t.kind subject with
  | .applied generic _ => (t.metaclass? generic).or ((t.superclass subject).bind t.metaclass?)
  | _ => (t.superclass subject).bind t.metaclass?

theorem aboveMetaclass_of_not_applied (h : ∀ generic args, t.kind subject ≠ .applied generic args) :
    t.aboveMetaclass subject = (t.superclass subject).bind t.metaclass? := by
  unfold aboveMetaclass
  split
  · exact absurd ‹_› (h _ _)
  · rfl

theorem findSome?_toList {f : TypeId → Option ExprId} (o : Option TypeId) :
    o.toList.findSome? f = o.bind f := by
  cases o with
  | none => rfl
  | some a => simp

namespace Searchable

theorem findIn_metaclass_of_not_applied (hs : t.Searchable) (hk : t.kind a = .metaclass subject)
    (hsubject : ∀ generic args, t.kind subject ≠ .applied generic args) : t.findIn methods a key =
      ((methods (t.get a)).get? key).or
        (((t.superclass subject).bind t.metaclass?).bind (t.findIn methods · key)) := by
  have ha : a.index < t.size := Nat.lt_of_not_le fun hle => by rw [kind_of_le hle] at hk; cases hk
  have hsources : t.methodSources a = ((t.superclass subject).bind t.metaclass?).toList := by
    simp only [methodSources, hk]
    exact List.nil_append _
  rw [hs.findIn_eq methods key ha, hsources, findSome?_toList]

/-- The metaclasses that a search meets are a chain. -/
theorem findIn_metaclass (hs : t.Searchable) (hk : t.kind a = .metaclass subject) :
    t.findIn methods a key =
    ((methods (t.get a)).get? key).or
      ((t.aboveMetaclass subject).bind (t.findIn methods · key)) := by
  by_cases hsubject : ∃ generic args, t.kind subject = .applied generic args
  · obtain ⟨generic, args, happlied⟩ := hsubject
    obtain ⟨hgeneric, hsuper⟩ := hs.hierarchy.superclass_generic happlied
    have ha : a.index < t.size := Nat.lt_of_not_le fun hle => by rw [kind_of_le hle] at hk; cases hk
    rw [hs.findIn_eq methods key ha]
    simp only [methodSources, aboveMetaclass, hk, happlied]
    congr 1
    cases hm : t.metaclass? generic with
    | none => exact findSome?_toList _
    | some b =>
      -- the metaclass of the generic class goes on where that of the instance would
      have hb := hs.findIn_metaclass_of_not_applied methods key (metaclass?_eq_some hm).2 hgeneric
      rw [hsuper] at hb
      rw [Option.toList_some, List.singleton_append, List.findSome?_cons,
        findSome?_toList, Option.some_or, Option.bind_some]
      cases hfound : t.findIn methods b key with
      | some definition => rfl
      | none =>
        rw [hfound] at hb
        exact (Option.or_eq_none_iff.mp hb.symm).2
  · have hsubject : ∀ generic args, t.kind subject ≠ .applied generic args := fun generic args h =>
      hsubject ⟨generic, args, h⟩
    rw [aboveMetaclass_of_not_applied hsubject]
    exact hs.findIn_metaclass_of_not_applied methods key hk hsubject

end Searchable

/-! ### A new metaclass -/

/-- The later table has one type more, the metaclass of `u`. -/
structure Describes (t t' : Types) (u : TypeId) : Prop where
  grows : t.GrowsTo t'
  before : t.metaclass? u = none
  after : t'.metaclass? u = some ⟨t.size⟩
  others : ∀ other, other ≠ u → t'.metaclass? other = t.metaclass? other

theorem metaclassOf_cases (hu : u.index < t.size) :
    (t.metaclassOf u).2 = t ∨ t.Describes (t.metaclassOf u).2 u ∧
      (t.metaclassOf u).1 = ⟨t.size⟩ := by
  by_cases hp : u = .program
  · left
    rw [hp, metaclassOf_program]
  cases hm : t.metaclass? u with
  | some known =>
    left
    rw [metaclassOf_of_known hp (show t.known? (.metaclass u) = some known from hm)]
  | none =>
    right
    have hfst : (t.metaclassOf u).1 = ⟨t.size⟩ := by rw [metaclassOf, if_neg hp, hm]; rfl
    have hfound := (interns_metaclassOf t hp).known?_eq fun subject heq => by cases heq; exact hu
    refine ⟨⟨growsTo_metaclassOf t u, hm, hfst ▸ hfound, fun other hne => ?_⟩, hfst⟩
    rw [metaclass?, get_metaclassOf_of_none hp hm, if_neg fun h => hne h.1, get_push]
    split
    · rename_i heq
      exact (metaclass?_of_le (Nat.le_of_eq heq.symm)).symm
    · rfl

/-- The answer of a search from the metaclass of `subject`, before and after: it is the same, or
there was none below `u`, and now it is the one from the new metaclass. -/
def Resumes (t : Types) (u subject : TypeId) (before after new : Option ExprId) : Prop :=
  after = before ∨ before = none ∧ u ∈ t.ancestors subject ∧ after = new

namespace Describes
variable (hd : t.Describes t' u) (hs : t.Searchable) (hs' : t'.Searchable)
include hd hs

/-- Nothing changes in where the superclass leads, if nothing changes in the search from its
metaclass. -/
theorem resumes_superclass (hsubject : subject.index < t.size)
    (h : ∀ parent above, t.superclass subject = some parent → t.kind above = .metaclass parent →
      Resumes t u parent (t.findIn methods above key) (t'.findIn methods above key)
      (t'.findIn methods ⟨t.size⟩ key)) :
    Resumes t u subject (((t.superclass subject).bind t.metaclass?).bind (t.findIn methods · key))
      (((t'.superclass subject).bind t'.metaclass?).bind (t'.findIn methods · key))
      (t'.findIn methods ⟨t.size⟩ key) := by
  rw [hd.grows.superclass_eq hs.whole.toClosed hsubject]
  cases hp : t.superclass subject with
  | none => exact .inl rfl
  | some parent =>
    simp only [Option.bind_some]
    by_cases hu : parent = u
    · subst hu
      rw [hd.before, hd.after]
      exact .inr ⟨rfl, hs.aged.mem_ancestors_iff.mpr ⟨parent, hp, mem_chain_self⟩, rfl⟩
    · rw [hd.others parent hu]
      cases hm : t.metaclass? parent with
      | none => exact .inl rfl
      | some above =>
        refine (h parent above hp (metaclass?_eq_some hm).2).imp_right fun h => ⟨h.1, ?_, h.2.2⟩
        exact hs.aged.mem_ancestors_iff.mpr ⟨parent, hp, List.mem_cons_of_mem _ h.2.1⟩

include hs'

/-- The search from a type that is no metaclass meets none. -/
theorem findIn_eq (hcontent : ∀ e, methods e.content = methods e) (ha : a.index < t.size)
    (hmeta : t.isMetaclass a = false) : t'.findIn methods a key = t.findIn methods a key := by
  induction hn : (t.searched a).card using Nat.strong_induction_on generalizing a with
  | _ n ih =>
    subst hn
    have hkind : ∀ subject, t.kind a ≠ .metaclass subject := fun subject hk => by
      rw [isMetaclass, hk] at hmeta; cases hmeta
    have hsources : t'.methodSources a = t.methodSources a := by
      unfold methodSources
      rw [hd.grows.kind_eq ha, hd.grows.field_eq TypeEntry.includes (fun _ => rfl) ha,
        hd.grows.superclass_eq hs.whole.toClosed ha]
      split
      · rfl
      · exact absurd ‹_› (hkind _)
      · rfl
    have hnext : ∀ b ∈ t.methodSources a, t.isMetaclass b = false := fun b hb => by
      unfold isMetaclass
      split
      · rename_i hk
        cases hs.toFounded.below_of_mem_sources hb with
        | metaclass hk' => exact absurd hk' (hkind _)
        | older _ _ hb' => exact absurd hk (kind_ne_metaclass_of_isInheritable hb' _)
        | enters _ hb' => exact absurd hk (kind_ne_metaclass_of_isModule hb' _)
        | module _ hi =>
          exact absurd hk (kind_ne_metaclass_of_isModule (hs.toFounded.isModule_of_includes hi) _)
      · rfl
    rw [hs'.findIn_eq methods key (hd.grows.lt ha), hs.findIn_eq methods key ha, hsources,
      hd.grows.field_eq methods hcontent ha]
    congr 1
    exact findSome?_congr fun b hb =>
      ih _ (hs.card_searched_lt ha hb) (hs.toFounded.source_lt hb) (hnext b hb) rfl

omit hs in
/-- The new metaclass declares nothing. -/
theorem findIn_new (hbare : ∀ e : TypeEntry, e.Bare → methods e = ∅)
    (hu : ∀ generic args, t'.kind u ≠ .applied generic args) : t'.findIn methods ⟨t.size⟩ key =
      ((t'.superclass u).bind t'.metaclass?).bind (t'.findIn methods · key) := by
  have hk := (metaclass?_eq_some hd.after).2
  have hnone := hbare _ (hd.grows.bare ⟨t.size⟩ (Nat.le_refl _))
  rw [hs'.findIn_metaclass_of_not_applied methods key hk hu, hnone]
  rfl

/-- Nor does it in where the metaclass of a generic class leads, or the superclass if there is
none. -/
theorem resumes_generic (hbare : ∀ e : TypeEntry, e.Bare → methods e = ∅)
    (hsubject : subject.index < t.size) {generic : TypeId} {args : List TypeId}
    (hk : t.kind subject = .applied generic args)
    (hgeneric : ∀ above, t.kind above = .metaclass generic →
      Resumes t u generic (t.findIn methods above key) (t'.findIn methods above key)
      (t'.findIn methods ⟨t.size⟩ key))
    (hparent : Resumes t u subject
      (((t.superclass subject).bind t.metaclass?).bind (t.findIn methods · key))
      (((t'.superclass subject).bind t'.metaclass?).bind (t'.findIn methods · key))
      (t'.findIn methods ⟨t.size⟩ key)) :
    Resumes t u subject
      (((t.metaclass? generic).or ((t.superclass subject).bind t.metaclass?)).bind
        (t.findIn methods · key))
      (((t'.metaclass? generic).or ((t'.superclass subject).bind t'.metaclass?)).bind
        (t'.findIn methods · key))
      (t'.findIn methods ⟨t.size⟩ key) := by
  obtain ⟨-, hlike⟩ := hs.hierarchy.superclass_generic hk
  obtain ⟨hclass', hlike'⟩ :=
    hs'.hierarchy.superclass_generic ((hd.grows.kind_eq hsubject).trans hk)
  by_cases hu : generic = u
  · subst hu
    have hnew := hd.findIn_new methods key hs' hbare hclass'
    rw [hd.before, hd.after]
    simp only [Option.none_or, Option.some_or, Option.bind_some]
    rw [hnew, hlike']
    refine .inl (hparent.resolve_right fun h => ?_)
    -- a generic class is not above itself
    obtain ⟨parent, hp, hmem⟩ := hs.aged.mem_ancestors_iff.mp h.2.1
    have hle := hs.aged.le_of_mem_chain hmem
    have hlt := hs.aged.superclass_lt (hlike.trans hp)
    omega
  · rw [hd.others generic hu]
    cases hm : t.metaclass? generic with
    | none => exact hparent
    | some above =>
      refine (hgeneric above (metaclass?_eq_some hm).2).imp_right fun h => ⟨h.1, ?_, h.2.2⟩
      rw [hs.aged.mem_ancestors_iff] at h ⊢
      rw [← hlike]
      exact h.2.1

/-- Either nothing changes, or the search stopped below `u` and now goes on at the new metaclass. -/
theorem findIn_metaclass (hcontent : ∀ e, methods e.content = methods e)
    (hbare : ∀ e : TypeEntry, e.Bare → methods e = ∅) (hk : t.kind a = .metaclass subject) :
    Resumes t u subject (t.findIn methods a key) (t'.findIn methods a key)
      (t'.findIn methods ⟨t.size⟩ key) := by
  induction hn : subject.index using Nat.strong_induction_on generalizing a subject with
  | _ n ih =>
    subst hn
    have ha : a.index < t.size := Nat.lt_of_not_le fun hle => by rw [kind_of_le hle] at hk; cases hk
    have hsubject : subject.index < t.size := hs.whole.subject_lt hk
    have hk' : t'.kind a = .metaclass subject := (hd.grows.kind_eq ha).trans hk
    have hparent := hd.resumes_superclass methods key hs hsubject fun parent above hp habove =>
      ih _ (hs.aged.superclass_lt hp) habove rfl
    rw [hs.findIn_metaclass methods key hk, hs'.findIn_metaclass methods key hk',
      hd.grows.field_eq methods hcontent ha]
    cases (methods (t.get a)).get? key with
    | some definition => exact .inl rfl
    | none =>
      simp only [Option.none_or]
      by_cases happlied : ∃ generic args, t.kind subject = .applied generic args
      · obtain ⟨generic, args, happlied⟩ := happlied
        have hat := hd.resumes_generic methods key hs hs' hbare hsubject happlied
          (fun above habove => ih _ (hs.aged.generic_lt happlied) habove rfl) hparent
        simpa only [aboveMetaclass, happlied, (hd.grows.kind_eq hsubject).trans happlied] using hat
      · have hnot : ∀ generic args, t.kind subject ≠ .applied generic args := fun generic args h =>
          happlied ⟨generic, args, h⟩
        rw [aboveMetaclass_of_not_applied hnot,
          aboveMetaclass_of_not_applied fun generic args h =>
            hnot generic args ((hd.grows.kind_eq hsubject).symm.trans h)]
        exact hparent

end Describes

/-! ### Before and after -/

theorem Searchable.metaclassOf (hs : t.Searchable) (hmaking : (t.metaclassOf u).2.Founded) :
    (t.metaclassOf u).2.Searchable := by
  refine ⟨hmaking, fun id => ?_⟩
  have hgrows := growsTo_metaclassOf t u
  rcases Nat.lt_or_ge id.index t.size with hlt | hge
  · rw [hgrows.includes_eq hs.whole.toClosed hlt]
    exact hs.acyclic id
  · -- what is new includes nothing
    have hnone : ((t.metaclassOf u).2.get id).includes = [] :=
      (hgrows.bare id hge).field_eq TypeEntry.includes fun _ => rfl
    refine Bool.eq_false_iff.mpr fun h => ?_
    obtain ⟨i, hi, -⟩ := includes_iff.mp h
    have hmodule := hmaking.isModule_of_includes h
    unfold inclusions at hi
    split at hi
    · rename_i hk
      rw [isModule, hk] at hmodule; cases hmodule
    · rw [hnone] at hi; cases hi

/-- What a search for methods from `a` finds once the metaclass of `u` has been asked for: what it
found before; or it had ended without an answer at the metaclass of a class below `u`, when `u` had
no metaclass yet, and now goes on there. -/
def FoundAgain (t : Types) (u a : TypeId) (find : Types → TypeId → Option ExprId) : Prop :=
  find (t.metaclassOf u).2 a = find t a ∨
    find t a = none ∧ t.metaclass? u = none ∧
      (∃ subject, t.kind a = .metaclass subject ∧ u ∈ t.ancestors subject) ∧
      find (t.metaclassOf u).2 a = find (t.metaclassOf u).2 (t.metaclassOf u).1

theorem Searchable.foundAgain (hs : t.Searchable) (hs' : (t.metaclassOf u).2.Searchable)
    (hcontent : ∀ e, methods e.content = methods e)
    (hbare : ∀ e : TypeEntry, e.Bare → methods e = ∅) (hu : u.index < t.size)
    (ha : a.index < t.size) :
    FoundAgain t u a (·.findIn methods · key) := by
  rcases metaclassOf_cases hu with heq | ⟨hd, hnew⟩
  · exact .inl (by simp only [heq])
  · unfold FoundAgain
    rw [hnew]
    by_cases hmeta : ∃ subject, t.kind a = .metaclass subject
    · obtain ⟨subject, hk⟩ := hmeta
      refine (hd.findIn_metaclass methods key hs hs' hcontent hbare hk).imp_right fun h => ?_
      exact ⟨h.1, hd.before, ⟨subject, hk, h.2.1⟩, h.2.2⟩
    · refine .inl (hd.findIn_eq methods key hs hs' hcontent ha ?_)
      unfold isMetaclass
      split
      · exact absurd ⟨_, ‹_›⟩ hmeta
      · rfl

/-- Asking for a metaclass changes no name, no path and no subtype. It changes no method or macro
that was found, and lets a search come further only where the metaclass of a superclass had been
missing. -/
theorem Makings.answers_metaclassOf (h : Makings initial t) (hu : u.index < t.size)
    (ha : a.index < t.size) : ((t.metaclassOf u).2.name a = t.name a ∧
      (∀ of, (t.metaclassOf u).2.isSubtype a of = t.isSubtype a of) ∧
      (∀ names, (t.metaclassOf u).2.resolvePath a names = t.resolvePath a names) ∧
      ∀ names, (t.metaclassOf u).2.resolveRootPath names = t.resolveRootPath names) ∧
    ((∀ m, t.includes m m = false) → ∀ key,
      FoundAgain t u a (·.findMethod · key) ∧ FoundAgain t u a (·.findMacro · key)) := by
  have hf := h.founded
  have hgrows := growsTo_metaclassOf t u
  refine ⟨⟨hgrows.name_eq hf ha, fun of => hgrows.isSubtype_eq hf.whole.toClosed ha,
    hgrows.resolvePath_eq hf ha, hgrows.resolveRootPath_eq hf⟩, fun hacyclic key => ?_⟩
  have hs : t.Searchable := ⟨hf, hacyclic⟩
  have hs' := hs.metaclassOf (Makings.founded (h.tail (.metaclassOf hu)))
  exact ⟨hs.foundAgain TypeEntry.defs key hs' (fun _ => rfl)
    (fun _ hb => hb.field_eq TypeEntry.defs fun _ => rfl) hu ha,
    hs.foundAgain TypeEntry.macros key hs' (fun _ => rfl)
      (fun _ hb => hb.field_eq TypeEntry.macros fun _ => rfl) hu ha⟩

/-- A class method `foo` of `Object`, and a class `Foo`. -/
def withClassMethod : Types :=
  (((initial.metaclassOf .object).2.addMethod ⟨24⟩ ("foo", 0) ⟨0⟩).declare .program "Foo"
    (plainClass .reference)).2

/-- The metaclass of `Foo` is there; that of `Reference`, which lies between `Foo` and `Object`, is
not. -/
def withGap : Types := (withClassMethod.metaclassOf ⟨25⟩).2

theorem makings_withGap : Makings initial withGap := by
  let t := (initial.metaclassOf .object).2.addMethod ⟨24⟩ ("foo", 0) ⟨0⟩
  have hobject : Making initial (initial.metaclassOf .object).2 := .metaclassOf (by decide +kernel)
  have hmethod : Making (initial.metaclassOf .object).2 t := .addMethod ⟨24⟩ ("foo", 0) ⟨0⟩
  have hcontainer : TypeId.program.index < t.size := by decide +kernel
  have hmentions : ∀ m ∈ (plainClass .reference).mentions, m.index < t.size := by decide +kernel
  have hfoo : Making t withClassMethod :=
    .declare "Foo" hcontainer rfl hmentions fun head parent hk hp => by
    cases hk; cases hp; decide +kernel
  have hgap : Making withClassMethod withGap := .metaclassOf (by decide +kernel)
  exact (((Relation.ReflTransGen.single hobject).tail hmethod).tail hfoo).tail hgap

theorem includes_withGap (m : TypeId) : withGap.includes m m = false := by
  have hplain : ∀ e ∈ withGap.entries.toList, e.includes = [] ∧ ∀ g ∈ e.kind.mentions,
      (withGap.get g).includes = [] := by
    decide +kernel
  have hnone : ∀ id : TypeId, withGap.inclusions id = [] := fun id => by
    rcases Nat.lt_or_ge id.index withGap.size with hlt | hge
    · have he := hplain _ (get_of_lt hlt ▸ Array.getElem_mem_toList hlt)
      unfold inclusions
      split
      · rename_i hk
        exact he.2 _ (by rw [show (withGap.get id).kind = _ from hk]; simp [TypeKind.mentions])
      · exact he.1
    · exact inclusions_of_le hge
  refine Bool.eq_false_iff.mpr fun h => ?_
  obtain ⟨i, hi, -⟩ := includes_iff.mp h
  rw [hnone] at hi; cases hi

theorem Makings.answers_metaclassOf_withGap :
    Makings initial withGap ∧ TypeId.reference.index < withGap.size ∧
    (∀ m, withGap.includes m m = false) ∧
    FoundAgain withGap .reference ⟨26⟩ (·.findMethod · ("foo", 0)) :=
  ⟨makings_withGap, by decide +kernel, includes_withGap,
    ((makings_withGap.answers_metaclassOf (by decide +kernel) (by decide +kernel)).2
      includes_withGap ("foo", 0)).1⟩

/-- `Foo.foo` is not found before somebody asks for the metaclass of `Reference`, and is found
after. -/
theorem found_only_after_metaclassOf :
    ¬ ∀ t, Makings initial t → ∀ u a : TypeId, u.index < t.size → a.index < t.size →
    ∀ key, (t.metaclassOf u).2.findMethod a key = t.findMethod a key := fun h =>
  absurd (h withGap makings_withGap .reference ⟨26⟩ (by decide +kernel)
    (by decide +kernel) ("foo", 0)) (by decide +kernel)

end TypeFlow.Types

import TypeFlow.Guard.Basic
import TypeFlow.Proofs.Guard.Unions

/-!
# The order of narrowings

A conjunction does not depend on the order of its parts, nor on how often each is there, as long as
the facts are `Robust`: one of the atoms passes them all, or no target is strictly below an atom, or
the type and the targets form a chain. So the view of a variable depends only on what is in force
for it (`sameView_all`).
-/

namespace TypeFlow
open TypeFlow.Types

namespace Fact
variable {t : Types} {facts facts' : List Fact} {as : List TypeId} {a m : TypeId}

/-- A type or a target of the facts. -/
def Compared (facts : List Fact) (a b : TypeId) : Prop := b = a ∨ isA b ∈ facts

/-- The type and the targets are no unions, each two of them are comparable, and one is strictly
below the others. -/
structure Chain (t : Types) (facts : List Fact) (a least : TypeId) : Prop where
  compared : Compared facts a least
  below : ∀ b, Compared facts a b → t.isSubtype least b = true
  strict : ∀ b, Compared facts a b → t.isSubtype b least = true → b = least
  comparable : ∀ b c, Compared facts a b → Compared facts a c → t.isSubtype b c = true ∨
    t.isSubtype c b = true
  atom : ∀ b, Compared facts a b → t.atoms b = [b]
  notNil : notNil ∈ facts → ¬ Compared facts a .nil

/-- What the facts leave does not depend on their order. -/
inductive Robust (t : Types) (facts : List Fact) (as : List TypeId) : Prop where
  | survivor {a : TypeId} : a ∈ as → holdAll t facts a = true → Robust t facts as
  | foremost : (∀ a ∈ as, Foremost t facts a) → Robust t facts as
  | chain {a least : TypeId} : as = [a] → Chain t facts a least → Robust t facts as

theorem holdAll_congr (h : ∀ fact, fact ∈ facts ↔ fact ∈ facts') :
    holdAll t facts = holdAll t facts' := by
  funext a
  rw [holdAll, holdAll, Bool.eq_iff_iff, List.all_eq_true, List.all_eq_true]
  exact forall_congr' fun fact => by rw [h fact]

theorem Foremost.congr (h : ∀ fact, fact ∈ facts ↔ fact ∈ facts') (ha : Foremost t facts a) :
    Foremost t facts' a :=
  fun target htarget => ha target ((h _).mpr htarget)

theorem Chain.congr (h : ∀ fact, fact ∈ facts ↔ fact ∈ facts') (hc : Chain t facts a m) :
    Chain t facts' a m := by
  have hcompared : ∀ b, Compared facts' a b ↔ Compared facts a b :=
    fun b => or_congr_right (h _).symm
  exact ⟨(hcompared m).mpr hc.compared, fun b hb => hc.below b ((hcompared b).mp hb),
    fun b hb => hc.strict b ((hcompared b).mp hb),
    fun b c hb hc' => hc.comparable b c ((hcompared b).mp hb) ((hcompared c).mp hc'),
    fun b hb => hc.atom b ((hcompared b).mp hb),
    fun hn hnil => hc.notNil ((h _).mpr hn) ((hcompared _).mp hnil)⟩

/-- Along a chain the type is narrowed down to the least of the targets that are still to come. -/
theorem Chain.leftBy_eq_of_subset (hc : Chain t facts a m) {rest : List Fact} (hrest : rest ⊆ facts)
    {b : TypeId} (hb : Compared facts a b) (hm : b = m ∨ isA m ∈ rest) :
    leftBy t rest [b] = [m] := by
  induction rest generalizing b with
  | nil => rw [hm.resolve_right List.not_mem_nil]; rfl
  | cons fact rest ih =>
    have hfact := hrest List.mem_cons_self
    have hrest' : rest ⊆ facts := fun f hf => hrest (List.mem_cons_of_mem _ hf)
    cases fact with
    | notNil =>
      have hne : b ≠ .nil := fun h => hc.notNil hfact (h ▸ hb)
      rw [leftBy_cons, left_singleton_of_holds (holds_notNil.mpr hne)]
      exact ih hrest' hb (hm.imp_right fun h => (List.mem_cons.mp h).resolve_left Fact.noConfusion)
    | isA target =>
      have htarget : Compared facts a target := .inr hfact
      by_cases hbelow : t.isSubtype b target = true
      · rw [leftBy_cons, left_singleton_of_holds (holds_isA.trans hbelow)]
        refine ih hrest' hb ?_
        rcases hm with hm | hm
        · exact .inl hm
        · rcases List.mem_cons.mp hm with heq | hm
          · cases heq
            exact .inl (hc.strict b hb hbelow)
          · exact .inr hm
      · have habove := (hc.comparable b target hb htarget).resolve_left hbelow
        have hnot : ¬ (isA target).holds t b = true := hbelow
        rw [leftBy_cons, left_singleton_of_not_holds hnot, narrower, if_pos habove,
          hc.atom target htarget]
        refine ih hrest' htarget ?_
        rcases hm with rfl | hm
        · exact absurd (hc.below target htarget) hbelow
        · exact (List.mem_cons.mp hm).imp_left fun heq => by cases heq; rfl

theorem Chain.leftBy_eq (hc : Chain t facts a m) : leftBy t facts [a] = [m] :=
  hc.leftBy_eq_of_subset (fun _ h => h) (.inl rfl) (hc.compared.imp_left Eq.symm)

theorem Robust.leftBy_congr (h : Robust t facts as) (hsame : ∀ fact, fact ∈ facts ↔ fact ∈ facts') :
    leftBy t facts' as = leftBy t facts as := by
  cases h with
  | survivor ha hall =>
    rw [leftBy_eq_filter_of_mem ha hall, leftBy_eq_filter_of_mem ha (holdAll_congr hsame ▸ hall),
      holdAll_congr hsame]
  | foremost hall =>
    rw [leftBy_eq_filter hall, leftBy_eq_filter fun a ha => (hall a ha).congr hsame,
      holdAll_congr hsame]
  | chain has hc => rw [has, hc.leftBy_eq, (hc.congr hsame).leftBy_eq]

theorem Robust.congr (h : Robust t facts as) (hsame : ∀ fact, fact ∈ facts ↔ fact ∈ facts') :
    Robust t facts' as := by
  cases h with
  | survivor ha hall => exact .survivor ha (holdAll_congr hsame ▸ hall)
  | foremost hall => exact .foremost fun a ha => (hall a ha).congr hsame
  | chain has hc => exact .chain has (hc.congr hsame)

end Fact

namespace Narrowing
variable {t : Types} {id : TypeId} {f g : Narrowing} {fs gs : List Narrowing} {fact : Fact}

/-! ### Conjunctions -/

theorem factsAll_append (fs gs : List Narrowing) :
    factsAll (fs ++ gs) = factsAll fs ++ factsAll gs := by
  induction fs with
  | nil => rfl
  | cons f rest ih => rw [List.cons_append, factsAll, factsAll, ih, List.append_assoc]

theorem factsAll_conjuncts (f : Narrowing) : factsAll f.conjuncts = f.facts := by
  cases f with
  | notNil => rfl
  | isA target => rfl
  | all parts => rfl

theorem mem_factsAll_iff : fact ∈ factsAll fs ↔ ∃ f ∈ fs, fact ∈ f.facts := by
  induction fs with
  | nil => simp [factsAll]
  | cons f rest ih => simp [factsAll, ih]

theorem mem_facts_conj_iff : fact ∈ (f.conj g).facts ↔ fact ∈ f.facts ∨ fact ∈ g.facts := by
  unfold conj
  split
  · rename_i heq; rw [heq, or_self]
  · rw [facts, factsAll_append, factsAll_conjuncts, factsAll_conjuncts, List.mem_append]

theorem mem_facts_foldl_conj_iff : fact ∈ (fs.foldl conj f).facts ↔ fact ∈ factsAll (f :: fs) := by
  induction fs generalizing f with
  | nil => simp [factsAll]
  | cons g rest ih =>
    rw [List.foldl_cons, ih, factsAll, factsAll, factsAll]
    simp only [List.mem_append, mem_facts_conj_iff, or_assoc]

/-- What is in force for a variable proves what each of its narrowings does. -/
theorem mem_facts_narrowingFor {s : GuardStack} {name : String} (h : s.narrowingFor name = some f) :
    fact ∈ f.facts ↔ fact ∈ factsAll (s.activeNarrowings name) := by
  unfold GuardStack.narrowingFor at h
  split at h
  · cases h
  · rename_i heq
    cases h
    rw [heq, mem_facts_foldl_conj_iff]

theorem narrowingFor_eq_none_iff {s : GuardStack} {name : String} :
    s.narrowingFor name = none ↔ s.activeNarrowings name = [] := by
  unfold GuardStack.narrowingFor
  split <;> simp [*]

/-! ### Views -/

/-- The second narrowing leaves of the type what the first does, in every table that the one that
the first leaves grows to. -/
def SameView (t : Types) (id : TypeId) (f g : Narrowing) : Prop :=
  ∀ t', Makings initial t' → (f.apply t id).2.GrowsTo t' → (g.apply t' id).1 = (f.apply t id).1

theorem makings_applyNotNil (hs : t.Solid) : Makings t (applyNotNil t id).2 := by
  unfold applyNotNil
  split
  · exact .single (.join fun m hm => hs.toClosed.member_lt ‹_› (List.mem_filter.mp hm).1)
  · split <;> exact .refl

theorem makings_applyIsA {target : TypeId} (hs : t.Solid) : Makings t (applyIsA t id target).2 := by
  unfold applyIsA
  split
  · exact .single (.join fun m hm => hs.toClosed.member_lt ‹_› (List.mem_filter.mp hm).1)
  · split
    · exact .refl
    · split <;> exact .refl

mutual

/-- A narrowing adds to a table only what joins do. -/
theorem makings_apply (f : Narrowing) : ∀ {t : Types} {id : TypeId}, t.Solid → id.index < t.size →
    Makings t (f.apply t id).2 := by
  intro t id hs hid
  match f with
  | .notNil => exact makings_applyNotNil hs
  | .isA target => exact makings_applyIsA hs
  | .all parts => exact makings_applyAll parts hs hid

theorem makings_applyAll (fs : List Narrowing) :
    ∀ {t : Types} {id : TypeId}, t.Solid → id.index < t.size →
    Makings t (applyAll t id fs).2 := by
  intro t id hs hid
  match fs with
  | [] => exact .refl
  | f :: rest =>
    have h := makings_apply f hs hid
    have hheld := held_apply f hs hid
    rw [applyAll]
    rcases hr : f.apply t id with ⟨_ | narrowed, t'⟩ <;> rw [hr] at h hheld
    · exact h
    · exact h.trans (makings_applyAll rest hheld.solid (hheld.lt narrowed rfl))

end

theorem sameView_of_facts (ht : Makings initial t) (hid : id.index < t.size)
    (hf : ∀ target ∈ f.targets, target.index < t.size)
    (hsame : ∀ fact, fact ∈ f.facts ↔ fact ∈ g.facts)
    (hrobust : Fact.Robust t f.facts (t.atoms id)) : SameView t id f g := by
  intro t' ht' hgrows
  have hs := ht.founded.whole.toSolid
  have hs' := ht'.founded.whole.toSolid
  have htt' := (growsTo_apply f t id).trans hgrows
  have hg : ∀ target ∈ g.targets, target.index < t.size := fun target h =>
    hf target ((mem_targets_iff f).mpr ((hsame _).mpr ((mem_targets_iff g).mp h)))
  have hheld := held_apply f hs hid
  have hheld' := held_apply g hs' (htt'.lt hid)
  refine eq_of_answerAtoms hheld'.solid.canonical ?_
  calc answerAtoms (g.apply t' id)
      = Fact.leftBy t' g.facts (t'.atoms id) :=
        answerAtoms_apply g hs' (htt'.lt hid) fun x h => htt'.lt (hg x h)
    _ = Fact.leftBy t g.facts (t.atoms id) := by
        rw [htt'.keepsKinds.atoms_eq hid]
        exact Fact.leftBy_eq htt' hs.toClosed (fun fact h => known_of_mem_facts hg h) fun a ha =>
          hs.held.atom_lt hid ha
    _ = Fact.leftBy t f.facts (t.atoms id) := hrobust.leftBy_congr hsame
    _ = answerAtoms (f.apply t id) := (answerAtoms_apply f hs hid hf).symm
    _ = answerAtoms ((f.apply t id).1, (g.apply t' id).2) :=
        ((hgrows.trans (growsTo_apply g t' id)).keepsKinds.flatMap_atoms_eq fun a ha =>
          hheld.lt a (Option.mem_toList.mp ha)).symm

/-- Conjunctions with the same parts leave the same of a type, and so do the narrowings that are in
force for a variable wherever they come from the same ones, if these are robust. -/
theorem sameView_all (ht : Makings initial t) (hid : id.index < t.size)
    (hfs : ∀ target ∈ targetsAll fs, target.index < t.size) (hsame : ∀ f, f ∈ fs ↔ f ∈ gs)
    (hrobust : Fact.Robust t (factsAll fs) (t.atoms id)) :
    SameView t id (.all fs) (.all gs) ∧
      ∀ (s s' : GuardStack) (name : String), (∀ f, f ∈ s.activeNarrowings name ↔ f ∈ fs) →
        (∀ f, f ∈ s'.activeNarrowings name ↔ f ∈ fs) →
          Option.Rel (SameView t id) (s.narrowingFor name) (s'.narrowingFor name) := by
  have hfacts : ∀ {hs : List Narrowing}, (∀ f, f ∈ hs ↔ f ∈ fs) → ∀ fact, fact ∈ factsAll hs ↔
      fact ∈ factsAll fs :=
    fun hmem fact => by simp only [mem_factsAll_iff, hmem]
  refine ⟨sameView_of_facts ht hid hfs
    (fun fact => (hfacts (fun f => (hsame f).symm) fact).symm) hrobust,
    fun s s' name hs hs' => ?_⟩
  have hnone : ∀ {s : GuardStack}, (∀ f, f ∈ s.activeNarrowings name ↔ f ∈ fs) →
      (s.narrowingFor name = none ↔ fs = []) := fun {s} hs => by
    simp only [narrowingFor_eq_none_iff, List.eq_nil_iff_forall_not_mem, hs]
  cases hf : s.narrowingFor name with
  | none =>
    rw [(hnone hs').mpr ((hnone hs).mp hf)]
    exact .none
  | some f =>
    obtain ⟨g, hg⟩ := Option.ne_none_iff_exists'.mp fun h => by
      rw [(hnone hs).mpr ((hnone hs').mp h)] at hf; cases hf
    have hff : ∀ fact, fact ∈ f.facts ↔ fact ∈ factsAll fs := fun fact =>
      (mem_facts_narrowingFor hf).trans (hfacts hs fact)
    have hgf : ∀ fact, fact ∈ g.facts ↔ fact ∈ factsAll fs := fun fact =>
      (mem_facts_narrowingFor hg).trans (hfacts hs' fact)
    rw [hg]
    refine .some
      (sameView_of_facts ht hid (fun target h => ?_) (fun fact => (hff fact).trans (hgf fact).symm)
      (hrobust.congr fun fact => (hff fact).symm))
    exact hfs target ((mem_targetsAll_iff fs).mpr ((hff _).mp ((mem_targets_iff f).mp h)))

/-- `Int32` is below `Number`, which is below `Value`. -/
theorem chain_value : Fact.Chain initial [.isA .number, .isA .int32] .value .int32 := by
  have hcompared : ∀ b, Fact.Compared [.isA .number, .isA .int32] .value b ↔
      b ∈ [TypeId.value, .number, .int32] :=
    fun b => by simp [Fact.Compared]
  have hall : ∀ b ∈ [TypeId.value, .number, .int32],
      initial.isSubtype .int32 b = true ∧ (initial.isSubtype b .int32 = true → b = .int32) ∧
        initial.atoms b = [b] ∧
        ∀ c ∈ [TypeId.value, .number, .int32], initial.isSubtype b c = true ∨
          initial.isSubtype c b = true := by
    decide +kernel
  exact ⟨(hcompared _).mpr (by decide), fun b hb => (hall b ((hcompared b).mp hb)).1,
    fun b hb => (hall b ((hcompared b).mp hb)).2.1,
    fun b c hb hc => (hall b ((hcompared b).mp hb)).2.2.2 c ((hcompared c).mp hc),
    fun b hb => (hall b ((hcompared b).mp hb)).2.2.1, fun hn => by simp at hn⟩

/-- A `Value` that is a `Number` and an `Int32`, tested in either order. -/
theorem sameView_all_int32 : Makings initial initial ∧ TypeId.value.index < initial.size ∧
    (∀ target ∈ targetsAll [.isA .number, .isA .int32], target.index < initial.size) ∧
    (∀ f, f ∈ [isA .number, .isA .int32] ↔ f ∈ [isA .int32, .isA .number, .isA .int32]) ∧
    SameView initial .value (.all [.isA .number, .isA .int32])
      (.all [.isA .int32, .isA .number, .isA .int32]) := by
  have hlt : TypeId.value.index < initial.size := by decide +kernel
  have htargets : ∀ target ∈ targetsAll [.isA .number, .isA .int32],
      target.index < initial.size := by decide +kernel
  have hsame : ∀ f, f ∈ [isA .number, .isA .int32] ↔
      f ∈ [isA .int32, .isA .number, .isA .int32] := fun f => by
    generalize isA .number = g, isA .int32 = g'
    grind
  have hrobust : Fact.Robust initial (factsAll [.isA .number, .isA .int32])
      (initial.atoms .value) :=
    .chain (by decide +kernel) chain_value
  exact ⟨.refl, hlt, htargets, hsame, (sameView_all .refl hlt htargets hsame hrobust).1⟩

/-- A `Value` that is not `Nil` and then is `Nil` is `Nil`, but nothing is `Nil` and then not. -/
theorem not_sameView_all :
    ¬ ∀ t, Makings initial t → ∀ (id : TypeId) (fs gs : List Narrowing), id.index < t.size →
    (∀ target ∈ targetsAll fs, target.index < t.size) → (∀ f, f ∈ fs ↔ f ∈ gs) →
      SameView t id (.all fs) (.all gs) := fun h => by
  have hlt : TypeId.value.index < initial.size := by decide +kernel
  have hsame :=
    h initial .refl .value [.notNil, .isA .nil] [.isA .nil, .notNil] hlt (by decide +kernel)
    fun f => List.Perm.mem_iff (.swap ..)
  have hmakings := makings_apply (.all [.notNil, .isA .nil]) solid_initial hlt
  exact absurd (hsame _ hmakings (.refl _)) (by decide +kernel)

end Narrowing

end TypeFlow

import TypeFlow.Proofs.Guard.Facts
import TypeFlow.Proofs.Types.Founded

/-!
# Narrowed unions

Whatever is left of a union is left of its members, and it is the join of what is left of each, as
long as no target is strictly below a member (`join_applyEach`). A member that stands alone is
narrowed down to such a target, but beside other members it is dropped.
-/

namespace TypeFlow
open TypeFlow.Types

namespace Fact
variable {t : Types} {facts : List Fact} {as : List TypeId} {b : TypeId}

/-- What is left of several atoms is left of one of them when it stands alone. -/
theorem exists_of_mem_leftBy (h : b ∈ leftBy t facts as) : ∃ a ∈ as, b ∈ leftBy t facts [a] := by
  induction facts generalizing as with
  | nil => exact ⟨b, h, List.mem_singleton_self b⟩
  | cons fact rest ih =>
    match as with
    | [] => simp at h
    | [a] => exact ⟨a, List.mem_singleton_self a, h⟩
    | a :: a' :: others =>
      rw [leftBy_cons, left_cons_cons] at h
      obtain ⟨c, hc, hb⟩ := ih h
      obtain ⟨hmem, hholds⟩ := List.mem_filter.mp hc
      exact ⟨c, hmem, by rwa [leftBy_cons, left_singleton_of_holds hholds]⟩

/-- Facts of which no target is strictly below an atom leave of the atoms what they leave of
each. -/
theorem flatMap_leftBy (h : ∀ a ∈ as, Foremost t facts a) :
    as.flatMap (fun a => leftBy t facts [a]) = leftBy t facts as := by
  have hone : ∀ a ∈ as, leftBy t facts [a] = [a].filter (holdAll t facts) := fun a ha =>
    leftBy_eq_filter fun b hb => by rw [List.mem_singleton.mp hb]; exact h a ha
  rw [leftBy_eq_filter h, List.flatMap_congr hone, ← List.filter_flatMap, List.flatMap_singleton']

end Fact

namespace Narrowing
variable {t : Types} {union : TypeId} {members ids : List TypeId} {f : Narrowing}

/-- Narrows the types one after the other and keeps what is left of each. -/
def applyEach (t : Types) (f : Narrowing) : List TypeId → List TypeId × Types
  | [] => ([], t)
  | id :: rest =>
    ((f.apply t id).1.toList ++ (applyEach (f.apply t id).2 f rest).1,
      (applyEach (f.apply t id).2 f rest).2)

/-- The answers are types of a table that has grown, with the atoms that the facts leave. -/
theorem answers_applyEach (hs : t.Solid) (hids : ∀ id ∈ ids, id.index < t.size)
    (hf : ∀ target ∈ f.targets, target.index < t.size) :
    t.GrowsTo (applyEach t f ids).2 ∧ (applyEach t f ids).2.Solid ∧
      (∀ id ∈ (applyEach t f ids).1, id.index < (applyEach t f ids).2.size) ∧
      (applyEach t f ids).1.flatMap (applyEach t f ids).2.atoms =
        ids.flatMap fun id => Fact.leftBy t f.facts (t.atoms id) := by
  induction ids generalizing t with
  | nil => exact ⟨.refl t, hs, nofun, rfl⟩
  | cons id rest ih =>
    have hid := hids id List.mem_cons_self
    have hfirst := growsTo_apply f t id
    have hheld := held_apply f hs hid
    have hrest : ∀ id ∈ rest, id.index < t.size := fun id h => hids id (List.mem_cons_of_mem _ h)
    obtain ⟨hgrows, hsolid, hlt, hatoms⟩ := ih hheld.solid (fun id h => hfirst.lt (hrest id h))
      fun target h => hfirst.lt (hf target h)
    have hanswer : ∀ id' ∈ (f.apply t id).1.toList,
        id'.index < (f.apply t id).2.size := fun id' h =>
      hheld.lt id' (Option.mem_toList.mp h)
    refine ⟨hfirst.trans hgrows, hsolid, fun id' h => ?_, ?_⟩
    · rcases List.mem_append.mp h with h | h
      · exact hgrows.lt (hanswer id' h)
      · exact hlt id' h
    · rw [applyEach, List.flatMap_append, hatoms,
        hgrows.keepsKinds.flatMap_atoms_eq hanswer, List.flatMap_cons]
      congr 1
      · exact answerAtoms_apply f hs hid hf
      · refine List.flatMap_congr fun id h => ?_
        rw [hfirst.keepsKinds.atoms_eq (hrest id h)]
        exact Fact.leftBy_eq hfirst hs.toClosed (fun fact h => known_of_mem_facts hf h) fun a ha =>
          hs.held.atom_lt (hrest id h) ha

/-- Answers with the atoms of a type have that type as their join. -/
theorem join_eq_of_answerAtoms {r : Option TypeId} (hcan : t.Canonical)
    (hr : ∀ id, r = some id → id.index < t.size) (h : ids.flatMap t.atoms = answerAtoms (r, t)) :
    t.join ids = (r, t) := by
  cases r with
  | none =>
    have hids : ids = [] := by
      by_contra hne
      exact hcan.flatMap_atoms_ne_nil hne h
    rw [hids]; rfl
  | some id =>
    rw [answerAtoms_some] at h
    exact hcan.join_eq (by rw [h, hcan.canonicalMembers_atoms])

/-- What is left of a union is left of its members. If no target is strictly below a member, then it
is the join of what is left of each, and nothing if nothing is left of any. -/
theorem join_applyEach (ht : Makings initial t) (hu : t.kind union = .union members)
    (hf : ∀ target ∈ f.targets, target.index < t.size) :
    let narrowed := f.apply t union
    let each := applyEach narrowed.2 f members
    (∀ a ∈ answerAtoms narrowed, ∃ id ∈ each.1, a ∈ each.2.atoms id) ∧
      ((∀ m ∈ members, ∀ target ∈ f.targets, t.isSubtype target m = true →
        t.isSubtype m target = true) →
        each.2.join each.1 = (narrowed.1, each.2) ∧ (narrowed.1 = none ↔ each.1 = [])) := by
  intro narrowed each
  have hs := ht.founded.whole.toSolid
  have hunion : union.index < t.size :=
    Nat.lt_of_not_le fun hle => by rw [kind_of_le hle] at hu; cases hu
  have hmembers : ∀ m ∈ members, m.index < t.size := fun m hm => hs.toClosed.member_lt hu hm
  have hheld := held_apply f hs hunion
  have hgrows := growsTo_apply f t union
  have hatoms : answerAtoms narrowed = Fact.leftBy t f.facts members := by
    rw [answerAtoms_apply f hs hunion hf, atoms_of_union hu]
  obtain ⟨hgrows', hsolid, hlt, heach⟩ :=
    answers_applyEach hheld.solid (fun m hm => hgrows.lt (hmembers m hm))
    fun target h => hgrows.lt (hf target h)
  have heach : each.1.flatMap each.2.atoms = members.flatMap fun m =>
      Fact.leftBy t f.facts [m] := by
    refine heach.trans (List.flatMap_congr fun m hm => ?_)
    rw [hgrows.keepsKinds.atoms_eq (hmembers m hm), atoms_of_not_union
      (hs.canonical.flat union members hu m hm)]
    exact Fact.leftBy_eq hgrows hs.toClosed (fun fact h => known_of_mem_facts hf h) fun a ha => by
      rw [List.mem_singleton.mp ha]; exact hmembers m hm
  refine ⟨fun a ha => ?_, fun hforemost => ?_⟩
  · rw [hatoms] at ha
    obtain ⟨m, hm, ha⟩ := Fact.exists_of_mem_leftBy ha
    exact List.mem_flatMap.mp (heach ▸ List.mem_flatMap.mpr ⟨m, hm, ha⟩)
  · have hsame : each.1.flatMap each.2.atoms = answerAtoms (narrowed.1, each.2) := by
      rw [heach, Fact.flatMap_leftBy fun m hm target htarget =>
        hforemost m hm target ((mem_targets_iff f).mpr htarget), ← hatoms]
      exact (hgrows'.keepsKinds.flatMap_atoms_eq fun id h =>
        hheld.lt id (Option.mem_toList.mp h)).symm
    have hjoin :=
      join_eq_of_answerAtoms hsolid.canonical (fun id h => hgrows'.lt (hheld.lt id h)) hsame
    refine ⟨hjoin, ?_⟩
    rw [← hsolid.canonical.join_eq_none_iff, hjoin]

/-! ### `Number` and `Char` -/

/-- A table with the join of `Number` and `Char`. -/
def withNumberOrChar : Types := (initial.join [.number, .char]).2

theorem makings_withNumberOrChar : Makings initial withNumberOrChar :=
  .single (.join (by decide +kernel))

theorem kind_withNumberOrChar :
    withNumberOrChar.kind ⟨24⟩ = .union [.number, .char] := by decide +kernel

/-- What is not `Nil` and a `Number`, of the union and of its members. -/
theorem join_applyEach_number : Makings initial withNumberOrChar ∧
    withNumberOrChar.kind ⟨24⟩ = .union [.number, .char] ∧
    (∀ target ∈ (all [.notNil, .isA .number]).targets, target.index < withNumberOrChar.size) ∧
    ((all [.notNil, .isA .number]).apply withNumberOrChar ⟨24⟩).1 = some .number ∧
    ((applyEach ((all [.notNil, .isA .number]).apply withNumberOrChar ⟨24⟩).2
      (all [.notNil, .isA .number]) [.number, .char]).2.join [.number]).1 = some .number := by
  have hf : ∀ target ∈ (all [.notNil, .isA .number]).targets,
      target.index < withNumberOrChar.size := by
    decide +kernel
  have hanswer : ((all [.notNil, .isA .number]).apply withNumberOrChar ⟨24⟩).1 = some .number := by
    decide +kernel
  have heach : (applyEach ((all [.notNil, .isA .number]).apply withNumberOrChar ⟨24⟩).2
      (all [.notNil, .isA .number])
      [.number, .char]).1 = [.number] := by decide +kernel
  obtain ⟨hjoin, -⟩ :=
    (join_applyEach makings_withNumberOrChar kind_withNumberOrChar hf).2 (by decide +kernel)
  refine ⟨makings_withNumberOrChar, kind_withNumberOrChar, hf, hanswer, ?_⟩
  rw [← heach, hjoin, hanswer]

/-- A `Number` alone is narrowed down to `Int32`, but nothing is left of a `Number` or `Char`. -/
theorem not_join_applyEach :
    ¬ ∀ t, Makings initial t → ∀ (f : Narrowing) (union : TypeId) (members : List TypeId),
    t.kind union = .union members → (∀ target ∈ f.targets, target.index < t.size) →
      ((applyEach (f.apply t union).2 f members).2.join
          (applyEach (f.apply t union).2 f members).1).1 =
        (f.apply t union).1 := fun h =>
  absurd (h withNumberOrChar makings_withNumberOrChar (.isA .int32) ⟨24⟩ _ kind_withNumberOrChar
    (by decide +kernel)) (by decide +kernel)

end Narrowing

end TypeFlow

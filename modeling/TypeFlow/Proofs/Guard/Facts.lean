import TypeFlow.Proofs.Types.LeastUpperBound
import TypeFlow.Proofs.Types.Precedes

/-!
# What narrowings leave

A narrowing proves a list of facts, which are taken in one after the other. What is left of a type
is known by its atoms: each fact keeps the atoms of which it holds, and where a single atom is left
of which it does not hold, a narrower target takes its place (`Narrowing.answerAtoms_apply`).
-/

namespace TypeFlow
open TypeFlow.Types

/-- A single thing that is proved of a value. -/
inductive Fact where
  | notNil
  | isA (target : TypeId)
  deriving DecidableEq

namespace Fact

def holds (t : Types) (fact : Fact) (a : TypeId) : Bool :=
  match fact with
  | .notNil => a ≠ .nil
  | .isA target => t.isSubtype a target

/-- What takes the place of an atom of which the fact does not hold, if there is nothing beside the
atom. -/
def narrower (t : Types) (fact : Fact) (a : TypeId) : List TypeId :=
  match fact with
  | .notNil => []
  | .isA target => if t.isSubtype target a then t.atoms target else []

def left (t : Types) (fact : Fact) : List TypeId → List TypeId
  | [a] => if fact.holds t a then [a] else fact.narrower t a
  | as => as.filter (fact.holds t)

/-- What is left after one fact and the other. -/
def leftBy (t : Types) (facts : List Fact) (as : List TypeId) : List TypeId :=
  facts.foldl (fun as fact => fact.left t as) as

variable {t t' : Types} {fact : Fact} {facts : List Fact} {a : TypeId} {as : List TypeId}

@[simp] theorem holds_notNil : notNil.holds t a = true ↔ a ≠ .nil := decide_eq_true_iff

@[simp] theorem holds_isA {target : TypeId} : (isA target).holds t a = t.isSubtype a target := rfl

theorem left_cons_cons (t : Types) (fact : Fact) (a b : TypeId) (rest : List TypeId) :
    fact.left t (a :: b :: rest) = (a :: b :: rest).filter (fact.holds t) := rfl

theorem left_of_two_le (h : 2 ≤ as.length) : fact.left t as = as.filter (fact.holds t) := by
  match as, h with
  | _ :: _ :: _, _ => rfl

theorem left_singleton_of_holds (h : fact.holds t a = true) : fact.left t [a] = [a] := if_pos h

theorem left_singleton_of_not_holds (h : ¬ fact.holds t a = true) :
    fact.left t [a] = fact.narrower t a :=
  if_neg h

@[simp] theorem leftBy_nil : leftBy t [] as = as := rfl

@[simp] theorem leftBy_cons : leftBy t (fact :: facts) as = leftBy t facts (fact.left t as) := rfl

theorem leftBy_append (facts' : List Fact) :
    leftBy t (facts ++ facts') as = leftBy t facts' (leftBy t facts as) :=
  List.foldl_append

@[simp] theorem leftBy_nothing (t : Types) (facts : List Fact) : leftBy t facts [] = [] := by
  induction facts with
  | nil => rfl
  | cons fact rest ih => exact ih

theorem mem_narrower_iff {fact : Fact} : a ∈ fact.narrower t b ↔
    ∃ target, fact = .isA target ∧ t.isSubtype target b = true ∧ a ∈ t.atoms target := by
  cases fact with
  | notNil => simp [narrower]
  | isA target =>
    rw [narrower]
    split <;> simp [*]

/-- An atom that is left was there and the fact holds of it, or it belongs to a narrower target. -/
theorem mem_left (h : a ∈ fact.left t as) :
    a ∈ as ∧ fact.holds t a = true ∨
      ∃ b target, as = [b] ∧ fact = .isA target ∧ t.isSubtype target b = true ∧ target ≠ b ∧
      a ∈ t.atoms target := by
  match as with
  | [] => cases h
  | [b] =>
    by_cases hb : fact.holds t b = true
    · rw [left_singleton_of_holds hb, List.mem_singleton] at h
      exact .inl ⟨by simp [h], h ▸ hb⟩
    · rw [left_singleton_of_not_holds hb, mem_narrower_iff] at h
      obtain ⟨target, rfl, hsub, ha⟩ := h
      have hne : target ≠ b := fun heq => hb (heq ▸ t.isSubtype_self target)
      exact .inr ⟨b, target, rfl, rfl, hsub, hne, ha⟩
  | b :: c :: rest => exact .inl (List.mem_filter.mp h)

theorem left_eq_filter (h : ∀ a, as = [a] → fact.holds t a = true ∨ fact.narrower t a = []) :
    fact.left t as = as.filter (fact.holds t) := by
  match as with
  | [] => rfl
  | [a] =>
    by_cases ha : fact.holds t a = true
    · rw [left_singleton_of_holds ha, List.filter_cons_of_pos ha, List.filter_nil]
    · rw [left_singleton_of_not_holds ha, List.filter_cons_of_neg ha,
        (h a rfl).resolve_left ha, List.filter_nil]
  | a :: b :: rest => rfl

/-- No target of the facts is strictly below the type. -/
def Foremost (t : Types) (facts : List Fact) (a : TypeId) : Prop :=
  ∀ target, isA target ∈ facts → t.isSubtype target a = true → t.isSubtype a target = true

/-- All the facts hold of the type. -/
def holdAll (t : Types) (facts : List Fact) (a : TypeId) : Bool :=
  facts.all fun fact => fact.holds t a

theorem filter_holdAll_cons (t : Types) (fact : Fact) (facts : List Fact) (as : List TypeId) :
    (as.filter (fact.holds t)).filter (holdAll t facts) = as.filter
      (holdAll t (fact :: facts)) := by
  rw [List.filter_filter]
  exact List.filter_congr fun a _ => by rw [holdAll, holdAll, List.all_cons, Bool.and_comm]

theorem holds_or_narrower_eq_nil (h : Foremost t (fact :: facts) a) :
    fact.holds t a = true ∨ fact.narrower t a = [] := by
  refine or_iff_not_imp_left.mpr fun hnot => List.eq_nil_iff_forall_not_mem.mpr fun b hb => ?_
  obtain ⟨target, rfl, hsub, -⟩ := mem_narrower_iff.mp hb
  exact hnot (h target List.mem_cons_self hsub)

/-- Facts of which no target is strictly below an atom leave the atoms of which they all hold. -/
theorem leftBy_eq_filter (h : ∀ a ∈ as, Foremost t facts a) :
    leftBy t facts as = as.filter (holdAll t facts) := by
  induction facts generalizing as with
  | nil => exact (List.filter_eq_self.mpr fun _ _ => rfl).symm
  | cons fact rest ih =>
    have hleft : fact.left t as = as.filter (fact.holds t) :=
      left_eq_filter fun a ha => holds_or_narrower_eq_nil (h a (by simp [ha]))
    have hrest : ∀ a ∈ as.filter (fact.holds t), Foremost t rest a := fun a ha target hmem =>
      h a (List.mem_filter.mp ha).1 target (List.mem_cons_of_mem _ hmem)
    rw [leftBy_cons, hleft, ih hrest, filter_holdAll_cons]

/-- Facts that all hold of one of the atoms leave the atoms of which they all hold. -/
theorem leftBy_eq_filter_of_mem (ha : a ∈ as) (h : holdAll t facts a = true) :
    leftBy t facts as = as.filter (holdAll t facts) := by
  induction facts generalizing as with
  | nil => exact (List.filter_eq_self.mpr fun _ _ => rfl).symm
  | cons fact rest ih =>
    obtain ⟨hfact, hrest⟩ := Bool.and_eq_true_iff.mp (List.all_cons.symm.trans h)
    have hleft : fact.left t as = as.filter (fact.holds t) :=
      left_eq_filter fun b hb => by
        rw [hb, List.mem_singleton] at ha
        exact .inl (ha ▸ hfact)
    rw [leftBy_cons, hleft, ih (List.mem_filter.mpr ⟨ha, hfact⟩) hrest, filter_holdAll_cons]

/-! ### Later tables -/

/-- The target that the fact compares with is a type of the table. -/
def Known (t : Types) (fact : Fact) : Prop := ∀ target, fact = .isA target → target.index < t.size

theorem lt_of_mem_left (hs : t.Closed) (hfact : fact.Known t) (has : ∀ a ∈ as, a.index < t.size)
    (ha : a ∈ fact.left t as) : a.index < t.size := by
  rcases mem_left ha with ⟨ha, -⟩ | ⟨b, target, -, hisA, -, -, ha⟩
  · exact has a ha
  · exact hs.membersHeld.atom_lt (hfact target hisA) ha

theorem lt_of_mem_leftBy (hs : t.Closed) (hfacts : ∀ fact ∈ facts, fact.Known t)
    (has : ∀ a ∈ as, a.index < t.size) (ha : a ∈ leftBy t facts as) : a.index < t.size := by
  induction facts generalizing as with
  | nil => exact has a ha
  | cons fact rest ih =>
    exact ih (fun fact hf => hfacts fact (List.mem_cons_of_mem _ hf))
      (fun a ha => lt_of_mem_left hs (hfacts fact List.mem_cons_self) has ha) ha

theorem left_eq (h : t.GrowsTo t') (hc : t.Closed) (hfact : fact.Known t)
    (has : ∀ a ∈ as, a.index < t.size) : fact.left t' as = fact.left t as := by
  have hholds : ∀ a ∈ as, fact.holds t' a = fact.holds t a := fun a ha => by
    cases fact with
    | notNil => rfl
    | isA target => exact h.isSubtype_eq hc (has a ha)
  have hnarrower : ∀ a, fact.narrower t' a = fact.narrower t a := fun a => by
    cases fact with
    | notNil => rfl
    | isA target =>
      have hlt := hfact target rfl
      rw [narrower, narrower, h.isSubtype_eq hc hlt, h.keepsKinds.atoms_eq hlt]
  match as with
  | [] => rfl
  | [a] => rw [left, left, hholds a (List.mem_singleton_self a), hnarrower]
  | a :: b :: rest => exact List.filter_congr hholds

theorem leftBy_eq (h : t.GrowsTo t') (hc : t.Closed) (hfacts : ∀ fact ∈ facts, fact.Known t)
    (has : ∀ a ∈ as, a.index < t.size) : leftBy t' facts as = leftBy t facts as := by
  induction facts generalizing as with
  | nil => rfl
  | cons fact rest ih =>
    have hfact := hfacts fact List.mem_cons_self
    rw [leftBy_cons, leftBy_cons, left_eq h hc hfact has]
    exact ih (fun fact hf => hfacts fact (List.mem_cons_of_mem _ hf)) fun a ha =>
      lt_of_mem_left hc hfact has ha

end Fact

namespace Narrowing
variable {t t' : Types} {id target : TypeId} {f : Narrowing}

mutual

/-- What a narrowing proves, in the order in which it is taken in. -/
def facts : Narrowing → List Fact
  | .notNil => [.notNil]
  | .isA target => [.isA target]
  | .all parts => factsAll parts

def factsAll : List Narrowing → List Fact
  | [] => []
  | f :: rest => f.facts ++ factsAll rest

end

mutual

theorem mem_targets_iff (f : Narrowing) : target ∈ f.targets ↔ .isA target ∈ f.facts := by
  match f with
  | .notNil => simp [targets, facts]
  | .isA other => simp [targets, facts]
  | .all parts => exact mem_targetsAll_iff parts

theorem mem_targetsAll_iff (fs : List Narrowing) :
    target ∈ targetsAll fs ↔ .isA target ∈ factsAll fs := by
  match fs with
  | [] => simp [targetsAll, factsAll]
  | f :: rest =>
    rw [targetsAll, factsAll, List.mem_append, List.mem_append, mem_targets_iff f,
      mem_targetsAll_iff rest]

end

theorem known_of_mem_factsAll {fs : List Narrowing}
    (hf : ∀ target ∈ targetsAll fs, target.index < t.size) {fact : Fact} (h : fact ∈ factsAll fs) :
    fact.Known t :=
  fun target heq => hf target ((mem_targetsAll_iff fs).mpr (heq ▸ h))

theorem known_of_mem_facts (hf : ∀ target ∈ f.targets, target.index < t.size) {fact : Fact}
    (h : fact ∈ f.facts) :
    fact.Known t := fun target heq => hf target ((mem_targets_iff f).mpr (heq ▸ h))

/-! ### Answers -/

/-- The atoms of a type that is answered. -/
def answerAtoms (r : Option TypeId × Types) : List TypeId := r.1.toList.flatMap r.2.atoms

@[simp] theorem answerAtoms_some : answerAtoms (some id, t) = t.atoms id := by simp [answerAtoms]

@[simp] theorem answerAtoms_none : answerAtoms (none, t) = [] := rfl

/-- In a canonical table an answer is known by its atoms. -/
theorem eq_of_answerAtoms {r r' : Option TypeId} (hcan : t.Canonical)
    (h : answerAtoms (r, t) = answerAtoms (r', t)) : r = r' := by
  match r, r' with
  | none, none => rfl
  | none, some id => exact absurd (by simpa using h.symm) (hcan.atoms_ne_nil id)
  | some id, none => exact absurd (by simpa using h) (hcan.atoms_ne_nil id)
  | some id, some id' =>
    rw [answerAtoms_some, answerAtoms_some] at h
    exact congrArg some (hcan.eq_of_atoms h)

theorem answerAtoms_join (hcan : t.Canonical) (ids : List TypeId) :
    answerAtoms (t.join ids) = canonicalMembers (ids.flatMap t.atoms) := by
  cases hj : (t.join ids).1 with
  | none => rw [hcan.join_eq_none_iff.mp hj]; rfl
  | some id =>
    rw [← hcan.atoms_join hj, ← answerAtoms_some, ← hj]

/-- Joining some of the members of a union keeps just these. -/
theorem answerAtoms_join_filter (hcan : t.Canonical) {members : List TypeId}
    (hk : t.kind id = .union members) (p : TypeId → Bool) :
    answerAtoms (t.join (members.filter p)) = members.filter p := by
  have hatoms : (members.filter p).flatMap t.atoms = members.filter p := by
    rw [List.flatMap_congr fun m hm =>
      atoms_of_not_union (hcan.flat id members hk m (List.mem_filter.mp hm).1)]
    exact List.flatMap_singleton' _
  have hinc : Increasing (members.filter p) := (hcan.increasing id members hk).filter p
  rw [answerAtoms_join hcan, hatoms]
  refine (increasing_canonicalMembers _).eq_of_mem_iff hinc fun a => ?_
  refine mem_canonicalMembers.trans (and_iff_left_of_imp fun ha => .inl ?_)
  rintro rfl
  exact hcan.noReturn_notMem id members hk (List.mem_filter.mp ha).1

theorem answerAtoms_applyNotNil (hcan : t.Canonical) (id : TypeId) :
    answerAtoms (applyNotNil t id) = Fact.notNil.left t (t.atoms id) := by
  rcases t.atoms_cases id with hk | ⟨hno, hatoms⟩
  · rw [applyNotNil, hk, Fact.left_of_two_le (hcan.two_le id _ hk)]
    exact answerAtoms_join_filter hcan hk _
  · unfold applyNotNil
    rw [hatoms]
    split
    · exact absurd ‹_› (hno _)
    · by_cases hn : id = .nil <;> simp [hn, Fact.left, Fact.holds, Fact.narrower, ← hatoms]

theorem answerAtoms_applyIsA (hcan : t.Canonical) (id target : TypeId) :
    answerAtoms (applyIsA t id target) = (Fact.isA target).left t (t.atoms id) := by
  rcases t.atoms_cases id with hk | ⟨hno, hatoms⟩
  · rw [applyIsA, hk, Fact.left_of_two_le (hcan.two_le id _ hk)]
    exact answerAtoms_join_filter hcan hk _
  · unfold applyIsA
    rw [hatoms]
    split
    · exact absurd ‹_› (hno _)
    · by_cases hsub : (Fact.isA target).holds t id = true
      · rw [if_pos (Fact.holds_isA ▸ hsub), Fact.left_singleton_of_holds hsub,
          answerAtoms_some, hatoms]
      · rw [if_neg (Fact.holds_isA ▸ hsub), Fact.left_singleton_of_not_holds hsub, Fact.narrower]
        split <;> simp

mutual

/-- A narrowing leaves the atoms that its facts leave. -/
theorem answerAtoms_apply (f : Narrowing) :
    ∀ {t : Types} {id : TypeId}, t.Solid → id.index < t.size →
    (∀ target ∈ f.targets, target.index < t.size) →
      answerAtoms (f.apply t id) = Fact.leftBy t f.facts (t.atoms id) := by
  intro t id hs hid hf
  match f with
  | .notNil => exact answerAtoms_applyNotNil hs.canonical id
  | .isA target => exact answerAtoms_applyIsA hs.canonical id target
  | .all parts => exact answerAtoms_applyAll parts hs hid hf

theorem answerAtoms_applyAll (fs : List Narrowing) :
    ∀ {t : Types} {id : TypeId}, t.Solid → id.index < t.size →
    (∀ target ∈ targetsAll fs, target.index < t.size) →
      answerAtoms (applyAll t id fs) = Fact.leftBy t (factsAll fs) (t.atoms id) := by
  intro t id hs hid hf
  match fs with
  | [] => exact answerAtoms_some
  | f :: rest =>
    have hf' : ∀ target ∈ f.targets, target.index < t.size :=
      fun target h => hf target (List.mem_append_left _ h)
    have hfirst := answerAtoms_apply f hs hid hf'
    have hheld := held_apply f hs hid
    have hgrows := growsTo_apply f t id
    rw [factsAll, Fact.leftBy_append, ← hfirst, applyAll]
    rcases hr : f.apply t id with ⟨_ | narrowed, t'⟩ <;> rw [hr] at hheld hgrows hfirst
    · rw [answerAtoms_none, Fact.leftBy_nothing]
    · have hrest : ∀ target ∈ targetsAll rest, target.index < t.size := fun target h =>
        hf target (List.mem_append_right _ h)
      have hlt : ∀ a ∈ t'.atoms narrowed, a.index < t.size := fun a ha => by
        rw [← answerAtoms_some, hfirst] at ha
        exact Fact.lt_of_mem_leftBy hs.toClosed (fun fact h => known_of_mem_facts hf' h)
          (fun a ha => hs.held.atom_lt hid ha) ha
      rw [answerAtoms_applyAll rest hheld.solid (hheld.lt narrowed rfl) fun target h =>
        hgrows.lt (hrest target h), answerAtoms_some]
      exact Fact.leftBy_eq hgrows hs.toClosed (fun fact h => known_of_mem_factsAll hrest h) hlt

end

end Narrowing

end TypeFlow

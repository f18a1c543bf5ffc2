import Mathlib.Logic.Relation
import TypeFlow.Proofs.Inference.Acts
import TypeFlow.Proofs.Program.Added

/-!
# Forests of expressions

No expression is a part of two others, nor twice of one (`Forest`). So the expressions below two
parts of one expression are different ones, and parameters of blocks are not parts of anything else.
Lowering a tree and copying an expression plant new trees beside those that are there (`Plants`).
-/

namespace TypeFlow

namespace Construct
variable {α : Type}

/-- The parts that are walked, declared or copied with the construct. A block has its parameters
beside them, which get their values from elsewhere. -/
def inner : Construct α → List α
  | .block _ body => body.toList
  | c => c.children

theorem inner_sublist (c : Construct α) : c.inner.Sublist c.children := by
  cases c with
  | block params body => exact List.sublist_append_right ..
  | _ => exact .refl _

theorem Shortens.children_sublist {c c' : Construct α} (h : c.Shortens c') :
    c'.children.Sublist c.children := by
  rcases h with rfl | ⟨items, count, rfl, rfl⟩
  · exact .refl _
  · exact List.take_sublist ..

theorem Shortens.inner_subset {c c' : Construct α} (h : c.Shortens c') {part : α}
    (hp : part ∈ c'.inner) : part ∈ c.inner := by
  rcases h with rfl | ⟨items, count, rfl, rfl⟩
  · exact hp
  · exact List.mem_of_mem_take hp

end Construct

namespace Program
variable {p p' p'' : Program} {a b c d e : ExprId}

def IsParent (p : Program) (a c : ExprId) : Prop := c ∈ (p.construct a).children

def NoParent (p : Program) (c : ExprId) : Prop := ∀ a, ¬ p.IsParent a c

/-- `e` is `a`, or a part of it at any depth. -/
def Below (p : Program) : ExprId → ExprId → Prop :=
  Relation.ReflTransGen fun a c => c ∈ (p.construct a).inner

theorem Below.descends (hb : p.Below a e) : Relation.ReflTransGen p.IsParent a e :=
  Relation.ReflTransGen.mono (fun a _ hc => (p.construct a).inner_sublist.subset hc) _ _ hb

theorem Has.of_isParent (h : p.IsParent a c) : p.Has a := by
  by_contra hid
  rw [IsParent, Program.construct, Program.expr, Array.getElem?_eq_none (Nat.le_of_not_lt hid)] at h
  cases h

structure Forest (p : Program) : Prop where
  part_lt : ∀ {a c}, p.IsParent a c → c.index < a.index
  unique : ∀ {a b c}, p.IsParent a c → p.IsParent b c → a = b
  nodup : ∀ a, (p.construct a).children.Nodup

namespace Forest

theorem has (h : p.Forest) (hp : p.IsParent a c) : p.Has c :=
  Nat.lt_trans (h.part_lt hp) (Has.of_isParent hp)

theorem inner_lt (h : p.Forest) (hp : c ∈ (p.construct a).inner) : c.index < a.index :=
  h.part_lt ((p.construct a).inner_sublist.subset hp)

theorem le_of_descends (h : p.Forest) (hb : Relation.ReflTransGen p.IsParent a e) :
    e.index ≤ a.index := by
  induction hb with
  | refl => exact Nat.le_refl _
  | tail _ hp ih => exact Nat.le_of_lt (Nat.lt_of_lt_of_le (h.part_lt hp) ih)

/-- What descends from two parts of an expression descends from one part, met twice. -/
theorem eq_of_descends (h : p.Forest) (hc : p.IsParent a c) (hd : p.IsParent a d)
    (hce : Relation.ReflTransGen p.IsParent c e) (hde : Relation.ReflTransGen p.IsParent d e) :
    c = d := by
  have habove : ∀ {c d}, p.IsParent a c → p.IsParent a d →
      Relation.ReflTransGen p.IsParent c d → c = d := by
    intro c d hc hd hcd
    rcases Relation.ReflTransGen.cases_tail hcd with heq | ⟨b, hcb, hbd⟩
    · exact heq.symm
    · -- the only parent of `d` is above `c`
      obtain rfl := h.unique hbd hd
      exact absurd (h.le_of_descends hcb) (Nat.not_le.mpr (h.part_lt hc))
  have hunique : Relator.RightUnique (Function.swap p.IsParent) := fun _ _ _ hx hy => h.unique hx hy
  -- of two expressions above a third one, one is above the other
  have hup :=
    Relation.ReflTransGen.total_of_right_unique hunique (Relation.reflTransGen_swap.mpr hce)
    (Relation.reflTransGen_swap.mpr hde)
  rcases hup with hdc | hcd
  · exact (habove hd hc (Relation.reflTransGen_swap.mp hdc)).symm
  · exact habove hc hd (Relation.reflTransGen_swap.mp hcd)

theorem le_of_below (h : p.Forest) (hb : p.Below a e) : e.index ≤ a.index :=
  h.le_of_descends hb.descends

theorem has_below (h : p.Forest) (ha : p.Has a) (hb : p.Below a e) : p.Has e :=
  Nat.lt_of_le_of_lt (h.le_of_below hb) ha

theorem eq_of_below (h : p.Forest) (hc : c ∈ (p.construct a).inner) (hd : d ∈ (p.construct a).inner)
    (hce : p.Below c e) (hde : p.Below d e) : c = d :=
  h.eq_of_descends ((p.construct a).inner_sublist.subset hc)
    ((p.construct a).inner_sublist.subset hd) hce.descends hde.descends

theorem not_below_inner (h : p.Forest) (hc : c ∈ (p.construct a).inner) : ¬ p.Below c a := fun hb =>
  absurd (h.le_of_below hb) (Nat.not_le.mpr (h.inner_lt hc))

theorem nodup_inner (h : p.Forest) (a : ExprId) : (p.construct a).inner.Nodup :=
  (h.nodup a).sublist (p.construct a).inner_sublist

theorem not_isParameter (h : p.Forest) (hc : c ∈ (p.construct a).inner) : ¬ p.IsParameter c := by
  rintro ⟨block, params, body, hblock, hmem⟩
  have hparent : p.IsParent block c := by
    rw [IsParent, hblock]; exact List.mem_append_left _ hmem
  obtain rfl := h.unique hparent ((p.construct a).inner_sublist.subset hc)
  have hnodup := h.nodup block
  rw [hblock] at hc hnodup
  exact (List.nodup_append.mp hnodup).2.2 c hmem c hc rfl

theorem not_isParameter_below (h : p.Forest) (ha : ¬ p.IsParameter a) (hb : p.Below a e) :
    ¬ p.IsParameter e := by
  rcases Relation.ReflTransGen.cases_tail hb with rfl | ⟨b, -, hp⟩
  · exact ha
  · exact h.not_isParameter hp

theorem of_shortens (h : p.Forest) (hs : ∀ id, (p.construct id).Shortens (p'.construct id)) :
    p'.Forest where
  part_lt hp := h.part_lt ((hs _).children_subset hp)
  unique ha hb := h.unique ((hs _).children_subset ha) ((hs _).children_subset hb)
  nodup a := (h.nodup a).sublist (hs a).children_sublist

theorem of_exprs_eq (h : p.Forest) (hexprs : p'.exprs = p.exprs) : p'.Forest :=
  h.of_shortens fun id => .inl (by rw [Program.construct, Program.construct, expr, expr, hexprs])

theorem truncate (h : p.Forest) (id : ExprId) (count : Nat) : (p.truncate id count).Forest :=
  h.of_shortens fun other => (expr_truncate p id other count).2

theorem initial : Program.initial.Forest := by
  have hnone : ∀ a, (Program.initial.construct a).children = [] := fun a => by
    rw [Program.construct, Program.expr, Array.getElem?_eq_none (Nat.zero_le _)]; rfl
  refine ⟨fun hp => ?_, fun ha => ?_, fun a => ?_⟩
  · rw [IsParent, hnone] at hp; cases hp
  · rw [IsParent, hnone] at ha; cases ha
  · rw [hnone]; exact List.nodup_nil

end Forest

theorem NoParent.not_isParameter (h : p.NoParent c) : ¬ p.IsParameter c := by
  rintro ⟨block, params, body, hblock, hmem⟩
  refine h block ?_
  rw [IsParent, hblock]
  exact List.mem_append_left _ hmem

/-- A program that changes gets no new parts below an expression. -/
theorem Later.below (hl : p.Later p') (h : p'.Forest) (ha : p.Has a) (hb : p'.Below a e) :
    p.Below a e := by
  induction hb with
  | refl => exact .refl
  | tail hb hp ih =>
    exact ih.tail ((hl.construct _ (Nat.lt_of_le_of_lt (h.le_of_below hb) ha)).inner_subset hp)

/-! ### Planting trees -/

theorem Adds.expr_eq (h : p.Adds p') {id : ExprId} (hid : p.Has id) : p'.expr id = p.expr id := by
  induction h with
  | refl => rfl
  | add location hadds _ ih => rw [expr_addExpr, if_neg (Nat.ne_of_lt (hadds.has hid)), ih]

/-- Trees are added, with these roots. -/
structure Plants (p p' : Program) (roots : List ExprId) : Prop where
  adds : p.Adds p'
  forest : p'.Forest
  nodup : roots.Nodup
  new : ∀ r ∈ roots, p.exprs.size ≤ r.index
  has : ∀ r ∈ roots, p'.Has r
  noParent : ∀ r ∈ roots, p'.NoParent r
  apart : ∀ {a c}, p.exprs.size ≤ a.index → p'.IsParent a c → p.exprs.size ≤ c.index

namespace Plants
variable {roots roots' : List ExprId}

theorem refl (h : p.Forest) : p.Plants p [] where
  adds := .refl
  forest := h
  nodup := List.nodup_nil
  new _ hr := nomatch hr
  has _ hr := nomatch hr
  noParent _ hr := nomatch hr
  apart ha hp := absurd (Has.of_isParent hp) (Nat.not_lt.mpr ha)

theorem append (h : p.Plants p' roots) (h' : p'.Plants p'' roots') :
    p.Plants p'' (roots ++ roots') where
  adds := h.adds.trans h'.adds
  forest := h'.forest
  nodup := List.nodup_append.mpr ⟨h.nodup, h'.nodup, fun r hr r' hr' heq =>
    absurd (heq ▸ h.has r hr) (Nat.not_lt.mpr (h'.new r' hr'))⟩
  new r hr :=
    (List.mem_append.mp hr).elim (h.new r) fun hr => Nat.le_trans h.adds.size_le (h'.new r hr)
  has r hr := (List.mem_append.mp hr).elim (fun hr => h'.adds.has (h.has r hr)) (h'.has r)
  noParent r hr a hp := by
    rcases List.mem_append.mp hr with hr | hr
    · rcases Nat.lt_or_ge a.index p'.exprs.size with ha | ha
      · rw [IsParent, Program.construct, h'.adds.expr_eq ha] at hp
        exact h.noParent r hr a hp
      · exact absurd (h.has r hr) (Nat.not_lt.mpr (h'.apart ha hp))
    · exact h'.noParent r hr a hp
  apart {a c} ha hp := by
    rcases Nat.lt_or_ge a.index p'.exprs.size with hlt | hge
    · rw [IsParent, Program.construct, h'.adds.expr_eq hlt] at hp
      exact h.apart ha hp
    · exact Nat.le_trans h.adds.size_le (h'.apart hge hp)

/-- An expression is put above roots. -/
theorem addExpr {construct : Construct ExprId} (h : p.Plants p' construct.children)
    (location : Option Location) :
    p.Plants (p'.addExpr construct location).2 [(p'.addExpr construct location).1] := by
  have hchildren : ∀ a : ExprId, ((p'.addExpr construct location).2.construct a).children =
      if a.index = p'.exprs.size then construct.children
        else (p'.construct a).children := fun a => by
    rw [Program.construct, expr_addExpr]; split <;> rfl
  have hcases : ∀ {a c}, (p'.addExpr construct location).2.IsParent a c →
      a.index = p'.exprs.size ∧ c ∈ construct.children ∨ p'.IsParent a c := fun {a c} hp => by
    rw [IsParent, hchildren] at hp
    split at hp
    · exact .inl ⟨‹_›, hp⟩
    · exact .inr hp
  have hle := h.adds.size_le
  refine ⟨.add location h.adds h.has, ⟨?_, ?_, fun a => ?_⟩, List.nodup_singleton _, ?_, ?_, ?_, ?_⟩
  · intro a c hp
    rcases hcases hp with ⟨ha, hc⟩ | hp
    · rw [ha]; exact h.has c hc
    · exact h.forest.part_lt hp
  · intro a b c ha hb
    rcases hcases ha with ⟨ha, hc⟩ | ha <;> rcases hcases hb with ⟨hb, hc'⟩ | hb
    · cases a; cases b; exact congrArg ExprId.mk (ha.trans hb.symm)
    · exact absurd hb (h.noParent c hc b)
    · exact absurd ha (h.noParent c hc' a)
    · exact h.forest.unique ha hb
  · rw [hchildren]; split
    · exact h.nodup
    · exact h.forest.nodup a
  · intro r hr
    rw [List.mem_singleton.mp hr]; exact hle
  · intro r hr
    rw [List.mem_singleton.mp hr]; exact has_addExpr ..
  · intro r hr a hp
    rw [List.mem_singleton.mp hr] at hp
    rcases hcases hp with ⟨-, hc⟩ | hp
    · exact absurd (h.has _ hc) (Nat.lt_irrefl _)
    · exact absurd (h.forest.has hp) (Nat.lt_irrefl _)
  · intro a c ha hp
    rcases hcases hp with ⟨-, hc⟩ | hp
    · exact h.new c hc
    · exact h.apart ha hp

end Plants

theorem plants_mapM {f : ExprId → StateM Program ExprId} {ids : List ExprId}
    (hf : ∀ id ∈ ids, ∀ p : Program, p.Forest → p.Has id →
      p.Plants ((f id).run p).2 [((f id).run p).1])
    (p : Program) (h : p.Forest) (hids : ∀ id ∈ ids, p.Has id) :
    p.Plants ((ids.mapM f).run p).2 ((ids.mapM f).run p).1 := by
  induction ids generalizing p with
  | nil => exact .refl h
  | cons id ids ih =>
    have hfirst := hf id (by simp) p h (hids id (by simp))
    have hrest :=
      ih (fun i hi => hf i (List.mem_cons_of_mem _ hi)) ((f id).run p).2 hfirst.forest fun i hi =>
      hfirst.adds.has (hids i (List.mem_cons_of_mem _ hi))
    rw [List.mapM_cons]
    exact hfirst.append hrest

/-- A copy is a tree of its own. -/
theorem plants_copyWithin (fuel : Nat) (id : ExprId) (p : Program) (h : p.Forest) (hid : p.Has id)
    (hfuel : id.index < fuel) :
    p.Plants ((copyWithin fuel id).run p).2 [((copyWithin fuel id).run p).1] := by
  induction fuel generalizing id p with
  | zero => exact absurd hfuel (Nat.not_lt_zero _)
  | succ fuel ih =>
    have hparts : ∀ part ∈ (p.expr id).construct.children,
        p.Has part ∧ part.index < fuel := fun part hp =>
      ⟨h.has (a := id) hp, Nat.lt_of_lt_of_le (h.part_lt (a := id) hp) (Nat.le_of_lt_succ hfuel)⟩
    have hplants : p.Plants (((p.expr id).construct.children.mapM (copyWithin fuel)).run p).2
        (((p.expr id).construct.children.mapM (copyWithin fuel)).run p).1 :=
      plants_mapM (fun i hi p' hp' hi' => ih i p' hp' hi' (hparts i hi).2) p h fun i hi =>
        (hparts i hi).1
    have hchildren :
        (Construct.children <$> (p.expr id).construct.traverse (copyWithin fuel)).run p =
        ((p.expr id).construct.children.mapM (copyWithin fuel)).run p := by
      rw [Construct.children_traverse]
    have hrun : (copyWithin (fuel + 1) id).run p =
        (((p.expr id).construct.traverse (copyWithin fuel)).run p).2.addExpr
          (((p.expr id).construct.traverse (copyWithin fuel)).run p).1 (p.expr id).location := rfl
    rw [hrun]
    rw [StateT.run_map] at hchildren
    rcases hr : ((p.expr id).construct.traverse (copyWithin fuel)).run p with ⟨c, p'⟩
    rw [hr] at hchildren
    rw [← hchildren] at hplants
    exact hplants.addExpr _

theorem plants_copyExpr (h : p.Forest) {id : ExprId} (hid : p.Has id) :
    p.Plants (p.copyExpr id).2 [(p.copyExpr id).1] :=
  plants_copyWithin (id.index + 1) id p h hid (Nat.lt_succ_self _)

theorem Forest.copyExpr (h : p.Forest) (id : ExprId) : (p.copyExpr id).2.Forest := by
  by_cases hid : p.Has id
  · exact (plants_copyExpr h hid).forest
  · -- what is not there is copied as if it were nothing
    have hnop : p.expr id = default := by
      rw [expr, Array.getElem?_eq_none (Nat.le_of_not_lt hid)]; rfl
    have hcopy : (p.copyExpr id).2 = (p.addExpr .nop none).2 := by
      show ((((p.expr id).construct.traverse (copyWithin id.index)).run p).2.addExpr _ _).2 = _
      rw [hnop]
      rfl
    rw [hcopy]
    have hplants : p.Plants (p.addExpr .nop none).2 [(p.addExpr .nop none).1] :=
      (Plants.refl h).addExpr none
    exact hplants.forest

/-! ### Lowering plants a tree -/

/-- The step plants trees, and when it is carried through, they are what it answers with. -/
structure Sows {α : Type} (answers : α → List ExprId) (x : Lowering α) (p : Program) : Prop where
  forest : ((ExceptT.run x).run p).2.Forest
  plants : ∀ a p', (ExceptT.run x).run p = (.ok a, p') → p.Plants p' (answers a)

namespace Sows
variable {α : Type} {answers : α → List ExprId} {x : Lowering α}

theorem failed {e : Diagnostic} (h : p'.Forest) (hr : (ExceptT.run x).run p = (.error e, p')) :
    Sows answers x p where
  forest := by rw [hr]; exact h
  plants a _ ha := by rw [hr] at ha; cases ha

theorem carried {a : α} (h : p.Plants p' (answers a)) (hr : (ExceptT.run x).run p = (.ok a, p')) :
    Sows answers x p where
  forest := by rw [hr]; exact h.forest
  plants _ _ ha := by rw [hr] at ha; cases ha; exact h

end Sows

theorem sows_mapM {f : Tree → Lowering ExprId} {trees : List Tree}
    (hf : ∀ tree ∈ trees, ∀ p : Program, p.Forest → Sows (fun id => [id]) (f tree) p) (p : Program)
    (h : p.Forest) : Sows (fun ids => ids) (trees.mapM f) p := by
  induction trees generalizing p with
  | nil => exact .carried (.refl h) (by rw [List.mapM_nil]; rfl)
  | cons tree trees ih =>
    have hfirst := hf tree (by simp) p h
    rcases hone : (ExceptT.run (f tree)).run p with ⟨e | id, p₁⟩
    · refine .failed (hone ▸ hfirst.forest) (e := e) ?_
      rw [List.mapM_cons, run_bind_lowering, hone]
    · have hplants := hfirst.plants id p₁ hone
      have hrest := ih (fun t ht => hf t (List.mem_cons_of_mem _ ht)) p₁ hplants.forest
      rcases hmore : (ExceptT.run (trees.mapM f)).run p₁ with ⟨e | ids, p₂⟩
      · refine .failed (hmore ▸ hrest.forest) (e := e) ?_
        rw [List.mapM_cons, run_bind_lowering, hone]
        dsimp only
        rw [run_bind_lowering, hmore]
      · refine .carried (a := id :: ids) (hplants.append (hrest.plants ids p₂ hmore)) ?_
        rw [List.mapM_cons, run_bind_lowering, hone]
        dsimp only
        rw [run_bind_lowering, hmore]
        rfl

theorem sows_tree (tree : Tree) (p : Program) (h : p.Forest) :
    Sows (fun id => [id]) tree.lower p := by
  induction tree using Tree.byParts generalizing p with
  | plain c location ih =>
    have hall := sows_mapM ih p h
    have hchildren : (ExceptT.run (c.children.mapM Tree.lower)).run p =
        (fun r => (Construct.children <$> r.1, r.2))
          ((ExceptT.run (c.traverse Tree.lower)).run p) := by
      rw [← Construct.children_traverse, ExceptT.run_map, StateT.run_map]
      rfl
    rcases hparts : (ExceptT.run (c.traverse Tree.lower)).run p with ⟨e | c', p₁⟩ <;>
      rw [hparts] at hchildren
    · refine .failed (hchildren ▸ hall.forest) (e := e) ?_
      rw [Tree.lower, Tree.lowerConstruct_eq, run_bind_lowering, hparts]
    · refine .carried ((hall.plants c'.children p₁ hchildren).addExpr location) ?_
      rw [Tree.lower, Tree.lowerConstruct_eq, run_bind_lowering, hparts]
      rfl
  | sugar abbreviation location => exact .failed h (by rw [Tree.lower]; rfl)

theorem plants_lower {tree : Tree} {id : ExprId} (h : p.Forest) (hr : p.lower tree = (.ok id, p')) :
    p.Plants p' [id] :=
  (sows_tree tree p h).plants id p' hr

/-- What has been lowered before a tree is refused may stay. -/
theorem Forest.lower (h : p.Forest) (tree : Tree) : (p.lower tree).2.Forest :=
  (sows_tree tree p h).forest

end Program

end TypeFlow

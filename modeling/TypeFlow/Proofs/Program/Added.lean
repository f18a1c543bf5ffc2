import TypeFlow.Expr.Copy
import TypeFlow.Proofs.Program.Changes
import TypeFlow.Proofs.Tree.Parts

/-!
# Adding expressions

Lowering a tree and copying an expression do nothing but add expressions, parts first (`p.Adds p'`).
What they answer is there when they are done.
-/

namespace TypeFlow

namespace Program

/-- The expression is there. -/
def Has (p : Program) (id : ExprId) : Prop := id.index < p.exprs.size

/-- Expressions are added whose parts are there. -/
inductive Adds (p : Program) : Program → Prop where
  | refl : Adds p p
  | add {p' : Program} {construct : Construct ExprId} (location : Option Location) : Adds p p' →
      (∀ part ∈ construct.children, p'.Has part) → Adds p (p'.addExpr construct location).2

namespace Adds
variable {p p' p'' : Program}

theorem trans (h : p.Adds p') (h' : p'.Adds p'') : p.Adds p'' := by
  induction h' with
  | refl => exact h
  | add location _ hparts ih => exact .add location ih hparts

theorem size_le (h : p.Adds p') : p.exprs.size ≤ p'.exprs.size := by
  induction h with
  | refl => exact Nat.le_refl _
  | add location _ _ ih => rw [size_addExpr]; omega

theorem has (h : p.Adds p') {id : ExprId} (hid : p.Has id) : p'.Has id :=
  Nat.lt_of_lt_of_le hid h.size_le

theorem sound {held : NodeId → Prop} (h : p.Adds p') (hs : p.Sound held) : p'.Sound held := by
  induction h with
  | refl => exact hs
  | add location _ hparts ih => exact (ih.addExpr location hparts).2

end Adds

/-- The answer of the last addition. -/
theorem has_addExpr (p : Program) (construct : Construct ExprId) (location : Option Location) :
    (p.addExpr construct location).2.Has (p.addExpr construct location).1 := by
  show p.exprs.size < (p.addExpr construct location).2.exprs.size
  rw [size_addExpr]
  exact Nat.lt_succ_self _

/-! ### Copies -/

theorem adds_mapM {held : NodeId → Prop} {f : ExprId → StateM Program ExprId} {ids : List ExprId}
    (hf : ∀ id ∈ ids, ∀ p : Program, p.Sound held → p.Has id →
      p.Adds ((f id).run p).2 ∧ ((f id).run p).2.Has ((f id).run p).1)
    (p : Program) (hs : p.Sound held)
    (hids : ∀ id ∈ ids, p.Has id) : p.Adds ((ids.mapM f).run p).2 ∧
      ∀ id ∈ ((ids.mapM f).run p).1, ((ids.mapM f).run p).2.Has id := by
  induction ids generalizing p with
  | nil => exact ⟨.refl, fun _ h => nomatch h⟩
  | cons id ids ih =>
    obtain ⟨hadds, hhas⟩ := hf id (by simp) p hs (hids id (by simp))
    obtain ⟨hadds', hhas'⟩ := ih (fun i hi => hf i (List.mem_cons_of_mem _ hi)) ((f id).run p).2
      (hadds.sound hs) fun i hi => hadds.has (hids i (List.mem_cons_of_mem _ hi))
    rw [List.mapM_cons]
    refine ⟨hadds.trans hadds', fun i hi => ?_⟩
    rcases List.mem_cons.mp hi with rfl | hi
    · exact hadds'.has hhas
    · exact hhas' i hi

/-- A copy has the parts of its original copied before. -/
theorem adds_copyWithin {held : NodeId → Prop} (fuel : Nat) (id : ExprId) (p : Program)
    (hs : p.Sound held) (hid : p.Has id) :
    p.Adds ((copyWithin fuel id).run p).2 ∧
      ((copyWithin fuel id).run p).2.Has ((copyWithin fuel id).run p).1 := by
  induction fuel generalizing id p with
  | zero => exact ⟨.refl, hid⟩
  | succ fuel ih =>
    have hparts : ∀ part ∈ (p.expr id).construct.children, p.Has part := fun _ hp => hs.part_lt hp
    obtain ⟨hadds, hhas⟩ :=
      adds_mapM (f := copyWithin fuel) (fun i _ p' hp' hi => ih i p' hp' hi) p hs hparts
    have hchildren :
        (Construct.children <$> (p.expr id).construct.traverse (copyWithin fuel)).run p =
        ((p.expr id).construct.children.mapM (copyWithin fuel)).run p := by
      rw [Construct.children_traverse]
    have hrun : (copyWithin (fuel + 1) id).run p =
        (((p.expr id).construct.traverse (copyWithin fuel)).run p).2.addExpr
          (((p.expr id).construct.traverse (copyWithin fuel)).run p).1 (p.expr id).location := rfl
    rw [hrun]
    rw [StateT.run_map] at hchildren
    rcases hr : ((p.expr id).construct.traverse (copyWithin fuel)).run p with ⟨c, p'⟩
    rw [hr] at hchildren
    rw [← hchildren] at hadds hhas
    exact ⟨hadds.trans (.add _ .refl hhas), has_addExpr p' c _⟩

theorem adds_copyExpr {held : NodeId → Prop} {p : Program} (hs : p.Sound held) {id : ExprId}
    (hid : p.Has id) :
    p.Adds (p.copyExpr id).2 ∧ (p.copyExpr id).2.Has (p.copyExpr id).1 :=
  adds_copyWithin (id.index + 1) id p hs hid

/-! ### Lowering -/

/-- The step adds expressions, and those that it answers with are there when it is carried
through. -/
structure Lowers {α : Type} (answers : α → List ExprId) (x : Lowering α) (p : Program) : Prop where
  adds : p.Adds ((ExceptT.run x).run p).2
  has : ∀ a, ((ExceptT.run x).run p).1 = .ok a → ∀ id ∈ answers a, ((ExceptT.run x).run p).2.Has id

theorem run_bind_lowering {α β : Type} (x : Lowering α) (f : α → Lowering β) (p : Program) :
    (ExceptT.run (x >>= f)).run p = match (ExceptT.run x).run p with
      | (.ok a, p') => (ExceptT.run (f a)).run p'
      | (.error e, p') => (.error e, p') := by
  simp only [ExceptT.run_bind, StateT.run_bind]
  rcases (ExceptT.run x).run p with ⟨_ | a, p'⟩ <;> rfl

theorem Lowers.bind {α β : Type} {answers : α → List ExprId} {answers' : β → List ExprId}
    {x : Lowering α} {f : α → Lowering β} {p : Program} (hx : Lowers answers x p)
    (hf : ∀ a p', p.Adds p' → (∀ id ∈ answers a, p'.Has id) → Lowers answers' (f a) p') :
    Lowers answers' (x >>= f) p := by
  obtain ⟨hadds, hhas⟩ := hx
  rcases hr : (ExceptT.run x).run p with ⟨e | a, p'⟩ <;> rw [hr] at hadds hhas
  · refine ⟨?_, fun b hb => ?_⟩
    · rw [run_bind_lowering, hr]; exact hadds
    · rw [run_bind_lowering, hr] at hb; cases hb
  · obtain ⟨hadds', hhas'⟩ := hf a p' hadds (hhas a rfl)
    refine ⟨?_, fun b hb => ?_⟩
    · rw [run_bind_lowering, hr]; exact hadds.trans hadds'
    · rw [run_bind_lowering, hr] at hb ⊢
      exact hhas' b hb

theorem lowers_pure {α : Type} {answers : α → List ExprId} {a : α} {p : Program}
    (h : ∀ id ∈ answers a, p.Has id) : Lowers answers (pure a) p :=
  ⟨.refl, fun _ hb => by cases hb; exact h⟩

theorem lowers_mapM {α : Type} {f : α → Lowering ExprId} {as : List α}
    (hf : ∀ a ∈ as, ∀ p, Lowers (fun id => [id]) (f a) p) (p : Program) :
    Lowers (fun ids => ids) (as.mapM f) p := by
  induction as generalizing p with
  | nil => rw [List.mapM_nil]; exact lowers_pure (fun _ h => nomatch h)
  | cons a as ih =>
    rw [List.mapM_cons]
    refine (hf a (by simp) p).bind fun id p' _ hid => ?_
    refine (ih (fun b hb => hf b (List.mem_cons_of_mem _ hb)) p').bind fun ids p'' hadds hids => ?_
    refine lowers_pure fun i hi => ?_
    rcases List.mem_cons.mp hi with rfl | hi
    · exact hadds.has (hid i (by simp))
    · exact hids i hi

theorem Lowers.of_map {α : Type} {answers : α → List ExprId} {x : Lowering α} {p : Program}
    (h : Lowers (fun ids => ids) (answers <$> x) p) : Lowers answers x p := by
  obtain ⟨hadds, hhas⟩ := h
  rw [ExceptT.run_map, StateT.run_map] at hadds hhas
  rcases hr : (ExceptT.run x).run p with ⟨e | a, p'⟩ <;> rw [hr] at hadds hhas
  · exact ⟨by rw [hr]; exact hadds, fun b hb => by rw [hr] at hb; cases hb⟩
  · refine ⟨by rw [hr]; exact hadds, fun b hb => ?_⟩
    rw [hr] at hb ⊢
    cases hb
    exact hhas (answers a) rfl

/-- Lowering adds a tree with all its parts. -/
theorem lowers_tree (tree : Tree) (p : Program) : Lowers (fun id => [id]) tree.lower p := by
  induction tree using Tree.byParts generalizing p with
  | plain c location ih =>
    rw [Tree.lower, Tree.lowerConstruct_eq]
    have hparts : Lowers (fun ids => ids) (Construct.children <$> c.traverse Tree.lower) p := by
      rw [Construct.children_traverse]
      exact lowers_mapM ih p
    refine hparts.of_map.bind fun c' p' _ hc' => ⟨.add location .refl hc', fun id hid => ?_⟩
    cases hid
    intro i hi
    rw [List.mem_singleton.mp hi]
    exact has_addExpr p' c' location
  | sugar abbreviation location =>
    rw [Tree.lower]
    exact ⟨.refl, fun _ h => nomatch h⟩

theorem adds_lower (p : Program) (tree : Tree) : p.Adds (p.lower tree).2 ∧
    ∀ id, (p.lower tree).1 = .ok id → (p.lower tree).2.Has id := by
  obtain ⟨hadds, hhas⟩ := lowers_tree tree p
  exact ⟨hadds, fun id hid => hhas id hid id (by simp)⟩

end Program

end TypeFlow

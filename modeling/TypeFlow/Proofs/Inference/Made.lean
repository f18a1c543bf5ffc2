import TypeFlow.Proofs.Inference.Composed.Kept
import TypeFlow.Proofs.Inference.Course.Formed
import TypeFlow.Proofs.Program.Copied

/-!
# Copies in programs that have been walked

Lowering, copying and walking keep the expressions of a program a forest in which every expression
has the node that its construct asks for. So what is copied at any time comes out as it is, with
nodes that start over.
-/

namespace TypeFlow.Program

/-- What comes of lowering, copying and walking. -/
inductive Made : Program → Prop where
  | initial : Made initial
  | lower {p : Program} (tree : Tree) : Made p → Made (p.lower tree).2
  | copy {p : Program} (id : ExprId) : Made p → Made (p.copyExpr id).2
  | walk {setting : Setting} {s : WalkState} (htidy : setting.tools.Tidy)
      (fuel : Nat) (id : ExprId) :
      Made s.program → Made ((Infer.walk fuel id).outcome setting s).2.program

variable {p p' : Program} {id : ExprId}

theorem Grows.formed (h : p.Grows p') (hp : p.Formed) : p'.Formed := by
  induction h with
  | refl => exact hp
  | add construct location _ ih => exact ih.addExpr construct location

namespace Made

theorem forest (h : p.Made) : p.Forest := by
  induction h with
  | initial => exact .initial
  | lower tree _ ih => exact ih.lower tree
  | copy id _ ih => exact ih.copyExpr id
  | walk htidy fuel id _ ih =>
    exact (Infer.composed_walk fuel id _).relates htidy Infer.relates_forest ih

theorem formed (h : p.Made) : p.Formed := by
  induction h with
  | initial => exact formed_initial
  | lower tree _ ih => exact (adds_lower _ tree).1.grows.formed ih
  | copy id _ ih => exact (grows_copyWithin (id.index + 1) id _).formed ih
  | walk htidy fuel id _ ih =>
    obtain ⟨deeds, hcourse⟩ := (Infer.takes_walk htidy fuel id _).course
    exact hcourse.formed ih

/-- A copy comes to an end, and is a tree like the original: of new expressions only, one for each
that is below the original, parts first, with new nodes that derive as the original's do. All that
has been there stays. -/
theorem isCopy_copyExpr (h : p.Made) (hid : p.Has id) :
    (∀ fuel, id.index < fuel → (copyWithin fuel id).run p = p.copyExpr id) ∧
    ∃ copy : ExprId → ExprId, copy id = (p.copyExpr id).1 ∧ p.IsCopy (p.copyExpr id).2 id copy ∧
      (p.copyExpr id).2.tree (copy id) = p.tree id ∧
      ∀ e ∈ p.postorder id, (p.copyExpr id).2.graph.node ((p.copyExpr id).2.nodeOf (copy e)) =
        { derivation := (p.graph.node (p.nodeOf e)).derivation } := by
  obtain ⟨copy, hcopy, hroot⟩ := isCopy_copyWithin h.forest hid (Nat.lt_succ_self _)
  refine ⟨fun fuel hfuel => ?_, copy, hroot, hcopy, hcopy.tree_eq h.forest
    (mem_postorder_self p id), fun e he => ?_⟩
  · obtain ⟨copy', hcopy', hroot'⟩ := isCopy_copyWithin h.forest hid hfuel
    refine Prod.ext ?_ (hcopy'.eq hcopy)
    rw [← hroot', hcopy'.copy_eq hcopy (mem_postorder_self p id), hroot]
    rfl
  · rw [h.formed.derivation e (h.forest.has_of_mem_postorder hid he)]
    exact hcopy.fresh e he

/-- `x = 1; typeof(x)` has been walked and copied. -/
def typed : Program :=
  let tree := Tree.sequence [.assign (.var "x") (.int32 1), .bare (.typeOf [.var "x"])]
  (((Infer.walk 9 ⟨5⟩).outcome ⟨.standard, {}⟩ (.lowered tree)).2.program.copyExpr ⟨5⟩).2

/-- Another copy of the question has no type, though the question has one. -/
theorem isCopy_copyExpr_typed :
    typed.Made ∧ typed.Has ⟨4⟩ ∧ ∃ copy : ExprId → ExprId, copy ⟨4⟩ = ⟨13⟩ ∧
    typed.IsCopy (typed.copyExpr ⟨4⟩).2 ⟨4⟩ copy ∧ (typed.typeOf ⟨4⟩).isSome = true ∧
    (typed.copyExpr ⟨4⟩).2.graph.node ((typed.copyExpr ⟨4⟩).2.nodeOf (copy ⟨4⟩)) =
      { derivation := .metaclass } := by
  have hmade : typed.Made := .copy _ (.walk Toolchain.tidy_standard _ _ (.lower _ .initial))
  have hhas : typed.Has ⟨4⟩ := by unfold Has; decide +kernel
  obtain ⟨-, copy, hroot, hcopy, -, hfresh⟩ := isCopy_copyExpr hmade hhas
  have hnode : (typed.typeOf ⟨4⟩).isSome = true ∧ (typed.copyExpr ⟨4⟩).1 = ⟨13⟩ ∧
      (typed.graph.node (typed.nodeOf ⟨4⟩)).derivation = .metaclass := by decide +kernel
  refine ⟨hmade, hhas, copy, hroot.trans hnode.2.1, hcopy, hnode.1, ?_⟩
  rw [hfresh ⟨4⟩ (mem_postorder_self ..), hnode.2.2]

end Made

end TypeFlow.Program

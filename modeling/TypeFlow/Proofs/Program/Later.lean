import TypeFlow.Program.InstanceVars
import TypeFlow.Proofs.Flow.Extends
import TypeFlow.Proofs.Types.Kinds

/-!
# How programs change

`p.Later p'`: the program `p'` may have become of `p`. Expressions are only added, each with a node
of its own; one that is there keeps its node and its construct, except that a sequence may lose
statements at its end. Nodes and types stay, and types keep their kinds.
-/

namespace TypeFlow

namespace Construct
variable {α : Type} {c c' c'' : Construct α}

/-- The same construct, or a sequence that has lost its last statements. -/
def Shortens (c c' : Construct α) : Prop :=
  c' = c ∨ ∃ items count, c = .sequence items ∧ c' = .sequence (items.take count)

/-- Whether it is a call. -/
def isCall : Construct α → Bool
  | .call .. => true
  | _ => false

namespace Shortens

theorem refl (c : Construct α) : c.Shortens c := .inl rfl

theorem trans (h : c.Shortens c') (h' : c'.Shortens c'') : c.Shortens c'' := by
  rcases h with rfl | ⟨items, count, rfl, rfl⟩
  · exact h'
  · rcases h' with rfl | ⟨items', count', heq, rfl⟩
    · exact .inr ⟨items, count, rfl, rfl⟩
    · cases heq
      exact .inr ⟨items, min count' count, rfl, by rw [List.take_take]⟩

theorem children_subset (h : c.Shortens c') {part : α} (hp : part ∈ c'.children) :
    part ∈ c.children := by
  rcases h with rfl | ⟨items, count, rfl, rfl⟩
  · exact hp
  · exact List.mem_of_mem_take hp

theorem eq_var {name : String} (h : c.Shortens c') (hc : c = .var name) : c' = .var name := by
  rcases h with rfl | ⟨items, count, rfl, rfl⟩
  · exact hc
  · cases hc

theorem isCall_eq (h : c.Shortens c') : c'.isCall = c.isCall := by
  rcases h with rfl | ⟨items, count, rfl, rfl⟩ <;> rfl

/-- Only a sequence may lose anything. -/
theorem eq_of_isCall (h : c.Shortens c') (hc : c.isCall = true) : c' = c := by
  rcases h with rfl | ⟨items, count, rfl, rfl⟩
  · rfl
  · cases hc

end Shortens

end Construct

namespace Program

structure Later (p p' : Program) : Prop where
  exprs_le : p.exprs.size ≤ p'.exprs.size
  nodes_le : p.graph.size ≤ p'.graph.size
  kinds : p.types.KeepsKinds p'.types
  nodeOf_eq : ∀ id : ExprId, id.index < p.exprs.size → p'.nodeOf id = p.nodeOf id
  construct : ∀ id : ExprId, id.index < p.exprs.size → (p.construct id).Shortens (p'.construct id)
  fresh : ∀ id : ExprId, p.exprs.size ≤ id.index → id.index < p'.exprs.size →
    p.graph.size ≤ (p'.nodeOf id).index

namespace Later
variable {p p' p'' : Program} {id : ExprId}

theorem trans (h : p.Later p') (h' : p'.Later p'') : p.Later p'' where
  exprs_le := Nat.le_trans h.exprs_le h'.exprs_le
  nodes_le := Nat.le_trans h.nodes_le h'.nodes_le
  kinds := h.kinds.trans h'.kinds
  nodeOf_eq id hid :=
    (h'.nodeOf_eq id (Nat.lt_of_lt_of_le hid h.exprs_le)).trans (h.nodeOf_eq id hid)
  construct id hid :=
    (h.construct id hid).trans (h'.construct id (Nat.lt_of_lt_of_le hid h.exprs_le))
  fresh id hle hlt := by
    rcases Nat.lt_or_ge id.index p'.exprs.size with hid | hid
    · rw [h'.nodeOf_eq id hid]; exact h.fresh id hle hid
    · exact Nat.le_trans h.nodes_le (h'.fresh id hid hlt)

/-- A change that adds no expressions and leaves those that are there. -/
theorem of_exprs (hexprs : p'.exprs = p.exprs) (hnodes : p.graph.size ≤ p'.graph.size)
    (hkinds : p.types.KeepsKinds p'.types) : p.Later p' where
  exprs_le := Nat.le_of_eq (by rw [hexprs])
  nodes_le := hnodes
  kinds := hkinds
  nodeOf_eq id _ := by rw [nodeOf, nodeOf, expr, expr, hexprs]
  construct id _ := .inl (by rw [Program.construct, Program.construct, expr, expr, hexprs])
  fresh id hle hlt := absurd hlt (Nat.not_lt.mpr (hexprs ▸ hle))

theorem refl (p : Program) : p.Later p := of_exprs rfl (Nat.le_refl _) (.refl _)

theorem lt (h : p.Later p') (hid : id.index < p.exprs.size) : id.index < p'.exprs.size :=
  Nat.lt_of_lt_of_le hid h.exprs_le

end Later

/-! ### Adding and shortening expressions -/

variable (p : Program)

theorem expr_addExpr (construct : Construct ExprId) (location : Option Location) (id : ExprId) :
    (p.addExpr construct location).2.expr id =
      if id.index = p.exprs.size then { construct, location, node := ⟨p.graph.size⟩ }
        else p.expr id := by
  simp only [expr, addExpr, FlowGraph.addNode, Array.getElem?_push]
  split <;> rfl

@[simp] theorem size_addExpr (construct : Construct ExprId) (location : Option Location) :
    (p.addExpr construct location).2.exprs.size = p.exprs.size + 1 :=
  Array.size_push ..

theorem later_addExpr (construct : Construct ExprId) (location : Option Location) :
    p.Later (p.addExpr construct location).2 where
  exprs_le := by simp
  nodes_le :=
    Nat.le_of_lt (Nat.lt_of_lt_of_eq (Nat.lt_succ_self _) (FlowGraph.size_addNode ..).symm)
  kinds := .refl _
  nodeOf_eq id hid := by rw [nodeOf, nodeOf, expr_addExpr, if_neg (Nat.ne_of_lt hid)]
  construct id hid :=
    .inl (by rw [Program.construct, Program.construct, expr_addExpr, if_neg (Nat.ne_of_lt hid)])
  fresh id hle hlt := by
    rw [size_addExpr] at hlt
    have hid : id.index = p.exprs.size := by omega
    rw [nodeOf, expr_addExpr, if_pos hid]

theorem expr_truncate (id other : ExprId) (count : Nat) :
    (p.truncate id count).nodeOf other = p.nodeOf other ∧
      (p.construct other).Shortens ((p.truncate id count).construct other) := by
  simp only [nodeOf, Program.construct, expr, truncate, Array.getElem?_modify]
  split
  · rcases p.exprs[other.index]? with _ | e
    · exact ⟨rfl, .refl _⟩
    · simp only [Option.map_some, Option.getD_some]
      split
      · rename_i items heq
        exact ⟨rfl, .inr ⟨items, count, heq, rfl⟩⟩
      · exact ⟨rfl, .refl _⟩
  · exact ⟨rfl, .refl _⟩

@[simp] theorem size_truncate (id : ExprId) (count : Nat) :
    (p.truncate id count).exprs.size = p.exprs.size :=
  Array.size_modify

theorem later_truncate (id : ExprId) (count : Nat) : p.Later (p.truncate id count) where
  exprs_le := Nat.le_of_eq (size_truncate ..).symm
  nodes_le := Nat.le_refl _
  kinds := .refl _
  nodeOf_eq other _ := (expr_truncate p id other count).1
  construct other _ := (expr_truncate p id other count).2
  fresh _ hle hlt := absurd (size_truncate p .. ▸ hlt) (Nat.not_lt.mpr hle)

/-! ### Changes to the network -/

theorem later_of_network {n : Network} (hsize : p.graph.size ≤ n.graph.size)
    (hkinds : p.types.KeepsKinds n.types) : p.Later { p with toNetwork := n } :=
  .of_exprs rfl hsize hkinds

end Program

end TypeFlow

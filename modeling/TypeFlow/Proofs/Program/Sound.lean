import TypeFlow.Proofs.Flow.Members
import TypeFlow.Proofs.Program.Later

/-!
# Sound programs

In a sound program every part of an expression has been added before it, expressions have nodes of
their own, no one that of `Nil`, which nothing ever gives another type, and so have variables. The
nodes in `held` carry `Nil` for good: they do not belong to expressions, and so are never given a
type directly.

`Sound.later` leaves of a change only what is new to be looked at.
-/

namespace TypeFlow.Program

/-- A node that variables may have: not the node of `Nil`, nor that of an expression, unless this is
a variable itself, the parameter of a block. -/
structure Slot (p : Program) (node : NodeId) : Prop where
  ne_nil : node ≠ nilNode
  lt : node.index < p.graph.size
  expr : ∀ id : ExprId, id.index < p.exprs.size → p.nodeOf id = node →
    ∃ name, p.construct id = .var name

/-- The nodes that the program itself keeps for variables. -/
inductive Keeps (p : Program) (node : NodeId) : Prop where
  | global {name : String} : p.globals.get? name = some node → Keeps p node
  | instanceVar {owner : TypeId} {name : String} :
      (p.types.get owner).instanceVars.get? name = some node → Keeps p node
  | breakNode {block : ExprId} : p.blockBreaks.get? block = some node → Keeps p node

structure Sound (held : NodeId → Prop) (p : Program) : Prop where
  nilSource : p.toNetwork.Source nilNode .nil held
  node_ne_nil : ∀ id : ExprId, id.index < p.exprs.size → p.nodeOf id ≠ nilNode
  node_lt : ∀ id : ExprId, id.index < p.exprs.size → (p.nodeOf id).index < p.graph.size
  distinct : ∀ id id' : ExprId, id.index < p.exprs.size → id'.index < p.exprs.size →
    p.nodeOf id = p.nodeOf id' → id = id'
  not_held : ∀ id : ExprId, id.index < p.exprs.size → ¬ held (p.nodeOf id)
  parts : ∀ id : ExprId, id.index < p.exprs.size → ∀ part ∈ (p.construct id).children,
    part.index < id.index
  values : ∀ c ∈ p.constants.toList, c.value.index < p.exprs.size
  slots : ∀ node, p.Keeps node → p.Slot node

variable {p p' : Program} {held : NodeId → Prop}

theorem Later.slot (h : p.Later p') {node : NodeId} (hs : p.Slot node) : p'.Slot node where
  ne_nil := hs.ne_nil
  lt := Nat.lt_of_lt_of_le hs.lt h.nodes_le
  expr id hid hnode := by
    rcases Nat.lt_or_ge id.index p.exprs.size with hlt | hge
    · obtain ⟨name, hname⟩ := hs.expr id hlt ((h.nodeOf_eq id hlt).symm.trans hnode)
      exact ⟨name, (h.construct id hlt).eq_var hname⟩
    · -- the node of a new expression is new itself
      have hfresh := h.fresh id hge hid
      rw [hnode] at hfresh
      exact absurd hs.lt (Nat.not_lt.mpr hfresh)

namespace Sound

/-- Beyond the table an expression has no parts. -/
theorem part_lt (h : p.Sound held) {id part : ExprId} (hp : part ∈ (p.construct id).children) :
    part.index < p.exprs.size := by
  rcases Nat.lt_or_ge id.index p.exprs.size with hid | hid
  · exact Nat.lt_trans (h.parts id hid part hp) hid
  · rw [Program.construct, Program.expr, Array.getElem?_eq_none hid] at hp
    cases hp

theorem nil_lt (h : p.Sound held) : nilNode.index < p.graph.size := h.nilSource.lt

/-- A variable may have its own node. -/
theorem slot_var (h : p.Sound held) {id : ExprId} (hid : id.index < p.exprs.size) {name : String}
    (hc : p.construct id = .var name) : p.Slot (p.nodeOf id) where
  ne_nil := h.node_ne_nil id hid
  lt := h.node_lt id hid
  expr other hother heq := ⟨name, h.distinct other id hother hid heq ▸ hc⟩

theorem value_lt (h : p.Sound held) {id : ConstantId} (hid : id.index < p.constants.size) :
    (p.constant id).value.index < p.exprs.size := by
  rw [constant, Array.getElem?_eq_getElem hid]
  exact h.values _ (Array.getElem_mem_toList hid)

/-- A sound program stays sound if what is new in it is; expressions come one at a time. -/
theorem later (h : p.Sound held) (hl : p.Later p') (hnil : p'.toNetwork.Source nilNode .nil held)
    (hnew : ∀ id : ExprId, p.exprs.size ≤ id.index → id.index < p'.exprs.size →
      (p'.nodeOf id).index < p'.graph.size ∧ ∀ part ∈ (p'.construct id).children,
      part.index < id.index)
    (hone : p'.exprs.size ≤ p.exprs.size + 1)
    (hvalues : ∀ c ∈ p'.constants.toList, c.value.index < p'.exprs.size)
    (hslots : ∀ node, p'.Keeps node → p.Keeps node ∨ p'.Slot node) : p'.Sound held where
  nilSource := hnil
  node_ne_nil id hid := by
    rcases Nat.lt_or_ge id.index p.exprs.size with hlt | hge
    · rw [hl.nodeOf_eq id hlt]; exact h.node_ne_nil id hlt
    · intro heq
      have hfresh := hl.fresh id hge hid
      rw [heq] at hfresh
      exact absurd h.nil_lt (Nat.not_lt.mpr hfresh)
  node_lt id hid := by
    rcases Nat.lt_or_ge id.index p.exprs.size with hlt | hge
    · rw [hl.nodeOf_eq id hlt]; exact Nat.lt_of_lt_of_le (h.node_lt id hlt) hl.nodes_le
    · exact (hnew id hge hid).1
  distinct id id' hid hid' heq := by
    -- an expression that was there and a new one differ in their nodes
    have hcross : ∀ i j : ExprId, i.index < p.exprs.size → p.exprs.size ≤ j.index →
        j.index < p'.exprs.size → p'.nodeOf i ≠ p'.nodeOf j := fun i j hi hj hj' hij => by
      have hfresh := hl.fresh j hj hj'
      rw [← hij, hl.nodeOf_eq i hi] at hfresh
      exact absurd (h.node_lt i hi) (Nat.not_lt.mpr hfresh)
    rcases Nat.lt_or_ge id.index p.exprs.size with hlt | hge <;>
      rcases Nat.lt_or_ge id'.index p.exprs.size with hlt' | hge'
    · rw [hl.nodeOf_eq id hlt, hl.nodeOf_eq id' hlt'] at heq
      exact h.distinct id id' hlt hlt' heq
    · exact absurd heq (hcross id id' hlt hge' hid')
    · exact absurd heq.symm (hcross id' id hlt' hge hid)
    · cases id; cases id'
      exact congrArg ExprId.mk (by dsimp only at *; omega)
  not_held id hid hheld := by
    rcases Nat.lt_or_ge id.index p.exprs.size with hlt | hge
    · exact h.not_held id hlt (hl.nodeOf_eq id hlt ▸ hheld)
    · exact absurd (h.nilSource.carried _ hheld).lt (Nat.not_lt.mpr (hl.fresh id hge hid))
  parts id hid part hpart := by
    rcases Nat.lt_or_ge id.index p.exprs.size with hlt | hge
    · exact h.parts id hlt part ((hl.construct id hlt).children_subset hpart)
    · exact (hnew id hge hid).2 part hpart
  values := hvalues
  slots node hk := (hslots node hk).elim (fun hk => hl.slot (h.slots node hk)) fun hs => hs

/-- The same for a change that adds no expressions, no constants and no variables. -/
theorem later_of_eq (h : p.Sound held) (hl : p.Later p') (hsize : p'.exprs.size = p.exprs.size)
    (hnil : p'.toNetwork.Source nilNode .nil held) (hvalues : p'.constants = p.constants)
    (hglobals : p'.globals = p.globals) (hbreaks : p'.blockBreaks = p.blockBreaks)
    (hvars : ∀ owner name node, (p'.types.get owner).instanceVars.get? name = some node →
      (p.types.get owner).instanceVars.get? name = some node) : p'.Sound held := by
  refine h.later hl hnil (fun id hle hlt => absurd hlt (by omega))
    (by omega) ?_ fun node hk => .inl ?_
  · rw [hvalues, hsize]
    exact h.values
  · cases hk with
    | global hk => exact .global (hglobals ▸ hk)
    | instanceVar hk => exact .instanceVar (hvars _ _ _ hk)
    | breakNode hk => exact .breakNode (hbreaks ▸ hk)

theorem instanceVars_initial (id : TypeId) : (Types.initial.get id).instanceVars = ∅ := by
  have hnone : ∀ e ∈ Types.initial.entries.toList, e.instanceVars = ∅ := by decide +kernel
  rcases Nat.lt_or_ge id.index Types.initial.size with hlt | hge
  · rw [Types.get_of_lt hlt]
    exact hnone _ (Array.mem_toList_iff.mpr (Array.getElem_mem hlt))
  · rw [Types.get_of_le hge]; rfl

theorem initial : Program.initial.Sound fun _ => False where
  nilSource := ⟨rfl, rfl, by decide +kernel, by decide +kernel, by decide, fun _ h => h.elim⟩
  node_ne_nil _ hid := absurd hid (Nat.not_lt_zero _)
  node_lt _ hid := absurd hid (Nat.not_lt_zero _)
  distinct _ _ hid := absurd hid (Nat.not_lt_zero _)
  not_held _ _ h := h.elim
  parts _ hid := absurd hid (Nat.not_lt_zero _)
  values _ hc := by cases hc
  slots node hk := by
    cases hk with
    | global h => cases h
    | breakNode h => cases h
    | @instanceVar owner name h =>
      have hnone : (Program.initial.types.get owner).instanceVars = ∅ := instanceVars_initial owner
      rw [hnone] at h
      cases h

end Sound

end TypeFlow.Program

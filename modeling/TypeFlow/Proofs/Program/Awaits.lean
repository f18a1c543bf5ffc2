import TypeFlow.Proofs.Flow.Idle
import TypeFlow.Proofs.Program.Forest

/-!
# Expressions that are still to be walked

A walk owes its expressions to duties: a tree that is to be walked, an expression that is being
walked and whose parts are duties of their own, and one that is done with. `p.Awaits L`: nothing has
been done with the expressions of the open duties in `L`, and no expression belongs to two duties,
unless both are done with. Nothing may then be done to a node unless `p.Avoids L node`.
-/

namespace TypeFlow

inductive Duty where
  | whole (root : ExprId)
  | single (id : ExprId)
  | done (id : ExprId)
  deriving DecidableEq

namespace Duty

def expr : Duty → ExprId
  | whole e | single e | done e => e

def Open : Duty → Prop
  | done _ => False
  | _ => True

def Covers (p : Program) : Duty → ExprId → Prop
  | whole root, e => p.Below root e
  | single id, e | done id, e => e = id

variable {p p' : Program} {t : Duty} {e : ExprId}

theorem covers_self (p : Program) (t : Duty) : t.Covers p t.expr := by
  cases t with
  | whole root => exact .refl
  | single | done => rfl

theorem Covers.has (h : t.Covers p e) (hp : p.Forest) (ht : p.Has t.expr) : p.Has e := by
  cases t with
  | whole root => exact hp.has_below ht h
  | single | done => rw [show e = _ from h]; exact ht

theorem Covers.earlier (h : t.Covers p' e) (hp' : p'.Forest) (hl : p.Later p') (ht : p.Has t.expr) :
    t.Covers p e := by
  cases t with
  | whole root => exact hl.below hp' ht h
  | single | done => exact h

/-- Parts of parts are no parameters of blocks. -/
theorem Covers.not_isParameter (h : t.Covers p e) (hp : p.Forest) (ht : ¬ p.IsParameter t.expr) :
    ¬ p.IsParameter e := by
  cases t with
  | whole root => exact hp.not_isParameter_below ht h
  | single | done => rw [show e = _ from h]; exact ht

/-- Two duties that concern one expression, which one of them leaves to be done. -/
def Clashes (p : Program) (t t' : Duty) : Prop :=
  (t.Open ∨ t'.Open) ∧ ∃ e, t.Covers p e ∧ t'.Covers p e

theorem Clashes.symm {t' : Duty} (h : Clashes p t t') : Clashes p t' t :=
  ⟨h.1.symm, h.2.imp fun _ h => h.symm⟩

end Duty

namespace Program
variable {p p' : Program} {L M : List Duty} {t : Duty} {e id : ExprId} {node : NodeId}

/-- Nothing has been done with the expression. -/
structure Idle (p : Program) (e : ExprId) : Prop where
  vacant : p.graph.Vacant (p.nodeOf e)
  silent : p.graph.Silent e

/-- Nothing has been done with the expression, and an open duty is to do it. -/
def Awaited (p : Program) (L : List Duty) (e : ExprId) : Prop := ∃ t ∈ L, t.Open ∧ t.Covers p e

structure Awaits (p : Program) (L : List Duty) : Prop where
  has : ∀ t ∈ L, p.Has t.expr
  free : ∀ t ∈ L, t.Open → ¬ p.IsParameter t.expr
  idle : ∀ e, p.Awaited L e → p.Idle e
  apart : L.Pairwise fun t t' => ¬ Duty.Clashes p t t'

/-- No open duty is about an expression with the node. -/
def Avoids (p : Program) (L : List Duty) (node : NodeId) : Prop :=
  ∀ e, p.Awaited L e → p.nodeOf e ≠ node

theorem Awaited.mono (h : p.Awaited L e) (hsub : ∀ t ∈ L, t ∈ M) : p.Awaited M e :=
  let ⟨t, ht, ho, hc⟩ := h
  ⟨t, hsub t ht, ho, hc⟩

namespace Awaits

theorem hasAwaited (h : p.Awaits L) (hp : p.Forest) (he : p.Awaited L e) : p.Has e :=
  let ⟨t, ht, _, hc⟩ := he
  hc.has hp (h.has t ht)

theorem sublist (h : p.Awaits L) (hs : M.Sublist L) : p.Awaits M where
  has t ht := h.has t (hs.subset ht)
  free t ht := h.free t (hs.subset ht)
  idle e he := h.idle e (he.mono fun _ ht => hs.subset ht)
  apart := h.apart.sublist hs

theorem perm (h : p.Awaits L) (hp : L.Perm M) : p.Awaits M where
  has t ht := h.has t (hp.mem_iff.mpr ht)
  free t ht := h.free t (hp.mem_iff.mpr ht)
  idle e he := h.idle e (he.mono fun _ ht => hp.mem_iff.mpr ht)
  apart := (hp.pairwise_iff fun h hc => h hc.symm).mp h.apart

/-- A further duty, which does not clash with those that there are. -/
theorem cons (h : p.Awaits L) (hhas : p.Has t.expr) (hfree : t.Open → ¬ p.IsParameter t.expr)
    (hidle : t.Open → ∀ e, t.Covers p e → p.Idle e) (hapart : ∀ t' ∈ L, ¬ Duty.Clashes p t t') :
    p.Awaits (t :: L) where
  has := List.forall_mem_cons.mpr ⟨hhas, h.has⟩
  free := List.forall_mem_cons.mpr ⟨hfree, h.free⟩
  idle e he := by
    obtain ⟨t', ht', ho, hc⟩ := he
    rcases List.mem_cons.mp ht' with rfl | ht'
    · exact hidle ho e hc
    · exact h.idle e ⟨t', ht', ho, hc⟩
  apart := List.pairwise_cons.mpr ⟨hapart, h.apart⟩

/-- The expression of a duty is done with. -/
theorem finish (h : p.Awaits (t :: L)) : p.Awaits (.done t.expr :: L) := by
  obtain ⟨hapart, hrest⟩ := List.pairwise_cons.mp h.apart
  refine (h.sublist (List.sublist_cons_self ..)).cons (h.has t (by simp)) (fun ho => ho.elim)
    (fun ho => ho.elim) ?_
  rintro t' ht' ⟨ho, e, he, hc⟩
  obtain rfl : e = t.expr := he
  exact hapart t' ht' ⟨.inr (ho.resolve_left fun ho => ho), _, t.covers_self p, hc⟩

/-- An expression that no open duty is about counts as done with. -/
theorem note (h : p.Awaits L) (hid : p.Has id) (hnot : ¬ p.Awaited L id) :
    p.Awaits (.done id :: L) := by
  refine h.cons hid (fun ho => ho.elim) (fun ho => ho.elim) ?_
  rintro t' ht' ⟨ho, e, he, hc⟩
  obtain rfl : e = id := he
  exact hnot ⟨t', ht', ho.resolve_left fun ho => ho, hc⟩

/-- A tree is walked by its parts. -/
theorem unfold (h : p.Awaits (.whole id :: L)) (hp : p.Forest) :
    p.Awaits (.single id :: ((p.construct id).inner.map Duty.whole ++ L)) := by
  obtain ⟨hapart, hrest⟩ := List.pairwise_cons.mp h.apart
  have hid : p.Has id := h.has (.whole id) (by simp)
  have hbelow : ∀ {part e}, part ∈ (p.construct id).inner →
      p.Below part e → p.Below id e := fun hp hb =>
    Relation.ReflTransGen.head hp hb
  have hidle : ∀ e, p.Below id e → p.Idle e :=
    fun e he => h.idle e ⟨.whole id, by simp, trivial, he⟩
  -- what clashes with a part clashes with the tree
  have hclash : ∀ t' ∈ L, ∀ e, p.Below id e → ¬ t'.Covers p e :=
    fun t' ht' e he hc => hapart t' ht' ⟨.inl trivial, e, he, hc⟩
  have hparts : ∀ parts : List ExprId, (∀ part ∈ parts, part ∈ (p.construct id).inner) →
      parts.Nodup →
      p.Awaits (parts.map Duty.whole ++ L) := fun parts hsub hnodup => by
    induction parts with
    | nil => exact h.sublist (List.sublist_cons_self ..)
    | cons part parts ih =>
      obtain ⟨hne, hnodup⟩ := List.nodup_cons.mp hnodup
      have hpart := hsub part (by simp)
      refine (ih (fun q hq => hsub q (List.mem_cons_of_mem _ hq)) hnodup).cons
        (Nat.lt_trans (hp.inner_lt hpart) hid) (fun _ => hp.not_isParameter hpart)
        (fun _ e he => hidle e (hbelow hpart he)) ?_
      rintro t' ht' ⟨-, e, he, hc⟩
      rcases List.mem_append.mp ht' with ht' | ht'
      · obtain ⟨other, hother, rfl⟩ := List.mem_map.mp ht'
        exact hne (hp.eq_of_below hpart (hsub other (List.mem_cons_of_mem _ hother)) he hc ▸ hother)
      · exact hclash t' ht' e (hbelow hpart he) hc
  refine (hparts _ (fun _ h => h) (hp.nodup_inner id)).cons hid
    (fun _ => h.free (.whole id) (by simp) trivial)
    (fun _ e he => by rw [show e = id from he]; exact hidle id .refl) ?_
  rintro t' ht' ⟨-, e, he, hc⟩
  obtain rfl : e = id := he
  rcases List.mem_append.mp ht' with ht' | ht'
  · obtain ⟨part, hpart, rfl⟩ := List.mem_map.mp ht'
    exact hp.not_below_inner hpart hc
  · exact hclash t' ht' e .refl hc

/-! ### What may be changed -/

/-- What is to be walked is idle after a change to a program, if it is one that leaves it so. -/
theorem later (h : p.Awaits L) (hp' : p'.Forest) (hl : p.Later p')
    (hidle : ∀ e, p.Awaited L e → p.Has e → p.Idle e → p'.Idle e)
    (hparam : ∀ e, p.Has e → p'.IsParameter e → p.IsParameter e) (hp : p.Forest) : p'.Awaits L := by
  have hearlier : ∀ {e}, p'.Awaited L e → p.Awaited L e := fun {e} he =>
    let ⟨t, ht, ho, hc⟩ := he
    ⟨t, ht, ho, hc.earlier hp' hl (h.has t ht)⟩
  refine ⟨fun t ht => hl.lt (h.has t ht), fun t ht ho hpar =>
    h.free t ht ho (hparam _ (h.has t ht) hpar), fun e he => ?_, ?_⟩
  · exact hidle e (hearlier he) (h.hasAwaited hp (hearlier he)) (h.idle e (hearlier he))
  · refine List.Pairwise.imp_of_mem (fun {t t'} ht ht' hn hc => hn ?_) h.apart
    obtain ⟨ho, e, hc, hc'⟩ := hc
    exact ⟨ho, e, hc.earlier hp' hl (h.has t ht), hc'.earlier hp' hl (h.has t' ht')⟩

theorem avoids_of_parameter (h : p.Awaits L) (hp : p.Forest)
    (hnode : ∀ e, p.Has e → p.nodeOf e = node →
      p.IsParameter e) : p.Avoids L node := fun e he heq => by
  obtain ⟨t, ht, ho, hc⟩ := id he
  exact hc.not_isParameter hp (h.free t ht ho) (hnode e (h.hasAwaited hp he) heq)

/-- What has been done with belongs to no other duty. -/
theorem not_awaited (h : p.Awaits (.done id :: L)) : ¬ p.Awaited L id := fun ⟨t, ht, ho, hc⟩ =>
  (List.pairwise_cons.mp h.apart).1 t ht ⟨.inr ho, id, rfl, hc⟩

theorem not_awaited_done (h : p.Awaits (.done id :: L)) : ¬ p.Awaited (.done id :: L) id := by
  rintro ⟨t, ht, ho, hc⟩
  rcases List.mem_cons.mp ht with rfl | ht
  · exact ho
  · exact h.not_awaited ⟨t, ht, ho, hc⟩

end Awaits

/-- Nodes of different expressions are different. -/
theorem Sound.avoids {held : NodeId → Prop} (h : p.Sound held) (hp : p.Forest) (ha : p.Awaits L)
    (hid : p.Has id) (hnot : ¬ p.Awaited L id) : p.Avoids L (p.nodeOf id) := fun e he heq =>
  hnot (h.distinct e id (ha.hasAwaited hp he) hid heq ▸ he)

/-! ### New trees -/

/-- The node of a new expression is new. -/
theorem Adds.vacant (h : p.Adds p') (hnew : ¬ p.Has e) (he : p'.Has e) :
    p'.graph.Vacant (p'.nodeOf e) ∧ (p'.nodeOf e).index < p'.graph.size := by
  induction h with
  | refl => exact absurd he hnew
  | @add p₁ construct location _ _ ih =>
    have hsize : (p₁.addExpr construct location).2.graph.size = p₁.graph.size + 1 :=
      FlowGraph.size_addNode ..
    rw [nodeOf, expr_addExpr, hsize]
    split
    · exact ⟨.of_push .., Nat.lt_succ_self _⟩
    · rename_i hne
      have hlt : e.index < (p₁.addExpr construct location).2.exprs.size := he
      rw [size_addExpr] at hlt
      have hhas : p₁.Has e := Nat.lt_of_le_of_ne (Nat.le_of_lt_succ hlt) hne
      obtain ⟨hvacant, hlt⟩ := ih hhas
      exact ⟨hvacant.push hlt _, Nat.lt_succ_of_lt hlt⟩

theorem Adds.vacant_of_lt (h : p.Adds p') (hv : p.graph.Vacant node)
    (hlt : node.index < p.graph.size) : p'.graph.Vacant node ∧ node.index < p'.graph.size := by
  induction h with
  | refl => exact ⟨hv, hlt⟩
  | add location _ _ ih =>
    refine ⟨ih.1.push ih.2 _, Nat.lt_trans ih.2 ?_⟩
    exact Nat.lt_of_lt_of_eq (Nat.lt_succ_self _) (FlowGraph.size_addNode ..).symm

theorem Adds.silent (h : p.Adds p') (hs : p.graph.Silent e) : p'.graph.Silent e := by
  induction h with
  | refl => exact hs
  | add location _ _ ih => exact ih.push rfl

theorem Adds.later (h : p.Adds p') : p.Later p' := by
  induction h with
  | refl => exact .refl p
  | add location _ _ ih => exact ih.trans (later_addExpr ..)

/-- What has been planted is to be walked. -/
theorem Awaits.plants (h : p.Awaits L) (hp : p.Forest) {root : ExprId} (hr : p.Plants p' [root])
    (hlt : ∀ e, p.Has e → (p.nodeOf e).index < p.graph.size)
    (hsilent : ∀ e, ¬ p.Has e → p.graph.Silent e) :
    p'.Awaits (.whole root :: L) := by
  have hl := hr.adds.later
  have hold : p'.Awaits L := by
    refine h.later hr.forest hl (fun e _ hhas hidle => ?_) (fun e hhas hpar => ?_) hp
    · exact ⟨hl.nodeOf_eq e hhas ▸ (hr.adds.vacant_of_lt hidle.vacant (hlt e hhas)).1,
        hr.adds.silent hidle.silent⟩
    · obtain ⟨block, params, body, hc, hmem⟩ := hpar
      have hparent : p'.IsParent block e := by rw [IsParent, hc]; exact List.mem_append_left _ hmem
      have hblock : p.Has block := by
        by_contra hnew
        exact absurd hhas (Nat.not_lt.mpr (hr.apart (Nat.le_of_not_lt hnew) hparent))
      exact ⟨block, params, body, by rwa [Program.construct, hr.adds.expr_eq hblock] at hc, hmem⟩
  have hnew : ∀ {e}, p'.Below root e → ¬ p.Has e := fun {e} he => by
    refine Nat.not_lt.mpr ?_
    induction he with
    | refl => exact hr.new root (by simp)
    | tail _ hpart ih => exact hr.apart ih ((p'.construct _).inner_sublist.subset hpart)
  refine hold.cons (hr.has root (by simp)) (fun _ => (hr.noParent root (by simp)).not_isParameter)
    (fun _ e he => ?_) ?_
  · have hhas := hr.forest.has_below (hr.has root (by simp)) he
    exact ⟨(hr.adds.vacant (hnew he) hhas).1, hr.adds.silent (hsilent e (hnew he))⟩
  · rintro t ht ⟨-, e, he, hc⟩
    exact hnew he ((hc.earlier hr.forest hl (h.has t ht)).has hp (h.has t ht))

end Program

end TypeFlow

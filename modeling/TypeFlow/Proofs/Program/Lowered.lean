import Mathlib.Data.List.Pairwise
import TypeFlow.Proofs.Program.Forest
import TypeFlow.Proofs.Tree.Nodes

/-!
# Lowering is faithful

A tree without sugar becomes one expression per node, parts before what they are parts of, at the
end of the table of expressions and with nodes at the end of the graph; read back, the last of them
is the tree (`lower_takesIn`). Any other tree is refused, because of the first sugar in it.

`p.TakesIn p' nodes roots`: `p'` is `p` with expressions for these nodes, of which the roots are
parts of none. Trees are taken in one after the other (`TakesIn.append`), and a construct after its
parts (`TakesIn.addExpr`).
-/

namespace TypeFlow

/-- What lowering says about sugar. -/
def Tree.refusal? : Tree → Option Diagnostic
  | .plain .. => none
  | .sugar abbreviation location => some (sugarError abbreviation location)

namespace Program

/-- The tree that an expression holds. A part that does not come before it is not read. -/
def tree (p : Program) (id : ExprId) : Tree :=
  .plain ((p.construct id).stripped.map fun part => if _ : part.index < id.index then
    p.tree part else default) (p.location id)
termination_by id.index

/-- The expressions from a number on, in order. -/
def idsFrom (start count : Nat) : List ExprId := (List.range' start count).map ExprId.mk

theorem mem_idsFrom {start count : Nat} {id : ExprId} :
    id ∈ idsFrom start count ↔ start ≤ id.index ∧ id.index < start + count := by
  constructor
  · intro h
    obtain ⟨i, hi, rfl⟩ := List.mem_map.mp h
    simpa [List.mem_range'_1] using hi
  · intro h
    exact List.mem_map.mpr ⟨id.index, by simpa [List.mem_range'_1] using h, rfl⟩

theorem idsFrom_add (start m n : Nat) :
    idsFrom start (m + n) = idsFrom start m ++ idsFrom (start + m) n := by
  rw [idsFrom, idsFrom, idsFrom, ← List.map_append, List.range'_append_1]

theorem nodup_idsFrom (start count : Nat) : (idsFrom start count).Nodup :=
  List.Nodup.map (fun _ _ h => ExprId.mk.inj h) List.nodup_range'

structure TakesIn (p p' : Program) (nodes : List Tree) (roots : List ExprId) : Prop where
  exprs : p'.exprs.size = p.exprs.size + nodes.length
  graph : p'.graph.size = p.graph.size + nodes.length
  kept : ∀ id, p.Has id → p'.expr id = p.expr id
  keptNode : ∀ id : NodeId, id.index < p.graph.size → p'.graph.node id = p.graph.node id
  rest : p' = { p with exprs := p'.exprs, graph := { p.graph with nodes := p'.graph.nodes } }
  /-- Each has a node of its own. -/
  node : ∀ i < nodes.length, p'.nodeOf ⟨p.exprs.size + i⟩ = ⟨p.graph.size + i⟩
  fresh : ∀ i < nodes.length, p'.graph.node ⟨p.graph.size + i⟩ =
    { derivation := derivationOf (p'.construct ⟨p.exprs.size + i⟩) }
  part : ∀ id ∈ idsFrom p.exprs.size nodes.length, ∀ part, p'.IsParent id part →
    p.exprs.size ≤ part.index ∧ part.index < id.index
  /-- Each is a root or a part of one of them, and only once. -/
  parts : (roots ++ (idsFrom p.exprs.size nodes.length).flatMap fun id =>
    (p'.construct id).children).Perm (idsFrom p.exprs.size nodes.length)
  reads : (idsFrom p.exprs.size nodes.length).map p'.tree = nodes.map Tree.stripped

/-! ### Reading back -/

theorem tree_eq {p : Program} {id : ExprId}
    (h : ∀ part, p.IsParent id part → part.index < id.index) :
    p.tree id = .plain ((p.construct id).stripped.map p.tree) (p.location id) := by
  rw [tree]
  congr 1
  refine Construct.map_congr fun part hpart => dif_pos (h part ?_)
  rw [Construct.children_stripped] at hpart
  exact hpart

/-- What is read does not depend on what is added behind it. -/
theorem tree_congr {p p' : Program} {start bound : Nat}
    (hexpr : ∀ id : ExprId, start ≤ id.index → id.index < bound → p'.expr id = p.expr id)
    (hpart : ∀ id : ExprId, start ≤ id.index → id.index < bound → ∀ part, p.IsParent id part →
      start ≤ part.index ∧ part.index < id.index) (id : ExprId) (hle : start ≤ id.index)
    (hlt : id.index < bound) : p'.tree id = p.tree id := by
  induction hn : id.index using Nat.strong_induction_on generalizing id with
  | _ n ih =>
    subst hn
    have hc : p'.construct id = p.construct id := congrArg Expr.construct (hexpr id hle hlt)
    rw [tree_eq fun part hp => (hpart id hle hlt part hp).2,
      tree_eq fun part hp => (hpart id hle hlt part (by rw [IsParent, ← hc]; exact hp)).2, hc]
    congr 1
    · refine Construct.map_congr fun part hp => ?_
      rw [Construct.children_stripped] at hp
      obtain ⟨hge, hlt'⟩ := hpart id hle hlt part hp
      exact ih part.index hlt' part hge (Nat.lt_trans hlt' hlt) rfl
    · exact congrArg Expr.location (hexpr id hle hlt)

namespace TakesIn
variable {p p' p'' : Program} {nodes nodes' : List Tree} {roots roots' : List ExprId}

theorem refl (p : Program) : p.TakesIn p [] [] where
  exprs := rfl
  graph := rfl
  kept _ _ := rfl
  keptNode _ _ := rfl
  rest := rfl
  node _ hi := nomatch hi
  fresh _ hi := nomatch hi
  part _ hid := nomatch hid
  parts := .refl _
  reads := rfl

theorem tree_of_kept (h : p.TakesIn p' nodes roots)
    (hkept : ∀ id, p'.Has id → p''.expr id = p'.expr id) {id : ExprId}
    (hid : id ∈ idsFrom p.exprs.size nodes.length) : p''.tree id = p'.tree id := by
  have hexpr : ∀ id : ExprId, p.exprs.size ≤ id.index → id.index < p'.exprs.size →
      p''.expr id = p'.expr id :=
    fun id _ hlt => hkept id hlt
  refine tree_congr hexpr ?_ id (mem_idsFrom.mp hid).1
    (by rw [h.exprs]; exact (mem_idsFrom.mp hid).2)
  exact fun id hle hlt => h.part id (mem_idsFrom.mpr ⟨hle, by rw [← h.exprs]; exact hlt⟩)

theorem append (h : p.TakesIn p' nodes roots) (h' : p'.TakesIn p'' nodes' roots') :
    p.TakesIn p'' (nodes ++ nodes') (roots ++ roots') := by
  have hids : idsFrom p.exprs.size (nodes ++ nodes').length =
      idsFrom p.exprs.size nodes.length ++ idsFrom p'.exprs.size nodes'.length := by
    rw [List.length_append, idsFrom_add, h.exprs]
  have hexpr : ∀ id ∈ idsFrom p.exprs.size nodes.length, p''.expr id = p'.expr id := fun id hid =>
    h'.kept id (by rw [Has, h.exprs]; exact (mem_idsFrom.mp hid).2)
  have hfirst : ∀ {i}, i < nodes.length → p''.expr ⟨p.exprs.size + i⟩ = p'.expr
      ⟨p.exprs.size + i⟩ := fun hi =>
    hexpr _ (mem_idsFrom.mpr ⟨Nat.le_add_right .., Nat.add_lt_add_left hi _⟩)
  have hcases : ∀ {i}, i < (nodes ++ nodes').length →
      i < nodes.length ∨ ∃ j < nodes'.length, i = nodes.length + j := by
    intro i hi
    rw [List.length_append] at hi
    rcases Nat.lt_or_ge i nodes.length with hlt | hge
    · exact .inl hlt
    · exact .inr ⟨i - nodes.length, by omega, by omega⟩
  constructor
  case exprs => rw [h'.exprs, h.exprs, List.length_append, Nat.add_assoc]
  case graph => rw [h'.graph, h.graph, List.length_append, Nat.add_assoc]
  case kept =>
    intro id hid
    rw [h'.kept id (by rw [Has, h.exprs]; exact Nat.lt_add_right _ hid), h.kept id hid]
  case keptNode =>
    intro id hid
    rw [h'.keptNode id (by rw [h.graph]; exact Nat.lt_add_right _ hid), h.keptNode id hid]
  case rest => rw [h'.rest, h.rest]
  case node =>
    intro i hi
    rcases hcases hi with hi | ⟨j, hj, rfl⟩
    · rw [nodeOf, hfirst hi]; exact h.node i hi
    · rw [← Nat.add_assoc, ← Nat.add_assoc, ← h.exprs, ← h.graph]; exact h'.node j hj
  case fresh =>
    intro i hi
    rcases hcases hi with hi | ⟨j, hj, rfl⟩
    · rw [construct, hfirst hi, h'.keptNode _ (by rw [h.graph]; exact Nat.add_lt_add_left hi _)]
      exact h.fresh i hi
    · rw [← Nat.add_assoc, ← Nat.add_assoc, ← h.exprs, ← h.graph]; exact h'.fresh j hj
  case part =>
    intro id hid part hp
    rw [hids, List.mem_append] at hid
    rcases hid with hid | hid
    · exact h.part id hid part (by rw [IsParent, construct, ← hexpr id hid]; exact hp)
    · obtain ⟨hle, hlt⟩ := h'.part id hid part hp
      exact ⟨by rw [h.exprs] at hle; exact Nat.le_trans (Nat.le_add_right ..) hle, hlt⟩
  case parts =>
    have hsame : ((idsFrom p.exprs.size nodes.length).flatMap fun id =>
        (p''.construct id).children) =
        (idsFrom p.exprs.size nodes.length).flatMap fun id => (p'.construct id).children :=
      List.flatMap_congr fun id hid => by rw [construct, hexpr id hid]; rfl
    rw [hids, List.flatMap_append, hsame]
    refine List.Perm.trans ?_ (h.parts.append h'.parts)
    rw [List.append_assoc, List.append_assoc]
    refine .append_left _ ?_
    rw [← List.append_assoc, ← List.append_assoc]
    exact .append_right _ List.perm_append_comm
  case reads =>
    rw [hids, List.map_append, List.map_append, ← h.reads, ← h'.reads]
    congr 1
    exact List.map_congr_left fun id hid => h.tree_of_kept h'.kept hid

theorem mem_idsFrom_of_root (h : p.TakesIn p' nodes roots) {root : ExprId} (hroot : root ∈ roots) :
    root ∈ idsFrom p.exprs.size nodes.length :=
  h.parts.subset (List.mem_append_left _ hroot)

theorem tree_addExpr {construct : Construct ExprId} {tree : Tree} {location : Option Location}
    (h : p.TakesIn p' nodes construct.children)
    (htree : .plain (construct.stripped.map p'.tree) location = tree.stripped) :
    (p'.addExpr construct location).2.tree (p'.addExpr construct location).1 = tree.stripped := by
  have hlast : (p'.addExpr construct location).2.expr (p'.addExpr construct location).1 =
      { construct, location, node := ⟨p'.graph.size⟩ } := by
    rw [expr_addExpr]; exact if_pos rfl
  rw [tree_eq, Program.construct, Program.location, hlast, ← htree]
  · congr 1
    refine Construct.map_congr fun part hp => ?_
    rw [Construct.children_stripped] at hp
    refine h.tree_of_kept (fun id hid => ?_) (h.mem_idsFrom_of_root hp)
    rw [expr_addExpr, if_neg (Nat.ne_of_lt hid)]
  · intro part hp
    rw [IsParent, Program.construct, hlast] at hp
    have hlt := (mem_idsFrom.mp (h.mem_idsFrom_of_root hp)).2
    rw [← h.exprs] at hlt
    exact hlt

/-- A construct is taken in after its parts. -/
theorem addExpr {construct : Construct ExprId} {tree : Tree} {location : Option Location}
    (h : p.TakesIn p' nodes construct.children)
    (htree : .plain (construct.stripped.map p'.tree) location = tree.stripped) :
    p.TakesIn (p'.addExpr construct location).2 (nodes ++ [tree])
      [(p'.addExpr construct location).1] := by
  have hids : idsFrom p.exprs.size (nodes ++ [tree]).length =
      idsFrom p.exprs.size nodes.length ++ [⟨p'.exprs.size⟩] := by
    rw [List.length_append, idsFrom_add, h.exprs]; rfl
  have hexpr : ∀ id, p'.Has id →
      (p'.addExpr construct location).2.expr id = p'.expr id := fun id hid => by
    rw [expr_addExpr, if_neg (Nat.ne_of_lt hid)]
  have hhas : ∀ id ∈ idsFrom p.exprs.size nodes.length, p'.Has id := fun id hid => by
    rw [Has, h.exprs]; exact (mem_idsFrom.mp hid).2
  have hlast : (p'.addExpr construct location).2.expr ⟨p'.exprs.size⟩ =
      { construct, location, node := ⟨p'.graph.size⟩ } := by
    rw [expr_addExpr, if_pos rfl]
  have hsize : (p'.addExpr construct location).2.graph.size = p'.graph.size + 1 :=
    FlowGraph.size_addNode ..
  have hnode : ∀ id, (p'.addExpr construct location).2.graph.node id =
      if id.index = p'.graph.size then { derivation := derivationOf construct }
        else p'.graph.node id :=
    fun id => FlowGraph.node_addNode p'.graph _ id
  -- the parts of the construct are expressions that have just been taken in
  have hpart : ∀ part ∈ construct.children, p.exprs.size ≤ part.index ∧
      part.index < p'.exprs.size :=
    fun part hp => by rw [h.exprs]; exact mem_idsFrom.mp (h.mem_idsFrom_of_root hp)
  have hcases : ∀ {i}, i < (nodes ++ [tree]).length → i < nodes.length ∨ i = nodes.length := by
    intro i hi
    rw [List.length_append, List.length_singleton] at hi
    omega
  constructor
  case exprs => rw [size_addExpr, h.exprs, List.length_append]; rfl
  case graph => rw [hsize, h.graph, List.length_append]; rfl
  case kept =>
    intro id hid
    rw [hexpr id (by rw [Has, h.exprs]; exact Nat.lt_add_right _ hid), h.kept id hid]
  case keptNode =>
    intro id hid
    rw [hnode, if_neg (by rw [h.graph]; omega), h.keptNode id hid]
  case rest => rw [Program.addExpr, h.rest]; rfl
  case node =>
    intro i hi
    rcases hcases hi with hi | rfl
    · rw [nodeOf, hexpr _ (by rw [Has, h.exprs]; exact Nat.add_lt_add_left hi _)]; exact h.node i hi
    · rw [← h.exprs, ← h.graph, nodeOf, hlast]
  case fresh =>
    intro i hi
    rcases hcases hi with hi | rfl
    · rw [Program.construct, hexpr _ (by rw [Has, h.exprs]; exact Nat.add_lt_add_left hi _), hnode,
        if_neg (by rw [h.graph]; exact Nat.ne_of_lt (Nat.add_lt_add_left hi _))]
      exact h.fresh i hi
    · rw [← h.exprs, ← h.graph, Program.construct, hlast, hnode, if_pos rfl]
  case part =>
    intro id hid part hp
    rw [hids, List.mem_append, List.mem_singleton] at hid
    rcases hid with hid | rfl
    · exact h.part id hid part
        (by rw [IsParent, Program.construct, ← hexpr id (hhas id hid)]; exact hp)
    · rw [IsParent, Program.construct, hlast] at hp
      exact hpart part hp
  case parts =>
    have hsame : ((idsFrom p.exprs.size nodes.length).flatMap fun id =>
        ((p'.addExpr construct location).2.construct id).children) =
        (idsFrom p.exprs.size nodes.length).flatMap fun id => (p'.construct id).children :=
      List.flatMap_congr fun id hid => by rw [Program.construct, hexpr id (hhas id hid)]; rfl
    rw [hids, List.flatMap_append, hsame, List.flatMap_singleton, Program.construct, hlast]
    exact ((List.perm_append_comm.trans h.parts).cons _).trans (List.perm_append_singleton _ _).symm
  case reads =>
    rw [hids, List.map_append, List.map_append, ← h.reads,
      List.map_congr_left fun id hid => h.tree_of_kept hexpr hid,
        List.map_singleton, List.map_singleton]
    congr 2
    exact h.tree_addExpr htree

/-- What has not been there before is a part of one expression, unless it is a root. -/
theorem existsUnique_parent (h : p.TakesIn p' nodes roots) {part : ExprId}
    (hpart : part ∈ idsFrom p.exprs.size nodes.length) (hroot : part ∉ roots) :
    ∃! parent, p'.IsParent parent part ∧ ¬ p.IsParent parent part := by
  obtain ⟨-, hflat, -⟩ := List.nodup_append.mp (h.parts.nodup_iff.mpr (nodup_idsFrom ..))
  obtain ⟨parent, hid, hp⟩ := List.mem_flatMap.mp
    ((List.mem_append.mp (h.parts.symm.subset hpart)).resolve_left hroot)
  refine ⟨parent, ⟨hp, fun hold => ?_⟩, fun other hother => ?_⟩
  · exact absurd (Has.of_isParent hold) (Nat.not_lt.mpr (mem_idsFrom.mp hid).1)
  · -- an expression that was there has kept its parts
    have hnew : other ∈ idsFrom p.exprs.size nodes.length := by
      refine mem_idsFrom.mpr ⟨?_, by rw [← h.exprs]; exact Has.of_isParent hother.1⟩
      by_contra hlt
      refine hother.2 ?_
      rw [IsParent, construct, ← h.kept other (Nat.lt_of_not_le hlt)]
      exact hother.1
    by_contra hne
    have : Std.Symm (Function.onFun List.Disjoint fun id => (p'.construct id).children) :=
      ⟨fun _ _ hd => hd.symm⟩
    exact (List.nodup_flatMap.mp hflat).2.forall hnew hid hne hother.1 hp

end TakesIn

/-! ### Lowering -/

/-- The step lowers the nodes: it fails because of the first sugar among them, or else ends like
this. -/
def Follows {α : Type} (p : Program) (nodes : List Tree) (x : Lowering α)
    (ends : α → Program → Prop) : Prop :=
  match (ExceptT.run x).run p with
  | (.error e, _) => nodes.findSome? Tree.refusal? = some e
  | (.ok a, p') => nodes.findSome? Tree.refusal? = none ∧ ends a p'

namespace Follows
variable {α β : Type} {p : Program} {nodes nodes' : List Tree}

theorem bind {x : Lowering α} {f : α → Lowering β} {ends : α → Program → Prop}
    {ends' : β → Program → Prop} (hx : p.Follows nodes x ends)
    (hf : ∀ a p', ends a p' → p'.Follows nodes' (f a) ends') :
    p.Follows (nodes ++ nodes') (x >>= f) ends' := by
  unfold Follows at hx ⊢
  rw [run_bind_lowering]
  rcases hr : (ExceptT.run x).run p with ⟨e | a, p'⟩ <;> rw [hr] at hx
  · rw [List.findSome?_append, hx, Option.some_or]
  · have hrest := hf a p' hx.2
    unfold Follows at hrest
    rw [List.findSome?_append, hx.1, Option.none_or]
    exact hrest

theorem map_iff {x : Lowering α} {f : α → β} {ends : β → Program → Prop} :
    p.Follows nodes (f <$> x) ends ↔ p.Follows nodes x fun a => ends (f a) := by
  unfold Follows
  rw [ExceptT.run_map, StateT.run_map]
  rcases (ExceptT.run x).run p with ⟨e | a, p'⟩ <;> exact Iff.rfl

theorem imp {x : Lowering α} {ends ends' : α → Program → Prop} (hx : p.Follows nodes x ends)
    (h : ∀ a p', (ExceptT.run x).run p = (.ok a, p') → ends a p' → ends' a p') :
    p.Follows nodes x ends' := by
  unfold Follows at hx ⊢
  rcases hr : (ExceptT.run x).run p with ⟨e | a, p'⟩ <;> rw [hr] at hx
  · exact hx
  · exact ⟨hx.1, h a p' hr hx.2⟩

end Follows

/-- The answer is the last expression, and reads as the tree. -/
structure Lowered (p p' : Program) (tree : Tree) (root : ExprId) : Prop where
  takesIn : p.TakesIn p' tree.nodes [root]
  last : p'.exprs.size = root.index + 1
  reads : p'.tree root = tree.stripped

/-- Trees that are lowered one after the other. -/
theorem follows_mapM {trees : List Tree}
    (h : ∀ tree ∈ trees, ∀ p : Program, p.Follows tree.nodes tree.lower fun root p' =>
      p.Lowered p' tree root)
    (p : Program) : p.Follows (trees.flatMap Tree.nodes) (trees.mapM (Construct.paired Tree.lower))
      fun pairs p' => p.TakesIn p' (trees.flatMap Tree.nodes) (pairs.map Prod.snd) ∧
        ∀ x ∈ pairs, p'.tree x.2 = x.1.stripped := by
  induction trees generalizing p with
  | nil => exact ⟨rfl, .refl p, fun _ hx => nomatch hx⟩
  | cons tree trees ih =>
    rw [List.mapM_cons, Construct.paired, bind_map_left, List.flatMap_cons]
    refine (h tree (by simp) p).bind fun root p₁ hroot => ?_
    rw [bind_pure_comp, Follows.map_iff]
    refine (ih (fun t ht => h t (List.mem_cons_of_mem _ ht)) p₁).imp fun pairs p₂ _ hpairs => ?_
    refine ⟨hroot.takesIn.append hpairs.1, fun x hx => ?_⟩
    rcases List.mem_cons.mp hx with rfl | hx
    · rw [← hroot.reads]
      exact hroot.takesIn.tree_of_kept hpairs.1.kept (hroot.takesIn.mem_idsFrom_of_root (by simp))
    · exact hpairs.2 x hx

/-- The construct that its parts stood in. -/
theorem map_fst_eq {c : Construct Tree} {z : Construct (Tree × ExprId)} {p p' : Program}
    (h : (ExceptT.run (c.traverse (Construct.paired Tree.lower))).run p = (.ok z, p')) :
    z.map Prod.fst = c := by
  have hrun :
      (ExceptT.run (Construct.map Prod.fst <$> c.traverse (Construct.paired Tree.lower))).run p =
      (ExceptT.run ((fun _ => c) <$> c.traverse Tree.lower)).run p := by
        rw [Construct.map_fst_paired]
  rw [ExceptT.run_map, StateT.run_map, h, ExceptT.run_map, StateT.run_map] at hrun
  rcases hr : (ExceptT.run (c.traverse Tree.lower)).run p with ⟨e | c', p₁⟩ <;> rw [hr] at hrun
  · cases hrun
  · exact Except.ok.inj (congrArg Prod.fst hrun)

theorem follows_lower (tree : Tree) (p : Program) :
    p.Follows tree.nodes tree.lower fun root p' => p.Lowered p' tree root := by
  induction tree using Tree.byParts generalizing p with
  | plain c location ih =>
    have hparts := follows_mapM ih p
    rw [← Construct.children_traverse, Follows.map_iff] at hparts
    rw [Tree.nodes_plain, Tree.lower, Tree.lowerConstruct_eq,
      ← Construct.map_snd_paired, bind_map_left]
    have hends : p.Follows (c.children.flatMap Tree.nodes)
        (c.traverse (Construct.paired Tree.lower)) fun z p' =>
        z.map Prod.fst = c ∧ p.TakesIn p' (c.children.flatMap Tree.nodes)
          (z.map Prod.snd).children ∧
          ∀ x ∈ z.children, p'.tree x.2 = x.1.stripped :=
      hparts.imp fun z p' hr hz => ⟨map_fst_eq hr, by rw [Construct.children_map]; exact hz.1, hz.2⟩
    refine hends.bind fun z p₁ hz => ?_
    obtain ⟨rfl, htakes, hreads⟩ := hz
    have htree : .plain ((z.map Prod.snd).stripped.map p₁.tree) location =
        (Tree.plain (z.map Prod.fst) location).stripped := by
      rw [Tree.stripped_plain, Construct.stripped_map, Construct.stripped_map,
        Construct.map_map, Construct.map_map]
      congr 1
      refine Construct.map_congr fun x hx => hreads x ?_
      rw [Construct.children_stripped] at hx
      exact hx
    refine ⟨rfl, ?_, size_addExpr .., htakes.tree_addExpr htree⟩
    rw [Tree.nodes_plain]
    exact htakes.addExpr htree
  | sugar abbreviation location =>
    rw [Tree.lower, Tree.nodes]
    rfl

theorem findSome?_refusal?_eq_none {nodes : List Tree} :
    nodes.findSome? Tree.refusal? = none ↔ ∀ abbreviation location,
      .sugar abbreviation location ∉ nodes := by
  rw [List.findSome?_eq_none_iff]
  constructor
  · intro h abbreviation location hmem
    cases h _ hmem
  · intro h node hmem
    cases node with
    | plain => rfl
    | sugar abbreviation location => exact absurd hmem (h abbreviation location)

theorem isInternal_of_findSome? {nodes : List Tree} {e : Diagnostic}
    (h : nodes.findSome? Tree.refusal? = some e) :
    e.isInternal := by
  obtain ⟨node, -, hnode⟩ := List.exists_of_findSome?_eq_some h
  cases node with
  | plain => cases hnode
  | sugar abbreviation location => cases hnode; rfl

/-- Whatever lowering refuses, it calls a defect. -/
theorem isInternal_of_lower {p : Program} {tree : Tree} {e : Diagnostic}
    (h : (p.lower tree).1 = .error e) : e.isInternal := by
  have hfollows := follows_lower tree p
  rw [Follows, show (ExceptT.run tree.lower).run p = p.lower tree from rfl] at hfollows
  rcases hr : p.lower tree with ⟨e' | root, p'⟩ <;> rw [hr] at h hfollows <;> cases h
  exact isInternal_of_findSome? hfollows

/-- Lowering refuses a tree exactly when there is sugar in it, with an error that says that this is
a defect. From any other tree it makes one expression per node, in order, the last of which reads as
the tree again; each has a node of its own without a type and, but for the last, is a part of just
one expression behind it. -/
theorem lower_faithful (p : Program) (tree : Tree) :
    ((∃ e, (p.lower tree).1 = .error e) ↔ ∃ abbreviation location,
      .sugar abbreviation location ∈ tree.nodes) ∧
    (∀ e, (p.lower tree).1 = .error e → e.isInternal ∧
      tree.nodes.findSome? Tree.refusal? = some e) ∧
    ∀ root, (p.lower tree).1 = .ok root → p.Lowered (p.lower tree).2 tree root ∧
      ∀ part ∈ idsFrom p.exprs.size tree.nodes.length, part ≠ root →
        ∃! parent, (p.lower tree).2.IsParent parent part ∧ ¬ p.IsParent parent part := by
  have h := follows_lower tree p
  rw [Follows, show (ExceptT.run tree.lower).run p = p.lower tree from rfl] at h
  rcases hr : p.lower tree with ⟨e | root, p'⟩ <;> rw [hr] at h
  · have hsugar : ∃ abbreviation location, .sugar abbreviation location ∈ tree.nodes := by
      by_contra hnone
      rw [findSome?_refusal?_eq_none.mpr fun abbreviation location hmem => hnone ⟨_, _, hmem⟩] at h
      cases h
    refine ⟨⟨fun _ => hsugar, fun _ => ⟨e, rfl⟩⟩, fun e' he => ?_, nofun⟩
    cases he
    exact ⟨isInternal_of_findSome? h, h⟩
  · refine ⟨⟨nofun, fun ⟨_, _, hmem⟩ => ?_⟩, nofun, fun root' hroot => ?_⟩
    · exact absurd hmem (findSome?_refusal?_eq_none.mp h.1 _ _)
    · cases hroot
      refine ⟨h.2, fun part hpart hne => h.2.takesIn.existsUnique_parent hpart ?_⟩
      rwa [List.mem_singleton]

/-- A loop that runs at least once, in a program that has expressions already. -/
theorem lower_faithful_loop :
    let tree : Tree :=
  .plain (.loop (.plain (.boolLiteral true) none) (some (.plain (.var "x") none)) true) none
    let p := (Program.initial.addExpr .nop none).2
    (p.lower tree).1 = .ok ⟨3⟩ ∧ p.Lowered (p.lower tree).2 tree ⟨3⟩ :=
  ⟨rfl, ((lower_faithful _ _).2.2 ⟨3⟩ rfl).1⟩

end Program

end TypeFlow

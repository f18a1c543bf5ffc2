import TypeFlow.Proofs.Program.Lowered

/-!
# Copies are faithful

A copy is made of new expressions at the end of the table, one for each that is below the original
(`postorder`), in order and with new nodes at the end of the graph. They are what they are copies
of, with their copies in the places of the parts (`CopyOf`), which says all there is to say about
the program with the copy (`CopyOf.eq`).

`o.Copies p p' olds roots`: `p'` is `p` with copies of these expressions of `o`, of which the roots,
each beside its copy, are parts of none.
-/

namespace TypeFlow.Program
variable {o p p' p'' : Program} {id e : ExprId}

/-! ### What is below an expression -/

/-- An expression with all that is below it, parts before what they are parts of. -/
def postorder (p : Program) (id : ExprId) : List ExprId :=
  ((p.construct id).children.attach.flatMap fun ⟨part, _⟩ =>
    if _ : part.index < id.index then p.postorder part else []) ++ [id]
termination_by id.index

theorem Forest.postorder_eq (h : p.Forest) (id : ExprId) :
    p.postorder id = (p.construct id).children.flatMap p.postorder ++ [id] := by
  have hparts : ∀ part ∈ (p.construct id).children,
      (if _ : part.index < id.index then p.postorder part else []) = p.postorder part :=
    fun part hp => dif_pos (h.part_lt hp)
  rw [postorder, List.flatMap_congr (g := fun part => p.postorder part.1) fun part _ =>
    hparts part.1 part.2]
  simp

theorem mem_postorder_self (p : Program) (id : ExprId) : id ∈ p.postorder id := by
  rw [postorder]
  exact List.mem_append_right _ (List.mem_singleton_self id)

/-- By induction on the numbers of expressions, which go down to the parts. -/
theorem Forest.mem_postorder (h : p.Forest) :
    e ∈ p.postorder id ↔ Relation.ReflTransGen p.IsParent id e := by
  induction hn : id.index using Nat.strong_induction_on generalizing id with
  | _ n ih =>
    subst hn
    rw [h.postorder_eq, List.mem_append, List.mem_flatMap, List.mem_singleton,
      Relation.ReflTransGen.cases_head_iff]
    constructor
    · rintro (⟨part, hp, he⟩ | rfl)
      · exact .inr ⟨part, hp, (ih _ (h.part_lt hp) rfl).mp he⟩
      · exact .inl rfl
    · rintro (rfl | ⟨part, hp, he⟩)
      · exact .inr rfl
      · exact .inl ⟨part, hp, (ih _ (h.part_lt hp) rfl).mpr he⟩

theorem Forest.le_of_mem_postorder (h : p.Forest) (he : e ∈ p.postorder id) : e.index ≤ id.index :=
  h.le_of_descends (h.mem_postorder.mp he)

theorem Forest.has_of_mem_postorder (h : p.Forest) (hid : p.Has id) (he : e ∈ p.postorder id) :
    p.Has e :=
  Nat.lt_of_le_of_lt (h.le_of_mem_postorder he) hid

theorem Forest.isParent_mem_postorder (h : p.Forest) (he : e ∈ p.postorder id) {part : ExprId}
    (hp : p.IsParent e part) : part ∈ p.postorder id :=
  h.mem_postorder.mpr ((h.mem_postorder.mp he).tail hp)

theorem Forest.nodup_postorder (h : p.Forest) (id : ExprId) : (p.postorder id).Nodup := by
  induction hn : id.index using Nat.strong_induction_on generalizing id with
  | _ n ih =>
    subst hn
    rw [h.postorder_eq]
    refine List.nodup_append.mpr
      ⟨List.nodup_flatMap.mpr ⟨fun part hp => ih _ (h.part_lt hp) part rfl, ?_⟩,
      List.nodup_singleton _, ?_⟩
    · refine List.Pairwise.imp_of_mem (fun {c d} hc hd hne => ?_) (h.nodup id)
      exact fun e hec hed =>
        hne (h.eq_of_descends hc hd (h.mem_postorder.mp hec) (h.mem_postorder.mp hed))
    · intro e he other hother
      obtain ⟨part, hp, hbelow⟩ := List.mem_flatMap.mp he
      rw [List.mem_singleton.mp hother]
      intro heq
      exact absurd (h.le_of_mem_postorder hbelow) (Nat.not_le.mpr (heq ▸ h.part_lt hp))

/-! ### Copies -/

/-- Expressions beside what has been added for them. -/
def pairs (start : Nat) (olds : List ExprId) : List (ExprId × ExprId) :=
  olds.zip (idsFrom start olds.length)

theorem length_idsFrom (start count : Nat) : (idsFrom start count).length = count := by
  rw [idsFrom, List.length_map, List.length_range']

theorem pairs_append (start : Nat) (olds olds' : List ExprId) :
    pairs start (olds ++ olds') = pairs start olds ++ pairs (start + olds.length) olds' := by
  rw [pairs, pairs, pairs, List.length_append, idsFrom_add,
    List.zip_append (length_idsFrom ..).symm]

theorem snd_mem_of_mem_pairs {start : Nat} {olds : List ExprId} {pair : ExprId × ExprId}
    (h : pair ∈ pairs start olds) : pair.2 ∈ idsFrom start olds.length :=
  (List.of_mem_zip h).2

/-- The expressions of `o` are there. -/
structure Contains (p o : Program) : Prop where
  size_le : o.exprs.size ≤ p.exprs.size
  expr_eq : ∀ id, o.Has id → p.expr id = o.expr id

structure Copies (o p p' : Program) (olds : List ExprId) (roots : List (ExprId × ExprId)) : Prop
    extends p.TakesIn p' (olds.map o.tree) (roots.map Prod.snd) where
  root : ∀ r ∈ roots, r ∈ pairs p.exprs.size olds
  /-- The parts of a copy are the copies of the parts. -/
  copied : ∀ pair ∈ pairs p.exprs.size olds, ∃ z : Construct (ExprId × ExprId),
    z.map Prod.fst = o.construct pair.1 ∧
    z.map Prod.snd = p'.construct pair.2 ∧ ∀ part ∈ z.children, part ∈ pairs p.exprs.size olds
  located : ∀ pair ∈ pairs p.exprs.size olds, p'.location pair.2 = o.location pair.1

theorem Forest.tree_eq (h : o.Forest) (id : ExprId) :
    o.tree id = .plain ((o.construct id).stripped.map o.tree) (o.location id) :=
  Program.tree_eq fun _ hp => h.part_lt hp

/-- What is read back is stripped already. -/
theorem Forest.stripped_tree (h : o.Forest) (id : ExprId) : (o.tree id).stripped = o.tree id := by
  induction hn : id.index using Nat.strong_induction_on generalizing id with
  | _ n ih =>
    subst hn
    rw [h.tree_eq, Tree.stripped_plain, Construct.stripped_map,
      Construct.stripped_stripped, Construct.map_map]
    congr 1
    refine Construct.map_congr fun part hp => ih _ (h.part_lt ?_) part rfl
    rwa [Construct.children_stripped] at hp

namespace Copies
variable {olds olds' : List ExprId} {roots roots' : List (ExprId × ExprId)}

theorem size_eq (h : o.Copies p p' olds roots) : p'.exprs.size = p.exprs.size + olds.length := by
  rw [h.exprs, List.length_map]

theorem contains (h : o.Copies p p' olds roots) (hp : p.Contains o) : p'.Contains o where
  size_le := Nat.le_trans hp.size_le (h.size_eq ▸ Nat.le_add_right ..)
  expr_eq id hid := (h.kept id (Nat.lt_of_lt_of_le hid hp.size_le)).trans (hp.expr_eq id hid)

theorem has (h : o.Copies p p' olds roots) {pair : ExprId × ExprId}
    (hpair : pair ∈ pairs p.exprs.size olds) : p'.Has pair.2 := by
  rw [Has, h.size_eq]
  exact (mem_idsFrom.mp (snd_mem_of_mem_pairs hpair)).2

theorem tree_eq (h : o.Copies p p' olds roots) (ho : o.Forest) {pair : ExprId × ExprId}
    (hpair : pair ∈ pairs p.exprs.size olds) : p'.tree pair.2 = o.tree pair.1 := by
  have hstripped : olds.map (Tree.stripped ∘ o.tree) = olds.map o.tree :=
    List.map_congr_left fun id _ => ho.stripped_tree id
  have hreads := h.reads
  rw [List.length_map, List.map_map, hstripped] at hreads
  obtain ⟨i, hi, hget⟩ := List.mem_iff_getElem.mp hpair
  have hlt : i < olds.length := by
    rw [pairs, List.length_zip] at hi
    exact Nat.lt_of_lt_of_le hi (Nat.min_le_left ..)
  have hat : ((idsFrom p.exprs.size olds.length).map p'.tree)[i]? = (olds.map o.tree)[i]? := by
    rw [hreads]
  rw [← hget]
  simp only [pairs, List.getElem_zip]
  simpa [List.getElem?_map, hlt, length_idsFrom] using hat

theorem refl (o p : Program) : o.Copies p p [] [] where
  toTakesIn := .refl p
  root _ h := nomatch h
  copied _ h := nomatch h
  located _ h := nomatch h

theorem append (h : o.Copies p p' olds roots) (h' : o.Copies p' p'' olds' roots') :
    o.Copies p p'' (olds ++ olds') (roots ++ roots') := by
  have hpairs : pairs p.exprs.size (olds ++ olds') = pairs p.exprs.size olds ++
      pairs p'.exprs.size olds' := by
    rw [pairs_append, h.size_eq]
  have hkept : ∀ pair ∈ pairs p.exprs.size olds,
      p''.expr pair.2 = p'.expr pair.2 := fun pair hpair =>
    h'.kept _ (h.has hpair)
  refine ⟨?_, fun r hr => ?_, fun pair hpair => ?_, fun pair hpair => ?_⟩
  · rw [List.map_append, List.map_append]
    exact h.toTakesIn.append h'.toTakesIn
  · rw [hpairs]
    exact List.mem_append.mpr ((List.mem_append.mp hr).imp (h.root r) (h'.root r))
  · rw [hpairs] at hpair ⊢
    rcases List.mem_append.mp hpair with hpair | hpair
    · obtain ⟨z, hold, hnew, hparts⟩ := h.copied pair hpair
      refine ⟨z, hold, ?_, fun part hp => List.mem_append_left _ (hparts part hp)⟩
      rw [hnew, Program.construct, Program.construct, hkept pair hpair]
    · obtain ⟨z, hold, hnew, hparts⟩ := h'.copied pair hpair
      exact ⟨z, hold, hnew, fun part hp => List.mem_append_right _ (hparts part hp)⟩
  · rw [hpairs] at hpair
    rcases List.mem_append.mp hpair with hpair | hpair
    · rw [Program.location, hkept pair hpair]
      exact h.located pair hpair
    · exact h'.located pair hpair

/-- An expression is copied after its parts. -/
theorem addExpr {z : Construct (ExprId × ExprId)} (ho : o.Forest)
    (h : o.Copies p p' olds z.children) (hz : z.map Prod.fst = o.construct id) :
    o.Copies p (p'.addExpr (z.map Prod.snd) (o.location id)).2 (olds ++ [id])
      [(id, (p'.addExpr (z.map Prod.snd) (o.location id)).1)] := by
  have hpairs : pairs p.exprs.size (olds ++ [id]) = pairs p.exprs.size olds ++
      [(id, ⟨p'.exprs.size⟩)] := by
    rw [pairs_append, h.size_eq]
    rfl
  have hkept : ∀ pair ∈ pairs p.exprs.size olds,
      (p'.addExpr (z.map Prod.snd) (o.location id)).2.expr
        pair.2 = p'.expr pair.2 := fun pair hpair => by
    rw [expr_addExpr, if_neg (Nat.ne_of_lt (h.has hpair))]
  have hlast : (p'.addExpr (z.map Prod.snd) (o.location id)).2.expr ⟨p'.exprs.size⟩ =
      { construct := z.map Prod.snd, location := o.location id, node := ⟨p'.graph.size⟩ } := by
    rw [expr_addExpr, if_pos rfl]
  have htree : .plain ((z.map Prod.snd).stripped.map p'.tree) (o.location id) =
      (o.tree id).stripped := by
    rw [ho.stripped_tree, ho.tree_eq, ← hz, Construct.stripped_map,
      Construct.stripped_map, Construct.map_map, Construct.map_map]
    congr 1
    refine Construct.map_congr fun part hp => h.tree_eq ho (h.root part ?_)
    rwa [Construct.children_stripped] at hp
  have htakes := h.toTakesIn
  rw [← Construct.children_map] at htakes
  refine ⟨?_, fun r hr => ?_, fun pair hpair => ?_, fun pair hpair => ?_⟩
  · rw [List.map_append]
    exact htakes.addExpr htree
  · rw [hpairs, List.mem_singleton.mp hr]
    exact List.mem_append_right _ (List.mem_singleton_self _)
  · rw [hpairs] at hpair ⊢
    rcases List.mem_append.mp hpair with hpair | hpair
    · obtain ⟨z', hold, hnew, hparts⟩ := h.copied pair hpair
      refine ⟨z', hold, ?_, fun part hp => List.mem_append_left _ (hparts part hp)⟩
      rw [hnew, Program.construct, Program.construct, hkept pair hpair]
    · rw [List.mem_singleton.mp hpair]
      refine ⟨z, hz, ?_, fun part hp => List.mem_append_left _ (h.root part hp)⟩
      rw [Program.construct, hlast]
  · rw [hpairs] at hpair
    rcases List.mem_append.mp hpair with hpair | hpair
    · rw [Program.location, hkept pair hpair]
      exact h.located pair hpair
    · rw [List.mem_singleton.mp hpair, Program.location, hlast]

end Copies

/-- Expressions that are copied one after the other. -/
theorem copies_mapM {f : ExprId → StateM Program ExprId} {ids : List ExprId}
    (hf : ∀ id ∈ ids, ∀ p : Program, p.Contains o →
      o.Copies p ((f id).run p).2 (o.postorder id) [(id, ((f id).run p).1)]) (p : Program)
    (hp : p.Contains o) :
    o.Copies p ((ids.mapM (Construct.paired f)).run p).2 (ids.flatMap o.postorder)
      ((ids.mapM (Construct.paired f)).run p).1 := by
  induction ids generalizing p with
  | nil => exact .refl o p
  | cons id ids ih =>
    have hfirst := hf id (by simp) p hp
    have hrest :=
      ih (fun i hi => hf i (List.mem_cons_of_mem _ hi)) ((f id).run p).2 (hfirst.contains hp)
    rw [List.mapM_cons, List.flatMap_cons]
    exact hfirst.append hrest

/-- By induction on how deep the copying may go. -/
theorem copies_copyWithin (ho : o.Forest) (fuel : Nat) (id : ExprId) (p : Program)
    (hp : p.Contains o) (hid : o.Has id) (hfuel : id.index < fuel) :
    o.Copies p ((copyWithin fuel id).run p).2 (o.postorder id)
      [(id, ((copyWithin fuel id).run p).1)] := by
  induction fuel generalizing id p with
  | zero => exact absurd hfuel (Nat.not_lt_zero _)
  | succ fuel ih =>
    have hparts : ∀ part ∈ (o.construct id).children, ∀ q : Program, q.Contains o →
        o.Copies q ((copyWithin fuel part).run q).2 (o.postorder part)
          [(part, ((copyWithin fuel part).run q).1)] :=
      fun part hpart q hq => ih part q hq (ho.has hpart)
        (Nat.lt_of_lt_of_le (ho.part_lt hpart) (Nat.le_of_lt_succ hfuel))
    have hcopies := copies_mapM hparts p hp
    rw [← Construct.children_traverse, StateT.run_map] at hcopies
    have hfst := congrArg (fun x : StateM Program _ => (x.run p).1)
      (Construct.map_fst_paired (copyWithin fuel) (o.construct id))
    have hrun : (copyWithin (fuel + 1) id).run p =
        (((p.construct id).traverse (copyWithin fuel)).run p).2.addExpr
          (((p.construct id).traverse (copyWithin fuel)).run p).1 (p.location id) := rfl
    have hconstruct : p.construct id = o.construct id := congrArg Expr.construct (hp.expr_eq id hid)
    have hlocation : p.location id = o.location id := congrArg Expr.location (hp.expr_eq id hid)
    rw [hrun, hconstruct, hlocation, ← Construct.map_snd_paired, StateT.run_map, ho.postorder_eq]
    exact hcopies.addExpr ho hfst

/-! ### Isomorphism -/

theorem mem_pairs {start : Nat} {olds : List ExprId} (hnodup : olds.Nodup)
    {pair : ExprId × ExprId} :
    pair ∈ pairs start olds ↔ pair.1 ∈ olds ∧ pair.2 = ⟨start + olds.idxOf pair.1⟩ := by
  rw [pairs, List.mem_iff_getElem]
  constructor
  · rintro ⟨i, hi, rfl⟩
    rw [List.getElem_zip]
    refine ⟨List.getElem_mem _, ?_⟩
    simp only [idsFrom, List.getElem_map, List.getElem_range', hnodup.idxOf_getElem, Nat.one_mul]
  · rintro ⟨hmem, hnew⟩
    have hlt := List.idxOf_lt_length_of_mem hmem
    refine ⟨olds.idxOf pair.1, by rw [List.length_zip, length_idsFrom, Nat.min_self]; exact hlt, ?_⟩
    rw [List.getElem_zip]
    refine Prod.ext (List.getElem_idxOf hlt) ?_
    simp only [hnew, idsFrom, List.getElem_map, List.getElem_range', Nat.one_mul]

theorem map_idxOf {start : Nat} {olds : List ExprId} (hnodup : olds.Nodup) :
    (olds.map fun e => (⟨start + olds.idxOf e⟩ : ExprId)) = idsFrom start olds.length := by
  refine List.ext_getElem (by rw [List.length_map, length_idsFrom]) fun i hi _ => ?_
  simp only [idsFrom, List.getElem_map, List.getElem_range', hnodup.idxOf_getElem, Nat.one_mul]

theorem derivationOf_map {α β : Type} (f : α → β) (c : Construct α) :
    derivationOf (c.map f) = derivationOf c := by
  cases c with
  | methodDef _ _ _ _ _ blockParam => cases blockParam <;> rfl
  | _ => rfl

/-- `p'` is `p` with a copy of all that is below an expression. -/
structure IsCopy (p p' : Program) (id : ExprId) (copy : ExprId → ExprId) : Prop where
  /-- The copies are what is added to the table, each once. -/
  added : (p.postorder id).map copy = idsFrom p.exprs.size (p.postorder id).length
  exprs : p'.exprs.size = p.exprs.size + (p.postorder id).length
  nodes : p'.graph.size = p.graph.size + (p.postorder id).length
  construct : ∀ e ∈ p.postorder id, p'.construct (copy e) = (p.construct e).map copy
  location : ∀ e ∈ p.postorder id, p'.location (copy e) = p.location e
  /-- Parts are copied before what they are parts of. -/
  part : ∀ e ∈ p.postorder id, ∀ c, p.IsParent e c → c ∈ p.postorder id ∧
    (copy c).index < (copy e).index
  node : ∀ i < (p.postorder id).length, p'.nodeOf ⟨p.exprs.size + i⟩ = ⟨p.graph.size + i⟩
  fresh : ∀ e ∈ p.postorder id,
    p'.graph.node (p'.nodeOf (copy e)) = { derivation := derivationOf (p.construct e) }
  kept : ∀ e, p.Has e → p'.expr e = p.expr e
  keptNode : ∀ node : NodeId, node.index < p.graph.size → p'.graph.node node = p.graph.node node
  rest : p' = { p with exprs := p'.exprs, graph := { p.graph with nodes := p'.graph.nodes } }

namespace IsCopy
variable {copy copy' : ExprId → ExprId}

theorem exists_eq (h : p.IsCopy p' id copy) {i : Nat} (hi : i < (p.postorder id).length) :
    ∃ e ∈ p.postorder id, copy e = ⟨p.exprs.size + i⟩ := by
  have hmem : (⟨p.exprs.size + i⟩ : ExprId) ∈ (p.postorder id).map copy := by
    rw [h.added]
    exact mem_idsFrom.mpr ⟨Nat.le_add_right .., Nat.add_lt_add_left hi _⟩
  exact List.mem_map.mp hmem

theorem copy_eq (h : p.IsCopy p' id copy) (h' : p.IsCopy p'' id copy') (he : e ∈ p.postorder id) :
    copy e = copy' e :=
  List.map_inj_left.mp (h.added.trans h'.added.symm) e he

theorem expr_eq (h : p.IsCopy p' id copy) (h' : p.IsCopy p'' id copy')
    (e : ExprId) (he : p'.Has e) : p'.expr e = p''.expr e := by
  by_cases hold : p.Has e
  · rw [h.kept e hold, h'.kept e hold]
  · obtain ⟨i, hi⟩ := Nat.exists_eq_add_of_le (Nat.le_of_not_lt hold)
    have hlt : i < (p.postorder id).length := by
      rw [Has, h.exprs, hi] at he
      exact Nat.lt_of_add_lt_add_left he
    obtain rfl : e = ⟨p.exprs.size + i⟩ := congrArg ExprId.mk hi
    obtain ⟨o, ho, hcopy⟩ := h.exists_eq hlt
    have hcopy' : copy' o = ⟨p.exprs.size + i⟩ := (h.copy_eq h' ho).symm.trans hcopy
    have hconstruct : p'.construct ⟨p.exprs.size + i⟩ = p''.construct ⟨p.exprs.size + i⟩ := by
      rw [← hcopy, h.construct o ho, hcopy, ← hcopy', h'.construct o ho]
      exact Construct.map_congr fun c hc => h.copy_eq h' (h.part o ho c hc).1
    have hlocation : p'.location ⟨p.exprs.size + i⟩ = p''.location ⟨p.exprs.size + i⟩ := by
      rw [← hcopy, h.location o ho, hcopy, ← hcopy', h'.location o ho]
    have hnode := (h.node i hlt).trans (h'.node i hlt).symm
    have heta : ∀ q : Program, ∀ a, q.expr a = ⟨q.construct a, q.location a, q.nodeOf a⟩ :=
      fun _ _ => rfl
    rw [heta, heta, hconstruct, hlocation, hnode]

theorem node_eq (h : p.IsCopy p' id copy) (h' : p.IsCopy p'' id copy') (node : NodeId)
    (hnode : node.index < p'.graph.size) : p'.graph.node node = p''.graph.node node := by
  by_cases hold : node.index < p.graph.size
  · rw [h.keptNode node hold, h'.keptNode node hold]
  · obtain ⟨i, hi⟩ := Nat.exists_eq_add_of_le (Nat.le_of_not_lt hold)
    have hlt : i < (p.postorder id).length := by
      rw [h.nodes, hi] at hnode
      exact Nat.lt_of_add_lt_add_left hnode
    obtain rfl : node = ⟨p.graph.size + i⟩ := congrArg NodeId.mk hi
    obtain ⟨o, ho, hcopy⟩ := h.exists_eq hlt
    have hcopy' : copy' o = ⟨p.exprs.size + i⟩ := (h.copy_eq h' ho).symm.trans hcopy
    rw [← h.node i hlt, ← hcopy, h.fresh o ho, hcopy, h.node i hlt, ← h'.node i hlt,
      ← hcopy', h'.fresh o ho]

/-- By induction on the numbers of the originals. -/
theorem tree_eq (h : p.IsCopy p' id copy) (hp : p.Forest) (he : e ∈ p.postorder id) :
    p'.tree (copy e) = p.tree e := by
  induction hn : e.index using Nat.strong_induction_on generalizing e with
  | _ n ih =>
    subst hn
    have hpart : ∀ part, p'.IsParent (copy e) part →
        part.index < (copy e).index := fun part hpart => by
      rw [IsParent, h.construct e he, Construct.children_map] at hpart
      obtain ⟨c, hc, rfl⟩ := List.mem_map.mp hpart
      exact (h.part e he c hc).2
    rw [Program.tree_eq hpart, hp.tree_eq, h.construct e he, h.location e he,
      Construct.stripped_map, Construct.map_map]
    congr 1
    refine Construct.map_congr fun c hc => ?_
    rw [Construct.children_stripped] at hc
    exact ih _ (hp.part_lt hc) (h.part e he c hc).1 rfl

/-- There is only one program with the copy. -/
theorem eq (h : p.IsCopy p' id copy) (h' : p.IsCopy p'' id copy') : p' = p'' := by
  have hexprs : p'.exprs = p''.exprs := by
    refine Array.ext (by rw [h.exprs, h'.exprs]) fun i hi hi' => ?_
    have := h.expr_eq h' ⟨i⟩ hi
    simpa only [expr, hi, hi', getElem?_pos, Option.getD_some] using this
  have hnodes : p'.graph.nodes = p''.graph.nodes := by
    refine Array.ext (h.nodes.trans h'.nodes.symm) fun i hi hi' => ?_
    have := h.node_eq h' ⟨i⟩ hi
    simpa only [FlowGraph.node, hi, hi', getElem?_pos, Option.getD_some] using this
  rw [h.rest, h'.rest, hexprs, hnodes]

end IsCopy

theorem Copies.isCopy {root : ExprId} (h : p.Copies p p' (p.postorder id) [(id, root)])
    (hp : p.Forest) :
    ∃ copy, p.IsCopy p' id copy ∧ copy id = root := by
  let copy (e : ExprId) : ExprId := ⟨p.exprs.size + (p.postorder id).idxOf e⟩
  have hnodup := hp.nodup_postorder id
  have hroot := (mem_pairs hnodup).mp (h.root _ (List.mem_singleton_self _))
  have hlength : ((p.postorder id).map p.tree).length = (p.postorder id).length :=
    List.length_map ..
  have hpair : ∀ e ∈ p.postorder id,
      (e, copy e) ∈ pairs p.exprs.size (p.postorder id) := fun e he =>
    (mem_pairs hnodup).mpr ⟨he, rfl⟩
  have hconstruct : ∀ e ∈ p.postorder id,
      p'.construct (copy e) = (p.construct e).map copy := fun e he => by
    obtain ⟨z, hold, hnew, hparts⟩ := h.copied _ (hpair e he)
    rw [← hnew, ← hold, Construct.map_map]
    exact Construct.map_congr fun part hp => ((mem_pairs hnodup).mp (hparts part hp)).2
  have hlt : ∀ e ∈ p.postorder id, (p.postorder id).idxOf e <
      ((p.postorder id).map p.tree).length := fun e he =>
    hlength.symm ▸ List.idxOf_lt_length_of_mem he
  refine ⟨copy, ⟨map_idxOf hnodup, h.size_eq, ?_, hconstruct, fun e he =>
    h.located _ (hpair e he), ?_, ?_, ?_, h.kept, h.keptNode, h.rest⟩, hroot.2.symm⟩
  · rw [h.graph, hlength]
  · intro e he c hc
    have hnew : p'.IsParent (copy e) (copy c) := by
      rw [IsParent, hconstruct e he, Construct.children_map]
      exact List.mem_map_of_mem hc
    refine ⟨hp.isParent_mem_postorder he hc, (h.part _ (mem_idsFrom.mpr ?_) _ hnew).2⟩
    exact ⟨Nat.le_add_right .., Nat.add_lt_add_left (hlt e he) _⟩
  · exact fun i hi => h.node i (hlength.symm ▸ hi)
  · intro e he
    rw [h.node _ (hlt e he), h.fresh _ (hlt e he), hconstruct e he, derivationOf_map]

/-- Copying ends: with any fuel that exceeds the expression's number, the same copy is made. -/
theorem isCopy_copyWithin (hp : p.Forest) (hid : p.Has id) {fuel : Nat} (hfuel : id.index < fuel) :
    ∃ copy, p.IsCopy ((copyWithin fuel id).run p).2 id copy ∧
      copy id = ((copyWithin fuel id).run p).1 :=
  (copies_copyWithin hp fuel id p ⟨Nat.le_refl _, fun _ _ => rfl⟩ hid hfuel).isCopy hp

end TypeFlow.Program

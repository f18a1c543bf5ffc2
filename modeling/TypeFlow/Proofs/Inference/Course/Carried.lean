import TypeFlow.Proofs.Flow.Guarded
import TypeFlow.Proofs.Inference.Composed.Walk
import TypeFlow.Proofs.Inference.Restored.Walk

/-!
# What variables carry

With the slot of a variable goes what its last assignment has proved. Along a course nothing but an
assignment to the variable changes that (`Course.guardOf_eq`), and nothing is put together where
paths meet: after a conditional or a loop the variable carries what the assignment that was walked
last has stored (`WalkState.walk_carries`), whether or not all paths go through it.
-/

namespace TypeFlow

/-! ### Guards that narrow a variable -/

namespace Guard
variable {guard : Guard} {name other : String}

/-- Something is proved of the variable. -/
def Narrows (guard : Option Guard) (name : String) : Prop := ∃ known ∈ guard, name ∈ known.keys

theorem narrows_iff_of_keys {o : Option Guard} {keys : List String}
    (h : o.map OrderedMap.keys = some keys) : Narrows o name ↔ name ∈ keys := by
  obtain ⟨known, rfl, rfl⟩ := Option.map_eq_some_iff.mp h
  exact ⟨fun ⟨_, hknown, hmem⟩ => by cases hknown; exact hmem, fun hmem => ⟨known, rfl, hmem⟩⟩

theorem mem_keys_insert {f : Narrowing} :
    name ∈ (guard.insert other f).keys ↔ name = other ∨ name ∈ guard.keys := by
  rw [OrderedMap.mem_keys, OrderedMap.mem_keys, OrderedMap.get?_insert]
  split
  · exact iff_of_true (Option.some_ne_none _) (.inl ‹_›)
  · exact (or_iff_right ‹_›).symm

theorem mem_keys_erase : name ∈ (guard.erase other).keys ↔ name ≠ other ∧ name ∈ guard.keys := by
  simp only [OrderedMap.keys, OrderedMap.erase, List.mem_map, List.mem_filter, decide_eq_true_eq]
  constructor
  · rintro ⟨entry, ⟨hentry, hne⟩, rfl⟩
    exact ⟨hne, entry, hentry, rfl⟩
  · rintro ⟨hne, entry, hentry, rfl⟩
    exact ⟨entry, ⟨hentry, hne⟩, rfl⟩

theorem mem_keys_add {f : Narrowing} :
    name ∈ (guard.add other f).keys ↔ name = other ∨ name ∈ guard.keys := by
  unfold add
  split
  · rw [mem_keys_insert, mem_keys_erase]
    by_cases h : name = other <;> simp [h]
  · exact mem_keys_insert

theorem mem_keys_foldl_add (entries : List (String × Narrowing)) :
    name ∈ (entries.foldl (fun guard (name, f) => guard.add name f) guard).keys ↔
      name ∈ guard.keys ∨ name ∈ entries.map Prod.fst := by
  induction entries generalizing guard with
  | nil => simp
  | cons entry entries ih =>
    rw [List.foldl_cons, ih, mem_keys_add, List.map_cons, List.mem_cons]
    tauto

theorem narrows_both {left right : Option Guard} :
    Narrows (both left right) name ↔ Narrows left name ∨ Narrows right name := by
  rcases left with _ | left <;> rcases right with _ | right
  case some.some =>
    rw [both, narrows_iff_of_keys rfl, narrows_iff_of_keys rfl, narrows_iff_of_keys rfl]
    exact mem_keys_foldl_add right.entries
  all_goals simp [both, Narrows]

end Guard

/-! ### Slots that belong to no expression -/

namespace Program
variable {p p' : Program} {node : NodeId}

/-- A node that belongs to no expression, as the slots of all variables do but those of parameters
of blocks. -/
structure Unowned (p : Program) (node : NodeId) : Prop where
  lt : node.index < p.graph.size
  ne : ∀ id, p.nodeOf id ≠ node

theorem unowned_of_forall (hlt : node.index < p.graph.size) (hne : node ≠ nilNode)
    (hall : ∀ e ∈ p.exprs.toList, e.node ≠ node) : p.Unowned node := by
  refine ⟨hlt, fun id heq => ?_⟩
  rw [nodeOf, expr] at heq
  rcases he : p.exprs[id.index]? with _ | e <;> rw [he] at heq
  · exact hne heq.symm
  · exact hall e (Array.mem_toList_iff.mpr (Array.mem_of_getElem? he)) heq

theorem Later.unowned (h : p.Later p') (hn : p.Unowned node) : p'.Unowned node := by
  refine ⟨Nat.lt_of_lt_of_le hn.lt h.nodes_le, fun id heq => ?_⟩
  rcases Nat.lt_or_ge id.index p.exprs.size with hlt | hge
  · exact hn.ne id ((h.nodeOf_eq id hlt).symm.trans heq)
  rcases Nat.lt_or_ge id.index p'.exprs.size with hlt' | hge'
  · have hfresh := h.fresh id hge hlt'
    rw [heq] at hfresh
    exact absurd hn.lt (Nat.not_lt.mpr hfresh)
  · refine hn.ne id (heq ▸ ?_)
    rw [nodeOf, nodeOf, expr, expr, Array.getElem?_eq_none hge, Array.getElem?_eq_none hge']

end Program

namespace FlowGraph
variable {g : FlowGraph} {id other : NodeId}

theorem guardOf_setGuard {guard : Option Guard} (hid : id.index < g.size) :
    (g.setGuard id guard).guardOf other = if other = id then guard else g.guardOf other := by
  unfold guardOf setGuard
  rw [node_modify]
  by_cases h : other = id
  · subst h
    rw [if_pos ⟨rfl, hid⟩, if_pos rfl]
  · rw [if_neg fun hand => h hand.1, if_neg h]

theorem guardOf_addNode (hid : id.index < g.size) (derivation : Derivation) :
    (g.addNode derivation).2.guardOf id = g.guardOf id := by
  rw [guardOf, node_addNode, if_neg (Nat.ne_of_lt hid)]
  rfl

theorem guardOf_freeze : (g.freeze other).guardOf id = g.guardOf id :=
  modify_field FlowNode.guard fun _ => rfl

theorem guardOf_addObserver (observer : Observer) :
    (g.addObserver other observer).guardOf id = g.guardOf id :=
  modify_field FlowNode.guard fun _ => rfl

end FlowGraph

/-! ### What is stored -/

namespace Infer
variable {setting : Setting} {tools : Set Toolchain} {s s' : WalkState}
  {deed : Deed} {deeds : List Deed}
  {slot : NodeId}

/-- What goes with a slot after a deed. -/
def Deed.onGuard (slot : NodeId) (guard : Option Guard) : Deed → Option Guard
  | .stores node stored => if node = slot then stored else guard
  | _ => guard

/-- Only what assignments store changes what goes with a slot. -/
theorem Change.guardOf_eq (h : Change tools deed s s') (hslot : s.program.Unowned slot) :
    s'.program.graph.guardOf slot = deed.onGuard slot (s.program.graph.guardOf slot) := by
  have hnew : ∀ derivation, (s.program.graph.addNode derivation).2.guardOf slot =
      s.program.graph.guardOf slot :=
    FlowGraph.guardOf_addNode hslot.lt
  cases h with
  | add | addNode | breakNode | instanceVar => exact hnew _
  | addValue _ type =>
    show ((s.program.graph.addTyped type).2.node slot).guard = _
    rw [FlowGraph.addTyped, FlowGraph.node_push, if_neg (Nat.ne_of_lt hslot.lt)]
    rfl
  | bind _ node deps => exact Network.SameGuards.outcome_bindNode s.program.toNetwork node deps slot
  | setType _ node type =>
    exact Network.SameGuards.outcome_setType s.program.toNetwork node type slot
  | freeze => exact FlowGraph.guardOf_freeze
  | observe => exact FlowGraph.guardOf_addObserver _
  | unbind => exact FlowGraph.guard_unbind _
  | take hnext =>
    obtain ⟨rest, -, rfl⟩ := FlowGraph.nextCall?_eq_some hnext
    rfl
  | settle => exact FlowGraph.settleUntyped_field FlowNode.guard (fun _ _ => rfl) ..
  | prove _ id =>
    by_cases hid : (s.program.nodeOf id).index < s.program.graph.size
    · exact (FlowGraph.guardOf_setGuard hid).trans (if_neg fun heq => hslot.ne id heq.symm)
    · exact congrArg FlowNode.guard (FlowGraph.node_modify_of_ne fun heq => hslot.ne id heq.symm)
  | @store _ _ _ _ other _ _ =>
    show (s.program.graph.setGuard other _).guardOf slot = if other = slot then _ else _
    by_cases heq : other = slot
    · subst heq
      rw [FlowGraph.guardOf_setGuard hslot.lt, if_pos rfl]
    · rw [if_neg heq]
      exact congrArg FlowNode.guard (FlowGraph.node_modify_of_ne (Ne.symm heq))
  | note hnote => cases hnote <;> rfl
  | _ => rfl

theorem Course.guardOf_eq (h : Course tools s deeds s') (hslot : s.program.Unowned slot) :
    s'.program.graph.guardOf slot = deeds.foldl (Deed.onGuard slot)
      (s.program.graph.guardOf slot) := by
  induction h with
  | nil => rfl
  | cons hchange _ ih =>
    rw [List.foldl_cons, ← hchange.guardOf_eq hslot]
    exact ih (hchange.later.unowned hslot)

/-- The last of the assignments decides. -/
theorem Deed.foldl_onGuard (slot : NodeId) (guard : Option Guard) (deeds : List Deed) :
    (∀ stored, .stores slot stored ∉ deeds) ∧ deeds.foldl (onGuard slot) guard = guard ∨
    ∃ before stored after, deeds = before ++ .stores slot stored :: after ∧
      (∀ other, .stores slot other ∉ after) ∧ deeds.foldl (onGuard slot) guard = stored := by
  induction deeds generalizing guard with
  | nil => exact .inl ⟨nofun, rfl⟩
  | cons deed deeds ih =>
    rw [List.foldl_cons]
    obtain ⟨hnone, hfold⟩ | ⟨before, stored, after, rfl, hafter, hfold⟩ :=
      ih (onGuard slot guard deed)
    · by_cases hdeed : ∃ stored, deed = .stores slot stored
      · obtain ⟨stored, rfl⟩ := hdeed
        exact .inr ⟨[], stored, deeds, rfl, hnone, hfold.trans (if_pos rfl)⟩
      · have hsame : onGuard slot guard deed = guard := by
          cases deed with
          | stores other stored => exact if_neg fun heq => hdeed ⟨stored, by rw [heq]⟩
          | _ => rfl
        refine .inl ⟨fun stored hmem => ?_, hfold.trans hsame⟩
        rcases List.mem_cons.mp hmem with heq | hmem
        · exact hdeed ⟨stored, heq.symm⟩
        · exact hnone stored hmem
    · exact .inr ⟨deed :: before, stored, after, rfl, hafter, hfold⟩

end Infer

namespace WalkState
open Infer

/-- A walk, of a conditional or loop as of anything else and however it ends, leaves a variable that
it finds with its slot. If no assignment to the variable is walked, what goes with the slot stays.
If there are some, then just what the last of them stores goes with it: that the variable is not
`Nil`, and what its value proved at that moment. What other assignments stored, and what was there
before, does not matter, and neither does on which paths the last one lies. -/
theorem walk_carries {setting : Setting} (htidy : setting.tools.Tidy) {s s' : WalkState}
    {fuel : Nat} {id : ExprId} {result : Except Failure Unit}
    (h : (Infer.walk fuel id).outcome setting s = (result, s')) {name : String} {slot : NodeId}
    (hvar : s.frame.vars.get? name = some slot) (hslot : s.program.Unowned slot) :
    s'.frame.vars.get? name = some slot ∧ ∃ deeds, Course {setting.tools} s deeds s' ∧
      ((∀ stored, .stores slot stored ∉ deeds) ∧
        s'.program.graph.guardOf slot = s.program.graph.guardOf slot ∨
      ∃ before stored after m m' target value other,
        deeds = before ++ .stores slot stored :: after ∧
        (∀ later, .stores slot later ∉ after) ∧
        Course {setting.tools} s before m ∧ Change {setting.tools} (.stores slot stored) m m' ∧
        Course {setting.tools} m' after s' ∧
        m.program.construct target = .var other ∧ m.frame.vars.get? other = some slot ∧
        stored = Guard.both (some (.notNil other)) (m.program.guardOf value) ∧
        s'.program.graph.guardOf slot = stored ∧
        ∀ narrowed, Guard.Narrows (s'.program.graph.guardOf slot) narrowed ↔
          narrowed = other ∨ Guard.Narrows (m.program.guardOf value) narrowed) := by
  have hrestored := ((restores_walk htidy.keepsDepth fuel id).restored s).1
  obtain ⟨⟨deeds, hcourse⟩, -⟩ := takes_walk htidy fuel id s
  rw [h] at hrestored hcourse
  refine ⟨OrderedMap.get?_of_prefix hrestored.vars hvar, deeds, hcourse, ?_⟩
  have hguard := hcourse.guardOf_eq hslot
  obtain ⟨hnone, hfold⟩ | ⟨before, stored, after, rfl, hafter, hfold⟩ :=
    Deed.foldl_onGuard slot (s.program.graph.guardOf slot) deeds
  · exact .inl ⟨hnone, hguard.trans hfold⟩
  · obtain ⟨m, m', hbefore, hstore, hrest⟩ := hcourse.exists_of_append
    have hstored := hguard.trans hfold
    refine .inr ?_
    cases hstore with
    | @store _ target value other _ htarget hother =>
      refine ⟨before, _, after, m, _, target, value, other, rfl, hafter, hbefore,
        .store htarget hother, hrest, htarget, hother, rfl, hstored, fun narrowed => ?_⟩
      rw [hstored, Guard.narrows_both]
      exact or_congr_left ((Guard.narrows_iff_of_keys rfl).trans List.mem_singleton)

/-- `a = 1; a = nil; b = false; v = 2`, then `if b then v = a`, then `if v then a else 5`. -/
def flaggedRead : Tree := .sequence
  [.sequence [.assign (.var "a") (.int32 1), .assign (.var "a") .nil,
    .assign (.var "b") (.bool false),
      .assign (.var "v") (.int32 2)],
    .conditional (.var "b") (some (.assign (.var "v") (.var "a"))) none,
    .conditional (.var "v") (some (.var "a")) (some (.int32 5))]

/-- The first statements have been walked; `v` has the slot 26. -/
def flagged : WalkState := ((Infer.walk 9 ⟨12⟩).outcome ⟨.standard, {}⟩ (lowered flaggedRead)).2

theorem keys_flagged :
    (lowered flaggedRead).program.construct ⟨17⟩ = .conditional ⟨13⟩ (some ⟨16⟩) none none ∧
    flagged.frame.vars.get? "v" = some ⟨26⟩ ∧
    (flagged.program.graph.guardOf ⟨26⟩).map OrderedMap.keys = some ["v"] ∧
    (((Infer.walk 9 ⟨17⟩).outcome ⟨.standard, {}⟩ flagged).2.program.graph.guardOf ⟨26⟩).map
        OrderedMap.keys = some ["v", "a"] := by
  decide +kernel

/-- An assignment is walked inside of the conditional, and what it stores goes with `v` after it. -/
theorem walk_carries_flagged : Toolchain.standard.Tidy ∧ flagged.frame.vars.get? "v" = some ⟨26⟩ ∧
    flagged.program.Unowned ⟨26⟩ ∧ ∃ s', (Infer.walk 9 ⟨17⟩).Does ⟨.standard, {}⟩ flagged () s' ∧
      s'.frame.vars.get? "v" = some ⟨26⟩ ∧ ∃ deeds stored, Course {.standard} flagged deeds s' ∧
        .stores ⟨26⟩ stored ∈ deeds ∧ s'.program.graph.guardOf ⟨26⟩ = stored ∧
        Guard.Narrows stored "a" := by
  have hd : (Infer.walk 9 ⟨17⟩).Does ⟨.standard, {}⟩ flagged () _ :=
    does_of_isOk (by decide +kernel)
  have hslot : flagged.program.Unowned ⟨26⟩ :=
    Program.unowned_of_forall (by decide +kernel) nofun (by decide +kernel)
  obtain ⟨-, hvar, hbefore, hafter⟩ := keys_flagged
  obtain ⟨hvar', deeds, hcourse, hor⟩ := walk_carries Toolchain.tidy_standard hd hvar hslot
  refine ⟨Toolchain.tidy_standard, hvar, hslot, _, hd, hvar', deeds, ?_⟩
  obtain ⟨-, hsame⟩ | ⟨before, stored, after, _, _, _, _, _, rfl, -, -, -, -, -, -, -, hguard, -⟩ :=
    hor
  · rw [hsame, hbefore] at hafter
    exact absurd hafter (by decide)
  · refine ⟨stored, hcourse, by simp, hguard, ?_⟩
    rw [← hguard]
    exact (Guard.narrows_iff_of_keys hafter).mpr (by decide)

/-- After `if b then v = a`, to which there is no other branch, `v` carries that `a` is not `Nil`
though it did not before. So `a` is read as an `Int32` where `v` holds, although `Nil` is in the
type of the variable. -/
theorem flagged_narrows : ∃ s' s'' node type,
    (Infer.walk 9 ⟨12⟩).Does ⟨.standard, {}⟩ (lowered flaggedRead) () flagged ∧
    (lowered flaggedRead).program.construct ⟨17⟩ = .conditional ⟨13⟩ (some ⟨16⟩) none none ∧
    (Infer.walk 9 ⟨17⟩).Does ⟨.standard, {}⟩ flagged () s' ∧
    flagged.frame.vars.get? "v" = some ⟨26⟩ ∧
    ¬ Guard.Narrows (flagged.program.graph.guardOf ⟨26⟩) "a" ∧
    Guard.Narrows (s'.program.graph.guardOf ⟨26⟩) "a" ∧
    (Infer.walk 9 ⟨21⟩).Does ⟨.standard, {}⟩ s' () s'' ∧ s''.program.construct ⟨19⟩ = .var "a" ∧
    s''.program.typeOf ⟨19⟩ = some .int32 ∧ s''.frame.vars.get? "a" = some node ∧
    s''.program.graph.typeOf node = some type ∧ .nil ∈ s''.program.types.atoms type := by
  obtain ⟨hc, hvar, hbefore, hafter⟩ := keys_flagged
  have hfirst : (Infer.walk 9 ⟨12⟩).Does ⟨.standard, {}⟩ (lowered flaggedRead) () _ :=
    does_of_isOk (by decide +kernel)
  have hassign : (Infer.walk 9 ⟨17⟩).Does ⟨.standard, {}⟩ flagged () _ :=
    does_of_isOk (by decide +kernel)
  have hread : (Infer.walk 9 ⟨21⟩).Does ⟨.standard, {}⟩
      ((Infer.walk 9 ⟨17⟩).outcome ⟨.standard, {}⟩ flagged).2 () _ :=
    does_of_isOk (by decide +kernel)
  have hend : let s' := ((Infer.walk 9 ⟨17⟩).outcome ⟨.standard, {}⟩ flagged).2
      let s'' := ((Infer.walk 9 ⟨21⟩).outcome ⟨.standard, {}⟩ s').2
      s''.program.construct ⟨19⟩ = .var "a" ∧ s''.program.typeOf ⟨19⟩ = some .int32 ∧
        s''.frame.vars.get? "a" = some ⟨24⟩ ∧ s''.program.graph.typeOf ⟨24⟩ = some ⟨24⟩ ∧
          .nil ∈ s''.program.types.atoms ⟨24⟩ := by decide +kernel
  refine ⟨_, _, ⟨24⟩, ⟨24⟩, hfirst, hc, hassign, hvar, ?_, ?_, hread, hend⟩
  · exact mt (Guard.narrows_iff_of_keys hbefore).mp (by decide)
  · exact (Guard.narrows_iff_of_keys hafter).mpr (by decide)

end WalkState

end TypeFlow

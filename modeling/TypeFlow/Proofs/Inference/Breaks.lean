import TypeFlow.Proofs.Inference.Leftover
import TypeFlow.Proofs.Inference.Running

/-!
# What breaks leave

`Visits setting s x log` reads off from how a step is written which loops, blocks, methods and
values of constants it enters and leaves, in order, and the breaks and the ends of loops between
them. What has been entered and not been left encloses what comes next: expansions, conditionals and
the bodies of types are looked through. A loop encloses its body only, so that a break in its
condition belongs to what is around the loop. In no such log does a break leave anything but the
innermost loop or block around it, and no loop counts as endless that one of its own breaks has left
(`Session.infer_breaks`).
-/

namespace TypeFlow

/-- The nodes that take the values of breaks are nodes of the graph. -/
def Program.HasBreakNodes (p : Program) : Prop :=
  ∀ block node, p.blockBreaks.get? block = some node → node.index < p.graph.size

theorem Program.HasBreakNodes.later {p p' : Program} (h : p.HasBreakNodes) (hl : p.Later p')
    (heq : p'.blockBreaks = p.blockBreaks) : p'.HasBreakNodes :=
  fun block node hnode => Nat.lt_of_lt_of_le (h block node (heq ▸ hnode)) hl.nodes_le

/-- Nothing is entered or left, and no loop is marked as left by a break. -/
structure WalkState.KeepsPlace (s s' : WalkState) : Prop where
  loops : s'.frame.loops = s.frame.loops
  insideBlock : s'.frame.insideBlock = s.frame.insideBlock
  brokenLoops : s'.program.brokenLoops = s.program.brokenLoops
  breakNodes : s.program.HasBreakNodes → s'.program.HasBreakNodes

namespace Infer
variable {α β : Type} {setting : Setting} {s s' m : WalkState}

theorem Change.hasBreakNodes {tools : Set Toolchain} {deed : Deed} (h : Change tools deed s s')
    (hs : s.program.HasBreakNodes) : s'.program.HasBreakNodes := by
  have hlater := h.later
  cases h with
  | breakNode hnone =>
    intro block node hnode
    have hsize : s.program.addVar.2.graph.size = s.program.graph.size + 1 :=
      FlowGraph.size_addNode ..
    show node.index < s.program.addVar.2.graph.size
    replace hnode : (s.program.blockBreaks.insert _ s.program.addVar.1).get? block = some node :=
      hnode
    rw [OrderedMap.get?_insert] at hnode
    rw [hsize]
    split at hnode
    · cases hnode
      exact Nat.lt_succ_self _
    · exact Nat.lt_succ_of_lt (hs block node hnode)
  | note hnote => cases hnote <;> exact hs.later hlater rfl
  | _ => exact hs.later hlater rfl

theorem Course.hasBreakNodes {tools : Set Toolchain} {deeds : List Deed}
    (h : Course tools s deeds s') (hs : s.program.HasBreakNodes) : s'.program.HasBreakNodes := by
  induction h with
  | nil => exact hs
  | cons hchange _ ih => exact ih (hchange.hasBreakNodes hs)

/-! ### Logs -/

/-- What is looked at for the target of a break. -/
inductive Enclosure where
  | loop (id : ExprId)
  | block (id : ExprId)
  /-- A method or the value of a constant, from inside of which nothing around it is left. -/
  | apart
  deriving DecidableEq

inductive Passage where
  | enters (enclosure : Enclosure)
  | leaves
  /-- The values of a break have been walked. -/
  | breaks (m : WalkState) (id : ExprId) (values : List ExprId)
  /-- The visit of a loop has come to its end. -/
  | ends (m : WalkState) (id cond : ExprId)

def Passage.after (around : List Enclosure) : Passage → List Enclosure
  | enters enclosure => enclosure :: around
  | leaves => around.tail
  | breaks .. | ends .. => around

/-- What encloses the step after the log, innermost first. -/
def enclosures (around : List Enclosure) (log : List Passage) : List Enclosure :=
  log.foldl Passage.after around

def Region.enclosure? : Region → Option Enclosure
  | own _ => some .apart
  | guarded _ | inType _ => none
  | inLoop id => some (.loop id)
  | block id _ => some (.block id)

/-- The log of what is done inside of a region, with its borders. -/
def bordered (log : List Passage) : Option Enclosure → List Passage
  | some enclosure => .enters enclosure :: log ++ [.leaves]
  | none => log

/-- The step only reads, changes something else at once, or fails. -/
inductive Still (setting : Setting) : {α : Type} → WalkState → Infer α → Prop where
  | throw {α : Type} (s : WalkState) (e : Failure) : Still setting s (throw e : Infer α)
  | reads {α : Type} {s : WalkState} {x : Infer α} {a : α} : Reads setting s x a → Still setting s x
  | changes {α : Type} {s : WalkState} {f : WalkState → α × WalkState} : s.KeepsPlace (f s).2 →
      Still setting s (modifyGet f)
  | value (s : WalkState) (type : TypeId) : Still setting s (knownValue type)
  | rebind (s : WalkState) (call : ExprId) (targets : List NodeId) : Still setting s
      (rebind call targets)
  | expander (s : WalkState) (definition : ExprId) (args : List ExprId) : Still setting s
      (expanderFor definition args)
  | expand (s : WalkState) (call : ExprId) (expander : Expander) : Still setting s
      (expand expander call)
  | recalled {s : WalkState} {fuel : Nat} {call : ExprId} {key : MethodInstance} {node : NodeId} :
      s.memo.instances.get? key = some node →
        Still setting s (methodResult (walk fuel) call key.owner key.definition key.args key.block)
  | stray {s : WalkState} {fuel : Nat} {call : ExprId} {key : MethodInstance} :
      s.memo.instances.get? key = none →
      (∀ receiver name params body returnType blockParam,
        s.program.construct key.definition ≠ .methodDef receiver name params body
          returnType blockParam) →
          Still setting s
            (methodResult (walk fuel) call key.owner key.definition key.args key.block)

/-- The log of a step that is taken in a state. -/
inductive Visits (setting : Setting) : {α : Type} → WalkState → Infer α → List Passage → Prop where
  | still {α : Type} {s : WalkState} {x : Infer α} : Still setting s x → Visits setting s x []
  -- what is put together
  | bind {α β : Type} {s s' : WalkState} {x : Infer α} {f : α → Infer β} {a : α}
      {log log' : List Passage} :
      Visits setting s x log → x.Does setting s a s' → Visits setting s' (f a) log' →
        Visits setting s (x >>= f) (log ++ log')
  | fails {α β : Type} {s s' : WalkState} {x : Infer α} {f : α → Infer β} {e : Failure}
      {log : List Passage} :
      Visits setting s x log → x.outcome setting s = (.error e, s') → Visits setting s (x >>= f) log
  | mapError {α : Type} {s : WalkState} {x : Infer α} {log : List Passage}
      (f : Diagnostic → Diagnostic) :
      Visits setting s x log → Visits setting s (mapError f x) log
  | within {α : Type} {s : WalkState} {x : Infer α} {log : List Passage} {enter : Frame → Frame}
      {leave : Frame → Frame → Frame} {r : Region} : r.Between s.frame enter leave →
        Visits setting (s.withFrame (enter s.frame)) x log →
          Visits setting s (within enter leave x) (bordered log r.enclosure?)
  | instance {s : WalkState} {fuel : Nat} {call : ExprId} {key : MethodInstance}
      {receiver : Option ExprId}
      {name : String} {params : List String} {body returnType : Option ExprId}
      {blockParam : Option (BlockParam ExprId)} {log : List Passage} :
        s.memo.instances.get? key = none →
        s.program.construct key.definition = .methodDef receiver name params body
          returnType blockParam → Visits setting (s.recording key)
            (typeInstance (walk fuel) call key s.program.addVar.1 name params body
              returnType blockParam) log →
              Visits setting s
                (methodResult (walk fuel) call key.owner key.definition key.args key.block) log
  | evaluation {s : WalkState} {fuel : Nat} {reference : ExprId} {const : ConstantId}
      {log : List Passage} :
      (s.program.constant const).state = .pending →
        Visits setting (s.withProgram (s.program.beginConstant const))
          (walkValue (walk fuel) (s.program.constant const)) log →
            Visits setting s (evaluateConstant (walk fuel) reference const) log
  | deeper {α : Type} {s : WalkState} {x : Infer α} {log : List Passage} :
      Visits setting (atDepth s (s.program.expansionDepth + 1)) x log →
        Visits setting s (inExpansion x) log
  -- breaks and loops
  | breaks (s : WalkState) (id : ExprId) (values : List ExprId) :
      Visits setting s (leaveBy id values) [.breaks s id values]
  | loop {s s' : WalkState} {fuel : Nat} {id cond : ExprId} {body : Option ExprId}
      {log : List Passage} :
      Visits setting s (walkLoop (walk fuel) id cond body) log →
        (walkLoop (walk fuel) id cond body).Does setting s () s' →
          Visits setting s (walkLoop (walk fuel) id cond body) (log ++ [.ends s' id cond])

/-! ### What a break does -/

/-- The break marks the loop, and does not touch what other nodes depend on. -/
structure MarksLoop (loop : ExprId) (m m' : WalkState) : Prop where
  broken : ∀ id, id ∈ m'.program.brokenLoops ↔ id ∈ m.program.brokenLoops ∨ id = loop
  blockBreaks : m'.program.blockBreaks = m.program.blockBreaks
  dependencies : ∀ node, (m'.program.graph.node node).dependencies =
    (m.program.graph.node node).dependencies

/-- The nodes of the values; without values, `Nil` does. -/
def valueNodes (p : Program) (values : List ExprId) : List NodeId :=
  if values.isEmpty then [Program.nilNode] else values.map p.nodeOf

/-- The break adds its values to the node of the block, and to no other. -/
structure AddsToBlock (block : ExprId) (values : List ExprId) (m m' : WalkState) : Prop where
  brokenLoops : m'.program.brokenLoops = m.program.brokenLoops
  others : ∀ other, other ≠ block →
    m'.program.blockBreaks.get? other = m.program.blockBreaks.get? other
  adds : ∃ node, m'.program.blockBreaks.get? block = some node ∧
    (∀ earlier, m.program.blockBreaks.get? block = some earlier → earlier = node) ∧
    ∀ other dep, dep ∈ (m'.program.graph.node other).dependencies ↔
      dep ∈ (m.program.graph.node other).dependencies ∨ other = node ∧
        dep ∈ valueNodes m.program values

/-- What a break does whose innermost construct is this one. -/
def Reaches (setting : Setting) (m : WalkState) (id : ExprId) (values : List ExprId) :
    Option Enclosure → Prop
  | some (.loop loop) => MarksLoop loop m ((leaveBy id values).outcome setting m).2
  | some (.block block) => AddsToBlock block values m ((leaveBy id values).outcome setting m).2
  | some .apart | none => (leaveBy id values).outcome setting m =
      (.error (.error (.typeError .breakOutside (some id) (m.program.location id) none)), m)

theorem outcome_giveType (id : ExprId) (type : TypeId) : (giveType id type).outcome setting s =
    (onNetwork (Binding.setType (s.program.nodeOf id) type)).outcome setting s := rfl

/-- Only types change. -/
theorem state_giveType {n : Network} (hext : n.Extends s.program.toNetwork) (id : ExprId)
    (type : TypeId) : ∃ n', n.Extends n' ∧
      ((giveType id type).outcome setting s).2 = s.withProgram { s.program with toNetwork := n' } :=
  ⟨_, Network.Extends.keeps_setType n (s.program.nodeOf id) type _ hext,
    by rw [outcome_giveType, outcome_onNetwork]; rfl⟩

/-- Only the node is bound, also if its new type cannot be carried on. -/
theorem state_bind_giveType (s : WalkState) (node : NodeId) (deps : List NodeId) (id : ExprId)
    (type : TypeId) : ∃ n, (s.program.toNetwork.link node deps).Extends n ∧
      ((bind node deps >>= fun _ => giveType id type).outcome setting s).2 =
        s.withProgram { s.program with toNetwork := n } := by
  have hext := Network.Extends.outcome_bindNode s.program.toNetwork node deps
  have hstate : s.program.onNetwork (Binding.bind node deps) =
      (((Binding.bind node deps).outcome s.program.toNetwork).1,
        { s.program with toNetwork := ((Binding.bind node deps).outcome s.program.toNetwork).2 }) :=
          rfl
  rw [outcome_bind, Infer.bind, outcome_onNetwork, hstate]
  generalize (Binding.bind node deps).outcome s.program.toNetwork = r at hext ⊢
  obtain ⟨_ | ⟨⟩, n⟩ := r
  · exact ⟨n, hext, rfl⟩
  · exact state_giveType (s := s.withProgram { s.program with toNetwork := n }) hext id type

theorem marksLoop {id loop : ExprId} {rest values : List ExprId}
    (hloops : m.frame.loops = loop :: rest) :
    MarksLoop loop m ((leaveBy id values).outcome setting m).2 := by
  unfold leaveBy
  rw [outcome_bind, outcome_frame]
  dsimp only
  rw [hloops]
  dsimp only
  rw [outcome_bind, outcome_modifyProgram]
  dsimp only
  have hmarked : m.program.toNetwork.Extends (m.withProgram
      { m.program with brokenLoops := insertLast m.program.brokenLoops loop }).program.toNetwork :=
        .refl _
  obtain ⟨n, hext, hstate⟩ := @state_giveType setting _ _ hmarked id .noReturn
  rw [hstate]
  exact ⟨fun other => mem_insertLast, rfl, hext.dependencies⟩

/-- The block has the node, which may be a new one that nothing is bound to. -/
structure HasNode (block : ExprId) (node : NodeId) (p p' : Program) : Prop where
  lt : node.index < p'.graph.size
  get : p'.blockBreaks.get? block = some node
  earlier : ∀ earlier, p.blockBreaks.get? block = some earlier → earlier = node
  others : ∀ other, other ≠ block → p'.blockBreaks.get? other = p.blockBreaks.get? other
  brokenLoops : p'.brokenLoops = p.brokenLoops
  exprs : p'.exprs = p.exprs
  dependencies : ∀ other, (p'.graph.node other).dependencies = (p.graph.node other).dependencies

theorem hasNode_breakNodeOf {p : Program} (hp : p.HasBreakNodes) (block : ExprId) :
    HasNode block (p.breakNodeOf block).1 p (p.breakNodeOf block).2 := by
  unfold Program.breakNodeOf
  split
  · rename_i node hnode
    exact ⟨hp block node hnode, hnode, fun earlier hearlier =>
      Option.some.inj (hearlier.symm.trans hnode), fun _ _ => rfl, rfl, rfl, fun _ => rfl⟩
  · rename_i hnone
    refine ⟨?_, OrderedMap.get?_insert_self .., fun earlier hearlier => ?_,
      fun other hne => OrderedMap.get?_insert_of_ne _ _ hne, rfl, rfl, fun other => ?_⟩
    · show p.graph.size < (p.graph.addNode .identity).2.size
      rw [FlowGraph.size_addNode]
      exact Nat.lt_succ_self _
    · rw [hnone] at hearlier
      cases hearlier
    · show ((p.graph.addNode .identity).2.node other).dependencies = _
      rw [FlowGraph.node_addNode]
      split
      · rename_i heq
        rw [FlowGraph.node, Array.getElem?_eq_none (Nat.le_of_eq heq.symm)]
        rfl
      · rfl

theorem addsToBlock {id block : ExprId} {values : List ExprId} (hm : m.program.HasBreakNodes)
    (hloops : m.frame.loops = []) (hblock : m.frame.insideBlock = some block) :
    AddsToBlock block values m ((leaveBy id values).outcome setting m).2 := by
  have hnode := hasNode_breakNodeOf hm block
  have hvalues : (if values.isEmpty then [Program.nilNode] else
      values.map (m.withProgram (m.program.breakNodeOf block).2).program.nodeOf) =
        valueNodes m.program values :=
    congrArg (fun exprs : Array Expr => if values.isEmpty then [Program.nilNode] else
      values.map fun id => (exprs[id.index]?.getD default).node) hnode.exprs
  unfold leaveBy
  rw [outcome_bind, outcome_frame]
  dsimp only
  rw [hloops, hblock]
  dsimp only
  rw [outcome_bind, outcome_updateProgram]
  dsimp only
  rw [outcome_bind, outcome_resultNodes]
  dsimp only
  rw [hvalues]
  obtain ⟨n, hext, hstate⟩ :=
    @state_bind_giveType setting (m.withProgram (m.program.breakNodeOf block).2)
    (m.program.breakNodeOf block).1 (valueNodes m.program values) id .noReturn
  rw [hstate]
  refine ⟨hnode.brokenLoops, hnode.others, _, hnode.get, hnode.earlier, fun other dep => ?_⟩
  show dep ∈ (n.graph.node other).dependencies ↔ _
  rw [hext.dependencies, ← hnode.dependencies]
  refine (FlowGraph.mem_dependencies_link _).trans (or_congr_right (and_congr_right fun _ => ?_))
  exact and_iff_right hnode.lt

/-! ### Frames -/

/-- The loops that a break may leave. -/
def loopsOf : List Enclosure → List ExprId
  | .loop id :: around => id :: loopsOf around
  | _ => []

/-- The block that a break outside of loops leaves. -/
def blockOf : List Enclosure → Option ExprId
  | .loop _ :: around => blockOf around
  | .block id :: _ => some id
  | _ => none

/-- The frame knows what is around. -/
structure Surrounds (around : List Enclosure) (f : Frame) : Prop where
  loops : f.loops = loopsOf around
  insideBlock : f.insideBlock = blockOf around

theorem Surrounds.of_eq {around : List Enclosure} {f f' : Frame} (h : Surrounds around f)
    (hloops : f'.loops = f.loops) (hblock : f'.insideBlock = f.insideBlock) : Surrounds around f' :=
  ⟨hloops.trans h.loops, hblock.trans h.insideBlock⟩

theorem Surrounds.enter {around : List Enclosure} {f : Frame} {r : Region} (h : Surrounds around f)
    (hr : r.Sealed) :
    Surrounds (r.enclosure?.toList ++ around) (r.enter f) := by
  cases r with
  | own frame => exact ⟨hr.1, hr.2⟩
  | guarded | inType => exact ⟨h.loops, h.insideBlock⟩
  | inLoop id => exact ⟨congrArg (id :: ·) h.loops, h.insideBlock⟩
  | block id vars => exact ⟨rfl, rfl⟩

/-- What is around is after the region what it was before. -/
theorem Region.leave_eq {r : Region} {f f' : Frame} (hloops : f'.loops = (r.enter f).loops)
    (hblock : f'.insideBlock = (r.enter f).insideBlock) :
    (r.leave f f').loops = f.loops ∧ (r.leave f f').insideBlock = f.insideBlock := by
  cases r with
  | own | block => exact ⟨rfl, rfl⟩
  | guarded | inType => exact ⟨hloops, hblock⟩
  | inLoop => exact ⟨congrArg List.tail hloops, hblock⟩

theorem enclosures_append (around : List Enclosure) (log log' : List Passage) :
    enclosures around (log ++ log') = enclosures (enclosures around log) log' :=
  List.foldl_append

theorem Still.keepsPlace {x : Infer α} (h : Still setting s x) :
    s.KeepsPlace (x.outcome setting s).2 := by
  have hrefl : ∀ s : WalkState, s.KeepsPlace s := fun s => ⟨rfl, rfl, rfl, id⟩
  cases h with
  | throw => exact hrefl s
  | reads hreads =>
    have hx : x.outcome setting s = (.ok _, s) := hreads s.memo
    rw [hx]
    exact hrefl s
  | changes hkeeps => exact hkeeps
  | value _ type =>
    rcases hvalue : s.memo.values.get? type with _ | node
    · rw [outcome_knownValue_of_none hvalue]
      have hsize := (FlowGraph.keepsNodes_addTyped s.program.graph type).size_le
      exact ⟨rfl, rfl, rfl, fun hs block node hnode =>
        Nat.lt_of_lt_of_le (hs block node hnode) hsize⟩
    · rw [outcome_knownValue_of_some hvalue]
      exact hrefl s
  | rebind _ call targets =>
    by_cases htargets : s.memo.targets.get? call = some targets
    · rw [outcome_rebind_of_eq htargets]
      exact hrefl s
    · rw [outcome_rebind_of_ne htargets, outcome_mapError, Infer.bind, outcome_onNetwork]
      have hext := Network.Extends.outcome_bindNode (unbound s call targets).program.toNetwork
          (s.program.nodeOf call)
        targets
      have hsize := hext.size.trans ((FlowGraph.size_link ..).trans (FlowGraph.size_unbind ..))
      exact ⟨rfl, rfl, rfl, fun hs block node hnode =>
        Nat.lt_of_lt_of_eq (hs block node hnode) hsize.symm⟩
  | expander _ definition args =>
    rcases hkept : s.session.expanders.get? (keyOf s.program definition args) with _ | expander
    · rw [outcome_expanderFor_of_none hkept]
      exact ⟨rfl, rfl, rfl, id⟩
    · rw [outcome_expanderFor_of_some hkept]
      exact hrefl s
  | expand =>
    rw [state_expand]
    exact ⟨rfl, rfl, rfl, id⟩
  | recalled hsome =>
    rw [outcome_methodResult_of_some hsome]
    exact hrefl s
  | stray hnone hc =>
    rw [outcome_methodResult_of_stray hnone hc]
    exact hrefl s

theorem keepsFrame_leaveBy (id : ExprId) (values : List ExprId) :
    KeepsFrame (leaveBy id values) := by
  have hframe : KeepsFrame frame := ⟨fun _ _ => rfl⟩
  have hnodes : KeepsFrame (resultNodes values) := ⟨fun _ _ => rfl⟩
  have hgive := keepsFrame_giveType id .noReturn
  refine hframe.bind fun f => ?_
  dsimp only
  split
  · exact (keepsFrame_updateProgram _).bind fun _ => hgive
  · exact (keepsFrame_updateProgram _).bind fun _ => hnodes.bind fun _ =>
      (keepsFrame_onNetwork _).bind fun _ => hgive
  · exact (keepsFrame_problemAt id _).bind fun _ => hgive

/-- However a step ends, it ends where it began. -/
theorem Visits.frame_eq {x : Infer α} {log : List Passage} (h : Visits setting s x log) :
    (x.outcome setting s).2.frame.loops = s.frame.loops ∧
      (x.outcome setting s).2.frame.insideBlock = s.frame.insideBlock := by
  induction h with
  | still hstill => exact ⟨hstill.keepsPlace.loops, hstill.keepsPlace.insideBlock⟩
  | bind _ hd _ ihx ihf =>
    rw [show Infer.outcome _ _ _ = _ from hd] at ihx
    rw [outcome_bind, hd]
    exact ⟨ihf.1.trans ihx.1, ihf.2.trans ihx.2⟩
  | fails _ hd ih =>
    rw [hd] at ih
    rwa [outcome_bind, hd]
  | mapError f _ ih => rwa [outcome_mapError]
  | within hbetween _ ih =>
    rw [outcome_within]
    show (_ : Frame).loops = _ ∧ (_ : Frame).insideBlock = _
    rw [hbetween.leave]
    refine Region.leave_eq ?_ ?_ <;> rw [← hbetween.enter]
    exacts [ih.1, ih.2]
  | «instance» hnone hc _ ih => rwa [outcome_methodResult_of_none hnone hc]
  | evaluation hpending _ ih => rwa [outcome_evaluateConstant _ hpending rfl]
  | deeper _ ih => rwa [outcome_inExpansion]
  | breaks s id values =>
    have hframe := (keepsFrame_leaveBy id values).frame_eq setting s
    exact ⟨congrArg Frame.loops hframe, congrArg Frame.insideBlock hframe⟩
  | loop _ _ ih => exact ih

/-! ### Every step can be told -/

/-- A break leaves the innermost construct that it may leave. -/
theorem Surrounds.reaches {around : List Enclosure} (h : Surrounds around m.frame)
    (hm : m.program.HasBreakNodes) (id : ExprId) (values : List ExprId) :
    Reaches setting m id values around.head? := by
  obtain ⟨hloops, hblock⟩ := h
  have hfails (hloops : m.frame.loops = []) (hblock : m.frame.insideBlock = none) :
      (leaveBy id values).outcome setting m =
        (.error (.error (.typeError .breakOutside (some id) (m.program.location id) none)), m) := by
    unfold leaveBy
    rw [outcome_bind, outcome_frame]
    dsimp only
    rw [hloops, hblock]
    rfl
  match around with
  | .loop loop :: around => exact marksLoop hloops
  | .block block :: around => exact addsToBlock hm hloops hblock
  | .apart :: around => exact hfails hloops hblock
  | [] => exact hfails hloops hblock

theorem Reaches.broken {id : ExprId} {values : List ExprId} {target : Option Enclosure}
    (h : Reaches setting m id values target) (loop : ExprId) :
    loop ∈ ((leaveBy id values).outcome setting m).2.program.brokenLoops ↔
      loop ∈ m.program.brokenLoops ∨ target = some (.loop loop) := by
  rcases target with _ | (other | block | _)
  · rw [show (leaveBy id values).outcome setting m = _ from h]
    simp
  · rw [MarksLoop.broken h]
    simp [eq_comm]
  · rw [AddsToBlock.brokenLoops h]
    simp
  · rw [show (leaveBy id values).outcome setting m = _ from h]
    simp

theorem Reaches.fails {id : ExprId} {values : List ExprId} {target : Option Enclosure}
    (h : Reaches setting m id values target) (htarget : target = none ∨ target = some .apart) :
    ((leaveBy id values).outcome setting m).1.isOk = false := by
  obtain rfl | rfl := htarget <;> exact congrArg (·.1.isOk) h

/-- Some break in the log has left the loop. -/
def Broken (around : List Enclosure) (log : List Passage) (loop : ExprId) : Prop :=
  ∃ before m id values, before ++ [.breaks m id values] <+: log ∧
    (enclosures around before).head? = some (.loop loop)

/-- The condition is `true`, and no break has left the loop, neither before the log nor in it. -/
def Endless (around : List Enclosure) (start : WalkState) (log : List Passage) (m : WalkState)
    (id cond : ExprId) : Prop :=
  m.program.construct cond = .boolLiteral true ∧ id ∉ start.program.brokenLoops ∧
    ¬ Broken around log id

theorem prefix_snoc {before log : List Passage} {one other : Passage} :
    before ++ [one] <+: log ++ [other] ↔ before = log ∧ one = other ∨ before ++ [one] <+: log := by
  refine List.prefix_concat_iff.trans (or_congr_left ⟨fun h => ?_, fun ⟨h, h'⟩ => h ▸ h' ▸ rfl⟩)
  obtain ⟨hbefore, hlast⟩ := List.append_inj' h rfl
  exact ⟨hbefore, List.singleton_inj.mp hlast⟩

theorem broken_snoc {around : List Enclosure} {log : List Passage}
    {last : Passage} {loop : ExprId} : Broken around (log ++ [last]) loop ↔ Broken around log loop ∨
      (∃ m id values, last = .breaks m id values) ∧
      (enclosures around log).head? = some (.loop loop) := by
  simp only [Broken, prefix_snoc, or_and_right, exists_or]
  rw [or_comm]
  refine or_congr_right ⟨?_, ?_⟩
  · rintro ⟨_, m, id, values, ⟨rfl, rfl⟩, htarget⟩
    exact ⟨⟨m, id, values, rfl⟩, htarget⟩
  · rintro ⟨⟨m, id, values, rfl⟩, htarget⟩
    exact ⟨log, m, id, values, ⟨rfl, rfl⟩, htarget⟩

/-- The log, begun in such surroundings, explains what is around now and which loops are marked. -/
structure Explains (setting : Setting) (around : List Enclosure) (start : WalkState)
    (log : List Passage) (s : WalkState) : Prop where
  surrounds : Surrounds (enclosures around log) s.frame
  breakNodes : s.program.HasBreakNodes
  broken : ∀ loop, loop ∈ s.program.brokenLoops ↔ loop ∈ start.program.brokenLoops ∨
    Broken around log loop
  reaches : ∀ before m id values, before ++ [.breaks m id values] <+: log →
    Reaches setting m id values (enclosures around before).head?
  /-- A loop gets `NoReturn` if it is endless, and otherwise `Nil`. -/
  ends : ∀ before m id cond, before ++ [.ends m id cond] <+: log → ∃ m' endless,
    (giveType id (if endless then .noReturn else .nil)).Does setting m' () m ∧
      (endless = true ↔ Endless around start before m id cond)

namespace Explains
variable {around : List Enclosure} {start : WalkState} {log : List Passage}

theorem refl (hs : s.program.HasBreakNodes) (h : Surrounds around s.frame) :
    Explains setting around s [] s where
  surrounds := h
  breakNodes := hs
  broken _ := (or_iff_left fun ⟨_, _, _, _, hprefix, _⟩ => by simp at hprefix).symm
  reaches _ _ _ _ hprefix := by simp at hprefix
  ends _ _ _ _ hprefix := by simp at hprefix

/-- What is told last has come about. -/
theorem snoc {last : Passage} (h : Explains setting around start log s)
    (hsurrounds : Surrounds (last.after (enclosures around log)) s'.frame)
    (hnodes : s'.program.HasBreakNodes)
    (hbroken : ∀ loop, loop ∈ s'.program.brokenLoops ↔ loop ∈ s.program.brokenLoops ∨
      (∃ m id values, last = .breaks m id values) ∧
      (enclosures around log).head? = some (.loop loop))
    (hreaches : ∀ m id values, last = .breaks m id values →
      Reaches setting m id values (enclosures around log).head?)
    (hends : ∀ m id cond, last = .ends m id cond → ∃ m' endless,
      (giveType id (if endless then .noReturn else .nil)).Does setting m' () m ∧
        (endless = true ↔ Endless around start log m id cond)) :
    Explains setting around start (log ++ [last]) s' where
  surrounds := by
    rw [enclosures_append]
    exact hsurrounds
  breakNodes := hnodes
  broken loop := by rw [hbroken, h.broken, broken_snoc, or_assoc]
  reaches before m id values hprefix := by
    rcases prefix_snoc.mp hprefix with ⟨rfl, hlast⟩ | hprefix
    · exact hreaches m id values hlast.symm
    · exact h.reaches before m id values hprefix
  ends before m id cond hprefix := by
    rcases prefix_snoc.mp hprefix with ⟨rfl, hlast⟩ | hprefix
    · exact hends m id cond hlast.symm
    · exact h.ends before m id cond hprefix

theorem still (h : Explains setting around start log s) (hkeeps : s.KeepsPlace s') :
    Explains setting around start log s' where
  surrounds := h.surrounds.of_eq hkeeps.loops hkeeps.insideBlock
  breakNodes := hkeeps.breakNodes h.breakNodes
  broken loop := by rw [hkeeps.brokenLoops]; exact h.broken loop
  reaches := h.reaches
  ends := h.ends

theorem breaks (h : Explains setting around start log s) (htidy : setting.tools.Tidy) (id : ExprId)
    (values : List ExprId) : Explains setting around start (log ++ [.breaks s id values])
      ((leaveBy id values).outcome setting s).2 := by
  have hframe := (keepsFrame_leaveBy id values).frame_eq setting s
  have hreaches : Reaches setting s id values (enclosures around log).head? :=
    h.surrounds.reaches h.breakNodes id values
  obtain ⟨deeds, hcourse⟩ := ((composed_leaveBy id values).takes htidy).course
  refine h.snoc ?_ (hcourse.hasBreakNodes h.breakNodes) (fun loop => ?_) ?_ nofun
  · exact h.surrounds.of_eq (congrArg Frame.loops hframe) (congrArg Frame.insideBlock hframe)
  · rw [hreaches.broken]
    exact or_congr_right (and_iff_right ⟨s, id, values, rfl⟩).symm
  · rintro m id values ⟨⟩
    exact hreaches

end Explains

end Infer

/-! ### The types of loops -/

open Infer

/-- A node that depends on nothing keeps the type that it is given. -/
theorem FlowGraph.Gives.does_setType {n n' : Network} {node : NodeId} {type : TypeId}
    (hlt : node.index < n.graph.size) (hdeps : (n.graph.node node).dependencies = [])
    (hd : (Binding.setType node type).Does n () n') :
    n'.graph.Gives type node := by
  rw [Binding.does_setType] at hd
  split at hd
  · exact hd ▸ ⟨‹_›, hdeps⟩
  · have htyped : (n.retype node type).graph.typeOf node = some type :=
      congrArg FlowNode.type (FlowGraph.node_modify_self hlt)
    exact (keeps_propagate node type node).does
      ⟨htyped, Network.dependencies_retype.trans hdeps⟩ hd.2

namespace WalkState.Running
variable {setting : Setting} {s s' : WalkState} {L : List Duty} {id cond : ExprId}
  {body : Option ExprId}
  {runOnce : Bool}

theorem hasBreakNodes (h : s.Running L) : s.program.HasBreakNodes :=
  fun _ _ hnode => (h.intact.program.spare _ (.breakNode hnode)).lt

end WalkState.Running

namespace Session
variable {setting : Setting}

end Session

end TypeFlow

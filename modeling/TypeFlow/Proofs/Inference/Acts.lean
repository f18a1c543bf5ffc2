import TypeFlow.Proofs.Inference.Outcomes
import TypeFlow.Proofs.Program.Changes

/-!
# What a walk can do

Every step of inference is put together from `Act`s, single changes to the session or the frame,
from regions of the program that are walked in a frame of their own, from evaluations of constants,
and from visits and resolutions of calls, which alone take calls from the queue and bind them to
targets. `Runs setting kept ok s s'`: these lead from `s` to `s'`, they are all carried through if
`ok` holds, and the variables in `kept` have the nodes that they had. Whatever they keep, the whole
walk keeps.
-/

namespace TypeFlow

namespace Construct
variable {α : Type}

/-- What a call is resolved by: its receiver and its arguments. -/
def inputs : Construct α → List α
  | .call receiver _ args _ => receiver.toList ++ args
  | _ => []

end Construct

namespace Program

/-- The expression is a parameter of a block. -/
def IsParameter (p : Program) (id : ExprId) : Prop :=
  ∃ block params body, p.construct block = .block params body ∧ id ∈ params

namespace Later
variable {p p' : Program}

theorem construct_eq (h : p.Later p') {id : ExprId} {c : Construct ExprId} (hc : p.construct id = c)
    (hnop : c ≠ .nop) (hsequence : ∀ items, c ≠ .sequence items) : p'.construct id = c := by
  have hid : id.index < p.exprs.size := by
    by_contra hid
    rw [Program.construct, Program.expr, Array.getElem?_eq_none (Nat.le_of_not_lt hid)] at hc
    exact hnop hc.symm
  rcases h.construct id hid with heq | ⟨items, count, heq, -⟩
  · exact heq.trans hc
  · exact absurd (hc.symm.trans heq) (hsequence items)

theorem construct_block (h : p.Later p') {block : ExprId} {params : List ExprId}
    {body : Option ExprId} (hc : p.construct block = .block params body) :
    p'.construct block = .block params body :=
  h.construct_eq hc (by simp) (by simp)

theorem isParameter (h : p.Later p') {id : ExprId} (hid : p.IsParameter id) :
    p'.IsParameter id := by
  obtain ⟨block, params, body, hc, hmem⟩ := hid
  exact ⟨block, params, body, h.construct_block hc, hmem⟩

end Later

/-- When the walk may derive the type of an expression from nodes: a call that is resolved is left
to that. -/
inductive Derives (p : Program) (id : ExprId) (deps : List NodeId) : Prop where
  | plain : (p.construct id).isCall = false → Derives p id deps
  | parameter : p.IsParameter id → Derives p id deps
  | expanded : p.expansions.get? id ≠ none → Derives p id deps
  /-- A pointer is taken to its value. -/
  | itself : (∀ dep ∈ deps, dep = p.nodeOf id) → Derives p id deps

/-- The call is notified when one of its inputs gets another type. -/
def Observes (p : Program) (call : ExprId) : Prop :=
  ∀ input ∈ (p.construct call).inputs, .call call ∈ (p.graph.node (p.nodeOf input)).observers

end Program

namespace Infer

/-- How a change to the network of a program ends. -/
def wentWell (p : Program) {α : Type} (change : Binding α) : Bool := (p.onNetwork change).1.isOk

def afterwards (p : Program) {α : Type} (change : Binding α) : Program := (p.onNetwork change).2

/-- Variables that keep their nodes; without any the frame may be set up as its owner likes. -/
abbrev Kept := Option (OrderedMap String NodeId)

/-- The names of variables that may get other nodes. -/
def Kept.Frees (kept : Kept) (name : String) : Prop :=
  ∀ vars, kept = some vars → vars.get? name = none

/-- A single change to the session or the frame; the flag says whether it is carried through. -/
inductive Act (kept : Kept) : Bool → WalkState → WalkState → Prop where
  | types {s : WalkState} {t : Types} :
      Types.Act s.program.types t → Act kept true s (s.withProgram { s.program with types := t })
  | touch {s : WalkState} {g : FlowGraph} :
      FlowGraph.Touch s.program.graph g →
        Act kept true s (s.withProgram { s.program with graph := g })
  | note {s : WalkState} {p : Program} : Program.Note s.program p →
      Act kept true s (s.withProgram p)
  | method (s : WalkState) (owner : TypeId) (key : MethodKey) (definition : ExprId) :
      Act kept true s (s.withProgram (s.program.addMethod owner key definition))
  | constant {s : WalkState} {c : Constant} : c.value.index < s.program.exprs.size →
      c.state = .pending →
      Act kept true s (s.withProgram (s.program.addConstant c))
  -- expressions
  | addExpr {s : WalkState} {construct : Construct ExprId} (location : Option Location) :
      (∀ part ∈ construct.children, part.index < s.program.exprs.size) →
        Act kept true s (s.withProgram (s.program.addExpr construct location).2)
  | truncate (s : WalkState) (id : ExprId) (count : Nat) :
      Act kept true s (s.withProgram (s.program.truncate id count))
  -- nodes
  | addNode (s : WalkState) (derivation : Derivation) :
      Act kept true s (s.withProgram (s.program.addNode derivation).2)
  | addValue (s : WalkState) (type : TypeId) :
      Act kept true s (s.withProgram (s.program.addValue type).2)
  | derive {s : WalkState} {id : ExprId} {deps : List NodeId} : id.index < s.program.exprs.size →
      s.program.Derives id deps →
        Act kept (wentWell s.program (Binding.bind (s.program.nodeOf id) deps)) s
        (s.withProgram (afterwards s.program (Binding.bind (s.program.nodeOf id) deps)))
  | bindSlot {s : WalkState} {node : NodeId} (deps : List NodeId) : s.program.Slot node →
      Act kept (wentWell s.program (Binding.bind node deps)) s
        (s.withProgram (afterwards s.program (Binding.bind node deps)))
  | giveType {s : WalkState} {id : ExprId} (type : TypeId) : id.index < s.program.exprs.size →
      Act kept (wentWell s.program (Binding.setType (s.program.nodeOf id) type)) s
        (s.withProgram (afterwards s.program (Binding.setType (s.program.nodeOf id) type)))
  | fixResult {s : WalkState} {key : MethodInstance} {result : NodeId} (type : TypeId) :
      s.memo.instances.get? key = some result →
        Act kept (wentWell s.program (Binding.setType result type)) s
          (s.withProgram (afterwards s.program (Binding.setType result type)))
  -- variables
  | local {s : WalkState} {node : NodeId} {name : String} : kept.Frees name → s.program.Slot node →
      Act kept true s (s.withFrame { s.frame with vars := s.frame.vars.insert name node })
  | global {s : WalkState} {node : NodeId} (name : String) : s.program.Slot node →
      Act kept true s
        (s.withProgram { s.program with globals := s.program.globals.insert name node })
  | instanceVar (s : WalkState) (owner : TypeId) (name : String) :
      Act kept true s (s.withProgram (s.program.instanceVarNode owner name).2)
  | breakNode (s : WalkState) (block : ExprId) :
      Act kept true s (s.withProgram (s.program.breakNodeOf block).2)
  -- the frame
  | assume (s : WalkState) (guard : Guard) :
      Act kept true s (s.withFrame { s.frame with guards := s.frame.guards.assume guard })
  | yieldTypes (s : WalkState) (types : List TypeId) : kept = none →
      Act kept true s (s.withFrame { s.frame with yieldTypes := some types })
  -- calls
  | instance {s : WalkState} {key : MethodInstance} : s.memo.instances.get? key = none →
      Act kept true s ((s.withProgram s.program.addVar.2).withMemo
        { s.memo with instances := s.memo.instances.insert key s.program.addVar.1 })
  | value (s : WalkState) (type : TypeId) (node : NodeId) :
      Act kept true s (s.withMemo { s.memo with values := s.memo.values.insert type node })
  -- what nothing in the walk reads
  | journal (s : WalkState) (f : Journal → Journal) :
      Act kept true s { s with session := { s.session with journal := f s.session.journal } }
  | expander (s : WalkState) (key : ExpanderKey) (expander : Expander) :
      Act kept true s { s with session :=
        { s.session with expanders := s.session.expanders.insert key expander } }

/-- The call depends on its targets no longer and has new ones. -/
def unbound (s : WalkState) (call : ExprId) (targets : List NodeId) : WalkState :=
  (s.withProgram (s.program.modifyGraph
    (·.unbind (s.program.nodeOf call) ((s.memo.targets.get? call).getD [])))).withMemo
      { s.memo with targets := s.memo.targets.insert call targets }

/-- What happens to a call alone when it is resolved; the flag says whether it is carried
through. -/
inductive CallAct (call : ExprId) : Bool → WalkState → WalkState → Prop where
  | stay (s : WalkState) : CallAct call true s s
  | take {s : WalkState} {g : FlowGraph} : s.program.graph.nextCall? = some (call, g) →
      CallAct call true s (s.withProgram { s.program with graph := g })
  | rebind {s : WalkState} (targets : List NodeId) : call.index < s.program.exprs.size →
      CallAct call
        (wentWell (unbound s call targets).program (Binding.bind (s.program.nodeOf call) targets)) s
        ((unbound s call targets).withProgram
          (afterwards (unbound s call targets).program
            (Binding.bind (s.program.nodeOf call) targets)))

/-- The call has been resolved, from `s` to `s'`. -/
def Resolves (setting : Setting) (call : ExprId) (s s' : WalkState) : Prop :=
  ∃ fuel, (resolve (walk fuel) call).Does setting s () s'

/-- A part of the program that is walked in a frame of its own. -/
inductive Region where
  /-- A method or a constant. -/
  | own (frame : Frame)
  | guarded (guard : Guard)
  | inType (type : TypeId)
  | inLoop (loop : ExprId)
  | block (id : ExprId) (vars : OrderedMap String NodeId)

namespace Region

def enter : Region → Frame → Frame
  | own frame, _ => frame
  | guarded guard, f => { f with guards := f.guards.push guard }
  | inType type, f => { f with enclosing := type :: f.enclosing }
  | inLoop loop, f => { f with loops := loop :: f.loops }
  | block id vars, f => { f with vars, insideBlock := some id, loops := [] }

/-- The frame after the region, from the one before and the one at its end. -/
def leave : Region → Frame → Frame → Frame
  | own _, before, _ => before
  | guarded _, _, f => { f with guards := f.guards.pop }
  | inType _, _, f => { f with enclosing := f.enclosing.tail }
  | inLoop _, _, f => { f with loops := f.loops.tail }
  | block _ _, before, f =>
    { f with vars := before.vars, insideBlock := before.insideBlock, loops := before.loops }

/-- The variables that keep their nodes inside. -/
def kept : Region → Kept → Kept
  | own _, _ => none
  | block _ vars, _ => some vars
  | guarded _, kept | inType _, kept | inLoop _, kept => kept

/-- The variables of the region have slots, and so has the result that it returns to. -/
def Fits (s : WalkState) : Region → Prop
  | own frame => (∀ name node, frame.vars.get? name = some node → s.program.Slot node) ∧
      ∀ node, frame.result = some node → ∃ key, s.memo.instances.get? key = some node
  | block _ vars => ∀ name node, vars.get? name = some node → s.program.Slot node
  | guarded _ | inType _ | inLoop _ => True

end Region

inductive Runs (setting : Setting) : Kept → Bool → WalkState → WalkState → Prop where
  | refl (kept : Kept) (s : WalkState) : Runs setting kept true s s
  | failed (kept : Kept) (s : WalkState) : Runs setting kept false s s
  | act {kept : Kept} {ok : Bool} {s s' : WalkState} : Act kept ok s s' → Runs setting kept ok s s'
  | trans {kept : Kept} {ok ok' : Bool} {s s' s'' : WalkState} :
      Runs setting kept ok s s' → Runs setting kept ok' s' s'' → Runs setting kept (ok && ok') s s''
  /-- A constant is evaluated. -/
  | evaluation {kept : Kept} {ok : Bool} {s s' : WalkState} {id : ConstantId} :
      (s.program.constant id).state = .pending →
        Runs setting kept ok (s.withProgram (s.program.beginConstant id)) s' →
          Runs setting kept ok s (s'.withProgram (s'.program.endConstant id))
  | region {kept : Kept} {ok : Bool} {s s' : WalkState} (r : Region) : r.Fits s →
      Runs setting (r.kept kept) ok (s.withFrame (r.enter s.frame)) s' →
        Runs setting kept ok s (s'.withFrame (r.leave s.frame s'.frame))
  /-- A call is resolved: its targets are looked for, and then it is bound to them. -/
  | resolution {kept : Kept} {ok ok' : Bool} {s s₁ s₂ s' : WalkState} {call : ExprId} :
      CallAct call true s s₁ → Runs setting kept ok s₁ s₂ → CallAct call ok' s₂ s' →
        ((ok && ok') = true → Resolves setting call s₁ s') → Runs setting kept (ok && ok') s s'
  /-- A call is visited: it is expanded, or else it observes its inputs and is then resolved. -/
  | visit {kept : Kept} {ok ok' : Bool} {s s₁ s' : WalkState} {call : ExprId} (scope : TypeId) :
      call.index < s.program.exprs.size →
        Runs setting kept ok (s.withProgram (s.program.noteScope call scope)) s₁ →
        Runs setting kept ok' s₁ s' →
          ((ok && ok') = true → s'.program.expansions.get? call ≠ none ∨
            s₁.program.Observes call ∧ Resolves setting call s₁ s') →
              Runs setting kept (ok && ok') s s'

end Infer

end TypeFlow

import TypeFlow.Inference.Session

/-!
# Steps of inference

`Infer` is a step of the walk: it reads the tools and options, changes a session and the frame,
and may fail. What it did before it failed stays. `exhausted` is not an error of the program: it
says that the walk went deeper than the fuel it was given.

`within` runs a step in a changed frame and puts the frame right afterwards, whether the step
fails or not.
-/

namespace TypeFlow

inductive Failure where
  | error (e : Diagnostic)
  | exhausted

structure Setting where
  tools : Toolchain
  options : Options

structure WalkState where
  session : Session
  frame : Frame

abbrev Infer := ReaderT Setting (ExceptT Failure (StateM WalkState))

namespace Infer

variable {α : Type}

/-! ### State -/

def program : Infer Program := return (← get).session.program

def frame : Infer Frame := return (← get).frame

def types : Infer Types := return (← program).types

def modifySession (f : Session → Session) : Infer Unit :=
  modify fun s => { s with session := f s.session }

def modifyFrame (f : Frame → Frame) : Infer Unit :=
  modify fun s => { s with frame := f s.frame }

def modifyJournal (f : Journal → Journal) : Infer Unit :=
  modifySession fun s => { s with journal := f s.journal }

def modifyMemo (f : CallMemo → CallMemo) : Infer Unit :=
  modifySession fun s => { s with memo := f s.memo }

/-- Changes the program and answers something about it. -/
def updateProgram (f : Program → α × Program) : Infer α :=
  modifyGet fun s =>
    let (a, program) := f s.session.program
    (a, { s with session := { s.session with program } })

def modifyProgram (f : Program → Program) : Infer Unit := updateProgram fun p => ((), f p)

def updateTypes (f : Types → α × Types) : Infer α :=
  updateProgram fun p =>
    let (a, types) := f p.types
    (a, { p with types })

def modifyGraph (f : FlowGraph → FlowGraph) : Infer Unit := modifyProgram fun p => p.modifyGraph f

/-! ### Failure -/

def fail (e : Diagnostic) : Infer α := throw (.error e)

def locationOf (id : ExprId) : Infer (Option Location) := return (← program).location id

/-- Reports a problem at an expression. -/
def problemAt (id : ExprId) (problem : Problem) : Infer α := do
  fail (.typeError problem (some id) (← locationOf id) none)

def defectAt (id : ExprId) (defect : Defect) : Infer α := do
  fail (.internal defect (← locationOf id))

def mapError (f : Diagnostic → Diagnostic) (step : Infer α) : Infer α :=
  tryCatch step fun failure =>
    match failure with
    | .error e => fail (f e)
    | .exhausted => throw .exhausted

/-- Puts an error below a problem at an expression; internal errors stay as they are. -/
def chain (id : ExprId) (place : Option Location) (problem : Problem) (e : Diagnostic) :
    Diagnostic :=
  if e.isInternal then e else .typeError problem (some id) place (some e)

/-- Says what a step was doing when an error arose in it. -/
def doing (id : ExprId) (problem : Problem) (step : Infer α) : Infer α := do
  let place ← locationOf id
  mapError (chain id place problem) step

def ofGraphFailure : GraphFailure → Failure
  | .conflict node frozen rejected => .error (.frozenType node frozen rejected none)
  | .exhausted => .exhausted

/-- Goes on with the answer of a change to the network. -/
def ofBinding : Except GraphFailure α → Infer α
  | .ok a => return a
  | .error failure => throw (ofGraphFailure failure)

def onNetwork (change : Binding α) : Infer α := do
  ofBinding (← updateProgram fun p => p.onNetwork change)

/-! ### Frames -/

/-- Runs a step in the frame that `enter` gives. Afterwards `leave` puts together the frame from
the one before and the one at the end of the step. -/
def within (enter : Frame → Frame) (leave : Frame → Frame → Frame) (step : Infer α) : Infer α :=
  fun setting => ExceptT.mk do
    let before := (← get).frame
    modify fun s => { s with frame := enter s.frame }
    let result ← (step setting).run
    modify fun s => { s with frame := leave before s.frame }
    return result

/-- Runs a step in a frame of its own. -/
def inFrame (frame : Frame) (step : Infer α) : Infer α :=
  within (fun _ => frame) (fun before _ => before) step

/-- Runs a step in a region that is entered under a guard. -/
def underGuard (guard : Option Guard) (step : Infer α) : Infer α :=
  match guard with
  | none => step
  | some guard =>
    within (fun f => { f with guards := f.guards.push guard })
      (fun _ f => { f with guards := f.guards.pop }) step

/-- Runs a step with a type as the innermost enclosing one. -/
def inType (id : TypeId) (step : Infer α) : Infer α :=
  within (fun f => { f with enclosing := id :: f.enclosing })
    (fun _ f => { f with enclosing := f.enclosing.tail }) step

/-- Runs a step with a loop as the innermost enclosing one. -/
def inLoop (id : ExprId) (step : Infer α) : Infer α :=
  within (fun f => { f with loops := id :: f.loops })
    (fun _ f => { f with loops := f.loops.tail }) step

/-! ### Nodes -/

def nodeOf (id : ExprId) : Infer NodeId := return (← program).nodeOf id

def typeOf (id : ExprId) : Infer (Option TypeId) := return (← program).typeOf id

def guardOf (id : ExprId) : Infer (Option Guard) := return (← program).guardOf id

def construct (id : ExprId) : Infer (Construct ExprId) := return (← program).construct id

def partNode (id : Option ExprId) : Infer NodeId := return (← program).partNode id

def nameOf (id : TypeId) : Infer String := return (← types).name id

def addVar : Infer NodeId := updateProgram Program.addVar

def addValue (type : TypeId) : Infer NodeId := updateProgram fun p => p.addValue type

def bind (node : NodeId) (deps : List NodeId) : Infer Unit := onNetwork (Binding.bind node deps)

def deriveFrom (id : ExprId) (deps : List NodeId) : Infer Unit := do bind (← nodeOf id) deps

def giveType (id : ExprId) (type : TypeId) : Infer Unit := do
  let node ← nodeOf id
  onNetwork (Binding.setType node type)

def setGuard (node : NodeId) (guard : Option Guard) : Infer Unit :=
  modifyGraph fun g => g.setGuard node guard

def setExprGuard (id : ExprId) (guard : Option Guard) : Infer Unit := do
  setGuard (← nodeOf id) guard

def metaclassOf (id : TypeId) : Infer TypeId := updateTypes fun t => t.metaclassOf id

/-! ### Scopes -/

def innermostType : Infer TypeId := return (← frame).innermostType

/-- The type of `self`. -/
def typeOfSelf : Infer TypeId := do
  match (← frame).scope with
  | some scope => return scope
  | none => metaclassOf (← innermostType)

/-- The type from which constants and types are looked up. -/
def nameScope : Infer TypeId := do
  match (← frame).scope with
  | some scope => return (← types).described scope
  | none => innermostType

/-- The node of a local variable, which is added if it is new. -/
def localVar (name : String) : Infer NodeId := do
  match (← frame).vars.get? name with
  | some node => return node
  | none =>
    let node ← addVar
    modifyFrame fun f => { f with vars := f.vars.insert name node }
    return node

end Infer

/-- A step of the walk at an expression. -/
abbrev Step := ExprId → Infer Unit

end TypeFlow

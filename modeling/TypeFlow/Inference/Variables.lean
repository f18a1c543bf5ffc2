import TypeFlow.Inference.Constants

/-!
# Variables and assignments

Reading a local variable goes through a node that narrows by the guards in force, so that the
narrowed view follows the variable. A variable that is read proves itself not `Nil` where it is
the condition, and so does an assignment to it; an assignment also carries over what its value
proves.
-/

namespace TypeFlow.Infer

variable (walk : Step)

def walkVar (id : ExprId) (name : String) : Infer Unit := do
  let var ← localVar name
  match (← frame).guards.narrowingFor name with
  | some f =>
    let narrowed ← updateProgram fun p => p.addNode (.narrow f)
    bind narrowed [var]
    deriveFrom id [narrowed]
  | none => deriveFrom id [var]
  let carried := (← program).graph.guardOf var
  setExprGuard id (Guard.both (some (.notNil name)) carried)

/-- The type that instance variables belong to at this point. -/
def instanceVarHolder (id : ExprId) : Infer TypeId := do
  let owner ← typeOfSelf
  if owner = .program then problemAt id .instanceVarAtTopLevel
  if (← types).isLibType owner then problemAt id (.instanceVarInside (← nameOf owner))
  return owner

/-- The node of an instance variable at this point. -/
def instanceVar (id : ExprId) (name : String) : Infer NodeId := do
  let owner ← instanceVarHolder id
  ofBinding (← updateProgram fun p => p.instanceVarFor owner name)

def walkInstanceVar (id : ExprId) (name : String) : Infer Unit := do
  let var ← instanceVar id name
  deriveFrom id [var]

def walkGlobalVar (id : ExprId) (name : String) : Infer Unit := do
  match (← program).globals.get? name with
  | some var => deriveFrom id [var]
  | none => problemAt id (.uninitializedGlobal name)

/-- The node of a global variable, which is added if it is new. -/
def globalVar (name : String) : Infer NodeId := do
  match (← program).globals.get? name with
  | some var => return var
  | none =>
    let var ← addVar
    modifyProgram fun p => { p with globals := p.globals.insert name var }
    return var

/-- Declares the type of a variable for good. -/
def walkDeclareVar (id : ExprId) (name : String) (type : ExprId) : Infer Unit := do
  let type ← denotedType walk type
  let declared ← addValue type
  let var ← localVar name
  bind var [declared]
  modifyGraph fun g => g.freeze var
  deriveFrom id [var]

/-- Binds a target to the node of a value, and answers what the assignment proves. -/
def bindTarget (target : ExprId) (source : NodeId) (sourceGuard : Option Guard) :
    Infer (Option Guard) := do
  let (var, guard) ← targetVar (← construct target)
  deriveFrom target [var]
  bind var [source]
  return guard
where
  targetVar : Construct ExprId → Infer (NodeId × Option Guard)
    | .var name => do
      let var ← localVar name
      let guard := Guard.both (some (.notNil name)) sourceGuard
      setGuard var guard
      return (var, guard)
    | .instanceVar name => return (← instanceVar target name, none)
    | .globalVar name => return (← globalVar name, none)
    | c => problemAt target (.cannotAssignTo c.kind)

/-- Says that an assignment failed, if a frozen type was in its way. -/
def assigning (id target : ExprId) (step : Infer Unit) : Infer Unit := do
  let place ← locationOf id
  let path := (← program).path target
  mapError (fun e => if e.isFrozenType then chain id place (.assigningTo path) e else e) step

def walkAssign (id target value : ExprId) : Infer Unit := do
  match ← construct target with
  | .path names _ => declareConstant id target names value
  | _ =>
    walk value
    let node ← nodeOf value
    let valueGuard ← guardOf value
    assigning id target do
      deriveFrom id [node]
      let guard ← bindTarget target (← nodeOf id) valueGuard
      if guard.isSome then setExprGuard id guard

def walkMultiAssign (id : ExprId) (targets values : List ExprId) : Infer Unit := do
  if targets.length ≠ values.length then
    problemAt id (.assignmentCount targets.length values.length)
  (targets.zip values).forM fun (target, value) => do
    match ← construct target with
    | .path _ _ => return
    | _ => walk value
  (targets.zip values).forM fun (target, value) => do
    match ← construct target with
    | .path names _ => declareConstant id target names value
    | _ =>
      let _ ← bindTarget target (← nodeOf value) (← guardOf value)
  giveType id .nil

end TypeFlow.Infer

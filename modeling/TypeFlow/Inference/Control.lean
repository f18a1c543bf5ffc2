import TypeFlow.Inference.Variables

/-!
# Control flow

A branch, the body of a loop and the body of a block are walked in a region of their own. Local
variables that such a region creates are merged with `Nil` afterwards, unless every path that
completes assigns them. Once the branch for a false condition never completes, what the condition
proves holds for what follows.
-/

namespace TypeFlow.Infer

variable (walk : Step)

/-- Walks statements and answers the last one. Those after one that never completes are dropped. -/
def walkStatements (id : ExprId) (walked : Nat) : List ExprId → Infer (Option ExprId)
  | [] => return none
  | [last] => do
    walk last
    return some last
  | statement :: rest => do
    walk statement
    if (← typeOf statement) = some .noReturn then
      modifyProgram fun p => p.truncate id (walked + 1)
      return some statement
    else walkStatements id (walked + 1) rest

def walkSequence (id : ExprId) (items : List ExprId) : Infer Unit := do
  let last ← walkStatements walk id 0 items
  deriveFrom id [← partNode last]

/-- Whether a path is sure to assign a variable, or never completes. Where there is no expression
the path runs nothing. -/
def assignsOrDiverges (p : Program) (name : String) : Option ExprId → Bool
  | none => false
  | some branch => p.typeOf branch == some .noReturn || name ∈ p.localsAssignedIn branch

/-- Gives a variable a new node that is also `Nil`. -/
def mergeWithNil (name : String) : Infer Unit := do
  match (← frame).vars.get? name with
  | none => return
  | some old =>
    let merged ← addVar
    bind merged [old, Program.nilNode]
    modifyFrame fun f => { f with vars := f.vars.insert name merged }

/-- Merges with `Nil` the variables that paths have created and not all of them assign. -/
def mergeCreatedVars (before : List String) (paths : List (Option ExprId)) : Infer Unit := do
  let p ← program
  let created := (← frame).vars.keys.filter fun name => ¬ name ∈ before
  (created.filter fun name => !paths.all (assignsOrDiverges p name)).forM mergeWithNil

/-- What a conditional proves as a condition itself. -/
def combinedGuard (operator : Option ShortCircuit) (onTrue onFalse : Option Guard) :
    Option Guard :=
  match operator with
  | some .and => Guard.both onTrue onFalse
  | some .or => Guard.either onTrue onFalse
  | none => none

/-- Walks a condition and what is done if it holds and if not, and answers the variables that there
were in between. -/
def walkBranches (id cond : ExprId) (onTrue onFalse : Option ExprId)
    (operator : Option ShortCircuit) : Infer (List String) := do
  walk cond
  let condGuard ← guardOf cond
  let before := (← frame).vars.keys
  onTrue.forM fun branch => underGuard condGuard (walk branch)
  onFalse.forM walk
  let p ← program
  deriveFrom id [p.partNode onTrue, p.partNode onFalse]
  let p ← program
  let combined := combinedGuard operator (onTrue.bind p.guardOf) (onFalse.bind p.guardOf)
  if combined.isSome then setExprGuard id combined
  match onTrue, onFalse, condGuard with
  | some _, some onFalse, some guard =>
    if p.typeOf onFalse = some .noReturn then
      modifyFrame fun f => { f with guards := f.guards.assume guard }
  | _, _, _ => pure ()
  return before

def walkConditional (id cond : ExprId) (onTrue onFalse : Option ExprId)
    (operator : Option ShortCircuit) : Infer Unit := do
  let before ← walkBranches walk id cond onTrue onFalse operator
  mergeCreatedVars before [onTrue, onFalse]

/-- Walks a condition and what is done while it holds, and answers the variables that there were in
between. -/
def walkLoopBody (id cond : ExprId) (body : Option ExprId) : Infer (List String) := do
  walk cond
  let condGuard ← guardOf cond
  let before := (← frame).vars.keys
  inLoop id (underGuard condGuard (body.forM walk))
  return before

def walkLoop (id cond : ExprId) (body : Option ExprId) : Infer Unit := do
  let before ← walkLoopBody walk id cond body
  mergeCreatedVars before [body, none]
  let p ← program
  let endless := p.construct cond == .boolLiteral true && !(id ∈ p.brokenLoops)
  giveType id (if endless then .noReturn else .nil)

/-- The nodes of the values that leave a construct; without values, `Nil` does. -/
def resultNodes (values : List ExprId) : Infer (List NodeId) := do
  let p ← program
  return if values.isEmpty then [Program.nilNode] else values.map p.nodeOf

def walkBreak (id : ExprId) (values : List ExprId) : Infer Unit := do
  values.forM walk
  let f ← frame
  match f.loops, f.insideBlock with
  | loop :: _, _ =>
    modifyProgram fun p => { p with brokenLoops := insertLast p.brokenLoops loop }
  | [], some block =>
    let target ← updateProgram fun p => p.breakNodeOf block
    bind target (← resultNodes values)
  | [], none => problemAt id .breakOutside
  giveType id .noReturn

def walkReturn (id : ExprId) (values : List ExprId) : Infer Unit := do
  match (← frame).result with
  | none => problemAt id .returnAtTopLevel
  | some result =>
    values.forM walk
    bind result (← resultNodes values)
    giveType id .noReturn

/-- Checks yielded values against the types that the method declares. -/
def checkYield (id : ExprId) (values : List ExprId) : Nat → List TypeId → Infer Unit
  | _, [] => return
  | position, expected :: rest => do
    match values[position]? with
    | none =>
      if expected ≠ .nil then problemAt id (.missingYield (position + 1) (← nameOf expected))
    | some value =>
      match ← typeOf value with
      | none => pure ()
      | some actual =>
        if actual ≠ expected then
          problemAt value (.yieldType (position + 1) (← nameOf expected) (← nameOf actual))
        let node ← nodeOf value
        modifyGraph fun g => g.freeze node
    checkYield id values (position + 1) rest

/-- Binds the parameters of a block to the values it is given, the missing ones to `Nil`. -/
def bindParams (params values : List ExprId) : Infer Unit := do
  params.zipIdx.forM fun (param, position) => do
    deriveFrom param [← partNode values[position]?]

def walkYield (id : ExprId) (values : List ExprId) : Infer Unit := do
  match (← frame).block with
  | none => problemAt id .noBlock
  | some block =>
    values.forM walk
    match ← construct block with
    | .block params body =>
      checkYield id values 0 ((← frame).yieldTypes.getD [])
      bindParams params values
      deriveFrom id [← partNode body]
    | _ => defectAt id .blockExpected

/-- The variables inside a block: those outside, and its parameters. -/
def blockVars (p : Program) (vars : OrderedMap String NodeId) (params : List ExprId) :
    OrderedMap String NodeId :=
  params.foldl (fun vars param =>
    match p.construct param with
    | .var name => vars.insert name (p.nodeOf param)
    | _ => vars) vars

def walkBlock (id : ExprId) (params : List ExprId) (body : Option ExprId) : Infer Unit := do
  let p ← program
  within
    (fun f =>
      { f with vars := blockVars p f.vars params, insideBlock := some id, loops := [] })
    (fun before f =>
      { f with vars := before.vars, insideBlock := before.insideBlock, loops := before.loops })
    (body.forM walk)
  deriveFrom id [← partNode body]

end TypeFlow.Infer

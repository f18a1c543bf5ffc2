import TypeFlow.Inference.Monad

/-!
# Types and constants by name

`denotedType` walks an expression that must denote a type. A constant is only evaluated when it is
read, in the surroundings it was declared in; meanwhile it is on the stack of constants being
evaluated, and reading it again is an error. Afterwards it is done, whether its value could be
typed or not.
-/

namespace TypeFlow.Infer

variable (walk : Step)

/-- The type that an expression denotes. -/
def denotedType (id : ExprId) : Infer TypeId := do
  walk id
  let p ← program
  match p.typeOf id with
  | some type =>
    if p.types.isMetaclass type then return p.types.described type
    else problemAt id (.notAType (p.path id))
  | none => problemAt id (.notAType (p.path id))

/-- The constants that a recursive one depends on, from itself to itself. -/
def dependencyChain (p : Program) (id : ConstantId) : List String :=
  (p.evaluating.reverse.dropWhile (· ≠ id)).map p.qualifiedName ++ [p.qualifiedName id]

/-- Walks the value of a constant for an expression that reads it. -/
def evaluateConstant (reference : ExprId) (id : ConstantId) : Infer Unit := do
  let p ← program
  let c := p.constant id
  match c.state with
  | .done => return
  | .evaluating =>
    problemAt reference (.recursiveConstant (p.qualifiedName id) (dependencyChain p id))
  | .pending =>
    modifyProgram fun p =>
      { p.setConstantState id .evaluating with evaluating := id :: p.evaluating }
    let place ← locationOf c.value
    let outcome ← observing <|
      inFrame { scope := c.scope, enclosing := c.enclosing } (walk c.value)
    modifyProgram fun p => { p.setConstantState id .done with evaluating := p.evaluating.tail }
    match outcome with
    | .ok _ => return
    | .error (.error e) => fail (chain c.value place (.evaluatingConstant (p.qualifiedName id)) e)
    | .error .exhausted => throw .exhausted
where
  /-- Runs a step and answers how it ended. -/
  observing (step : Infer Unit) : Infer (Except Failure Unit) :=
    fun setting => ExceptT.mk do
      let result ← (step setting).run
      return .ok result

/-- Evaluates the constants that nothing has read. -/
def evaluateRemaining : Infer Unit := do
  (← program).pendingConstants.forM fun id => do
    let c := (← program).constant id
    if c.state = .pending then evaluateConstant walk c.value id

def walkPath (id : ExprId) (names : List String) (fromRoot : Bool) : Infer Unit := do
  let t ← types
  let scope ← nameScope
  match if fromRoot then t.resolveRootPath names else t.resolvePath scope names with
  | some (.type type) => giveType id (← metaclassOf type)
  | some (.const const) =>
    evaluateConstant walk id const
    let p ← program
    deriveFrom id [p.nodeOf (p.constant const).value]
  | none => problemAt id (.uninitializedConstant names)

/-- The type that the constant at the end of a path is declared in. -/
def constantHolder (target : ExprId) (path : List String) : Infer TypeId := do
  if path.isEmpty then innermostType
  else
    match (← types).resolvePath (← nameScope) path with
    | some (.type owner) => return owner
    | _ => problemAt target (.uninitializedConstant path)

/-- Declares a constant, whose value is left for later. -/
def declareConstant (id target : ExprId) (names : List String) (value : ExprId) : Infer Unit := do
  match names.getLast? with
  | none => defectAt target .emptyConstantPath
  | some name =>
    let owner ← constantHolder target names.dropLast
    if ((← types).get owner).types.contains name then problemAt id (.alreadyInitialized names)
    let f ← frame
    modifyProgram fun p => p.addConstant
      { owner, name, value, enclosing := f.enclosing, scope := f.scope, state := .pending }
    let node ← nodeOf value
    deriveFrom target [node]
    deriveFrom id [node]

end TypeFlow.Infer

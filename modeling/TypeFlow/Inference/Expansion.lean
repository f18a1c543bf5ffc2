import TypeFlow.Expr.Copy
import TypeFlow.Inference.Resolution

/-!
# Generated code

A call without receiver that names a macro is not resolved but expanded: an expander makes source
text for it, the parser turns the text into a tree, and the tree is walked in the place of the
call, which then has its type. Calls of one macro with arguments of the same kinds share an
expander, and the number of expansions inside each other is bounded.
-/

namespace TypeFlow.Infer

variable (walk : Step)

/-- The macro that a call without receiver names, in scope or else in the program. -/
def macroOf (t : Types) (scope : TypeId) (name : String) (arity : Nat) : Option ExprId :=
  match t.findMacro scope (name, arity) with
  | some definition => some definition
  | none => t.findMacro .program (name, arity)

/-- The expander for a macro and kinds of arguments, which is built the first time. -/
def expanderFor (definition : ExprId) (args : List ExprId) : Infer Expander := do
  let s := (← get).session
  let kinds := args.map fun arg => (s.program.construct arg).kind
  let key : ExpanderKey := { definition, kinds }
  match s.expanders.get? key with
  | some expander => return expander
  | none =>
    let expander := (← read).tools.buildExpander s.program definition
    modifyJournal fun j => { j with builds := j.builds + 1 }
    modifySession fun s => { s with expanders := s.expanders.insert key expander }
    return expander

/-- The source text for a call. -/
def expand (expander : Expander) (call : ExprId) : Infer String := do
  modifyJournal fun j => { j with expansions := j.expansions + 1 }
  match expander (← program) call with
  | .ok source => return source
  | .error e => fail e

/-- The tree that generated source stands for. -/
def parseGenerated (source file : String) : Infer Tree := do
  let visible := (← frame).vars.keys
  modifyJournal fun j => { j with parses := j.parses.push (file, visible) }
  match (← read).tools.parse source file visible with
  | .ok tree => return tree
  | .error e => fail e.toError

def lowerTree (tree : Tree) : Infer ExprId := do
  match ← updateProgram fun p => p.lower tree with
  | .ok id => return id
  | .error e => fail e

/-- Runs a step as part of one more expansion. -/
def inExpansion {α : Type} (step : Infer α) : Infer α :=
  fun setting => ExceptT.mk do
    modify (changeDepth (· + 1))
    let result ← (step setting).run
    modify (changeDepth (· - 1))
    return result
where
  changeDepth (f : Nat → Nat) (s : WalkState) : WalkState :=
    { s with session := { s.session with program :=
      { s.session.program with expansionDepth := f s.session.program.expansionDepth } } }

/-- Parses and walks generated source. -/
def typeExpansion (source file : String) : Infer ExprId := do
  let tree ← parseGenerated source file
  let normalize := (← read).tools.normalize
  let tree ← updateProgram fun p => normalize p tree
  let generated ← lowerTree tree
  inExpansion (walk generated)
  return generated

/-- Reports what is wrong with generated source at the call that it was made for. -/
def expansionError (call : ExprId) (place : Option Location) (source : String) (e : Diagnostic) :
    Diagnostic :=
  if e.isInternal then e
  else .typeError (.invalidExpansion source (e.render (some source))) (some call) place none

/-- Expands the calls of a macro. -/
def expandCall (call definition : ExprId) (name : String) (args : List ExprId) : Infer Unit := do
  let limit := (← read).options.maxExpansionDepth
  if limit ≤ (← program).expansionDepth then problemAt call (.expansionTooDeep limit)
  let expander ← expanderFor definition args
  let source ← expand expander call
  let place ← locationOf call
  let generated ← mapError (expansionError call place source)
    (typeExpansion walk source s!"expanded macro {name}")
  modifyProgram fun p => { p with expansions := p.expansions.insert call generated }
  deriveFrom call [← nodeOf generated]

/-- The macro that a call is to be expanded by, if it is. -/
def macroFor (receiver : Option ExprId) (name : String) (args : List ExprId) :
    Infer (Option ExprId) := do
  if receiver.isSome ∨ name = "super" then return none
  return macroOf (← types) (← nameScope) name args.length

def walkCall (id : ExprId) (receiver : Option ExprId) (name : String) (args : List ExprId)
    (block : Option ExprId) : Infer Unit := do
  let scope ← typeOfSelf
  modifyProgram fun p => { p with callScopes := p.callScopes.insert id scope }
  match ← macroFor receiver name args with
  | some definition => expandCall walk id definition name args
  | none =>
    (receiver.toList ++ args).forM fun input => do
      let node ← nodeOf input
      modifyGraph fun g => g.addObserver node (.call id)
    resolve walk id
    receiver.forM walk
    args.forM walk
    block.forM fun block => doing id (.givingBlockTo name) (walk block)

end TypeFlow.Infer

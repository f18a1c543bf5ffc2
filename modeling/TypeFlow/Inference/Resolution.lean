import TypeFlow.Expr.Copy
import TypeFlow.Inference.Primitives
import TypeFlow.Text

/-!
# Resolving calls

`resolve` selects the methods that a call may reach, one for each type its receiver can have, and
binds the call to their results. A method is found by name and number of arguments. It is typed
once for each combination of receiver, argument types and block; a call that needs a combination
which is still being typed is bound to its result, so that recursion ends.

Allocation, the functions of libs and the fields of structures are built in.
-/

namespace TypeFlow.Infer

variable (walk : Step)

/-- A call that is being resolved. -/
structure Resolution where
  call : ExprId
  name : String
  args : List TypeId
  block : Option ExprId
  /-- Whether the call has no receiver, and so may reach methods of the program. -/
  implicit : Bool

/-- The one node for known values of a type. -/
def knownValue (type : TypeId) : Infer NodeId := do
  match (← get).session.memo.values.get? type with
  | some node => return node
  | none =>
    let node ← addValue type
    modifyMemo fun m => { m with values := m.values.insert type node }
    return node

/-! ### Method instances -/

/-- The type that a copy of a declared type denotes. -/
def declaredType (id : ExprId) (unknown : Problem) : Infer TypeId := do
  let copy ← updateProgram fun p => p.copyExpr id
  walk copy
  let p ← program
  match p.typeOf copy with
  | some type => return p.types.described type
  | none => problemAt copy unknown

/-- Gives the result of a method the type that it declares, for good. -/
def fixResult (result : NodeId) : Option ExprId → Infer Unit
  | none => return
  | some returnType => do
    let type ← declaredType walk returnType .returnTypeUnknown
    onNetwork (Binding.setType result type)
    modifyGraph fun g => g.freeze result

def typeYields : Option (BlockParam ExprId) → Infer Unit
  | none => return
  | some p => do
    let yieldTypes ← p.inputs.mapM fun input => declaredType walk input .blockInputUnknown
    modifyFrame fun f => { f with yieldTypes := some yieldTypes }

/-- The node of the value of a copy of a body. -/
def bodyNode : Option ExprId → Infer NodeId
  | none => return Program.nilNode
  | some body => do
    let copy ← updateProgram fun p => p.copyExpr body
    walk copy
    nodeOf copy

/-- Types a method in a frame that is set up for it. -/
def typeMethod (result : NodeId) (body returnType : Option ExprId)
    (blockParam : Option (BlockParam ExprId)) : Infer Unit := do
  fixResult walk result returnType
  typeYields walk blockParam
  let value ← bodyNode walk body
  let place := body.bind (← program).location
  mapError (Diagnostic.placedAt place) (bind result [value])

/-- The variables that a method starts with: `self` and its parameters. -/
def paramVars : List (String × TypeId) → OrderedMap String NodeId →
    Infer (OrderedMap String NodeId)
  | [], vars => return vars
  | (name, type) :: rest, vars => do
    let node ← addValue type
    paramVars rest (vars.insert name node)

/-- The node of a method's result for a receiver of type `owner`. -/
def methodResult (call : ExprId) (owner : TypeId) (definition : ExprId) (args : List TypeId)
    (block : Option ExprId) : Infer NodeId := do
  let key : MethodInstance := { owner, definition, args, block }
  match (← get).session.memo.instances.get? key with
  | some node => return node
  | none =>
    match ← construct definition with
    | .methodDef _ name params body returnType blockParam =>
      let result ← addVar
      modifyMemo fun m => { m with instances := m.instances.insert key result }
      let vars ← paramVars (("self", owner) :: params.zip args) ∅
      let t ← types
      doing call (.instantiating (t.name owner) name (args.map t.name)) <|
        inFrame { vars, scope := some owner, result := some result, block } <|
          typeMethod walk result body returnType blockParam
      return result
    | _ => defectAt definition .methodExpected

/-! ### Built-in calls -/

def allocation (call : ExprId) (type : TypeId) : Infer NodeId := do
  requireAllocatable call type
  knownValue type

/-- Allocates an instance and runs the constructor that fits the arguments. Without arguments
there need not be one. -/
def construction (call : ExprId) (type : TypeId) (args : List TypeId) : Infer NodeId := do
  let node ← allocation call type
  let t ← types
  match t.findMethod type (Program.constructorName, args.length) with
  | some definition =>
    let _ ← methodResult walk call type definition args none
  | none =>
    if !args.isEmpty then
      let constructor := t.name type ++ "#" ++ Program.constructorName
      problemAt call (.argumentCount constructor args.length 0)
  return node

/-- Checks arguments against declared ones, as far as both go. -/
def checkArguments (call : ExprId) (method : String) (position : Nat) :
    List (TypeId × TypeId) → Infer Unit
  | [] => return
  | (actual, expected) :: rest => do
    if actual ≠ expected then
      problemAt call (.argumentType (position + 1) method (← nameOf expected) (← nameOf actual))
    checkArguments call method (position + 1) rest

def externalCall (call : ExprId) (lib : TypeId) (name : String) (signature : Signature)
    (args : List TypeId) : Infer NodeId := do
  let method := (← nameOf lib) ++ "." ++ name
  let fits :=
    if signature.varargs then signature.args.length ≤ args.length
    else args.length = signature.args.length
  if !fits then problemAt call (.argumentCount method args.length signature.args.length)
  checkArguments call method 0 (args.zip signature.args)
  knownValue signature.returnType

/-- The name of the field that a setter sets. -/
def setterField? (name : String) : Option String := Text.beforeLast? '=' name

/-- Reads or sets a field, if the call does that. -/
def fieldCall (call : ExprId) (receiver : TypeId) (fields : OrderedMap String TypeId)
    (name : String) (args : List TypeId) : Infer (Option NodeId) := do
  match fields.get? name, args with
  | some field, [] => return some (← knownValue field)
  | _, [actual] =>
    match setterField? name with
    | none => return none
    | some fieldName =>
      match fields.get? fieldName with
      | none => return none
      | some field =>
        if field ≠ actual then
          let t ← types
          problemAt call
            (.memberExpects fieldName (t.name receiver) (t.name field) (t.name actual))
        return some (← knownValue field)
  | _, _ => return none

/-- The node of a call that needs no method, if the receiver has such a call. -/
def builtinCall (r : Resolution) (receiver : TypeId) : Infer (Option NodeId) := do
  let t ← types
  match t.kind receiver with
  | .metaclass subject =>
    if r.name = "allocate" ∧ r.args.isEmpty then return some (← allocation r.call subject)
    else if r.name = "new" ∧ (t.findMethod receiver ("new", r.args.length)).isNone then
      return some (← construction walk r.call subject r.args)
    else if t.isLib subject then
      match (t.get subject).funs.get? r.name with
      | some signature => return some (← externalCall r.call subject r.name signature r.args)
      | none => return none
    else return none
  | .cStruct fields | .cUnion fields => fieldCall r.call receiver fields r.name r.args
  | _ => return none

/-! ### Targets -/

/-- The method that a call reaches on a type. -/
def selectDef (t : Types) (r : Resolution) (receiver : TypeId) : Option ExprId :=
  let key := (r.name, r.args.length)
  match t.findMethod receiver key with
  | some definition => some definition
  | none => if r.implicit then t.findMethod .program key else none

/-- The node that a call is bound to for one type of its receiver. -/
def targetFor (r : Resolution) (receiver : TypeId) : Infer NodeId := do
  match ← builtinCall walk r receiver with
  | some node => return node
  | none =>
    let t ← types
    match selectDef t r receiver with
    | some definition => methodResult walk r.call receiver definition r.args r.block
    | none => problemAt r.call (.undefinedMethod r.name (t.name receiver))

def targetsFor (r : Resolution) (targets : List NodeId) : List TypeId → Infer (List NodeId)
  | [] => return targets
  | receiver :: rest => do
    let target ← targetFor walk r receiver
    targetsFor r (insertLast targets target) rest

/-- Binds a call to targets in the place of those it had. -/
def rebind (call : ExprId) (targets : List NodeId) : Infer Unit := do
  let node ← nodeOf call
  let previous := (← get).session.memo.targets.get? call
  if previous ≠ some targets then
    modifyGraph fun g => g.unbind node (previous.getD [])
    modifyMemo fun m => { m with targets := m.targets.insert call targets }
    mapError (Diagnostic.placedAt (← locationOf call)) (bind node targets)

/-- The types that a call is resolved for, one after the other. -/
def receiverTypes (p : Program) (call : ExprId) : Option ExprId → List TypeId
  | some receiver =>
    match p.typeOf receiver with
    | none => []
    | some type =>
      match p.types.kind type with
      | .union members => members
      | .noReturn => []
      | _ => [type]
  | none => (p.callScopes.get? call).toList

/-- Selects the targets of a call whose receiver and arguments are typed. -/
def bindToTargets (call : ExprId) : Infer Unit := do
  let p ← program
  if p.expansions.contains call then return
  match p.construct call with
  | .call receiver name args block =>
    match args.mapM p.typeOf with
    | none => return
    | some argTypes =>
      let receivers := receiverTypes p call receiver
      if receivers.isEmpty then return
      let r : Resolution :=
        { call, name, args := argTypes, block, implicit := receiver.isNone }
      let targets ← targetsFor walk r [] receivers
      match block with
      | none => rebind call targets
      | some block =>
        let breakNode ← updateProgram fun p => p.breakNodeOf block
        rebind call (targets ++ [breakNode])
  | _ => return

/-- What a call looks like at this moment. -/
def requestOf (p : Program) (call : ExprId) : Option CallRequest :=
  match p.construct call with
  | .call receiver name args _ => some
    { receiver := receiver.map p.typeOf, name, args := args.map p.typeOf }
  | _ => none

/-- Has a call resolved. -/
def resolve (call : ExprId) : Infer Unit := do
  match requestOf (← program) call with
  | some request => modifyJournal fun j => { j with calls := j.calls.push request }
  | none => pure ()
  if (← read).tools.resolvesCalls then bindToTargets walk call

/-- Resolves the calls that wait in the queue, and those that this puts there. -/
def resolvePending : Nat → Infer Unit
  | 0 => throw .exhausted
  | fuel + 1 => do
    match (← program).graph.nextCall? with
    | none => return
    | some (call, graph) =>
      modifyProgram fun p => { p with graph }
      resolve walk call
      resolvePending fuel

end TypeFlow.Infer

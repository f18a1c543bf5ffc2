import TypeFlow.Inference.Libs

/-!
# Expressions of types, and the bodies of built-in methods

Expressions that work on types, and those that only occur in the bodies of methods that come with
the language: access to the fields of structures, allocation, and operations on pointers.
-/

namespace TypeFlow.Infer

variable (walk : Step)

def walkEither (id left right : ExprId) : Infer Unit := do
  walk left
  walk right
  deriveFrom id [← nodeOf left, ← nodeOf right]

def walkTypeUnion (id : ExprId) (members : List ExprId) : Infer Unit := do
  let members ← members.mapM (denotedType walk)
  match ← updateTypes fun t => t.join members with
  | some union => giveType id (← metaclassOf union)
  | none => defectAt id .emptyTypeUnion

def walkGenericInstance (id name : ExprId) (args : List ExprId) : Infer Unit := do
  let generic ← denotedType walk name
  let args ← args.mapM (denotedType walk)
  match (← types).applyGeneric generic args with
  | .ok (type, t) =>
    modifyProgram fun p => { p with types := t }
    giveType id (← metaclassOf type)
  | .error e => problemAt id e.problem

def walkIsA (id object type : ExprId) : Infer Unit := do
  walk object
  let target ← denotedType walk type
  giveType id .bool
  match ← construct object with
  | .var name => setExprGuard id (some (.singleton name (.isA target)))
  | _ => pure ()

def walkTypeOf (id : ExprId) (values : List ExprId) : Infer Unit := do
  values.forM walk
  deriveFrom id (values.map (← program).nodeOf)

/-- Takes a pointer to what holds a variable, or to a value. -/
def walkPointerOf (id target : ExprId) : Infer Unit := do
  let slot ← match ← construct target with
    | .var name => localVar name
    | .instanceVar name => instanceVar target name
    | _ =>
      walk target
      nodeOf target
  deriveFrom target [slot]
  deriveFrom id [slot]

/-! ### Fields -/

/-- The type of a field of `self`. -/
def selfField (id : ExprId) (name : String) : Infer TypeId := do
  let scope ← typeOfSelf
  let t ← types
  let field := match t.kind scope with
    | .cStruct fields | .cUnion fields => fields.get? name
    | _ => none
  match field with
  | some type => return type
  | none => problemAt id (.notAField name (t.name scope))

/-- The node of an argument of the built-in method being typed. -/
def operand (id : ExprId) (name : String) : Infer NodeId := do
  match (← frame).vars.get? name with
  | some node => return node
  | none => defectAt id (.missingOperand name)

def walkFieldGet (id : ExprId) (name : String) : Infer Unit := do
  giveType id (← selfField id name)

def walkFieldSet (id : ExprId) (name : String) : Infer Unit := do
  let field ← selfField id name
  let value ← operand id "value"
  let p ← program
  match p.graph.typeOf value with
  | some actual =>
    if actual ≠ field then
      problemAt id (.fieldExpects name (p.types.name field) (p.types.name actual))
  | none => pure ()
  giveType id field

/-! ### Allocation -/

/-- Fails for a class that has no instances as it is. -/
def requireAllocatable (id : ExprId) (type : TypeId) : Infer Unit := do
  let t ← types
  match t.kind type with
  | .classType head =>
    if head.typeVars.isSome then problemAt id (.genericAllocation (t.name type))
    if head.isAbstract then problemAt id (.abstractAllocation (t.name type))
  | _ => pure ()

def walkClassOfSelf (id : ExprId) : Infer Unit := do
  let scope ← typeOfSelf
  giveType id (← metaclassOf scope)

def walkAllocate (id : ExprId) : Infer Unit := do
  let scope ← typeOfSelf
  let type := (← types).described scope
  requireAllocatable id type
  giveType id type

/-! ### Pointers -/

/-- The pointer type that `self` is, and the type it points to. -/
def selfPointer (id : ExprId) : Infer (TypeId × TypeId) := do
  let scope ← typeOfSelf
  let p ← program
  let type := p.types.described scope
  match p.types.kind type with
  | .applied generic args =>
    if generic = .pointer then
      match args with
      | element :: _ => return (type, element)
      | [] => defectAt id .pointerWithoutElement
    else problemAt id (.outsidePointer (p.construct id).kind (p.types.name type))
  | _ => problemAt id (.outsidePointer (p.construct id).kind (p.types.name type))

/-- An operation that answers a pointer of the same type. -/
def walkSamePointer (id : ExprId) : Infer Unit := do
  let (pointer, _) ← selfPointer id
  giveType id pointer

def walkPointerGet (id : ExprId) : Infer Unit := do
  let (_, element) ← selfPointer id
  giveType id element

def walkPointerSet (id : ExprId) : Infer Unit := do
  let _ ← selfPointer id
  deriveFrom id [← operand id "value"]

def walkPointerCast (id : ExprId) : Infer Unit := do
  let target ← operand id "type"
  let p ← program
  match p.graph.typeOf target with
  | none => return
  | some type =>
    let pointer ← updateTypes fun t => t.pointerTo (t.described type)
    giveType id pointer

end TypeFlow.Infer

import TypeFlow.Inference.Control

/-!
# Methods, classes and modules

Declarations fill the table of types. A class or module that is declared again is reopened: what
it is cannot change, and its body adds to it. All declarations have the type `Nil`.
-/

namespace TypeFlow.Infer

variable (walk : Step)

/-- The type that a method is declared on: the enclosing one, or the metaclass that the receiver
names. -/
def methodHolder : Option ExprId → Infer TypeId
  | none => innermostType
  | some receiver => do
    match ← construct receiver with
    | .var "self" => metaclassOf (← innermostType)
    | _ => metaclassOf (← denotedType walk receiver)

def walkMethodDef (id : ExprId) (receiver : Option ExprId) (name : String) (params : List String) :
    Infer Unit := do
  let owner ← methodHolder walk receiver
  modifyProgram fun p => p.addMethod owner (name, params.length) id
  giveType id .nil

def walkMacroDef (id : ExprId) (receiver : Option ExprId) (name : String) (params : List String) :
    Infer Unit := do
  let owner ← methodHolder walk receiver
  modifyProgram fun p => p.modifyTypes fun t => t.addMacroDef owner (name, params.length) id
  giveType id .nil

/-- What a name stands for in the innermost enclosing type. -/
def declaredHere (name : String) : Infer (Option Named) := do
  return ((← types).get (← innermostType)).types.get? name

/-- Declares a type in the innermost enclosing one. -/
def declareHere (name : String) (kind : TypeKind) : Infer TypeId := do
  let owner ← innermostType
  updateTypes fun t => t.declare owner name kind

def walkBodyIn (type : TypeId) (body : Option ExprId) : Infer Unit :=
  inType type (body.forM walk)

/-- The superclass that a class names. -/
def superclassExpr : Option ExprId → Infer (Option TypeId)
  | none => return none
  | some superclass => do
    let parent ← denotedType walk superclass
    match (← types).kind parent with
    | .classType _ | .applied _ _ => return some parent
    | _ => problemAt superclass (.notAClass (← nameOf parent))

/-- A class that is declared already, if it is one and has the superclass that is asked for. -/
def reopenClass (id : ExprId) (name : String) (parent : Option TypeId) : Named → Infer TypeId
  | .const _ => problemAt id (.notAClass name)
  | .type existing => do
    let t ← types
    match t.kind existing with
    | .classType _ =>
      let previous := t.superclass existing
      if parent.isSome && parent ≠ previous then
        let found := (parent.map t.name).getD ""
        problemAt id (.superclassMismatch name found ((previous.map t.name).getD "nothing"))
      return existing
    | _ => problemAt id (.notAClass name)

def walkClassDef (id : ExprId) (name : String) (superclass : Option ExprId)
    (typeVars : Option (List String)) (isAbstract : Bool) (body : Option ExprId) : Infer Unit := do
  let parent ← superclassExpr walk superclass
  let type ← match ← declaredHere name with
    | some entry => reopenClass id name parent entry
    | none =>
      declareHere name (.classType
        { superclass := some (parent.getD .reference), isAbstract, typeVars })
  walkBodyIn walk type body
  giveType id .nil

def walkModuleDef (id : ExprId) (name : String) (typeVars : Option (List String))
    (body : Option ExprId) : Infer Unit := do
  let type ← match ← declaredHere name with
    | some (.type existing) =>
      if (← types).isModule existing then pure existing else problemAt id (.notAModule name)
    | some (.const _) => problemAt id (.notAModule name)
    | none => declareHere name (.moduleType typeVars)
  walkBodyIn walk type body
  giveType id .nil

/-! ### Inclusion -/

def moduleExpr (id : ExprId) : Infer TypeId := do
  let module ← denotedType walk id
  if (← types).isModule module then return module
  else problemAt id (.notAModule (← nameOf module))

/-- What an argument of an included module binds: a parameter of the includer, or a type. -/
def includeArgument (own : List String) (arg : ExprId) : Infer ParamValue := do
  match ← construct arg with
  | .path [name] false =>
    if name ∈ own then return .param name else return .type (← denotedType walk arg)
  | _ => return .type (← denotedType walk arg)

/-- The arguments of an included module under the names of its parameters. -/
def inclusionBindings (own : List String) (bindings : OrderedMap String ParamValue) :
    List (String × ExprId) → Infer (OrderedMap String ParamValue)
  | [] => return bindings
  | (param, arg) :: rest => do
    let bound ← includeArgument walk own arg
    inclusionBindings own (bindings.insert param bound) rest

def inclusionOf (name : ExprId) : Infer Inclusion := do
  match ← construct name with
  | .genericInstance moduleName args =>
    let module ← moduleExpr walk moduleName
    let t ← types
    match t.typeVars module with
    | none => problemAt name (.notGenericModule (t.name module))
    | some params =>
      if params.length ≠ args.length then
        problemAt name (.typeVarCount (t.name module) args.length params.length)
      let own := (t.typeVars (← innermostType)).getD []
      return .generic module (← inclusionBindings walk own ∅ (params.zip args))
  | _ =>
    let module ← moduleExpr walk name
    if (← types).isGeneric module then problemAt name (.genericModule (← nameOf module))
    return .plain module

def walkInclude (id name : ExprId) : Infer Unit := do
  let inclusion ← inclusionOf walk name
  let owner ← innermostType
  modifyProgram fun p => p.modifyTypes fun t => t.includeModule owner inclusion
  giveType id .nil

end TypeFlow.Infer

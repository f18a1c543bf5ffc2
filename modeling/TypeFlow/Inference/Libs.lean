import TypeFlow.Inference.Declarations

/-!
# Libs

A lib describes external functions and data. Only primitive types and the types of libs are
allowed in it, behind any number of pointers. Its types are declared once; a function may be
declared again with the same signature.
-/

namespace TypeFlow.Infer

variable (walk : Step)

def walkLibDef (id : ExprId) (name : String) (libname : Option String) (body : Option ExprId) :
    Infer Unit := do
  let type ← match ← declaredHere name with
    | some (.type existing) =>
      if (← types).isLib existing then pure existing else problemAt id (.notALib name)
    | some (.const _) => problemAt id (.notALib name)
    | none => declareHere name (.lib libname)
  walkBodyIn walk type body
  giveType id .nil

/-- The concrete type that was probably meant. -/
def libSuggestion (type : TypeId) : Option String :=
  if type = .int then some "Int32"
  else if type = .float then some "Float64"
  else none

/-- A type in a lib, behind a number of pointers. -/
def externalType (id : ExprId) (pointers : Nat) : Infer TypeId := do
  let type ← denotedType walk id
  if !(← types).isLibType type then problemAt id (.notAllowedInLib (libSuggestion type))
  updateTypes fun t => t.pointersTo type pointers

def externalFields (known : OrderedMap String TypeId) :
    List (Field ExprId) → Infer (OrderedMap String TypeId)
  | [] => return known
  | field :: rest => do
    let type ← externalType walk field.type field.pointers
    externalFields (known.insert field.name type) rest

/-- Fails if a name is taken in the innermost enclosing type. -/
def requireUndeclared (id : ExprId) (name : String) : Infer Unit := do
  if (← declaredHere name).isSome then problemAt id (.alreadyDefined name)

def walkAliasDef (id : ExprId) (name : String) (type : ExprId) (pointers : Nat) : Infer Unit := do
  requireUndeclared id name
  let target ← externalType walk type pointers
  let _ ← declareHere name (.alias target)
  giveType id .nil

def walkFieldsDef (id : ExprId) (name : String) (fields : List (Field ExprId))
    (kind : OrderedMap String TypeId → TypeKind) : Infer Unit := do
  requireUndeclared id name
  let fields ← externalFields walk ∅ fields
  let _ ← declareHere name (kind fields)
  giveType id .nil

/-- The values of the constants of an enum: a constant without one is one more than the constant
before it, or zero. -/
def enumValues (known : OrderedMap String Int) (next : Int) :
    List EnumConstant → OrderedMap String Int
  | [] => known
  | c :: rest =>
    let value := c.value.getD next
    enumValues (known.insert c.name value) (value + 1) rest

def walkEnumDef (id : ExprId) (name : String) (constants : List EnumConstant) : Infer Unit := do
  requireUndeclared id name
  let _ ← declareHere name (.cEnum (enumValues ∅ 0 constants))
  giveType id .nil

def signatureText (t : Types) (name : String) (s : Signature) : String :=
  let args := s.args.map t.name ++ (if s.varargs then ["..."] else [])
  s!"fun {name}(" ++ ", ".intercalate args ++ ") : " ++ t.name s.returnType

def walkFunDef (id : ExprId) (name realName : String) (args : List (Field ExprId))
    (returnType : Option ExprId) (varargs : Bool) : Infer Unit := do
  let owner ← innermostType
  let argTypes ← args.mapM fun arg => externalType walk arg.type arg.pointers
  let result ← match returnType with
    | some type => externalType walk type 0
    | none => pure .nil
  let signature : Signature := { realName, args := argTypes, returnType := result, varargs }
  let t ← types
  match (t.get owner).funs.get? name with
  | some previous =>
    if previous ≠ signature then problemAt id (.funRedefinition (signatureText t name previous))
  | none => pure ()
  modifyProgram fun p => p.modifyTypes fun t => t.addFun owner name signature
  giveType id .nil

end TypeFlow.Infer

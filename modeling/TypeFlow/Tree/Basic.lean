/-!
# Program trees

A `Construct α` is one construct of the language whose immediate parts are of type `α`. Trees put
trees there, the expression table puts identifiers. The parts of a construct are always taken in
the order in which its constructor lists them: `children` is that order, and `traverse` follows
it.

A `Tree` is a construct or one of the `Sugar` constructs, which abbreviate others and have no
meaning of their own here.
-/

namespace TypeFlow

/-- A position in a source text; lines and columns count from one. -/
structure Location where
  file : Option String
  line : Nat
  column : Nat
  deriving DecidableEq, Inhabited, Repr

def Location.text (l : Location) : String :=
  let position := toString l.line ++ ":" ++ toString l.column
  match l.file with
  | some file => file ++ ":" ++ position
  | none => position

/-- Width and signedness of a number literal. -/
inductive NumberKind where
  | i8 | i16 | i32 | i64 | u8 | u16 | u32 | u64 | f32 | f64
  deriving DecidableEq, Repr

namespace NumberKind

def all : List NumberKind := [i8, i16, i32, i64, u8, u16, u32, u64, f32, f64]

def suffix : NumberKind → String
  | i8 => "i8"
  | i16 => "i16"
  | i32 => "i32"
  | i64 => "i64"
  | u8 => "u8"
  | u16 => "u16"
  | u32 => "u32"
  | u64 => "u64"
  | f32 => "f32"
  | f64 => "f64"

/-- The kinds of literals without a suffix. -/
def isDefault : NumberKind → Bool
  | i32 | f64 => true
  | _ => false

end NumberKind

/-- The short-circuit operator that a conditional stands for. -/
inductive ShortCircuit where
  | and | or
  deriving DecidableEq, Repr

/-- A named part of a declaration in a lib, with a type behind a number of pointers. -/
structure Field (α : Type) where
  name : String
  type : α
  pointers : Nat
  deriving DecidableEq, Repr

structure EnumConstant where
  name : String
  value : Option Int
  deriving DecidableEq, Repr

/-- The block parameter of a method, with the types it is given when the method declares them. -/
structure BlockParam (α : Type) where
  name : String
  inputs : List α
  deriving DecidableEq, Repr

inductive Construct (α : Type) where
  | nop
  | nilLiteral
  | boolLiteral (value : Bool)
  | charLiteral (value : Char)
  | numberLiteral (text : String) (kind : NumberKind)
  | stringLiteral (value : String)
  | symbolLiteral (value : String)
  | sequence (items : List α)
  | var (name : String)
  | instanceVar (name : String)
  | globalVar (name : String)
  | path (names : List String) (fromRoot : Bool)
  | declareVar (name : String) (type : α)
  | assign (target value : α)
  | multiAssign (targets values : List α)
  | conditional (cond : α) (onTrue onFalse : Option α) (operator : Option ShortCircuit)
  | loop (cond : α) (body : Option α) (runOnce : Bool)
  | breakOut (values : List α)
  | returnFrom (values : List α)
  | yieldTo (values : List α)
  | call (receiver : Option α) (name : String) (args : List α) (block : Option α)
  | block (params : List α) (body : Option α)
  | methodDef (receiver : Option α) (name : String) (params : List String)
      (body returnType : Option α) (blockParam : Option (BlockParam α))
  | macroDef (receiver : Option α) (name : String) (params : List String) (body : Option α)
  | classDef (name : String) (superclass : Option α) (typeVars : Option (List String))
      (isAbstract : Bool) (body : Option α)
  | moduleDef (name : String) (typeVars : Option (List String)) (body : Option α)
  | includeModule (name : α)
  | libDef (name : String) (libname : Option String) (body : Option α)
  | funDef (name realName : String) (args : List (Field α)) (returnType : Option α) (pointers : Nat)
      (varargs : Bool)
  | aliasDef (name : String) (type : α) (pointers : Nat)
  | structDef (name : String) (fields : List (Field α))
  | unionDef (name : String) (fields : List (Field α))
  | enumDef (name : String) (constants : List EnumConstant)
  | structGet (name : String)
  | structSet (name : String)
  | unionGet (name : String)
  | unionSet (name : String)
  | classOfSelf
  | allocate
  | eitherValue (left right : α)
  | typeUnion (types : List α)
  | genericInstance (name : α) (args : List α)
  | isA (object type : α)
  | typeOf (values : List α)
  | pointerOf (target : α)
  | pointerMalloc
  | pointerRealloc
  | pointerGetValue
  | pointerSetValue
  | pointerAdd
  | pointerCast
  deriving DecidableEq, Repr

namespace Construct

variable {α β : Type}

/-- The immediate parts, in order. -/
def children : Construct α → List α
  | sequence items => items
  | declareVar _ type => [type]
  | assign target value => [target, value]
  | multiAssign targets values => targets ++ values
  | conditional cond onTrue onFalse _ => cond :: (onTrue.toList ++ onFalse.toList)
  | loop cond body _ => cond :: body.toList
  | breakOut values | returnFrom values | yieldTo values => values
  | call receiver _ args body => receiver.toList ++ args ++ body.toList
  | block params body => params ++ body.toList
  | methodDef receiver _ _ body returnType blockParam =>
    receiver.toList ++ body.toList ++ returnType.toList
      ++ (match blockParam with | some p => p.inputs | none => [])
  | macroDef receiver _ _ body => receiver.toList ++ body.toList
  | classDef _ superclass _ _ body => superclass.toList ++ body.toList
  | moduleDef _ _ body | libDef _ _ body => body.toList
  | includeModule name => [name]
  | funDef _ _ args returnType _ _ => args.map Field.type ++ returnType.toList
  | aliasDef _ type _ => [type]
  | structDef _ fields | unionDef _ fields => fields.map Field.type
  | eitherValue left right => [left, right]
  | typeUnion types => types
  | genericInstance name args => name :: args
  | isA object type => [object, type]
  | typeOf values => values
  | pointerOf target => [target]
  | _ => []

variable {m : Type → Type} [Monad m]

def traverseField (f : α → m β) (field : Field α) : m (Field β) := do
  let type ← f field.type
  return ⟨field.name, type, field.pointers⟩

/-- Puts the results of `f` in the place of the parts, which it meets in order. -/
def traverse (f : α → m β) : Construct α → m (Construct β)
  | nop => pure nop
  | nilLiteral => pure nilLiteral
  | boolLiteral value => pure (boolLiteral value)
  | charLiteral value => pure (charLiteral value)
  | numberLiteral text kind => pure (numberLiteral text kind)
  | stringLiteral value => pure (stringLiteral value)
  | symbolLiteral value => pure (symbolLiteral value)
  | sequence items => do return sequence (← items.mapM f)
  | var name => pure (var name)
  | instanceVar name => pure (instanceVar name)
  | globalVar name => pure (globalVar name)
  | path names fromRoot => pure (path names fromRoot)
  | declareVar name type => do return declareVar name (← f type)
  | assign target value => do
    let target ← f target
    return assign target (← f value)
  | multiAssign targets values => do
    let targets ← targets.mapM f
    return multiAssign targets (← values.mapM f)
  | conditional cond onTrue onFalse operator => do
    let cond ← f cond
    let onTrue ← onTrue.mapM f
    return conditional cond onTrue (← onFalse.mapM f) operator
  | loop cond body runOnce => do
    let cond ← f cond
    return loop cond (← body.mapM f) runOnce
  | breakOut values => do return breakOut (← values.mapM f)
  | returnFrom values => do return returnFrom (← values.mapM f)
  | yieldTo values => do return yieldTo (← values.mapM f)
  | call receiver name args body => do
    let receiver ← receiver.mapM f
    let args ← args.mapM f
    return call receiver name args (← body.mapM f)
  | block params body => do
    let params ← params.mapM f
    return block params (← body.mapM f)
  | methodDef receiver name params body returnType blockParam => do
    let receiver ← receiver.mapM f
    let body ← body.mapM f
    let returnType ← returnType.mapM f
    match blockParam with
    | none => return methodDef receiver name params body returnType none
    | some p => do
      let inputs ← p.inputs.mapM f
      return methodDef receiver name params body returnType (some ⟨p.name, inputs⟩)
  | macroDef receiver name params body => do
    let receiver ← receiver.mapM f
    return macroDef receiver name params (← body.mapM f)
  | classDef name superclass typeVars isAbstract body => do
    let superclass ← superclass.mapM f
    return classDef name superclass typeVars isAbstract (← body.mapM f)
  | moduleDef name typeVars body => do return moduleDef name typeVars (← body.mapM f)
  | includeModule name => do return includeModule (← f name)
  | libDef name libname body => do return libDef name libname (← body.mapM f)
  | funDef name realName args returnType pointers varargs => do
    let args ← args.mapM (traverseField f)
    return funDef name realName args (← returnType.mapM f) pointers varargs
  | aliasDef name type pointers => do return aliasDef name (← f type) pointers
  | structDef name fields => do return structDef name (← fields.mapM (traverseField f))
  | unionDef name fields => do return unionDef name (← fields.mapM (traverseField f))
  | enumDef name constants => pure (enumDef name constants)
  | structGet name => pure (structGet name)
  | structSet name => pure (structSet name)
  | unionGet name => pure (unionGet name)
  | unionSet name => pure (unionSet name)
  | classOfSelf => pure classOfSelf
  | allocate => pure allocate
  | eitherValue left right => do
    let left ← f left
    return eitherValue left (← f right)
  | typeUnion types => do return typeUnion (← types.mapM f)
  | genericInstance name args => do
    let name ← f name
    return genericInstance name (← args.mapM f)
  | isA object type => do
    let object ← f object
    return isA object (← f type)
  | typeOf values => do return typeOf (← values.mapM f)
  | pointerOf target => do return pointerOf (← f target)
  | pointerMalloc => pure pointerMalloc
  | pointerRealloc => pure pointerRealloc
  | pointerGetValue => pure pointerGetValue
  | pointerSetValue => pure pointerSetValue
  | pointerAdd => pure pointerAdd
  | pointerCast => pure pointerCast

end Construct

inductive Sugar (α : Type) where
  | and (left right : α)
  | or (left right : α)
  | require (string : α)
  | rangeLiteral (first last : α) (exclusive : Bool)
  | case (subject : α) (clauses : List α) (otherwise : Option α)
  | when (conds : List α) (body : Option α)
  | regexpLiteral (value : String)
  | arrayLiteral (elements : List α) (elementType : Option α)
  | hashLiteral (keys values : List α) (keyType valueType : Option α)
  | unless (cond : α) (onTrue onFalse : Option α)
  | stringInterpolation (parts : List α)
  deriving DecidableEq, Repr

inductive Tree where
  | plain (construct : Construct Tree) (location : Option Location)
  | sugar (abbreviation : Sugar Tree) (location : Option Location)

instance : Inhabited Tree := ⟨.plain .nop none⟩

namespace Tree

def location : Tree → Option Location
  | plain _ location => location
  | sugar _ location => location

def withLocation (location : Location) : Tree → Tree
  | plain construct _ => plain construct (some location)
  | sugar abbreviation _ => sugar abbreviation (some location)

def isSequence : Tree → Bool
  | plain (.sequence _) _ => true
  | _ => false

end Tree

end TypeFlow

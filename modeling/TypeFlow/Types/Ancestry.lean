import TypeFlow.Diagnostic.Problem
import TypeFlow.Types.Name
import TypeFlow.Types.Join

/-!
# Ancestors and subtypes

`ancestors` is the chain of superclasses, nearest first. A type is a subtype of itself, of the
classes above it and of every module that one of these includes; an instance of a generic class is
a subtype of that class; a union is one if all its members are; `NoReturn` is a subtype of
everything.
-/

namespace TypeFlow

/-- Why a type cannot be given arguments. -/
inductive InstantiationError where
  | notGeneric (name : String)
  | arity (name : String) (found expected : Nat)
  deriving DecidableEq, Repr

def InstantiationError.problem : InstantiationError → Problem
  | notGeneric name => .notGenericClass name
  | arity name found expected => .typeVarCount name found expected

namespace Types

/-- The superclass of a class; an instance of a generic class has that class's. -/
def superclass (t : Types) (id : TypeId) : Option TypeId :=
  match t.kind id with
  | .classType head => head.superclass
  | .applied generic _ =>
    match t.kind generic with
    | .classType head => head.superclass
    | _ => none
  | _ => none

def ancestorsWithin (t : Types) : Nat → TypeId → List TypeId
  | 0, _ => []
  | fuel + 1, id =>
    match t.superclass id with
    | some parent => parent :: t.ancestorsWithin fuel parent
    | none => []

/-- The superclasses, nearest first. A superclass is older than its class. -/
def ancestors (t : Types) (id : TypeId) : List TypeId := t.ancestorsWithin t.size id

def typeVars (t : Types) (id : TypeId) : Option (List String) :=
  match t.kind id with
  | .classType head => head.typeVars
  | .moduleType vars => vars
  | _ => none

def isGeneric (t : Types) (id : TypeId) : Bool := (t.typeVars id).isSome

/-- Gives a generic class its arguments. -/
def applyGeneric (t : Types) (generic : TypeId) (args : List TypeId) :
    Except InstantiationError (TypeId × Types) :=
  match t.kind generic with
  | .classType { typeVars := some vars, .. } =>
    if vars.length = args.length then .ok (t.apply generic args)
    else .error (.arity (t.name generic) args.length vars.length)
  | _ => .error (.notGeneric (t.name generic))

/-- The inclusions of a type; an instance of a generic class has that class's. -/
def inclusions (t : Types) (id : TypeId) : List Inclusion :=
  match t.kind id with
  | .applied generic _ => (t.get generic).includes
  | _ => (t.get id).includes

def includesWithin (t : Types) (module : TypeId) : Nat → TypeId → Bool
  | 0, _ => false
  | fuel + 1, id =>
    (t.inclusions id).any fun inclusion =>
      inclusion.module == module || t.includesWithin module fuel inclusion.module

/-- Whether a type includes a module, directly or through other modules. -/
def includes (t : Types) (id module : TypeId) : Bool := t.includesWithin module t.size id

/-- `isSubtype` for a type that is not a union. -/
def isAtomSubtype (t : Types) (id of : TypeId) : Bool :=
  id == of ||
    match t.kind id with
    | .noReturn => true
    | .applied generic _ =>
      generic == of || (id :: t.ancestors id).any fun a => a == of || t.includes a of
    | _ => (id :: t.ancestors id).any fun a => a == of || t.includes a of

def isSubtype (t : Types) (id of : TypeId) : Bool :=
  id == of ||
    match t.kind id with
    | .union members => members.all fun member => t.isAtomSubtype member of
    | _ => t.isAtomSubtype id of

/-- Whether declarations in a lib may use the type. -/
def isLibType (t : Types) (id : TypeId) : Bool :=
  match t.kind id with
  | .classType head => head.isPrimitive
  | .applied generic _ => generic == .pointer
  | .alias _ | .cStruct _ | .cUnion _ | .cEnum _ => true
  | _ => false

def isModule (t : Types) (id : TypeId) : Bool :=
  match t.kind id with
  | .moduleType _ => true
  | _ => false

def isLib (t : Types) (id : TypeId) : Bool :=
  match t.kind id with
  | .lib _ => true
  | _ => false

def isMetaclass (t : Types) (id : TypeId) : Bool :=
  match t.kind id with
  | .metaclass _ => true
  | _ => false

end Types

end TypeFlow

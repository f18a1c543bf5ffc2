import TypeFlow.Types.Ancestry

/-!
# Looking names up

`resolvePath` resolves a path of names as seen from a type, `resolveRootPath` one that starts at
the program, `findMethod` and `findMacro` find methods. A later inclusion comes before an earlier
one, and what a type declares comes before what it inherits.
-/

namespace TypeFlow.Types

/-- What a parameter name stands for inside an instance of `generic`: an argument of its own, or
what an inclusion binds it to. -/
def argumentFor (t : Types) (generic : TypeId) (args : List TypeId) (name : String) :
    Option TypeId :=
  let own := (t.typeVars generic).getD []
  let argOf (param : String) : Option TypeId := (own.idxOf? param).bind fun i => args[i]?
  if name ∈ own then argOf name
  else go own argOf (t.get generic).includes.reverse
where
  /-- The first inclusion that decides; a parameter passed on to none of the own ones decides
  nothing. -/
  go (own : List String) (argOf : String → Option TypeId) : List Inclusion → Option TypeId
    | [] => none
    | inclusion :: rest =>
      match inclusion.binding? name with
      | some (.type id) => some id
      | some (.param param) => if param ∈ own then argOf param else go own argOf rest
      | none => go own argOf rest

/-- The type that an inclusion binds a parameter to. -/
def boundType? (inclusions : List Inclusion) (name : String) : Option TypeId :=
  inclusions.findSome? fun inclusion =>
    match inclusion.binding? name with
    | some (.type id) => some id
    | _ => none

def memberWithin (t : Types) (name : String) : Nat → TypeId → Option Named
  | 0, _ => none
  | fuel + 1, id =>
    match t.kind id with
    | .metaclass subject => t.memberWithin name fuel subject
    | .applied generic args =>
      match t.argumentFor generic args name with
      | some bound => some (.type bound)
      | none => t.memberWithin name fuel generic
    | _ =>
      match (t.get id).types.get? name with
      | some entry => some entry
      | none =>
        match boundType? (t.get id).includes.reverse name with
        | some bound => some (.type bound)
        | none =>
          match t.superclass id with
          | some parent => t.memberWithin name fuel parent
          | none => none

/-- A name in the namespace of a type or of its superclasses, type parameters included. -/
def member? (t : Types) (id : TypeId) (name : String) : Option Named :=
  t.memberWithin name t.size id

/-- The type that a type was declared in; a metaclass is where its subject is. -/
def containerWithin (t : Types) : Nat → TypeId → Option TypeId
  | 0, _ => none
  | fuel + 1, id =>
    match t.kind id with
    | .metaclass subject => t.containerWithin fuel subject
    | _ => (t.get id).container

def containerOf (t : Types) (id : TypeId) : Option TypeId := t.containerWithin t.size id

def visibleWithin (t : Types) (name : String) : Nat → TypeId → Option Named
  | 0, _ => none
  | fuel + 1, id =>
    match t.member? id name with
    | some entry => some entry
    | none =>
      match t.containerOf id with
      | some container => t.visibleWithin name fuel container
      | none => none

/-- A name as seen from a type: in the type itself, else in the nearest container that has it. -/
def visible? (t : Types) (id : TypeId) (name : String) : Option Named :=
  t.visibleWithin name t.size id

/-- The rest of a path, each name directly inside what the path led to so far. -/
def follow (t : Types) : Named → List String → Option Named
  | entry, [] => some entry
  | .type id, name :: rest =>
    match t.member? id name with
    | some entry => t.follow entry rest
    | none => none
  | .const _, _ :: _ => none

def resolvePath (t : Types) (scope : TypeId) : List String → Option Named
  | [] => none
  | name :: rest =>
    match t.visible? scope name with
    | some entry => t.follow entry rest
    | none => none

def resolveRootPath (t : Types) : List String → Option Named
  | [] => none
  | name :: rest =>
    match (t.get .program).types.get? name with
    | some entry => t.follow entry rest
    | none => none

/-! ### Methods -/

/-- Where the search for a method of a type goes on, in order: at the class of an instance, at the
modules and the superclass of a class, and at the metaclasses of the generic class and of the
superclass for the metaclass of a class. -/
def methodSources (t : Types) (id : TypeId) : List TypeId :=
  match t.kind id with
  | .applied generic _ => [generic]
  | .metaclass subject =>
    (match t.kind subject with
      | .applied generic _ => (t.metaclass? generic).toList
      | _ => []) ++ ((t.superclass subject).bind t.metaclass?).toList
  | _ => (t.get id).includes.reverse.map Inclusion.module ++ (t.superclass id).toList

def methodWithin (t : Types) (methods : TypeEntry → OrderedMap MethodKey ExprId)
    (key : MethodKey) : Nat → TypeId → Option ExprId
  | 0, _ => none
  | fuel + 1, id =>
    match (methods (t.get id)).get? key with
    | some definition => some definition
    | none => (t.methodSources id).findSome? (t.methodWithin methods key fuel)

/-- A walk through superclasses, modules and metaclasses meets no type twice. -/
def findIn (t : Types) (methods : TypeEntry → OrderedMap MethodKey ExprId)
    (id : TypeId) (key : MethodKey) : Option ExprId :=
  t.methodWithin methods key t.size id

def findMethod (t : Types) (id : TypeId) (key : MethodKey) : Option ExprId :=
  t.findIn TypeEntry.defs id key

def findMacro (t : Types) (id : TypeId) (key : MethodKey) : Option ExprId :=
  t.findIn TypeEntry.macros id key

end TypeFlow.Types

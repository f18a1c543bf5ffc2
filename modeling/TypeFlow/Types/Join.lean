import TypeFlow.Types.Builtin

/-!
# Joins, metaclasses and instances

`join` flattens unions, sorts their members and keeps each once, and drops `NoReturn` beside
anything else. Unions, instances of generic classes and metaclasses are remembered when they are
made, and found again when their parts are the same, so that equal types have equal identifiers.
-/

namespace TypeFlow

/-- Adds an identifier to an increasing list, unless it is there. -/
def insertSorted (id : TypeId) : List TypeId → List TypeId
  | [] => [id]
  | other :: rest =>
    if id.index < other.index then id :: other :: rest
    else if id = other then other :: rest
    else other :: insertSorted id rest

def sortIds (ids : List TypeId) : List TypeId := ids.foldr insertSorted []

/-- The members of a join of types that are not unions: `NoReturn` stays only when it is alone. -/
def canonicalMembers (ids : List TypeId) : List TypeId :=
  let sorted := sortIds ids
  if 1 < sorted.length then sorted.filter (· ≠ TypeId.noReturn) else sorted

namespace Types

/-- The members of a union, or the type alone. -/
def atoms (t : Types) (id : TypeId) : List TypeId :=
  match t.kind id with
  | .union members => members
  | _ => [id]

/-- The union of some members, which are in canonical form. -/
def unionOf (t : Types) (members : List TypeId) : TypeId × Types :=
  match t.unions.get? members with
  | some id => (id, t)
  | none =>
    let added := t.push "" (some .program) (.union members)
    (added.1, { added.2 with
      unions := added.2.unions.insert members added.1
      inStep := added.2.inStep.insertUnion (t.kindIn?_push ..) })

def join (t : Types) (ids : List TypeId) : Option TypeId × Types :=
  match canonicalMembers (ids.flatMap t.atoms) with
  | [] => (none, t)
  | [id] => (some id, t)
  | members =>
    let (id, t) := t.unionOf members
    (some id, t)

/-- The type of a type used as a value; the program is its own. -/
def metaclassOf (t : Types) (id : TypeId) : TypeId × Types :=
  if id = .program then (id, t)
  else
    match t.metaclass? id with
    | some metaclass => (metaclass, t)
    | none =>
      let added := t.push "" (t.get id).container (.metaclass id)
      (added.1, { added.2 with
        entries := added.2.entries.modify id.index fun e => { e with metaclass := some added.1 }
        inStep := added.2.inStep.setMetaclass (t.kindIn?_push ..) })

/-- The type that a metaclass describes; any other type is its own. -/
def described (t : Types) (id : TypeId) : TypeId :=
  match t.kind id with
  | .metaclass subject => subject
  | _ => id

/-- An instance of a generic type, whose parameters are not checked. -/
def apply (t : Types) (generic : TypeId) (args : List TypeId) : TypeId × Types :=
  match t.instances.get? (generic, args) with
  | some id => (id, t)
  | none =>
    let added := t.push (t.get generic).name (t.get generic).container (.applied generic args)
    (added.1, { added.2 with
      instances := added.2.instances.insert (generic, args) added.1
      inStep := added.2.inStep.insertInstance (t.kindIn?_push ..) })

def pointerTo (t : Types) (id : TypeId) : TypeId × Types := t.apply .pointer [id]

/-- A type behind a number of pointers. -/
def pointersTo (t : Types) (id : TypeId) : Nat → TypeId × Types
  | 0 => (id, t)
  | count + 1 =>
    let (id, t) := t.pointerTo id
    t.pointersTo id count

end Types

end TypeFlow

import TypeFlow.Types.Builtin

/-!
# Names of types

`Foo::Bar`, `Array(Int32)`, `Foo:Class`, `Int32 | Nil`. A name only mentions types that are older
than its own, so that the size of the table bounds how deep it goes.
-/

namespace TypeFlow.Types

def nameWithin (t : Types) : Nat → TypeId → String
  | 0, id => (t.get id).name
  | fuel + 1, id =>
    let entry := t.get id
    match entry.kind with
    | .program | .noReturn => entry.name
    | .applied generic args =>
      t.nameWithin fuel generic ++ "(" ++ ", ".intercalate (args.map (t.nameWithin fuel)) ++ ")"
    | .union members => " | ".intercalate (members.map (t.nameWithin fuel))
    | .metaclass subject => t.nameWithin fuel subject ++ ":Class"
    | _ =>
      match entry.container with
      | some container =>
        if container = .program then entry.name
        else t.nameWithin fuel container ++ "::" ++ entry.name
      | none => entry.name

def name (t : Types) (id : TypeId) : String := t.nameWithin t.size id

end TypeFlow.Types

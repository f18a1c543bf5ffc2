import TypeFlow.Tree.Basic
import TypeFlow.Types.Basic

/-!
# Built-in types

`Types.initial` holds the types that every program starts with, in the order of the table
`builtinTypes`. All but the last are named in the namespace of the program itself.
-/

namespace TypeFlow

namespace TypeId

def program : TypeId := ⟨0⟩
def object : TypeId := ⟨1⟩
def reference : TypeId := ⟨2⟩
def value : TypeId := ⟨3⟩
def number : TypeId := ⟨4⟩
def int : TypeId := ⟨5⟩
def float : TypeId := ⟨6⟩
def int8 : TypeId := ⟨7⟩
def int16 : TypeId := ⟨8⟩
def int32 : TypeId := ⟨9⟩
def int64 : TypeId := ⟨10⟩
def uint8 : TypeId := ⟨11⟩
def uint16 : TypeId := ⟨12⟩
def uint32 : TypeId := ⟨13⟩
def uint64 : TypeId := ⟨14⟩
def float32 : TypeId := ⟨15⟩
def float64 : TypeId := ⟨16⟩
def bool : TypeId := ⟨17⟩
def char : TypeId := ⟨18⟩
def symbol : TypeId := ⟨19⟩
def nil : TypeId := ⟨20⟩
def string : TypeId := ⟨21⟩
def pointer : TypeId := ⟨22⟩
def noReturn : TypeId := ⟨23⟩

end TypeId

def NumberKind.type : NumberKind → TypeId
  | .i8 => .int8
  | .i16 => .int16
  | .i32 => .int32
  | .i64 => .int64
  | .u8 => .uint8
  | .u16 => .uint16
  | .u32 => .uint32
  | .u64 => .uint64
  | .f32 => .float32
  | .f64 => .float64

section

variable (superclass : TypeId)

def plainClass : TypeKind := .classType { superclass := some superclass }

def abstractClass : TypeKind := .classType { superclass := some superclass, isAbstract := true }

def primitiveClass : TypeKind := .classType { superclass := some superclass, isPrimitive := true }

end

def pointerClass : TypeKind :=
  .classType { superclass := some .value, typeVars := some ["T"], isPrimitive := true }

/-- The types after the program, in order. -/
def builtinTypes : List (String × TypeKind) :=
  [("Object", .classType {}),
   ("Reference", plainClass .object),
   ("Value", plainClass .object),
   ("Number", abstractClass .value),
   ("Int", abstractClass .number),
   ("Float", abstractClass .number),
   ("Int8", primitiveClass .int),
   ("Int16", primitiveClass .int),
   ("Int32", primitiveClass .int),
   ("Int64", primitiveClass .int),
   ("UInt8", primitiveClass .int),
   ("UInt16", primitiveClass .int),
   ("UInt32", primitiveClass .int),
   ("UInt64", primitiveClass .int),
   ("Float32", primitiveClass .float),
   ("Float64", primitiveClass .float),
   ("Bool", primitiveClass .value),
   ("Char", primitiveClass .value),
   ("Symbol", primitiveClass .value),
   ("Nil", primitiveClass .value),
   ("String", plainClass .reference),
   ("Pointer", pointerClass)]

namespace Types

/-- The program alone. -/
def bare : Types where
  entries := #[{ name := "<Program>", container := none, kind := .program }]
  inStep := .of_forall (by simp)

def initial : Types :=
  let named := builtinTypes.foldl (fun t (name, kind) => (t.declare .program name kind).2) bare
  (named.push "NoReturn" (some .program) .noReturn).2

end Types

end TypeFlow

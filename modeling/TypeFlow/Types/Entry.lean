import TypeFlow.Ids
import TypeFlow.OrderedMap

/-!
# The entries of the table of types

An entry has a kind, which says what the type is made of, and what was declared inside it: types and
constants, methods, macros, included modules, instance variables and external functions. A change
inside of an entry leaves the type its kind and its metaclass (`TypeEntry.Extends`).
-/

namespace TypeFlow

/-- What a name in the namespace of a type stands for. -/
inductive Named where
  | type (id : TypeId)
  | const (id : ConstantId)
  deriving DecidableEq, Repr

/-- What a type parameter of an included module stands for: a type, or a parameter of the
includer. -/
inductive ParamValue where
  | type (id : TypeId)
  | param (name : String)
  deriving DecidableEq, Repr

inductive Inclusion where
  | plain (module : TypeId)
  | generic (module : TypeId) (bindings : OrderedMap String ParamValue)
  deriving DecidableEq, Repr

namespace Inclusion

def module : Inclusion → TypeId
  | plain m | generic m _ => m

def binding? (name : String) : Inclusion → Option ParamValue
  | plain _ => none
  | generic _ bindings => bindings.get? name

/-- The same module with the same bindings, in whatever order they were given. -/
def agrees : Inclusion → Inclusion → Bool
  | plain m, plain n => m == n
  | generic m as, generic n bs =>
    m == n && as.size == bs.size && as.entries.all fun (name, bound) => bs.get? name == some bound
  | _, _ => false

end Inclusion

structure ClassHead where
  superclass : Option TypeId := none
  isAbstract : Bool := false
  typeVars : Option (List String) := none
  /-- Whether its instances are values without instance variables. -/
  isPrimitive : Bool := false
  deriving DecidableEq, Repr

inductive TypeKind where
  | program
  | classType (head : ClassHead)
  | moduleType (typeVars : Option (List String))
  | applied (generic : TypeId) (args : List TypeId)
  | union (members : List TypeId)
  | metaclass (subject : TypeId)
  | noReturn
  | lib (libname : Option String)
  | alias (target : TypeId)
  | cStruct (fields : OrderedMap String TypeId)
  | cUnion (fields : OrderedMap String TypeId)
  | cEnum (constants : OrderedMap String Int)
  deriving DecidableEq, Repr

/-- An external function of a lib. -/
structure Signature where
  realName : String
  args : List TypeId
  returnType : TypeId
  varargs : Bool
  deriving DecidableEq, Repr

/-- Methods are found by name and number of arguments. -/
abbrev MethodKey := String × Nat

structure TypeEntry where
  name : String
  container : Option TypeId
  kind : TypeKind
  types : OrderedMap String Named := ∅
  defs : OrderedMap MethodKey ExprId := ∅
  macros : OrderedMap MethodKey ExprId := ∅
  includes : List Inclusion := []
  instanceVars : OrderedMap String NodeId := ∅
  funs : OrderedMap String Signature := ∅
  /-- The instance variables that every constructor so far assigns, once there is one. -/
  assignedAtStart : Option (List String) := none
  /-- The metaclass of the type, once it was asked for. -/
  metaclass : Option TypeId := none
  deriving DecidableEq, Repr

instance : Inhabited TypeEntry := ⟨{ name := "", container := none, kind := .program }⟩

/-- A change inside of types, which leaves them their kinds and metaclasses. -/
structure TypeEntry.Extends (f : TypeEntry → TypeEntry) : Prop where
  kind : ∀ e, (f e).kind = e.kind
  metaclass : ∀ e, (f e).metaclass = e.metaclass

end TypeFlow

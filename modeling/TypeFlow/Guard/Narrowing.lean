import TypeFlow.Types.Ancestry

/-!
# Narrowings

What a condition has proved of a value: that it is not `Nil`, that it is of a given type, or
several such things together. `Narrowing.apply` narrows a type to the view that is left of it, if
anything is; it may add a union to the table but changes no type that is there.
-/

namespace TypeFlow

inductive Narrowing where
  | notNil
  | isA (target : TypeId)
  | all (parts : List Narrowing)
  deriving Repr

namespace Narrowing

mutual

def decEq : (f g : Narrowing) → Decidable (f = g)
  | .notNil, .notNil => isTrue rfl
  | .isA a, .isA b =>
    if h : a = b then isTrue (h ▸ rfl) else isFalse fun e => h (by injection e)
  | .all fs, .all gs =>
    match decEqList fs gs with
    | isTrue h => isTrue (h ▸ rfl)
    | isFalse h => isFalse fun e => h (by injection e)
  | .notNil, .isA _ => isFalse nofun
  | .notNil, .all _ => isFalse nofun
  | .isA _, .notNil => isFalse nofun
  | .isA _, .all _ => isFalse nofun
  | .all _, .notNil => isFalse nofun
  | .all _, .isA _ => isFalse nofun

def decEqList : (fs gs : List Narrowing) → Decidable (fs = gs)
  | [], [] => isTrue rfl
  | [], _ :: _ => isFalse nofun
  | _ :: _, [] => isFalse nofun
  | f :: fs, g :: gs =>
    match decEq f g, decEqList fs gs with
    | isTrue h, isTrue hs => isTrue (h ▸ hs ▸ rfl)
    | isFalse h, _ => isFalse fun e => h (by injection e)
    | _, isFalse hs => isFalse fun e => hs (by injection e)

end

instance : DecidableEq Narrowing := decEq

/-- The subtypes of a target among the members of a union; of another type itself, or the target
if that is narrower. -/
def applyIsA (t : Types) (id target : TypeId) : Option TypeId × Types :=
  match t.kind id with
  | .union members => t.join (members.filter fun member => t.isSubtype member target)
  | _ =>
    if t.isSubtype id target then (some id, t)
    else if t.isSubtype target id then (some target, t)
    else (none, t)

def applyNotNil (t : Types) (id : TypeId) : Option TypeId × Types :=
  match t.kind id with
  | .union members => t.join (members.filter (· ≠ TypeId.nil))
  | _ => if id = .nil then (none, t) else (some id, t)

mutual

/-- The narrowed view of a type. -/
def apply (t : Types) (id : TypeId) : Narrowing → Option TypeId × Types
  | .notNil => applyNotNil t id
  | .isA target => applyIsA t id target
  | .all parts => applyAll t id parts

/-- Narrows by one part after the other, until nothing is left. -/
def applyAll (t : Types) (id : TypeId) : List Narrowing → Option TypeId × Types
  | [] => (some id, t)
  | f :: rest =>
    match f.apply t id with
    | (some narrowed, t) => applyAll t narrowed rest
    | (none, t) => (none, t)

end

/-- The parts that a conjunction is made of. -/
def conjuncts : Narrowing → List Narrowing
  | .all parts => parts
  | f => [f]

/-- Both narrowings; the same one twice is that one. -/
def conj (f g : Narrowing) : Narrowing :=
  if f = g then f else .all (f.conjuncts ++ g.conjuncts)

end Narrowing

end TypeFlow

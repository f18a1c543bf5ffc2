import TypeFlow.Text

/-!
# JSON values

A number keeps the text it was written with, so that `1`, `1.0`, `-0` and an integer of any size
stay apart; `Json.int?` says which of them are integers. An object keeps its fields in the order
written, repeated keys included.
-/

namespace TypeFlow

inductive Json where
  | null
  | bool (value : Bool)
  | number (text : String)
  | string (value : String)
  | array (items : List Json)
  | object (fields : List (String × Json))
  deriving Inhabited, Repr

namespace Json

open Text (natOfDigits)

def ofNat (n : Nat) : Json := .number (toString n)

def ofInt (i : Int) : Json := .number (toString i)

/-- The integer a number's text stands for: digits with at most a sign before them, and not `-0`. -/
def intOfText (text : String) : Option Int :=
  match text.toList with
  | '-' :: digits =>
    if digits.all Char.isDigit && natOfDigits digits != 0 then some (-(natOfDigits digits : Int))
    else none
  | digits => if digits.all Char.isDigit then some (natOfDigits digits : Int) else none

def int? : Json → Option Int
  | .number text => intOfText text
  | _ => none

/-- An integer from `0` to `bound`. -/
def natUpTo? (bound : Nat) (j : Json) : Option Nat :=
  match j.int? with
  | some (.ofNat n) => if n ≤ bound then some n else none
  | _ => none

def bool? : Json → Option Bool
  | .bool b => some b
  | _ => none

def string? : Json → Option String
  | .string s => some s
  | _ => none

def array? : Json → Option (List Json)
  | .array items => some items
  | _ => none

def fields? : Json → Option (List (String × Json))
  | .object fields => some fields
  | _ => none

/-- The first field of an object that has the key. -/
def get? (j : Json) (key : String) : Option Json :=
  match j with
  | .object fields => fields.lookup key
  | _ => none

mutual

/-- How deeply arrays and objects are nested. -/
def depth : Json → Nat
  | .array items => depthOfItems items + 1
  | .object fields => depthOfFields fields + 1
  | _ => 0

def depthOfItems : List Json → Nat
  | [] => 0
  | item :: rest => max item.depth (depthOfItems rest)

def depthOfFields : List (String × Json) → Nat
  | [] => 0
  | (_, value) :: rest => max value.depth (depthOfFields rest)

end

mutual

/-- Equality of values as they are written. -/
def same : Json → Json → Bool
  | .null, .null => true
  | .bool a, .bool b => a == b
  | .number a, .number b => a == b
  | .string a, .string b => a == b
  | .array as, .array bs => sameItems as bs
  | .object as, .object bs => sameFields as bs
  | _, _ => false

def sameItems : List Json → List Json → Bool
  | [], [] => true
  | a :: as, b :: bs => same a b && sameItems as bs
  | _, _ => false

def sameFields : List (String × Json) → List (String × Json) → Bool
  | [], [] => true
  | (k, a) :: as, (l, b) :: bs => k == l && same a b && sameFields as bs
  | _, _ => false

end

instance : BEq Json := ⟨same⟩

end Json

end TypeFlow

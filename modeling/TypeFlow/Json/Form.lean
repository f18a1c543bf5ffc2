import TypeFlow.Json.Lexeme

/-!
# The form of a value

`Form.pass?` goes past a value without reading it. Only the grammar counts there: values may be
nested to any depth, numbers may be of any size, and an escape may be half of a surrogate pair.
-/

namespace TypeFlow.Json.Form

open Lexeme (skipBlank passString? numeral? isNumberChar)

/-- What an open bracket has to do with what follows it. -/
inductive Bracket where
  | array
  | object
  deriving DecidableEq, Repr

namespace Bracket

def closing : Bracket → Char
  | .array => ']'
  | .object => '\x7d'

def ofOpening? : Char → Option Bracket
  | '[' => some .array
  | '\x7b' => some .object
  | _ => none

end Bracket

/-- What comes next in a value: an item of the innermost open bracket, with its key if that is an
object; the value alone; or what stands after a value. -/
inductive Awaited where
  | item
  | value
  | rest
  deriving DecidableEq, Repr

/-- A key and the colon after it. -/
def passKey? (cs : List Char) : Option (List Char) :=
  match skipBlank cs with
  | '"' :: rest => do
    match skipBlank (← passString? rest) with
    | ':' :: rest => return rest
    | _ => none
  | _ => none

/-- A value that is neither an array nor an object, after white space. -/
def passScalar? : List Char → Option (List Char)
  | 'n' :: 'u' :: 'l' :: 'l' :: rest => some rest
  | 't' :: 'r' :: 'u' :: 'e' :: rest => some rest
  | 'f' :: 'a' :: 'l' :: 's' :: 'e' :: rest => some rest
  | '"' :: rest => passString? rest
  | cs =>
    if (numeral? (cs.takeWhile isNumberChar)).isSome then some (cs.dropWhile isNumberChar) else none

/-- Goes on until the brackets in `opened`, innermost first, are closed again. -/
def passWithin : Nat → Awaited → List Bracket → List Char → Option (List Char)
  | 0, _, _, _ => none
  | fuel + 1, .item, .object :: opened, cs =>
    match passKey? cs with
    | some rest => passWithin fuel .value (.object :: opened) rest
    | none => none
  | fuel + 1, .item, opened, cs => passWithin fuel .value opened cs
  | fuel + 1, .value, opened, cs =>
    let cs := skipBlank cs
    match (cs.head?.bind Bracket.ofOpening?) with
    | some bracket =>
      let inner := skipBlank cs.tail
      if inner.head? == some bracket.closing then passWithin fuel .rest opened inner.tail
      else passWithin fuel .item (bracket :: opened) inner
    | none =>
      match passScalar? cs with
      | some rest => passWithin fuel .rest opened rest
      | none => none
  | _ + 1, .rest, [], cs => some cs
  | fuel + 1, .rest, bracket :: opened, cs =>
    match skipBlank cs with
    | c :: rest =>
      if c == ',' then passWithin fuel .item (bracket :: opened) rest
      else if c == bracket.closing then passWithin fuel .rest opened rest
      else none
    | [] => none

/-- What is left of a text after the value at its front. A character is passed by at most two
steps. -/
def pass? (cs : List Char) : Option (List Char) :=
  passWithin (2 * cs.length + 2) .value [] cs

end TypeFlow.Json.Form

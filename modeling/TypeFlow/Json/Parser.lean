import TypeFlow.Json.Basic
import TypeFlow.Json.Form

/-!
# Reading JSON text

The grammar is the standard's and nothing more: no comments, no trailing commas, no leading zeros,
no raw control characters in strings, and only white space after the value. `Json.parse?` also
bounds how many arrays and objects may be open at once, and refuses an infinite number and half of
a surrogate pair; but of a part that its caller does not read it asks for the form alone.
-/

namespace TypeFlow.Json

/-- How much of a value is read. -/
inductive Scope where
  /-- All of it. -/
  | whole
  /-- Nothing: it only has to have the form of a value. -/
  | form
  /-- Each field of an object as its key says, and all of any other value. -/
  | members (scopeOf : String → Scope)

/-- The scope of the value under a key. -/
def Scope.member : Scope → String → Scope
  | .members scopeOf, key => scopeOf key
  | scope, _ => scope

namespace Parser

open Lexeme

/-- A number, which keeps the text it is written in. -/
def number (cs : List Char) : Option (Json × List Char) :=
  let text := cs.takeWhile isNumberChar
  match numeral? text with
  | some numeral =>
    if numeral.magnitude.isInfinite then none
    else some (.number (String.ofList text), cs.dropWhile isNumberChar)
  | none => none

mutual

/-- A value, with at most `depth` arrays and objects open at once. What is not read gives
`null`. -/
def value : Nat → Scope → Nat → List Char → Option (Json × List Char)
  | 0, _, _, _ => none
  | _ + 1, .form, _, cs => (Form.pass? cs).map (.null, ·)
  | fuel + 1, scope, depth, cs =>
    match skipBlank cs with
    | 'n' :: 'u' :: 'l' :: 'l' :: rest => some (.null, rest)
    | 't' :: 'r' :: 'u' :: 'e' :: rest => some (.bool true, rest)
    | 'f' :: 'a' :: 'l' :: 's' :: 'e' :: rest => some (.bool false, rest)
    | '"' :: rest => (stringBody fuel [] rest).map fun (s, rest) => (.string s, rest)
    | '[' :: rest =>
      match depth with
      | 0 => none
      | depth + 1 =>
        match skipBlank rest with
        | ']' :: rest => some (.array [], rest)
        | rest => (items fuel depth rest).map fun (xs, rest) => (.array xs, rest)
    | '\x7b' :: rest =>
      match depth with
      | 0 => none
      | depth + 1 =>
        match skipBlank rest with
        | '\x7d' :: rest => some (.object [], rest)
        | rest => (fields fuel scope depth rest).map fun (fs, rest) => (.object fs, rest)
    | rest => number rest

/-- The items of an array, at least one, and its closing bracket. -/
def items : Nat → Nat → List Char → Option (List Json × List Char)
  | 0, _, _ => none
  | fuel + 1, depth, cs =>
    match value fuel .whole depth cs with
    | none => none
    | some (item, rest) =>
      match skipBlank rest with
      | ']' :: rest => some ([item], rest)
      | ',' :: rest => (items fuel depth rest).map fun (xs, rest) => (item :: xs, rest)
      | _ => none

/-- The fields of an object, at least one, and its closing brace. -/
def fields : Nat → Scope → Nat → List Char → Option (List (String × Json) × List Char)
  | 0, _, _, _ => none
  | fuel + 1, scope, depth, cs =>
    match skipBlank cs with
    | '"' :: rest =>
      match stringBody fuel [] rest with
      | none => none
      | some (key, rest) =>
        match skipBlank rest with
        | ':' :: rest =>
          match value fuel (scope.member key) depth rest with
          | none => none
          | some (item, rest) =>
            match skipBlank rest with
            | '\x7d' :: rest => some ([(key, item)], rest)
            | ',' :: rest =>
              (fields fuel scope depth rest).map fun (fs, rest) => ((key, item) :: fs, rest)
            | _ => none
        | _ => none
    | _ => none

end

end Parser

/-- Reads a whole text, with at most `depth` arrays and objects open at once. Every character is
passed by at most two steps, which bounds the work. -/
def parse? (scope : Scope) (depth : Nat) (text : String) : Option Json :=
  let cs := text.toList
  match Parser.value (2 * cs.length + 2) scope depth cs with
  | some (j, rest) => if (Lexeme.skipBlank rest).isEmpty then some j else none
  | none => none

end TypeFlow.Json

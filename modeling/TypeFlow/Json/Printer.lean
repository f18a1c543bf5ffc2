import TypeFlow.Json.Basic

/-!
# Writing JSON text

`Json.compact` writes no white space at all; `Json.pretty` puts every item and field on a line of
its own, two spaces deeper than the brackets around it. Only quotes, backslashes and control
characters below U+0020 are escaped.
-/

namespace TypeFlow.Json

def hexDigit (n : Nat) : Char :=
  if n < 10 then Char.ofNat ('0'.toNat + n) else Char.ofNat ('a'.toNat + (n - 10))

/-- A character inside a string. -/
def escapeChar (c : Char) : List Char :=
  if c = '"' then ['\\', '"']
  else if c = '\\' then ['\\', '\\']
  else if c = '\x08' then ['\\', 'b']
  else if c = '\t' then ['\\', 't']
  else if c = '\n' then ['\\', 'n']
  else if c = '\x0c' then ['\\', 'f']
  else if c = '\r' then ['\\', 'r']
  else if c.toNat < 0x20 then
    ['\\', 'u', '0', '0', hexDigit (c.toNat / 16), hexDigit (c.toNat % 16)]
  else [c]

def quote (s : String) : String :=
  String.ofList ('"' :: (s.toList.flatMap escapeChar ++ ['"']))

mutual

def compact : Json → String
  | .null => "null"
  | .bool b => if b then "true" else "false"
  | .number text => text
  | .string s => quote s
  | .array items => "[" ++ ",".intercalate (compactItems items) ++ "]"
  | .object fields => "\x7b" ++ ",".intercalate (compactFields fields) ++ "\x7d"

def compactItems : List Json → List String
  | [] => []
  | item :: rest => item.compact :: compactItems rest

def compactFields : List (String × Json) → List String
  | [] => []
  | (key, value) :: rest => (quote key ++ ":" ++ value.compact) :: compactFields rest

end

/-- The start of a line `depth` levels deep. -/
def newline (depth : Nat) : String :=
  String.ofList ('\n' :: List.replicate (2 * depth) ' ')

mutual

def prettyAt (depth : Nat) : Json → String
  | .array [] => "[]"
  | .array (item :: rest) =>
    "[" ++ newline (depth + 1) ++ item.prettyAt (depth + 1) ++ prettyItems (depth + 1) rest
      ++ newline depth ++ "]"
  | .object [] => "\x7b\x7d"
  | .object ((key, value) :: rest) =>
    "\x7b" ++ newline (depth + 1) ++ quote key ++ ": " ++ value.prettyAt (depth + 1)
      ++ prettyFields (depth + 1) rest ++ newline depth ++ "\x7d"
  | .null => "null"
  | .bool b => if b then "true" else "false"
  | .number text => text
  | .string s => quote s

/-- The items after the first. -/
def prettyItems (depth : Nat) : List Json → String
  | [] => ""
  | item :: rest => "," ++ newline depth ++ item.prettyAt depth ++ prettyItems depth rest

/-- The fields after the first. -/
def prettyFields (depth : Nat) : List (String × Json) → String
  | [] => ""
  | (key, value) :: rest =>
    "," ++ newline depth ++ quote key ++ ": " ++ value.prettyAt depth ++ prettyFields depth rest

end

def pretty (j : Json) : String := j.prettyAt 0

end TypeFlow.Json

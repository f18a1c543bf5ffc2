import TypeFlow.CommandLine.Settings.Table
import TypeFlow.Text

/-!
# Reading a settings file

`Table.ofText?` reads a TOML document with headers and keys in all their forms, bare and quoted,
with comments, and with values that are booleans or integers. A line ends with a line feed, with or
without a carriage return before it; a comment holds no control characters but tabs. A key has fewer
than 80 parts. A byte order mark may come first.
-/

namespace TypeFlow.Settings.Parser

open Text (digitValue?)

def isSpace (c : Char) : Bool := c == ' ' || c == '\t'

def skipSpace (cs : List Char) : List Char := cs.dropWhile isSpace

/-- The characters of comments and of quoted keys: no control characters but the tab. -/
def isTextChar (c : Char) : Bool := c == '\t' || (0x20 ≤ c.toNat && c.toNat != 0x7F)

/-- What is left after the end of a line, which the end of the text is too. -/
def lineEnd? : List Char → Option (List Char)
  | [] => some []
  | '\n' :: rest => some rest
  | '\r' :: '\n' :: rest => some rest
  | _ => none

/-- What is left after the rest of a line that holds no more than a comment. -/
def lineRest? (cs : List Char) : Option (List Char) :=
  match skipSpace cs with
  | '#' :: rest => lineEnd? (rest.dropWhile isTextChar)
  | rest => lineEnd? rest

/-! ### Keys -/

def isBareChar (c : Char) : Bool := c.isAlphanum || c == '_' || c == '-'

/-- The code point that hexadecimal digits give, if it is a character. -/
def charOfHex? (digits : List Char) : Option Char := do
  let n ← digits.foldlM (fun n digit => (digitValue? digit).map (16 * n + ·)) 0
  if n.isValidChar then return Char.ofNat n else none

/-- What follows a backslash in a quoted key. -/
def escape? : List Char → Option (Char × List Char)
  | 'b' :: rest => some ('\x08', rest)
  | 't' :: rest => some ('\t', rest)
  | 'n' :: rest => some ('\n', rest)
  | 'f' :: rest => some ('\x0c', rest)
  | 'r' :: rest => some ('\r', rest)
  | '"' :: rest => some ('"', rest)
  | '\\' :: rest => some ('\\', rest)
  | 'u' :: a :: b :: c :: d :: rest => (charOfHex? [a, b, c, d]).map (·, rest)
  | 'U' :: a :: b :: c :: d :: e :: f :: g :: h :: rest =>
    (charOfHex? [a, b, c, d, e, f, g, h]).map (·, rest)
  | _ => none

/-- The characters up to a closing quote, added to `read`, which holds them last first. -/
def quoted : Nat → List Char → List Char → Option (String × List Char)
  | 0, _, _ => none
  | _ + 1, _, [] => none
  | fuel + 1, read, c :: rest =>
    if c = '"' then some (String.ofList read.reverse, rest)
    else if c = '\\' then
      match escape? rest with
      | some (c, rest) => quoted fuel (c :: read) rest
      | none => none
    else if isTextChar c then quoted fuel (c :: read) rest
    else none

/-- One part of a key. -/
def keyPart? : List Char → Option (String × List Char)
  | '"' :: rest => quoted rest.length [] rest
  | '\'' :: rest =>
    let isLiteral (c : Char) : Bool := isTextChar c && c != '\''
    match rest.dropWhile isLiteral with
    | '\'' :: after => some (String.ofList (rest.takeWhile isLiteral), after)
    | _ => none
  | cs =>
    match cs.takeWhile isBareChar with
    | [] => none
    | part => some (String.ofList part, cs.dropWhile isBareChar)

/-- A key of at most `count` parts, with dots between them. -/
def keyWithin? : Nat → List Char → Option (List String × List Char)
  | 0, _ => none
  | count + 1, cs => do
    let (part, rest) ← keyPart? (skipSpace cs)
    match skipSpace rest with
    | '.' :: rest => (keyWithin? count rest).map fun (parts, rest) => (part :: parts, rest)
    | rest => return ([part], rest)

/-- How many parts a key may have. -/
def keyLimit : Nat := 79

def key? (cs : List Char) : Option (List String × List Char) := keyWithin? keyLimit cs

/-! ### Values -/

/-- Digits of a base, with single underscores between them allowed. -/
def digits? (base : Nat) (cs : List Char) : Option Nat :=
  go false 0 cs
where
  go (after : Bool) (n : Nat) : List Char → Option Nat
    | [] => if after then some n else none
    | '_' :: rest => if after && !rest.isEmpty then go false n rest else none
    | c :: rest =>
      match digitValue? c with
      | some d => if d < base then go true (base * n + d) rest else none
      | none => none

/-- Decimal digits, of which the first is no zero unless it is the only one. -/
def decimal? (cs : List Char) : Option Nat :=
  match cs with
  | ['0'] => some 0
  | '0' :: _ => none
  | cs => digits? 10 cs

def int? : List Char → Option Int
  | '+' :: rest => (decimal? rest).map Int.ofNat
  | '-' :: rest => (decimal? rest).map fun n => -(n : Int)
  | '0' :: 'x' :: rest => (digits? 16 rest).map Int.ofNat
  | '0' :: 'o' :: rest => (digits? 8 rest).map Int.ofNat
  | '0' :: 'b' :: rest => (digits? 2 rest).map Int.ofNat
  | cs => (decimal? cs).map Int.ofNat

/-- The value that a text is. Integers have 64 bits, one of them for the sign. -/
def value? (cs : List Char) : Option Value :=
  if cs = "true".toList then some (.bool true)
  else if cs = "false".toList then some (.bool false)
  else
    match int? cs with
    | some i => if -Nat.pow 2 63 ≤ i ∧ i < Nat.pow 2 63 then some (.int i) else none
    | none => none

/-- The characters that a boolean or an integer is made of. -/
def isValueChar (c : Char) : Bool := c.isAlphanum || c == '_' || c == '+' || c == '-'

/-! ### Lines -/

inductive Line where
  | empty
  /-- The header of a table. -/
  | header (path : List String)
  /-- The header of a further table of a series. -/
  | next (path : List String)
  | entry (keys : List String) (value : Value)
  deriving DecidableEq, Repr

/-- A header after its first bracket. -/
def header? : List Char → Option (Line × List Char)
  | '[' :: rest => do
    match ← key? rest with
    | (path, ']' :: ']' :: rest) => return (.next path, ← lineRest? rest)
    | _ => none
  | cs => do
    match ← key? cs with
    | (path, ']' :: rest) => return (.header path, ← lineRest? rest)
    | _ => none

def entry? (cs : List Char) : Option (Line × List Char) := do
  match ← key? cs with
  | (keys, '=' :: rest) =>
    let rest := skipSpace rest
    let value ← value? (rest.takeWhile isValueChar)
    return (.entry keys value, ← lineRest? (rest.dropWhile isValueChar))
  | _ => none

/-- The line at the front of a text. -/
def line? (cs : List Char) : Option (Line × List Char) :=
  match skipSpace cs with
  | '[' :: rest => header? rest
  | [] | '#' :: _ | '\n' :: _ | '\r' :: _ => (lineRest? cs).map (.empty, ·)
  | rest => entry? rest

/-- A document being read, and the path to the table that its entries go to. -/
structure Reading where
  table : Table := []
  current : List String := []

def Reading.add? (r : Reading) : Line → Option Reading
  | .empty => some r
  | .header path => (r.table.openTable? path).map fun table => ⟨table, path⟩
  | .next path => (r.table.openNext? path).map fun table => ⟨table, path⟩
  | .entry keys value =>
    (r.table.addAt? value keys r.current).map fun table => { r with table }

/-- Reads line after line; each takes a character at least. -/
def lines : Nat → Reading → List Char → Option Reading
  | _, r, [] => some r
  | 0, _, _ => none
  | fuel + 1, r, cs =>
    match line? cs with
    | some (line, rest) => (r.add? line).bind (lines fuel · rest)
    | none => none

def skipByteOrderMark : List Char → List Char
  | '\uFEFF' :: rest => rest
  | cs => cs

end TypeFlow.Settings.Parser

namespace TypeFlow.Settings

def Table.ofText? (text : String) : Option Table :=
  let cs := Parser.skipByteOrderMark text.toList
  (Parser.lines cs.length {} cs).map (·.table)

end TypeFlow.Settings

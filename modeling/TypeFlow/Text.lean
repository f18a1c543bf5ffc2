/-!
# Texts

`isBlank` is the Unicode property White_Space; `trim` drops it at both ends of a text. `split` gives
the parts of a text between occurrences of a character. `lines` splits at line feeds: a carriage
return before the line feed belongs to the line break, and a line feed at the very end starts no
further line. `copies` and `padLeft` fill columns. `beforeLast?` takes a mark off the end of a name.
-/

namespace TypeFlow.Text

/-! ### White space -/

/-- The characters with the property White_Space, as ranges. -/
def blankRanges : List (Nat × Nat) :=
  [(0x09, 0x0D), (0x20, 0x20), (0x85, 0x85), (0xA0, 0xA0), (0x1680, 0x1680), (0x2000, 0x200A),
   (0x2028, 0x2029), (0x202F, 0x202F), (0x205F, 0x205F), (0x3000, 0x3000)]

def isBlank (c : Char) : Bool :=
  blankRanges.any fun (first, last) => first ≤ c.toNat && c.toNat ≤ last

def trimChars (cs : List Char) : List Char :=
  ((cs.dropWhile isBlank).reverse.dropWhile isBlank).reverse

/-- The text without the white space at its ends. -/
def trim (s : String) : String :=
  String.ofList (trimChars s.toList)

/-! ### Lines and columns -/

/-- The parts between the marks; there is always at least one. -/
def split (mark : Char) : List Char → List (List Char)
  | [] => [[]]
  | c :: rest =>
    match split mark rest with
    | [] => [[c]]
    | part :: parts => if c = mark then [] :: part :: parts else (c :: part) :: parts

def dropReturn (cs : List Char) : List Char :=
  match cs.reverse with
  | '\r' :: rest => rest.reverse
  | _ => cs

/-- Every part but the last was ended by a line feed; the last is a line if it is not empty. -/
def linesOfParts : List (List Char) → List (List Char)
  | [] => []
  | [last] => if last.isEmpty then [] else [last]
  | part :: parts => dropReturn part :: linesOfParts parts

def lines (s : String) : List String :=
  (linesOfParts (split '\n' s.toList)).map String.ofList

/-- `count` copies of a character. -/
def copies (count : Nat) (c : Char) : String :=
  String.ofList (List.replicate count c)

/-- The decimal text of a number, with blanks before it up to the width. -/
def padLeft (width : Nat) (n : Nat) : String :=
  let digits := toString n
  copies (width - digits.length) ' ' ++ digits

/-! ### Digits -/

/-- The number of a decimal digit string. -/
def natOfDigits (cs : List Char) : Nat :=
  cs.foldl (fun n c => 10 * n + (c.toNat - '0'.toNat)) 0

/-- The value of a digit of any base up to sixteen. -/
def digitValue? (c : Char) : Option Nat :=
  if c.isDigit then some (c.toNat - '0'.toNat)
  else if 'a' ≤ c ∧ c ≤ 'f' then some (c.toNat - 'a'.toNat + 10)
  else if 'A' ≤ c ∧ c ≤ 'F' then some (c.toNat - 'A'.toNat + 10)
  else none

/-! ### Names -/

/-- The text before a last character, if the text ends with it. -/
def beforeLast? (last : Char) (s : String) : Option String :=
  match s.toList.reverse with
  | c :: rest => if c = last then some (String.ofList rest.reverse) else none
  | [] => none

end TypeFlow.Text

import TypeFlow.Decimal.Magnitude

/-!
# The words of JSON text

White space, strings and numbers, each read from the front of a text. `stringBody` gives the text
that a string stands for, and `passString?` looks at its form alone: there an escape may be half of
a surrogate pair. `numeral?` says of what a number is made.
-/

namespace TypeFlow.Json.Lexeme

open Text (natOfDigits digitValue?)

def isBlank (c : Char) : Bool :=
  c == ' ' || c == '\n' || c == '\t' || c == '\r'

def skipBlank (cs : List Char) : List Char :=
  cs.dropWhile isBlank

/-! ### Strings -/

/-- Four hexadecimal digits. -/
def codeUnit : List Char → Option (Nat × List Char)
  | a :: b :: c :: d :: rest => do
    let a ← digitValue? a
    let b ← digitValue? b
    let c ← digitValue? c
    let d ← digitValue? d
    return (((a * 16 + b) * 16 + c) * 16 + d, rest)
  | _ => none

def isHighSurrogate (u : Nat) : Bool := 0xD800 ≤ u && u < 0xDC00

def isLowSurrogate (u : Nat) : Bool := 0xDC00 ≤ u && u < 0xE000

/-- The character of a `\u` escape; a surrogate must come as half of a pair. -/
def unicodeEscape (cs : List Char) : Option (Char × List Char) := do
  let (unit, rest) ← codeUnit cs
  if isHighSurrogate unit then
    match rest with
    | '\\' :: 'u' :: rest =>
      let (low, rest) ← codeUnit rest
      if isLowSurrogate low then
        return (Char.ofNat (0x10000 + (unit - 0xD800) * 0x400 + (low - 0xDC00)), rest)
      else none
    | _ => none
  else if isLowSurrogate unit then none
  else return (Char.ofNat unit, rest)

/-- The character that a letter after a backslash stands for. -/
def simpleEscape? : Char → Option Char
  | '"' => some '"'
  | '\\' => some '\\'
  | '/' => some '/'
  | 'b' => some '\x08'
  | 'f' => some '\x0c'
  | 'n' => some '\n'
  | 'r' => some '\r'
  | 't' => some '\t'
  | _ => none

/-- What follows a backslash. -/
def escape : List Char → Option (Char × List Char)
  | 'u' :: rest => unicodeEscape rest
  | c :: rest => (simpleEscape? c).map (·, rest)
  | [] => none

/-- Control characters do not stand in a string as they are. -/
def isControl (c : Char) : Bool := c.toNat < 0x20

/-- The characters up to the closing quote, added to `read`, which holds them last first. -/
def stringBody : Nat → List Char → List Char → Option (String × List Char)
  | 0, _, _ => none
  | _ + 1, _, [] => none
  | fuel + 1, read, c :: rest =>
    if c = '"' then some (String.ofList read.reverse, rest)
    else if c = '\\' then
      match escape rest with
      | some (c, rest) => stringBody fuel (c :: read) rest
      | none => none
    else if isControl c then none
    else stringBody fuel (c :: read) rest

/-- What is left after a string whose opening quote has been passed. -/
def passString? : List Char → Option (List Char)
  | [] => none
  | '"' :: rest => some rest
  | '\\' :: 'u' :: a :: b :: c :: d :: rest =>
    if [a, b, c, d].all fun digit => (digitValue? digit).isSome then passString? rest else none
  | '\\' :: c :: rest => if (simpleEscape? c).isSome then passString? rest else none
  | c :: rest => if isControl c then none else passString? rest

/-! ### Numbers -/

/-- A number without its sign: the digits before and after the point, and the exponent. -/
structure Numeral where
  whole : List Char
  fraction : List Char := []
  exponent : Int := 0
  deriving DecidableEq, Repr

def Numeral.magnitude (n : Numeral) : Decimal.Magnitude :=
  .ofDigits n.whole n.fraction n.exponent

/-- Digits, at least one. -/
def digits1 (cs : List Char) : Option (List Char × List Char) :=
  match cs.takeWhile Char.isDigit with
  | [] => none
  | digits => some (digits, cs.dropWhile Char.isDigit)

def fraction : List Char → Option (List Char × List Char)
  | '.' :: rest => digits1 rest
  | cs => some ([], cs)

def signedExponent : List Char → Option (Int × List Char)
  | '-' :: rest => (digits1 rest).map fun (ds, rest) => (-(natOfDigits ds : Int), rest)
  | '+' :: rest => (digits1 rest).map fun (ds, rest) => ((natOfDigits ds : Int), rest)
  | rest => (digits1 rest).map fun (ds, rest) => ((natOfDigits ds : Int), rest)

def exponent : List Char → Option (Int × List Char)
  | 'e' :: rest => signedExponent rest
  | 'E' :: rest => signedExponent rest
  | cs => some (0, cs)

/-- The numeral that a text without sign is. Digits before the point do not begin with a zero,
unless it is the only one. -/
def unsigned? (cs : List Char) : Option Numeral := do
  let (whole, rest) ← digits1 cs
  if whole.head? == some '0' && whole.length != 1 then none
  let (fraction, rest) ← fraction rest
  let (exponent, rest) ← exponent rest
  if rest.isEmpty then return ⟨whole, fraction, exponent⟩ else none

/-- The numeral that a text is, its sign apart. -/
def numeral? : List Char → Option Numeral
  | '-' :: rest => unsigned? rest
  | cs => unsigned? cs

/-- The characters that numbers are made of. None of them may follow a number. -/
def isNumberChar (c : Char) : Bool :=
  c.isDigit || c == '-' || c == '+' || c == '.' || c == 'e' || c == 'E'

end TypeFlow.Json.Lexeme

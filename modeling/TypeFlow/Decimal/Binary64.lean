import TypeFlow.Text

/-!
# Reading decimals as binary64

A finite binary64 is a significand below `2 ^ 53` times a power of two, in exact arithmetic on `Nat`
and `Int`. `Binary64.ofRatio` rounds a quotient to the nearest one, a tie to the even significand;
`Binary64.ofText?` reads a decimal.
-/

namespace TypeFlow

inductive Binary64 where
  | nan
  | infinite (negative : Bool)
  | finite (negative : Bool) (significand : Nat) (exponent : Int)
  deriving DecidableEq, Repr

namespace Binary64

open Text (natOfDigits)

/-- The exponent of the least positive value. -/
def leastExponent : Int := -1074

/-- The exponent of the greatest finite value. -/
def greatestExponent : Int := 971

def minNormal : Nat := Nat.pow 2 52

/-- The nearest integer to `n / d`, a tie to the even one. -/
def roundHalfEven (n d : Nat) : Nat :=
  let q := n / d
  let r := n % d
  if 2 * r < d then q
  else if d < 2 * r then q + 1
  else if q % 2 = 0 then q else q + 1

/-- `base ^ e` where `e` is not negative, else `1`. -/
def powerUp (base : Nat) (e : Int) : Nat := base.pow e.toNat

/-- The greatest `l` with `2 ^ l ≤ n / d`, for positive `n` and `d`. -/
def floorLog2 (n d : Nat) : Int :=
  let l : Int := (n.log2 : Int) - d.log2
  if d * powerUp 2 l ≤ n * powerUp 2 (-l) then l else l - 1

/-- The value nearest to `n / d`. -/
def ofRatio (negative : Bool) (n d : Nat) : Binary64 :=
  if n = 0 then .finite negative 0 leastExponent
  else
    let e := max leastExponent (floorLog2 n d - 52)
    let q := roundHalfEven (n * powerUp 2 (-e)) (d * powerUp 2 e)
    let (q, e) := if q = 2 * minNormal then (minNormal, e + 1) else (q, e)
    if greatestExponent < e then .infinite negative else .finite negative q e

/-- The value nearest to `n · 2 ^ e`. -/
def ofScaled (negative : Bool) (n : Nat) (e : Int) : Binary64 :=
  ofRatio negative (n * powerUp 2 e) (powerUp 2 (-e))

def isFinite : Binary64 → Bool
  | .finite _ _ _ => true
  | _ => false

/-- The value nearest to `n · 10 ^ e`. Far outside the range only the order of magnitude counts. -/
def ofScientific (negative : Bool) (n : Nat) (e : Int) : Binary64 :=
  let magnitude : Int := (Nat.toDigits 10 n).length + e
  if n = 0 ∨ magnitude < -400 then .finite negative 0 leastExponent
  else if 400 < magnitude then .infinite negative
  else ofRatio negative (n * powerUp 10 e) (powerUp 10 (-e))

/-- The exponent after its mark; the whole rest of the text must be it. -/
def exponentOfText : List Char → Option Int
  | [] => some 0
  | mark :: rest =>
    if mark = 'e' ∨ mark = 'E' then
      let (negative, digits) := match rest with
        | '-' :: digits => (true, digits)
        | '+' :: digits => (false, digits)
        | digits => (false, digits)
      if digits.isEmpty ∨ ¬ digits.all Char.isDigit then none
      else some (if negative then -(natOfDigits digits : Int) else natOfDigits digits)
    else none

/-- A number without sign: digits with at most one point among or around them, then an exponent. -/
def ofUnsigned (negative : Bool) (cs : List Char) : Option Binary64 := do
  let whole := cs.takeWhile Char.isDigit
  let rest := cs.dropWhile Char.isDigit
  let (frac, rest) := match rest with
    | '.' :: rest => (rest.takeWhile Char.isDigit, rest.dropWhile Char.isDigit)
    | rest => ([], rest)
  if whole.isEmpty && frac.isEmpty then none
  let e ← exponentOfText rest
  return ofScientific negative (natOfDigits (whole ++ frac)) (e - frac.length)

/-- Reads a decimal, or one of the names of infinity and of what is not a number. -/
def ofText? (text : String) : Option Binary64 :=
  let (negative, cs) := match text.toList with
    | '-' :: cs => (true, cs)
    | '+' :: cs => (false, cs)
    | cs => (false, cs)
  let name := String.ofList (cs.map Char.toLower)
  if name = "inf" ∨ name = "infinity" then some (.infinite negative)
  else if name = "nan" then some .nan
  else ofUnsigned negative cs

end Binary64

end TypeFlow

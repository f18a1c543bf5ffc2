import TypeFlow.Decimal.Binary64

/-!
# The shortest decimal that reads back

`Shortest.digits` finds, for a positive binary64, the fewest digits that lie in the interval of
numbers that round to it; among those of that length the nearest, and of two equally near the
greater. `Layout.text` then says where such digits are written positionally and where with an
exponent.
-/

namespace TypeFlow.Decimal

/-- A decimal `d₁.d₂d₃… · 10 ^ exponent`, as the number of its digits taken together. -/
structure Scientific where
  digits : List Char
  exponent : Int
  deriving DecidableEq, Repr

namespace Shortest

open Binary64 (powerUp)

/-- Whether `c · 10 ^ g ≤ x · 2 ^ e`, or `<` where `strict`. -/
def below (strict : Bool) (c : Nat) (g : Int) (x : Nat) (e : Int) : Bool :=
  let left := c * powerUp 10 g * powerUp 2 (-e)
  let right := x * powerUp 10 (-g) * powerUp 2 e
  if strict then left < right else left ≤ right

/-- Whether `x · 2 ^ e ≤ c · 10 ^ g`, or `<` where `strict`. -/
def above (strict : Bool) (c : Nat) (g : Int) (x : Nat) (e : Int) : Bool :=
  let left := x * powerUp 10 (-g) * powerUp 2 e
  let right := c * powerUp 10 g * powerUp 2 (-e)
  if strict then left < right else left ≤ right

/-- Four times the significand, and the ends of its rounding interval, in quarters of a unit. The
interval is narrower below a power of two. -/
def lowerEnd (m : Nat) (e : Int) : Nat :=
  if m = Binary64.minNormal ∧ Binary64.leastExponent < e then 4 * m - 1 else 4 * m - 2

def upperEnd (m : Nat) : Nat := 4 * m + 2

/-- Whether `c · 10 ^ g` rounds to `m · 2 ^ e`; the ends of the interval do if `m` is even. -/
def readsBack (m : Nat) (e : Int) (c : Nat) (g : Int) : Bool :=
  let strict := m % 2 != 0
  above strict c g (lowerEnd m e) (e - 2) && below strict c g (upperEnd m) (e - 2)

/-- The exponent of the leading digit of `m · 2 ^ e`. -/
def leadingExponent (m : Nat) (e : Int) : Int :=
  (Nat.toDigits 10 (m * Nat.pow 10 400 * powerUp 2 e / powerUp 2 (-e))).length - 401

/-- The best of the two neighbours of `m · 2 ^ e` on the grid of multiples of `10 ^ g`. -/
def onGrid (m : Nat) (e g : Int) : Option Nat :=
  let num := m * powerUp 10 (-g) * powerUp 2 e
  let den := powerUp 10 g * powerUp 2 (-e)
  let down := num / den
  let exact := num % den = 0
  let down? := readsBack m e down g
  let up? := !exact && readsBack m e (down + 1) g
  match down?, up? with
  | true, true => if 2 * (num % den) < den then some down else some (down + 1)
  | true, false => some down
  | false, true => some (down + 1)
  | false, false => none

/-- Tries grids of `count`, `count + 1`, … digits. -/
def search (m : Nat) (e lead : Int) : Nat → Nat → Scientific
  | 0, _ => ⟨Nat.toDigits 10 m, lead⟩
  | fuel + 1, count =>
    let g := lead - (count - 1)
    match onGrid m e g with
    | some c =>
      let ds := Nat.toDigits 10 c
      ⟨(ds.reverse.dropWhile (· == '0')).reverse, g + (ds.length - 1)⟩
    | none => search m e lead fuel (count + 1)

/-- The shortest digits of `m · 2 ^ e`, for positive `m`. Seventeen always read back. -/
def digits (m : Nat) (e : Int) : Scientific :=
  search m e (leadingExponent m e) 17 1

end Shortest

/-- How a binary64 is written: positionally for a leading digit's exponent from `leastPositional`
to below `exponential`, then with a fraction of at least one digit; else with `mark` and an
exponent. -/
structure Layout where
  leastPositional : Int
  exponential : Int
  mark : String
  infinity : String
  notANumber : String
  deriving DecidableEq, Repr

namespace Layout

/-- Digits with a point in them, or zeros around them. -/
def positional (s : Scientific) : String :=
  let ds := s.digits
  match s.exponent with
  | .ofNat e =>
    let whole := (ds ++ List.replicate (e + 1 - ds.length) '0').take (e + 1)
    let frac := ds.drop (e + 1)
    String.ofList (whole ++ '.' :: (if frac.isEmpty then ['0'] else frac))
  | .negSucc e => String.ofList ('0' :: '.' :: (List.replicate e '0' ++ ds))

def scientific (layout : Layout) (s : Scientific) : String :=
  let mantissa := match s.digits with
    | [] => ""
    | [d] => String.ofList [d]
    | d :: ds => String.ofList (d :: '.' :: ds)
  mantissa ++ layout.mark ++ toString s.exponent

def text (layout : Layout) : Binary64 → String
  | .nan => layout.notANumber
  | .infinite negative => (if negative then "-" else "") ++ layout.infinity
  | .finite negative m e =>
    let magnitude :=
      if m = 0 then "0.0"
      else
        let s := Shortest.digits m e
        if layout.leastPositional ≤ s.exponent ∧ s.exponent < layout.exponential then positional s
        else layout.scientific s
    (if negative then "-" else "") ++ magnitude

end Layout

end TypeFlow.Decimal

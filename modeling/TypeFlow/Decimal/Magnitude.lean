import TypeFlow.Decimal.Binary64

/-!
# Magnitudes of one word

A number's digits are taken into a significand of 64 bits as far as they fit, and a power of ten
keeps their place. Such a magnitude is infinite if the binary64 nearest to the significand, times
the one nearest to the power, rounds to no finite binary64. Each of the three steps rounds, so that
close to the greatest finite value the decimal itself does not decide.
-/

namespace TypeFlow.Decimal

/-- The number `significand · 10 ^ exponent`. -/
structure Magnitude where
  significand : Nat
  exponent : Int
  deriving DecidableEq, Repr

namespace Magnitude

/-- One more than the greatest significand. -/
def significandBound : Nat := Nat.pow 2 64

/-- Takes digits into the significand up to the first that does not fit, and gives what is left. -/
def takeDigits : Nat → List Char → Nat × List Char
  | n, [] => (n, [])
  | n, c :: rest =>
    let next := 10 * n + (c.toNat - '0'.toNat)
    if next < significandBound then takeDigits next rest else (n, c :: rest)

/-- The digits before and after a point, times a power of ten. Digits left over before the point
move the point; those after it are dropped. -/
def ofDigits (whole fraction : List Char) (exponent : Int) : Magnitude :=
  let (significand, moved) := takeDigits 0 whole
  let (significand, dropped) := takeDigits significand fraction
  let kept := fraction.length - dropped.length
  ⟨significand, exponent + moved.length - kept⟩

/-- The exponent of the greatest power of ten that is a finite binary64. -/
def greatestPower : Int := 308

/-- A product with a negative power is never infinite, as the significand is less than that. -/
def isInfinite (m : Magnitude) : Bool :=
  if m.significand = 0 || m.exponent ≤ 0 then false
  else if greatestPower < m.exponent then true
  else
    match Binary64.ofRatio false m.significand 1, Binary64.ofScientific false 1 m.exponent with
    | .finite _ a i, .finite _ b j => !(Binary64.ofScaled false (a * b) (i + j)).isFinite
    | _, _ => true

end Magnitude

end TypeFlow.Decimal

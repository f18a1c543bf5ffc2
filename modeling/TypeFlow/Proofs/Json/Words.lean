import Mathlib.Data.List.TakeWhile
import Mathlib.Data.Nat.Digits.Defs
import TypeFlow.Json.Parser
import TypeFlow.Json.Printer

/-!
# The words of printed JSON

A string is read as it was before it was quoted, whatever its characters are. The text of an integer
of one word is a number to JSON and stands for that integer.
-/

namespace TypeFlow.Json

open Lexeme
open Text (natOfDigits digitValue?)

/-! ### Strings -/

theorem digitValue?_hexDigit : ∀ n < 16, digitValue? (hexDigit n) = some n := by decide

theorem unicodeEscape_control {c : Char} (hc : c.toNat < 0x20) (rest : List Char) :
    unicodeEscape ('0' :: '0' :: hexDigit (c.toNat / 16) :: hexDigit (c.toNat % 16) :: rest) =
      some (c, rest) := by
  have hhigh := digitValue?_hexDigit (c.toNat / 16) (by omega)
  have hlow := digitValue?_hexDigit (c.toNat % 16) (by omega)
  have hzero : digitValue? '0' = some 0 := by decide
  have hunit : codeUnit ('0' :: '0' :: hexDigit (c.toNat / 16) :: hexDigit (c.toNat % 16) :: rest) =
      some (c.toNat, rest) := by
    simp only [codeUnit, hzero, hhigh, hlow, Option.bind_eq_bind, Option.bind_some, Option.pure_def]
    congr 2; omega
  have hnothigh : isHighSurrogate c.toNat = false := by simp [isHighSurrogate]; omega
  have hnotlow : isLowSurrogate c.toNat = false := by simp [isLowSurrogate]; omega
  rw [unicodeEscape, hunit]
  simp [hnothigh, hnotlow, Char.ofNat_toNat]

/-- A character is read back from what is written for it. -/
theorem stringBody_escapeChar (c : Char) (fuel : Nat) (read rest : List Char) :
    stringBody (fuel + 1) read (escapeChar c ++ rest) = stringBody fuel (c :: read) rest := by
  unfold escapeChar
  split
  case isTrue h => subst h; rfl
  case isFalse hquote =>
  split
  case isTrue h => subst h; rfl
  case isFalse hbackslash =>
  iterate 5
    split
    case isTrue h => subst h; rfl
  split
  case isTrue hc =>
    have hescape := unicodeEscape_control hc rest
    simp only [List.cons_append, List.nil_append, stringBody, escape, Char.reduceEq,
      ↓reduceIte, hescape]
  case isFalse hc =>
    have hcontrol : isControl c = false := by simp only [isControl, decide_eq_false hc]
    simp only [List.cons_append, List.nil_append, stringBody, hquote, hbackslash,
      hcontrol, ↓reduceIte, Bool.false_eq_true]

theorem stringBody_flatMap (cs : List Char) {fuel : Nat} (hfuel : cs.length < fuel)
    (read rest : List Char) :
    stringBody fuel read (cs.flatMap escapeChar ++ '"' :: rest) = some
      (String.ofList (read.reverse ++ cs), rest) := by
  induction cs generalizing fuel read with
  | nil =>
    obtain ⟨fuel, rfl⟩ := Nat.exists_eq_succ_of_ne_zero (Nat.ne_of_gt hfuel)
    simp [stringBody]
  | cons c cs ih =>
    obtain ⟨fuel, rfl⟩ := Nat.exists_eq_succ_of_ne_zero (Nat.ne_of_gt (Nat.zero_lt_of_lt hfuel))
    rw [List.flatMap_cons, List.append_assoc, stringBody_escapeChar,
      ih (Nat.lt_of_succ_lt_succ hfuel)]
    simp

/-! ### Integers -/

/-- A text of digits without a leading zero. -/
structure IsDigits (cs : List Char) (n : Nat) : Prop where
  digits : ∀ c ∈ cs, c.isDigit = true
  nonempty : cs ≠ []
  leading : cs.head? = some '0' → cs.length = 1
  value : natOfDigits cs = n

theorem head?_toDigits (n : Nat) (hn : 0 < n) : (Nat.toDigits 10 n).head? ≠ some '0' := by
  induction n using Nat.strong_induction_on with
  | _ n ih =>
    rcases Nat.lt_or_ge n 10 with hlt | hge
    · have hsingle : ∀ n < 10, 0 < n → [Nat.digitChar n].head? ≠ some '0' := by decide
      rw [Nat.toDigits_of_lt_base hlt]
      exact hsingle n hlt hn
    · obtain ⟨c, cs, heq⟩ :=
        List.exists_cons_of_ne_nil (Nat.toDigits_ne_nil (n := n / 10) (b := 10))
      have hfirst := ih (n / 10) (by omega) (by omega)
      rw [Nat.toDigits_of_base_le (by decide) hge, heq]
      rwa [heq] at hfirst

theorem isDigits_toDigits (n : Nat) : IsDigits (Nat.toDigits 10 n) n where
  digits _ hc := Nat.isDigit_of_mem_toDigits (by decide) (by decide) hc
  nonempty := Nat.toDigits_ne_nil
  leading h := by
    rcases Nat.eq_zero_or_pos n with rfl | hn
    · rfl
    · exact absurd h (head?_toDigits n hn)
  value := Nat.ofDigitChars_ten_toDigits

/-- The characters of an integer's text: its digits, after a minus if it is negative. -/
theorem toList_toString_int (i : Int) :
    (toString i).toList = (if i < 0 then ['-'] else []) ++ Nat.toDigits 10 i.natAbs := by
  cases i with
  | ofNat n => simp [Int.repr]
  | negSucc n => simp [Int.repr]

theorem toList_ofNat (n : Nat) : (toString n).toList = Nat.toDigits 10 n := by simp

/-- A number of one word, as it is written. -/
structure IsNumeral (text : String) : Prop where
  chars : ∀ c ∈ text.toList, isNumberChar c = true
  numeral : ∃ numeral, numeral? text.toList = some numeral ∧ numeral.magnitude.isInfinite = false

theorem IsNumeral.exists_cons {text : String} (h : IsNumeral text) :
    ∃ c cs, text.toList = c :: cs ∧ isNumberChar c = true ∧ isBlank c = false := by
  obtain ⟨numeral, hnumeral, -⟩ := h.numeral
  cases heq : text.toList with
  | nil => rw [heq] at hnumeral; cases hnumeral
  | cons c cs =>
    have hc := h.chars c (by rw [heq]; exact List.mem_cons_self)
    refine ⟨c, cs, rfl, hc, Bool.eq_false_iff.mpr fun hblank => ?_⟩
    simp only [isBlank, Bool.or_eq_true, beq_iff_eq] at hblank
    rcases hblank with ((rfl | rfl) | rfl) | rfl <;> exact absurd hc (by decide)

theorem isNumberChar_of_isDigit {c : Char} (h : c.isDigit = true) : isNumberChar c = true := by
  simp [isNumberChar, h]

theorem ne_of_isDigit {c d : Char} (h : c.isDigit = true) (hd : d.isDigit = false) :
    c ≠ d := fun heq => by
  rw [heq, hd] at h; cases h

theorem le_foldl_digits (cs : List Char) (n : Nat) :
    n ≤ cs.foldl (fun n c => 10 * n + (c.toNat - '0'.toNat)) n := by
  induction cs generalizing n with
  | nil => exact Nat.le_refl n
  | cons c cs ih =>
    have hstep : n ≤ 10 * n + (c.toNat - '0'.toNat) := by omega
    exact Nat.le_trans hstep (ih _)

theorem takeDigits_eq (cs : List Char) (n : Nat)
    (h : cs.foldl (fun n c => 10 * n + (c.toNat - '0'.toNat)) n <
      Decimal.Magnitude.significandBound) :
    Decimal.Magnitude.takeDigits n cs =
      (cs.foldl (fun n c => 10 * n + (c.toNat - '0'.toNat)) n, []) := by
  induction cs generalizing n with
  | nil => rfl
  | cons c cs ih =>
    rw [List.foldl_cons] at h ⊢
    rw [Decimal.Magnitude.takeDigits, if_pos (Nat.lt_of_le_of_lt (le_foldl_digits cs _) h)]
    exact ih _ h

namespace IsDigits
variable {cs : List Char} {n : Nat}

theorem takeWhile_eq (h : IsDigits cs n) : cs.takeWhile Char.isDigit = cs :=
  List.takeWhile_eq_self_iff.mpr h.digits

theorem unsigned?_eq (h : IsDigits cs n) : unsigned? cs = some ⟨cs, [], 0⟩ := by
  have hdrop : cs.dropWhile Char.isDigit = [] := List.dropWhile_eq_nil_iff.mpr h.digits
  have hdigits : digits1 cs = some (cs, []) := by
    rw [digits1, h.takeWhile_eq, hdrop]
    cases cs with
    | nil => exact absurd rfl h.nonempty
    | cons => rfl
  rw [unsigned?, hdigits]
  simpa [Lexeme.fraction, Lexeme.exponent] using h.leading

theorem numeral?_eq (h : IsDigits cs n) : numeral? cs = some ⟨cs, [], 0⟩ := by
  cases cs with
  | nil => exact absurd rfl h.nonempty
  | cons c cs =>
    have hc := ne_of_isDigit (h.digits c List.mem_cons_self) (d := '-') rfl
    rw [numeral?, h.unsigned?_eq]
    exact fun rest heq => hc (List.cons.inj heq).1

theorem isInfinite_magnitude (h : IsDigits cs n) (hn : n < 2 ^ 64) :
    (⟨cs, [], 0⟩ : Numeral).magnitude.isInfinite = false := by
  have htake := takeDigits_eq cs 0 (by rw [← natOfDigits, h.value]; exact hn)
  have hexponent : (⟨cs, [], 0⟩ : Numeral).magnitude.exponent ≤ 0 := by
    simp [Numeral.magnitude, Decimal.Magnitude.ofDigits, htake, Decimal.Magnitude.takeDigits]
  simp [Decimal.Magnitude.isInfinite, hexponent]

end IsDigits

theorem isNumeral_ofNat {n : Nat} (hn : n < 2 ^ 64) : IsNumeral (toString n) := by
  have h := isDigits_toDigits n
  refine ⟨fun c hc => ?_, _, by rw [toList_ofNat]; exact h.numeral?_eq, h.isInfinite_magnitude hn⟩
  rw [toList_ofNat] at hc
  exact isNumberChar_of_isDigit (h.digits c hc)

theorem isNumeral_ofInt {i : Int} (hi : i.natAbs < 2 ^ 64) : IsNumeral (toString i) := by
  have h := isDigits_toDigits i.natAbs
  refine ⟨fun c hc => ?_, _, ?_, h.isInfinite_magnitude hi⟩
  · rw [toList_toString_int, List.mem_append] at hc
    rcases hc with hc | hc
    · split at hc
      · rw [List.mem_singleton.mp hc]; rfl
      · cases hc
    · exact isNumberChar_of_isDigit (h.digits c hc)
  · rw [toList_toString_int]
    split
    · exact h.unsigned?_eq
    · exact h.numeral?_eq

/-- A number ends where no more of its characters follow. -/
theorem number_eq {text : String} (h : IsNumeral text) {rest : List Char}
    (hrest : ∀ c ∈ rest.head?, isNumberChar c = false) :
    Parser.number (text.toList ++ rest) = some (.number text, rest) := by
  have htake : rest.takeWhile isNumberChar = [] ∧ rest.dropWhile isNumberChar = rest := by
    cases rest with
    | nil => exact ⟨rfl, rfl⟩
    | cons c rest =>
      have hc := hrest c rfl
      exact ⟨List.takeWhile_cons_of_neg (by simp [hc]), List.dropWhile_cons_of_neg (by simp [hc])⟩
  obtain ⟨numeral, hnumeral, hfinite⟩ := h.numeral
  rw [Parser.number, List.takeWhile_append_of_pos h.chars,
    List.dropWhile_append_of_pos h.chars, htake.1, htake.2, List.append_nil]
  simp [hnumeral, hfinite]

/-! ### Reading integers -/

theorem intOfText_ofNat (n : Nat) : intOfText (toString n) = some (n : Int) := by
  have h := isDigits_toDigits n
  obtain ⟨c, cs, heq⟩ := List.exists_cons_of_ne_nil h.nonempty
  have hc := ne_of_isDigit (h.digits c (by rw [heq]; exact List.mem_cons_self)) (d := '-') rfl
  have hall : (Nat.toDigits 10 n).all Char.isDigit = true := List.all_eq_true.mpr h.digits
  rw [intOfText, toList_ofNat]
  split
  · rename_i rest hrest
    rw [heq] at hrest
    exact absurd (List.cons.inj hrest).1 hc
  · rw [if_pos hall, h.value]

theorem intOfText_ofInt (i : Int) : intOfText (toString i) = some i := by
  cases i with
  | ofNat n => exact intOfText_ofNat n
  | negSucc n =>
    have h := isDigits_toDigits (n + 1)
    have hall : (Nat.toDigits 10 (n + 1)).all Char.isDigit = true := List.all_eq_true.mpr h.digits
    have htext : (toString (Int.negSucc n)).toList = '-' :: Nat.toDigits 10 (n + 1) := by
      rw [toList_toString_int, if_pos (Int.negSucc_lt_zero n)]
      rfl
    rw [intOfText, htext]
    simp [hall, h.value, Int.negSucc_eq]

theorem natUpTo?_ofNat {bound n : Nat} (h : n ≤ bound) : natUpTo? bound (ofNat n) = some n := by
  rw [natUpTo?, show (ofNat n).int? = some (n : Int) from intOfText_ofNat n]
  exact if_pos h

end TypeFlow.Json

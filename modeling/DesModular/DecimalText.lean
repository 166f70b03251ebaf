import Mathlib.Tactic.Common
import Mathlib.Algebra.GroupWithZero.Nat

/-!
# Numbers in text

`strtoul` of the C library in base 10, for a result of any width, and what it reads
from a decimal numeral. The numeral may denote a number of any size.
-/
namespace DecimalText

/-- `isspace` of the C locale: a blank, or one of the characters 9 to 13. -/
def isSpace (c : Char) : Bool := c.toNat == 32 || 9 ≤ c.toNat && c.toNat ≤ 13

/-- An optional sign: whether it is a minus, and the text after it. -/
def readSign : List Char → Bool × List Char
  | '-' :: rest => (true, rest)
  | '+' :: rest => (false, rest)
  | rest => (false, rest)

structure Conversion (w : Nat) where
  value : BitVec w
  rest : List Char

/-- The largest value where the number is out of range. -/
def saturate (w n : Nat) : BitVec w := BitVec.ofNat w (min n (2 ^ w - 1))

/-- `strtoul(text, &rest, 10)`: white space, a sign, digits. Without a digit nothing is
read; a number out of range gives the largest value, whatever its sign. -/
def strtoul (w : Nat) (text : List Char) : Conversion w :=
  let (negative, unsigned) := readSign (text.dropWhile isSpace)
  let digits := unsigned.takeWhile Char.isDigit
  let n := Nat.ofDigitChars 10 digits 0
  if digits = [] then ⟨0#w, text⟩
  else ⟨if negative && n < 2 ^ w then -saturate w n else saturate w n,
    unsigned.dropWhile Char.isDigit⟩

/-- One or more digits. -/
structure Numeral where
  digits : List Char
  nonempty : digits ≠ []
  isDigit : ∀ c ∈ digits, c.isDigit = true

def Numeral.value (n : Numeral) : Nat := Nat.ofDigitChars 10 n.digits 0

/-- The numeral that writes a number without leading zeros. -/
def Numeral.ofNat (n : Nat) : Numeral where
  digits := Nat.toDigits 10 n
  nonempty := Nat.toDigits_ne_nil
  isDigit _ hc := Nat.isDigit_of_mem_toDigits (Nat.succ_pos 9) (Nat.le_refl 10) hc

@[simp] theorem Numeral.value_ofNat (n : Nat) : (Numeral.ofNat n).value = n :=
  Nat.ofDigitChars_ten_toDigits

@[simp] theorem toNat_saturate (w n : Nat) : (saturate w n).toNat = min n (2 ^ w - 1) := by
  have hpos : 0 < 2 ^ w := Nat.two_pow_pos w
  rw [saturate, BitVec.toNat_ofNat]
  exact Nat.mod_eq_of_lt (by omega)

/-- A digit is neither white space nor a sign. -/
theorem digit_plain {c : Char} (h : c.isDigit = true) : isSpace c = false ∧ c ≠ '-' ∧ c ≠ '+' := by
  have hrange : 48 ≤ c.toNat ∧ c.toNat ≤ 57 := by simpa [Char.isDigit_iff_toNat] using h
  refine ⟨?_, ?_, ?_⟩
  · simp [isSpace]
    omega
  · rintro rfl
    revert h
    decide
  · rintro rfl
    revert h
    decide

theorem readSign_digit {c : Char} (h : c.isDigit = true) (cs : List Char) :
    readSign (c :: cs) = (false, c :: cs) := by
  obtain ⟨-, hminus, hplus⟩ := digit_plain h
  simp [readSign, hminus, hplus]

/-- A numeral is read to its end, and its value is exact up to the largest one. -/
theorem strtoul_numeral (w : Nat) (n : Numeral) {rest : List Char}
    (hrest : rest.takeWhile Char.isDigit = []) :
    strtoul w (n.digits ++ rest) = ⟨saturate w n.value, rest⟩ := by
  obtain ⟨digits, hne, hdigits⟩ := n
  have hdrop : rest.dropWhile Char.isDigit = rest := by
    have hsplit := List.takeWhile_append_dropWhile (p := Char.isDigit) (l := rest)
    rwa [hrest, List.nil_append] at hsplit
  cases digits with
  | nil => exact absurd rfl hne
  | cons c cs =>
    have hc := hdigits c List.mem_cons_self
    have hspace : ((c :: cs) ++ rest).dropWhile isSpace = (c :: cs) ++ rest := by
      simp [(digit_plain hc).1]
    have htake : ((c :: cs) ++ rest).takeWhile Char.isDigit = c :: cs := by
      rw [List.takeWhile_append_of_pos hdigits, hrest, List.append_nil]
    have hleft : ((c :: cs) ++ rest).dropWhile Char.isDigit = rest := by
      rw [List.dropWhile_append_of_pos hdigits, hdrop]
    have hsign : readSign ((c :: cs) ++ rest) = (false, (c :: cs) ++ rest) := readSign_digit hc _
    simp only [strtoul, hspace, hsign, htake, hleft, Numeral.value, if_neg hne]
    simp

/-- Numerals with commas between them. -/
def commaSeparated : List Numeral → List Char
  | [] => []
  | n :: ns => n.digits ++ ns.flatMap (fun k => ',' :: k.digits)

end DecimalText

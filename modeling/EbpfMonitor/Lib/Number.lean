import EbpfMonitor.Lib.Decimal
import Mathlib.Data.Int.Notation
import Mathlib.Data.List.TakeWhile

/-! # Reading numbers

Numbers in decimal notation with a sign, a fraction and an exponent, as text formats write
them.  `Numeral.ofText` reads a whole text; `Numeral.ofText_decimal` says that it reads back the
notation of a natural number.

`leadingInteger` reads the way `strtoul` does: it skips white space, takes a sign and as many digits
as there are, and does not look at the rest. -/

/-- A number as it is written: sign, integer part, digits of the fraction, and exponent. -/
structure Numeral where
  negative : Bool
  integer : ℕ
  fraction : Text
  exponent : ℤ
deriving DecidableEq

namespace Numeral

open Text

def ofNat (n : ℕ) : Numeral := ⟨false, n, [], 0⟩

/-- A non-empty text of digits. -/
def readNat (t : Text) : Option ℕ :=
  if t ≠ [] ∧ t.all Char.isDigit = true then some (Nat.ofDigitChars 10 t 0) else none

def readInt : Text → Option ℤ
  | '-' :: t => (readNat t).map (fun n => -(n : ℤ))
  | '+' :: t => (readNat t).map (fun n => (n : ℤ))
  | t => (readNat t).map (fun n => (n : ℤ))

/-- The digits after a point, if there is one, and what follows. -/
def readFraction : Text → Option (Text × Text)
  | '.' :: t =>
      if t.takeWhile Char.isDigit = [] then none
      else some (t.takeWhile Char.isDigit, t.dropWhile Char.isDigit)
  | t => some ([], t)

def readExponent : Text → Option ℤ
  | [] => some 0
  | c :: t => if c = 'e' ∨ c = 'E' then readInt t else none

/-- A number without its sign. -/
def readUnsigned (negative : Bool) (t : Text) : Option Numeral := do
  let integer ← readNat (t.takeWhile Char.isDigit)
  let (fraction, t) ← readFraction (t.dropWhile Char.isDigit)
  let exponent ← readExponent t
  return ⟨negative, integer, fraction, exponent⟩

def ofText : Text → Option Numeral
  | '-' :: t => readUnsigned true t
  | t => readUnsigned false t

/-- `isspace` of the C locale. -/
def isSpace (c : Char) : Bool := c = ' ' || ('\t' ≤ c && c ≤ '\r')

/-- The number that a text of digits stands for. -/
def digitsValue (t : Text) : ℕ := Nat.ofDigitChars 10 t 0

/-- The sign and the absolute value of the integer at the start of the text. -/
def leadingInteger (t : Text) : Option (Bool × ℕ) :=
  match t.dropWhile isSpace with
  | '-' :: t => (readNat (t.takeWhile Char.isDigit)).map (fun n => (true, n))
  | '+' :: t => (readNat (t.takeWhile Char.isDigit)).map (fun n => (false, n))
  | t => (readNat (t.takeWhile Char.isDigit)).map (fun n => (false, n))

theorem isSpace_eq_false_of_isDigit {c : Char} (h : c.isDigit = true) : isSpace c = false := by
  obtain ⟨hlow, _⟩ := toNat_of_isDigit h
  have hspace : c ≠ ' ' := by
    rintro rfl
    exact absurd hlow (by decide)
  have htab : ¬ c ≤ '\r' := by
    intro hle
    have hle' : c.toNat ≤ 13 := UInt32.le_iff_toNat_le.mp hle
    omega
  simp [isSpace, hspace, htab]

/-- A text of digits is read as the number it stands for. -/
theorem leadingInteger_digits {t : Text} (hne : t ≠ []) (ht : ∀ c ∈ t, c.isDigit = true) :
    leadingInteger t = some (false, digitsValue t) := by
  have htake : t.takeWhile Char.isDigit = t := List.takeWhile_eq_self_iff.mpr ht
  have hread : readNat t = some (digitsValue t) := by
    rw [readNat, if_pos ⟨hne, List.all_eq_true.mpr ht⟩, digitsValue]
  obtain ⟨c, rest, rfl⟩ := List.exists_cons_of_ne_nil hne
  have hc : c.isDigit = true := ht c List.mem_cons_self
  have hdrop : (c :: rest).dropWhile isSpace = c :: rest :=
    List.dropWhile_cons_of_neg (by rw [isSpace_eq_false_of_isDigit hc]; exact Bool.false_ne_true)
  unfold leadingInteger
  rw [hdrop]
  split
  next h =>
    obtain ⟨rfl, rfl⟩ := List.cons.inj h
    cases hc
  next h =>
    obtain ⟨rfl, rfl⟩ := List.cons.inj h
    cases hc
  next => rw [htake, hread, Option.map_some]

theorem all_isDigit_decimal (n : ℕ) : (decimal n).all Char.isDigit = true :=
  List.all_eq_true.mpr (fun _ hc => isDigit_of_mem_decimal hc)

theorem readNat_decimal (n : ℕ) : readNat (decimal n) = some n := by
  rw [readNat, if_pos ⟨decimal_ne_nil n, all_isDigit_decimal n⟩, decimal,
    Nat.ofDigitChars_ten_toDigits]

/-- The notation of a number starts with a digit. -/
theorem exists_decimal_eq_cons (n : ℕ) : ∃ c t, decimal n = c :: t ∧ c.isDigit = true := by
  cases h : decimal n with
  | nil => exact absurd h (decimal_ne_nil n)
  | cons c t => exact ⟨c, t, rfl, isDigit_of_mem_decimal (by rw [h]; exact List.mem_cons_self)⟩

theorem readInt_decimal (n : ℕ) : readInt (decimal n) = some (n : ℤ) := by
  have hread := readNat_decimal n
  obtain ⟨c, t, heq, hc⟩ := exists_decimal_eq_cons n
  rw [heq] at hread ⊢
  unfold readInt
  split
  next h =>
    obtain ⟨rfl, rfl⟩ := List.cons.inj h
    cases hc
  next h =>
    obtain ⟨rfl, rfl⟩ := List.cons.inj h
    cases hc
  next => rw [hread]; rfl

theorem ofText_decimal (n : ℕ) : ofText (decimal n) = some (ofNat n) := by
  have htake : (decimal n).takeWhile Char.isDigit = decimal n :=
    List.takeWhile_eq_self_iff.mpr (fun c hc => isDigit_of_mem_decimal hc)
  have hdrop : (decimal n).dropWhile Char.isDigit = [] :=
    List.dropWhile_eq_nil_iff.mpr (fun c hc => isDigit_of_mem_decimal hc)
  have hunsigned : readUnsigned false (decimal n) = some (ofNat n) := by
    simp only [readUnsigned, htake, hdrop, readNat_decimal]
    rfl
  obtain ⟨c, t, heq, hc⟩ := exists_decimal_eq_cons n
  rw [heq] at hunsigned ⊢
  unfold ofText
  split
  next h =>
    obtain ⟨rfl, rfl⟩ := List.cons.inj h
    cases hc
  next => exact hunsigned

end Numeral

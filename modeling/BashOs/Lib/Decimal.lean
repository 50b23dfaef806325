import Mathlib.Data.List.TakeWhile
import BashOs.Lib.Bytes

/-!
Numbers in decimal digits, as `printf` writes them and `strtol` reads them.
-/

namespace BashOs.Lib
open List

/-- `%zu` -/
def decimalText (n : Nat) : Bytes := (Nat.toDigits 10 n).map fun c => UInt8.ofNat c.toNat

def isDigit (b : UInt8) : Bool := 0x30 ≤ b && b ≤ 0x39

def digitsValue (digits : Bytes) : Nat := digits.foldl (fun value b => value * 10 + (b.toNat - 0x30)) 0

def signOf : Bytes → Bool × Bytes
  | 0x2d :: rest => (true, rest)
  | 0x2b :: rest => (false, rest)
  | rest => (false, rest)

/-- What `strtol` passes over in front of a number. -/
def leadsNumber (b : UInt8) : Bool := b = 0x20 || (0x09 ≤ b && b ≤ 0x0d)

/-- `strtol` in base ten: the number, and what stands behind it. Where there is no digit, that is the whole text. -/
def strtol (text : Bytes) : Int × Bytes :=
  let (negative, rest) := signOf (text.dropWhile leadsNumber)
  let digits := rest.takeWhile isDigit
  let value := digitsValue digits
  if digits = [] then (0, text)
  else (if negative then -Int.ofNat (min value (2 ^ 63)) else Int.ofNat (min value (2 ^ 63 - 1)),
    rest.dropWhile isDigit)

theorem digit_byte {d : Nat} (small : d < 10) :
    isDigit (UInt8.ofNat d.digitChar.toNat) = true ∧ (UInt8.ofNat d.digitChar.toNat).toNat - 0x30 = d := by
  have all : ∀ i : Fin 10, isDigit (UInt8.ofNat i.val.digitChar.toNat) = true ∧
      (UInt8.ofNat i.val.digitChar.toNat).toNat - 0x30 = i.val := by decide
  exact all ⟨d, small⟩

theorem decimalText_eq (n : Nat) :
    decimalText n = (if n < 10 then [] else decimalText (n / 10)) ++ [UInt8.ofNat (n % 10).digitChar.toNat] := by
  unfold decimalText
  rw [Nat.toDigits_eq_if (by decide)]
  split
  next small => rw [Nat.mod_eq_of_lt small, map_singleton, nil_append]
  · rw [map_append, map_singleton]

theorem decimalText_ne_nil (n : Nat) : decimalText n ≠ [] := by
  rw [decimalText_eq]
  exact append_ne_nil_of_right_ne_nil _ (cons_ne_nil _ _)

theorem isDigit_of_mem_decimalText (n : Nat) : ∀ b ∈ decimalText n, isDigit b = true := by
  induction n using Nat.strongRecOn with
  | ind n ih =>
    intro b member
    rw [decimalText_eq, mem_append, mem_singleton] at member
    obtain early | rfl := member
    · split at early
      · cases early
      next large => exact ih (n / 10) (by omega) b early
    · exact (digit_byte (Nat.mod_lt n (by decide))).1

theorem digitsValue_decimalText (n : Nat) : digitsValue (decimalText n) = n := by
  induction n using Nat.strongRecOn with
  | ind n ih =>
    have front : digitsValue (if n < 10 then [] else decimalText (n / 10)) = n / 10 := by
      split
      next small => exact (Nat.div_eq_of_lt small).symm
      next large => exact ih (n / 10) (by omega)
    rw [decimalText_eq, digitsValue, foldl_append, foldl_cons, foldl_nil, (digit_byte (Nat.mod_lt n (by decide))).2]
    rw [digitsValue] at front
    rw [front, Nat.div_add_mod']

theorem signOf_digit {b : UInt8} (digit : isDigit b = true) (rest : Bytes) :
    signOf (b :: rest) = (false, b :: rest) := by
  rw [signOf]
  · intro _ same
    cases same
    cases digit
  · intro _ same
    cases same
    cases digit

theorem strtol_decimalText {n : Nat} (fits : n < 2 ^ 63) {rest : Bytes} (stops : ∀ b ∈ rest.head?, isDigit b = false) :
    strtol (decimalText n ++ rest) = ((n : Int), rest) := by
  have digits := isDigit_of_mem_decimalText n
  have value := digitsValue_decimalText n
  have some := decimalText_ne_nil n
  generalize decimalText n = text at *
  cases text with
  | nil => exact absurd rfl some
  | cons first text =>
    have digit : isDigit first = true := digits first (.head _)
    have plain : ¬ leadsNumber first = true :=
      @byte_cases (fun b => isDigit b = true → ¬ leadsNumber b = true) (by decide +kernel) first digit
    have tail : rest.takeWhile isDigit = [] := by
      cases rest with
      | nil => rfl
      | cons b rest => rw [takeWhile_cons_of_neg (by simp [stops b rfl])]
    have cut : (first :: text ++ rest).takeWhile isDigit = first :: text := by
      rw [takeWhile_append_of_pos digits, tail, append_nil]
    have behind : (first :: text ++ rest).dropWhile isDigit = rest := by
      have whole := takeWhile_append_dropWhile (p := isDigit) (l := first :: text ++ rest)
      rw [cut] at whole
      exact append_cancel_left whole
    rw [cons_append] at cut behind ⊢
    rw [strtol, dropWhile_cons_of_neg plain, signOf_digit digit]
    dsimp only
    rw [cut, behind, value, if_neg Bool.false_ne_true, min_eq_left (by omega)]
    rfl

end BashOs.Lib

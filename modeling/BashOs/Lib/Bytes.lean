import Mathlib.Tactic.Ring
import Mathlib.Data.List.Basic

/-!
Byte strings as lists of bytes: the bit masks of seven-bit codings, big-endian words, and tables of
records that all have one width.
-/

namespace BashOs.Lib
open List

abbrev Bytes := List UInt8

/-- `isspace` and its like. -/
abbrev CharClass := UInt8 → Bool

instance : LawfulBEq Bytes := inferInstance

def ascii (text : String) : Bytes := text.toList.map (fun c => UInt8.ofNat c.toNat)

section Masks

theorem byte_ofNat_toNat {n : Nat} (small : n < 256) : (UInt8.ofNat n).toNat = n := by
  simpa using Nat.mod_eq_of_lt small

theorem low_seven (n : Nat) : n &&& 0x7f = n % 128 := Nat.and_two_pow_sub_one_eq_mod n 7

theorem low_seven_byte (b : UInt8) : (b &&& 0x7f).toNat = b.toNat % 128 := by
  exact low_seven b.toNat

theorem drop_seven (n : Nat) : n >>> 7 = n / 128 := Nat.shiftRight_eq_div_pow n 7

theorem or_shiftLeft {value shift : Nat} (below : value < 2 ^ shift) (bits : Nat) :
    value ||| bits <<< shift = value + bits * 2 ^ shift := by
  rw [Nat.or_comm, ← Nat.shiftLeft_add_eq_or_of_lt below, Nat.shiftLeft_eq, add_comm]

-- Bytes are few enough that a fact about one can be evaluated on all of them.
theorem byte_cases {P : UInt8 → Prop} (all : ∀ i : Fin 256, P (UInt8.ofNat i.val)) (b : UInt8) : P b := by
  have here := all ⟨b.toNat, b.toNat_lt⟩
  simpa using here

theorem high_bit_clear (b : UInt8) : b &&& 0x80 = 0 ↔ b.toNat < 128 := by
  revert b
  apply byte_cases
  decide +kernel

theorem set_high_bit (b : UInt8) (small : b.toNat < 128) : (b ||| 0x80).toNat = b.toNat + 128 := by
  revert b
  apply byte_cases
  decide +kernel

end Masks

section Words

/-- The low `n` bytes of a number, high byte first. -/
def be : Nat → Nat → Bytes
  | 0, _ => []
  | n + 1, v => be n (v >>> 8) ++ [UInt8.ofNat (v &&& 0xff)]

def valueBE (bytes : Bytes) : Nat :=
  bytes.foldl (fun value b => value <<< 8 ||| b.toNat) 0

@[simp] theorem be_length (n v : Nat) : (be n v).length = n := by
  induction n generalizing v with
  | zero => rfl
  | succ n ih => simp [be, ih]

theorem valueBE_append_byte (bytes : Bytes) (b : UInt8) : valueBE (bytes ++ [b]) = valueBE bytes * 256 + b.toNat := by
  simp only [valueBE, foldl_append, foldl_cons, foldl_nil]
  rw [← Nat.shiftLeft_add_eq_or_of_lt (i := 8) b.toNat_lt, Nat.shiftLeft_eq]

theorem valueBE_be (n v : Nat) (fits : v < 256 ^ n) : valueBE (be n v) = v := by
  induction n generalizing v with
  | zero => simp at fits; subst v; rfl
  | succ n ih =>
    have high : v >>> 8 < 256 ^ n := by
      rw [Nat.shiftRight_eq_div_pow]
      apply (Nat.div_lt_iff_lt_mul (by decide)).2
      simpa [Nat.pow_succ] using fits
    have low : v &&& 0xff = v % 256 := Nat.and_two_pow_sub_one_eq_mod v 8
    rw [be, valueBE_append_byte, ih _ high, low, byte_ofNat_toNat (Nat.mod_lt _ (by decide))]
    omega

/-- The `n`-byte word at an offset. -/
def wordAt (n : Nat) (bytes : Bytes) (off : Nat) : Nat := valueBE ((bytes.drop off).take n)

theorem wordAt_of_split (n v : Nat) (front tail : Bytes) (fits : v < 256 ^ n) :
    wordAt n (front ++ (be n v ++ tail)) front.length = v := by
  have here : (be n v ++ tail).take n = be n v := by simp
  rw [wordAt, drop_left, here, valueBE_be n v fits]

end Words

section Tables

variable {α : Type} {record : α → Bytes} {width : Nat} {i : Nat} {x : α} {front tail : Bytes}

theorem table_length (fixed : ∀ x, (record x).length = width) (xs : List α) :
    (xs.flatMap record).length = xs.length * width := by
  induction xs with
  | nil => simp
  | cons x xs ih =>
    simp only [flatMap_cons, length_append, fixed, ih, length_cons]
    ring

theorem slice_table (fixed : ∀ x, (record x).length = width) {whole : Bytes} {xs : List α} {start : Nat}
    (layout : whole = front ++ (xs.flatMap record ++ tail)) (starts : front.length = start)
    (found : xs[i]? = some x) : (whole.drop (start + i * width)).take width = record x := by
  obtain ⟨before, after, split, length⟩ : ∃ before after, xs.flatMap record = before ++ (record x ++ after) ∧
      before.length = i * width := by
    obtain ⟨inside, rfl⟩ := List.getElem?_eq_some_iff.1 found
    refine ⟨(xs.take i).flatMap record, (xs.drop (i + 1)).flatMap record, ?_, ?_⟩
    · rw [← flatMap_cons, ← flatMap_append, ← drop_eq_getElem_cons inside, take_append_drop]
    · rw [table_length fixed, length_take, Nat.min_eq_left (Nat.le_of_lt inside)]
  have place : start + i * width = (front ++ before).length := by rw [length_append, length, starts]
  have regrouped : whole = (front ++ before) ++ (record x ++ (after ++ tail)) := by rw [layout, split]; simp
  rw [regrouped, place]
  simp [fixed]

theorem wordAt_table {n : Nat} {whole : Bytes} {words : List Nat} {start : Nat}
    (layout : whole = front ++ (words.flatMap (be n) ++ tail)) (starts : front.length = start) {v : Nat}
    (found : words[i]? = some v) (fits : v < 256 ^ n) : wordAt n whole (start + i * n) = v := by
  rw [wordAt, slice_table (be_length n) layout starts found, valueBE_be n v fits]

end Tables

/-- `tolower` in the C locale. -/
def lowerByte (b : UInt8) : UInt8 := if 0x41 ≤ b && b ≤ 0x5a then b + 0x20 else b

end BashOs.Lib

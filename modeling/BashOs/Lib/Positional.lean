import Mathlib.Data.Nat.Digits.Lemmas
import Mathlib.Tactic.LinearCombination
import BashOs.Lib.DigitOrder

/-!
Written arithmetic in place notation: sums with a carry, differences with a borrow, and products row by row, over
digits of which the first counts least. The number they spell is `Nat.ofDigits`; read the other way round it is
`valueOf`.
-/

namespace BashOs.Lib
open List

open Nat (ofDigits ofDigits_cons)

theorem valueOf_eq_ofDigits (base : Nat) (digits : List Nat) : valueOf base digits = ofDigits base digits.reverse := by
  induction digits with
  | nil => rfl
  | cons d rest ih =>
    rw [valueOf_cons, ih, Nat.ofDigits_reverse_cons]
    ring

theorem valueOf_reverse (base : Nat) (digits : List Nat) : valueOf base digits.reverse = ofDigits base digits := by
  rw [valueOf_eq_ofDigits, reverse_reverse]

theorem valueOf_append (base : Nat) (high low : List Nat) :
    valueOf base (high ++ low) = valueOf base high * base ^ low.length + valueOf base low := by
  rw [valueOf, foldl_append, foldl_value]
  rfl

theorem valueOf_replicate_zero (base k : Nat) : valueOf base (List.replicate k 0) = 0 := by
  rw [valueOf_eq_ofDigits, reverse_replicate, Nat.ofDigits_replicate_zero]

variable {base : Nat} {xs ys : List Nat}

def addDigits (base : Nat) : List Nat → List Nat → Nat → List Nat × Nat
  | x :: xs, y :: ys, carry =>
      let (rest, out) := addDigits base xs ys ((x + y + carry) / base)
      ((x + y + carry) % base :: rest, out)
  | _, _, carry => ([], carry)

structure Added (base : Nat) (xs ys : List Nat) (carry : Nat) (sum : List Nat × Nat) : Prop where
  value : ofDigits base sum.1 + base ^ xs.length * sum.2 = ofDigits base xs + ofDigits base ys + carry
  size : sum.1.length = xs.length
  small : ∀ d ∈ sum.1, d < base
  carried : sum.2 ≤ 1

theorem addDigits_spec {carry : Nat} (positive : 0 < base) (same : xs.length = ys.length)
    (left : ∀ d ∈ xs, d < base) (right : ∀ d ∈ ys, d < base) (low : carry ≤ 1) :
    Added base xs ys carry (addDigits base xs ys carry) := by
  induction xs generalizing ys carry with
  | nil =>
    obtain rfl := length_eq_zero_iff.1 same.symm
    exact ⟨by simp [addDigits], rfl, fun d member => (not_mem_nil member).elim, low⟩
  | cons x xs ih =>
    obtain ⟨y, ys, rfl⟩ := exists_cons_of_length_eq_add_one same.symm
    obtain ⟨xSmall, left⟩ := forall_mem_cons.1 left
    obtain ⟨ySmall, right⟩ := forall_mem_cons.1 right
    have next : (x + y + carry) / base ≤ 1 := Nat.lt_succ_iff.1 ((Nat.div_lt_iff_lt_mul positive).2 (by omega))
    obtain ⟨value, size, small, carried⟩ := ih (Nat.succ.inj same) left right next
    refine ⟨?_, congrArg Nat.succ size, forall_mem_cons.2 ⟨Nat.mod_lt _ positive, small⟩, carried⟩
    have whole := Nat.mod_add_div (x + y + carry) base
    simp only [addDigits, ofDigits_cons, length_cons]
    linear_combination base * value + whole

/-- Take one from the digits that come next. -/
def borrowOne (base : Nat) : List Nat → List Nat
  | [] => []
  | x :: xs => if 0 < x then (x - 1) :: xs else (base - 1) :: borrowOne base xs

def subDigits (base : Nat) : List Nat → List Nat → Nat → List Nat
  | x :: xs, y :: ys, borrow =>
      if x < y + borrow then (base + x - (y + borrow)) :: subDigits base xs ys 1
      else (x - (y + borrow)) :: subDigits base xs ys 0
  | xs, [], borrow => if borrow = 0 then xs else borrowOne base xs
  | [], _ :: _, _ => []

theorem borrowOne_spec (positive : 0 < base) (small : ∀ d ∈ xs, d < base) (enough : 1 ≤ ofDigits base xs) :
    ofDigits base (borrowOne base xs) + 1 = ofDigits base xs ∧ (borrowOne base xs).length = xs.length ∧
      ∀ d ∈ borrowOne base xs, d < base := by
  induction xs with
  | nil => exact absurd enough (Nat.not_succ_le_zero 0)
  | cons x xs ih =>
    obtain ⟨xSmall, rest⟩ := forall_mem_cons.1 small
    rw [borrowOne]
    split
    next more =>
      refine ⟨?_, rfl, forall_mem_cons.2 ⟨by omega, rest⟩⟩
      simp only [ofDigits_cons]
      omega
    obtain rfl : x = 0 := by omega
    simp only [ofDigits_cons, zero_add] at enough
    obtain ⟨value, size, below⟩ := ih rest (Nat.pos_of_mul_pos_left enough)
    refine ⟨?_, congrArg Nat.succ size, forall_mem_cons.2 ⟨by omega, below⟩⟩
    simp only [ofDigits_cons, ← value, Nat.mul_add]
    omega

theorem subDigits_spec {borrow : Nat} (positive : 0 < base) (left : ∀ d ∈ xs, d < base)
    (right : ∀ d ∈ ys, d < base) (low : borrow ≤ 1) (enough : ofDigits base ys + borrow ≤ ofDigits base xs) :
    ofDigits base (subDigits base xs ys borrow) + (ofDigits base ys + borrow) = ofDigits base xs ∧
      (subDigits base xs ys borrow).length = xs.length ∧ ∀ d ∈ subDigits base xs ys borrow, d < base := by
  induction xs generalizing ys borrow with
  | nil =>
    have none : ofDigits base ys + borrow = 0 := Nat.le_zero.1 enough
    cases ys with
    | nil =>
      obtain rfl : borrow = 0 := by simpa using none
      exact ⟨rfl, rfl, fun d member => (not_mem_nil member).elim⟩
    | cons y ys => exact ⟨by rw [none]; rfl, rfl, fun d member => (not_mem_nil member).elim⟩
  | cons x xs ih =>
    obtain ⟨xSmall, left'⟩ := forall_mem_cons.1 left
    cases ys with
    | nil =>
      rw [subDigits]
      split
      next none => exact ⟨by simp [none], rfl, left⟩
      obtain rfl : borrow = 1 := by omega
      have taken := borrowOne_spec positive left (by simpa using enough)
      simpa using taken
    | cons y ys =>
      obtain ⟨ySmall, right⟩ := forall_mem_cons.1 right
      simp only [ofDigits_cons] at enough ⊢
      rw [subDigits]
      split
      next less =>
        have above : ofDigits base ys + 1 ≤ ofDigits base xs := by
          by_contra short
          have bound := Nat.mul_le_mul_left base (Nat.le_of_lt_succ (not_le.1 short))
          omega
        obtain ⟨value, size, small⟩ := ih left' right le_rfl above
        refine ⟨?_, congrArg Nat.succ size, forall_mem_cons.2 ⟨by omega, small⟩⟩
        simp only [ofDigits_cons, ← value, Nat.mul_add]
        omega
      have above : ofDigits base ys + 0 ≤ ofDigits base xs := by
        by_contra short
        have bound := Nat.mul_le_mul_left base (not_le.1 short)
        rw [add_zero, Nat.succ_eq_add_one, Nat.mul_add] at bound
        omega
      obtain ⟨value, size, small⟩ := ih left' right (Nat.zero_le _) above
      refine ⟨?_, congrArg Nat.succ size, forall_mem_cons.2 ⟨by omega, small⟩⟩
      simp only [ofDigits_cons, ← value, Nat.mul_add]
      omega

section
variable (settle : Nat → Nat → Nat)

/-- A row of a product, put on what is there already. `settle` puts the last carry into its place. -/
def mulRow (base x : Nat) : List Nat → List Nat → Nat → List Nat
  | y :: ys, a :: acc, carry =>
      (x * y + a + carry) % base :: mulRow base x ys acc ((x * y + a + carry) / base)
  | [], a :: acc, carry => settle a carry :: acc
  | _, [], _ => []

/-- Row after row, each one place further up. -/
def mulRows (row : Nat → List Nat → List Nat) : List Nat → List Nat → List Nat
  | [], acc => acc
  | x :: xs, acc =>
      match row x acc with
      | [] => []
      | d :: rest => d :: mulRows row xs rest

/-- What a product has come to: digits, and nothing yet from a place on. -/
structure Unfinished (base k : Nat) (acc : List Nat) : Prop where
  small : ∀ d ∈ acc, d < base
  clear : ∀ d ∈ acc.drop k, d = 0

theorem carry_lt {x y a c : Nat} (hx : x < base) (hy : y < base) (ha : a < base) (hc : c < base) :
    (x * y + a + c) / base < base := by
  refine Nat.div_lt_of_lt_mul ?_
  have product : x * y ≤ (base - 1) * (base - 1) := Nat.mul_le_mul (by omega) (by omega)
  obtain ⟨b, rfl⟩ : ∃ b, base = b + 1 := ⟨base - 1, by omega⟩
  rw [Nat.add_sub_cancel] at product
  have square : (b + 1) * (b + 1) = b * b + 2 * b + 1 := by ring
  omega

theorem mulRow_spec {x carry : Nat} {ys acc : List Nat} (hx : x < base) (right : ∀ d ∈ ys, d < base) (hc : carry < base)
    (last : ∀ c, settle 0 c = c) (room : ys.length < acc.length) (fine : Unfinished base ys.length acc) :
    ofDigits base (mulRow settle base x ys acc carry) = x * ofDigits base ys + ofDigits base acc + carry ∧
      (mulRow settle base x ys acc carry).length = acc.length ∧
      Unfinished base (ys.length + 1) (mulRow settle base x ys acc carry) := by
  induction ys generalizing acc carry with
  | nil =>
    obtain ⟨a, acc, rfl⟩ := exists_cons_of_length_pos room
    obtain ⟨small, clear⟩ := fine
    obtain ⟨rfl, rest⟩ := forall_mem_cons.1 clear
    rw [mulRow, last]
    refine ⟨?_, rfl, forall_mem_cons.2 ⟨hc, (forall_mem_cons.1 small).2⟩, rest⟩
    simp only [ofDigits_cons, Nat.ofDigits_nil]
    ring
  | cons y ys ih =>
    obtain ⟨a, acc, rfl⟩ := exists_cons_of_length_pos (lt_of_le_of_lt (Nat.zero_le _) room)
    obtain ⟨hy, right⟩ := forall_mem_cons.1 right
    obtain ⟨ha, small⟩ := forall_mem_cons.1 fine.small
    have positive : 0 < base := lt_of_le_of_lt (Nat.zero_le _) hx
    obtain ⟨value, size, next⟩ := ih right (carry_lt hx hy ha hc) (Nat.lt_of_succ_lt_succ room) ⟨small, fine.clear⟩
    rw [mulRow]
    refine ⟨?_, congrArg Nat.succ size, forall_mem_cons.2 ⟨Nat.mod_lt _ positive, next.small⟩, next.clear⟩
    have whole := Nat.mod_add_div (x * y + a + carry) base
    simp only [ofDigits_cons, value]
    linear_combination whole

theorem mulRows_spec {row : Nat → List Nat → List Nat} {ys xs acc : List Nat} (left : ∀ d ∈ xs, d < base)
    (rows : ∀ x < base, ∀ acc, ys.length < acc.length → Unfinished base ys.length acc →
      ofDigits base (row x acc) = x * ofDigits base ys + ofDigits base acc ∧ (row x acc).length = acc.length ∧
        Unfinished base (ys.length + 1) (row x acc))
    (room : acc.length = xs.length + ys.length) (fine : Unfinished base ys.length acc) :
    ofDigits base (mulRows row xs acc) = ofDigits base xs * ofDigits base ys + ofDigits base acc ∧
      (mulRows row xs acc).length = acc.length ∧ ∀ d ∈ mulRows row xs acc, d < base := by
  induction xs generalizing acc with
  | nil => exact ⟨by simp [mulRows], rfl, fine.small⟩
  | cons x xs ih =>
    obtain ⟨hx, left⟩ := forall_mem_cons.1 left
    rw [length_cons] at room
    obtain ⟨value, size, next⟩ := rows x hx acc (by omega) fine
    rw [mulRows]
    generalize row x acc = made at value size next
    obtain ⟨d, rest, rfl⟩ : ∃ d rest, made = d :: rest := exists_cons_of_length_pos (by omega)
    obtain ⟨small, clear⟩ := next
    obtain ⟨hd, small⟩ := forall_mem_cons.1 small
    rw [length_cons] at size
    obtain ⟨whole, length, below⟩ := ih left (by omega) ⟨small, clear⟩
    refine ⟨?_, by rw [length_cons, length, size], forall_mem_cons.2 ⟨hd, below⟩⟩
    simp only [ofDigits_cons] at value ⊢
    rw [whole]
    linear_combination value

end

/-- The last `k` digits of a number. -/
def lowDigits (base : Nat) : Nat → Nat → List Nat
  | 0, _ => []
  | k + 1, n => n % base :: lowDigits base k (n / base)

theorem ofDigits_lowDigits {k n : Nat} (fits : n < base ^ k) : ofDigits base (lowDigits base k n) = n := by
  induction k generalizing n with
  | zero => simpa [lowDigits, eq_comm] using fits
  | succ k ih =>
    rw [lowDigits, ofDigits_cons, ih (Nat.div_lt_of_lt_mul (by rwa [← pow_succ']))]
    exact Nat.mod_add_div n base

theorem length_lowDigits (k n : Nat) : (lowDigits base k n).length = k := by
  induction k generalizing n with
  | zero => rfl
  | succ k ih => exact congrArg Nat.succ (ih _)

theorem lowDigits_lt (positive : 0 < base) (k n : Nat) : ∀ d ∈ lowDigits base k n, d < base := by
  induction k generalizing n with
  | zero => exact fun d member => (not_mem_nil member).elim
  | succ k ih => exact forall_mem_cons.2 ⟨Nat.mod_lt _ positive, ih _⟩

theorem ofDigits_flatMap_lowDigits {k : Nat} {limbs : List Nat} (small : ∀ d ∈ limbs, d < base ^ k) :
    ofDigits base (limbs.flatMap (lowDigits base k)) = ofDigits (base ^ k) limbs := by
  induction limbs with
  | nil => rfl
  | cons limb limbs ih =>
    obtain ⟨fits, small⟩ := forall_mem_cons.1 small
    rw [flatMap_cons, Nat.ofDigits_append, ofDigits_lowDigits fits, length_lowDigits, ih small, ofDigits_cons]

/-- Digits taken together, `k` at a time. -/
def grouped (base k : Nat) : Nat → List Nat → List Nat
  | 0, _ => []
  | count + 1, digits => valueOf base (digits.take k).reverse :: grouped base k count (digits.drop k)

theorem ofDigits_grouped {k count : Nat} {digits : List Nat} (all : digits.length ≤ count * k) :
    ofDigits (base ^ k) (grouped base k count digits) = ofDigits base digits := by
  induction count generalizing digits with
  | zero =>
    obtain rfl := length_eq_zero_iff.1 (Nat.le_zero.1 (by simpa using all))
    rfl
  | succ count ih =>
    have rest : (digits.drop k).length ≤ count * k := by
      rwa [length_drop, Nat.sub_le_iff_le_add, ← Nat.succ_mul]
    rw [grouped, ofDigits_cons, ih rest, valueOf_reverse]
    conv_rhs => rw [← take_append_drop k digits, Nat.ofDigits_append]
    by_cases long : k ≤ digits.length
    · rw [length_take, min_eq_left long]
    · rw [drop_eq_nil_of_le (Nat.le_of_not_le long)]
      simp

theorem grouped_lt {k count : Nat} {digits : List Nat} (positive : 0 < base) (small : ∀ d ∈ digits, d < base) :
    ∀ d ∈ grouped base k count digits, d < base ^ k := by
  induction count generalizing digits with
  | zero => exact fun d member => (not_mem_nil member).elim
  | succ count ih =>
    refine forall_mem_cons.2 ⟨?_, ih fun d member => small d (mem_of_mem_drop member)⟩
    refine lt_of_lt_of_le (valueOf_lt fun d member =>
      small d (mem_of_mem_take (mem_reverse.1 member))) (Nat.pow_le_pow_right positive ?_)
    rw [length_reverse, length_take]
    exact min_le_left _ _

end BashOs.Lib

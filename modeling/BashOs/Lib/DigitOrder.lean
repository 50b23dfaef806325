import Mathlib.Tactic.Ring

/-!
Dictionary order, and numbers in place notation: strings of as many digits stand in the order of the numbers they spell.
-/

namespace BashOs.Lib
open List

section
variable {α β : Type} [LT α] [DecidableLT α] [LT β] [DecidableLT β]

def lexCmp : List α → List α → Ordering
  | [], [] => .eq
  | [], _ :: _ => .lt
  | _ :: _, [] => .gt
  | a :: as, b :: bs => if a < b then .lt else if b < a then .gt else lexCmp as bs

theorem lexCmp_map {f : α → β} {xs ys : List α} (order : ∀ x ∈ xs, ∀ y ∈ ys, (f x < f y ↔ x < y) ∧
    (f y < f x ↔ y < x)) :
    lexCmp (xs.map f) (ys.map f) = lexCmp xs ys := by
  induction xs generalizing ys with
  | nil => cases ys <;> rfl
  | cons x xs ih =>
    cases ys with
    | nil => rfl
    | cons y ys =>
      obtain ⟨below, above⟩ := order x (.head _) y (.head _)
      have rest := ih fun a first b second => order a (.tail _ first) b (.tail _ second)
      simp [lexCmp, below, above, rest]

end

def valueOf (base : Nat) (digits : List Nat) : Nat := digits.foldl (fun value d => value * base + d) 0

theorem foldl_value (base : Nat) (digits : List Nat) (start : Nat) :
    digits.foldl (fun value d => value * base + d) start = start * base ^ digits.length + valueOf base digits := by
  induction digits generalizing start with
  | nil => simp [valueOf]
  | cons d rest ih =>
    have whole : valueOf base (d :: rest) = (0 * base + d) * base ^ rest.length + valueOf base rest := by
      rw [← ih (0 * base + d), valueOf, foldl_cons]
    rw [foldl_cons, ih, whole, length_cons]
    ring

theorem valueOf_cons (base d : Nat) (rest : List Nat) :
    valueOf base (d :: rest) = d * base ^ rest.length + valueOf base rest := by
  rw [valueOf, foldl_cons, foldl_value]
  ring

theorem valueOf_append_singleton (base d : Nat) (digits : List Nat) :
    valueOf base (digits ++ [d]) = valueOf base digits * base + d := by
  rw [valueOf, foldl_append]
  rfl

theorem valueOf_lt {base : Nat} {digits : List Nat} (small : ∀ d ∈ digits, d < base) :
    valueOf base digits < base ^ digits.length := by
  induction digits with
  | nil => exact Nat.one_pos
  | cons d rest ih =>
    have low := ih fun e later => small e (.tail _ later)
    have high := small d (.head _)
    rw [valueOf_cons]
    calc d * base ^ rest.length + valueOf base rest
        < d * base ^ rest.length + base ^ rest.length := Nat.add_lt_add_left low _
      _ = (d + 1) * base ^ rest.length := by ring
      _ ≤ base * base ^ rest.length := Nat.mul_le_mul_right _ high
      _ = base ^ rest.length * base := mul_comm _ _

theorem valueOf_cons_lt {base : Nat} {x y : Nat} {xs ys : List Nat} (same : xs.length = ys.length)
    (small : ∀ d ∈ xs, d < base) (less : x < y) : valueOf base (x :: xs) < valueOf base (y :: ys) := by
  rw [valueOf_cons, valueOf_cons, ← same]
  calc x * base ^ xs.length + valueOf base xs
      < x * base ^ xs.length + base ^ xs.length := Nat.add_lt_add_left (valueOf_lt small) _
    _ = (x + 1) * base ^ xs.length := by ring
    _ ≤ y * base ^ xs.length := Nat.mul_le_mul_right _ less
    _ ≤ y * base ^ xs.length + valueOf base ys := Nat.le_add_right _ _

theorem lexCmp_eq_compare {base : Nat} {xs ys : List Nat} (same : xs.length = ys.length) (left : ∀ d ∈ xs, d < base)
    (right : ∀ d ∈ ys, d < base) : lexCmp xs ys = compare (valueOf base xs) (valueOf base ys) := by
  induction xs generalizing ys with
  | nil =>
    obtain rfl := length_eq_zero_iff.1 same.symm
    rfl
  | cons x xs ih =>
    obtain ⟨y, ys, rfl⟩ := exists_cons_of_length_eq_add_one same.symm
    have even : xs.length = ys.length := Nat.succ.inj same
    have left' : ∀ d ∈ xs, d < base := fun d later => left d (.tail _ later)
    have right' : ∀ d ∈ ys, d < base := fun d later => right d (.tail _ later)
    rw [lexCmp]
    split
    next less => exact (Nat.compare_eq_lt.2 (valueOf_cons_lt even left' less)).symm
    split
    next more => exact (Nat.compare_eq_gt.2 (valueOf_cons_lt even.symm right' more)).symm
    rename_i least most
    obtain rfl : x = y := le_antisymm (not_lt.1 most) (not_lt.1 least)
    rw [ih even left' right', valueOf_cons, valueOf_cons, even]
    simp [Nat.compare_eq_ite_lt]

end BashOs.Lib

import Mathlib.Data.List.TakeWhile
import Mathlib.Tactic.Tauto

/-!
Binary search for the first element of a list that a test does not hold of, the elements it holds of standing first.
-/

namespace BashOs.Lib
open List

section
variable {α : Type}

/-- Halve the range between `low` and `high` for at most so many turns. -/
def lowerBound (test : α → Bool) (xs : List α) : Nat → Nat → Nat → Nat
  | 0, low, _ => low
  | turns + 1, low, high =>
    if low < high then
      let mid := low + (high - low) / 2
      if (xs[mid]?).any test then lowerBound test xs turns (mid + 1) high else lowerBound test xs turns low mid
    else low

variable {test : α → Bool} {before after : List α}

theorem lowerBound_eq {turns low high : Nat} (first : ∀ x ∈ before, test x = true) (rest : ∀ x ∈ after, test x = false)
    (above : low ≤ before.length) (below : before.length ≤ high) (inside : high ≤ (before ++ after).length)
    (enough : high - low ≤ turns) : lowerBound test (before ++ after) turns low high = before.length := by
  induction turns generalizing low high with
  | zero =>
    rw [lowerBound]
    omega
  | succ turns ih =>
    rw [lowerBound]
    split
    next wide =>
      generalize middle : low + (high - low) / 2 = mid
      by_cases left : mid < before.length
      · have held : ((before ++ after)[mid]?).any test = true := by
          rw [List.getElem?_append_left left, List.getElem?_eq_getElem left]
          exact first _ (getElem_mem left)
        rw [if_pos held]
        exact ih (by omega) below inside (by omega)
      have room : mid - before.length < after.length := by
        rw [length_append] at inside
        omega
      have fails : ((before ++ after)[mid]?).any test = false := by
        rw [List.getElem?_append_right (Nat.not_lt.1 left), List.getElem?_eq_getElem room]
        exact rest _ (getElem_mem room)
      rw [if_neg (by simp [fails])]
      exact ih above (Nat.not_lt.1 left) (by omega) (by omega)
    · omega

/-! ## Sorted lists -/

variable {R : α → α → Prop} {test' : α → Bool} {xs : List α} (sorted : xs.Pairwise R)
  (down : ∀ a b, R a b → test b = true → test a = true)

include sorted down in
theorem filter_append_rest : xs.filter test ++ xs.filter (!test ·) = xs := by
  induction xs with
  | nil => rfl
  | cons x xs ih =>
    obtain ⟨first, others⟩ := pairwise_cons.1 sorted
    cases here : test x with
    | true => simpa [here] using ih others
    | false =>
      have later : ∀ y ∈ xs, test y = false := fun y member => Bool.eq_false_iff.2 fun passes => by
        rw [down x y (first y member) passes] at here
        cases here
      have none : xs.filter test = [] := filter_eq_nil_iff.2 fun y member => by simp [later y member]
      have all : xs.filter (!test ·) = xs := filter_eq_self.2 fun y member => by simp [later y member]
      simp [here, none, all]

include sorted down in
theorem lowerBound_sorted : lowerBound test xs xs.length 0 xs.length = (xs.filter test).length := by
  have whole := filter_append_rest sorted down
  have found : lowerBound test (xs.filter test ++ xs.filter (!test ·)) xs.length 0 xs.length =
      (xs.filter test).length := by
    apply lowerBound_eq
    · exact fun x member => (mem_filter.1 member).2
    · exact fun x member => by simpa using (mem_filter.1 member).2
    · exact Nat.zero_le _
    · exact length_filter_le _ _
    · rw [whole]
    · exact Nat.sub_le _ _
  rwa [whole] at found

variable (between : ∀ a b, R a b → test a = false → test' b = true → test' a = true)
  (apart : ∀ a, test' a = true → test a = false)

include sorted between apart in
/-- The elements that pass the second test stand together, behind those that pass the first. -/
theorem filter_run : xs.filter (!test ·) = xs.filter test' ++ xs.filter (fun x => !test x && !test' x) := by
  have rest : (xs.filter (!test ·)).Pairwise fun a b => R a b ∧ test a = false :=
    (sorted.filter _).imp_of_mem fun first _ before => ⟨before, by simpa using (mem_filter.1 first).2⟩
  have split := filter_append_rest rest fun a b before => between a b before.1 before.2
  have own : (fun x => test' x && !test x) = test' := funext fun x => by
    cases passes : test' x with
    | true => simp [apart x passes]
    | false => rfl
  rw [filter_filter, filter_filter, own] at split
  rw [← split]
  simp [Bool.and_comm]

include sorted down between apart in
theorem takeWhile_run : (xs.drop (lowerBound test xs xs.length 0 xs.length)).takeWhile test' = xs.filter test' := by
  have behind : xs.drop (xs.filter test).length = xs.filter (!test ·) := by
    have cut := congrArg (drop (xs.filter test).length) (filter_append_rest sorted down)
    rw [drop_left] at cut
    exact cut.symm
  have stop : (xs.filter fun x => !test x && !test' x).takeWhile test' = [] := by
    rw [takeWhile_eq_nil_iff]
    intro some passes
    have fails := (mem_filter.1 (get_mem _ ⟨0, some⟩)).2
    rw [passes, Bool.not_true, Bool.and_false] at fails
    cases fails
  rw [lowerBound_sorted sorted down, behind, filter_run sorted between apart,
    takeWhile_append_of_pos fun x member => (mem_filter.1 member).2, stop, append_nil]

end

/-! ## Lists in order of a key -/

theorem key_ne {κ : Type} [LT κ] [Std.Irrefl fun a b : κ => a < b] {a b : κ} (less : a < b) : a ≠ b := by
  rintro rfl
  exact Std.lt_irrefl less

section
variable {α κ : Type} [LT κ] [DecidableLT κ] [DecidableEq κ] (key : α → κ)

def keyPlace (xs : List α) (k : κ) : Nat := lowerBound (fun x => decide (key x < k)) xs xs.length 0 xs.length

/-- Put an element in its place. Of its key there is one element, which is replaced if it is plain, or a run that
goes. -/
def putKeyed (plain : α → Bool) (xs : List α) (x : α) : List α :=
  let place := keyPlace key xs (key x)
  let run := (xs.drop place).takeWhile fun y => key y = key x
  if run ≠ [] ∧ run.all plain then xs.set place x else xs.take place ++ x :: xs.drop (place + run.length)

variable [Std.Irrefl fun a b : κ => a < b] [Trans (fun a b : κ => a < b) (fun a b : κ => a < b) (fun a b : κ => a < b)]
  [Std.Trichotomous fun a b : κ => a < b]

/-- In order of the key, and elements of one key in an order of their own. -/
def KeyOrder (S : α → α → Prop) (a b : α) : Prop := key a < key b ∨ key a = key b ∧ S a b

variable {key} {S : α → α → Prop} {xs : List α} (sorted : xs.Pairwise (KeyOrder key S))
include sorted

/-- The elements below a key, those of the key and those above it. -/
theorem keyed_parts (k : κ) : ∃ before run after, xs = before ++ (run ++ after) ∧ keyPlace key xs k = before.length ∧
    (xs.drop (keyPlace key xs k)).takeWhile (fun x => decide (key x = k)) = run ∧
    (∀ x ∈ before, key x < k) ∧ (∀ x ∈ run, key x = k) ∧ ∀ x ∈ after, k < key x := by
  have down : ∀ a b, KeyOrder key S a b → decide (key b < k) = true → decide (key a < k) = true := by
    intro a b order below
    have below := of_decide_eq_true below
    obtain less | ⟨same, -⟩ := order
    · exact decide_eq_true (Std.lt_trans less below)
    · exact decide_eq_true (same ▸ below)
  have between : ∀ a b, KeyOrder key S a b → decide (key a < k) = false → decide (key b = k) = true →
      decide (key a = k) = true := by
    intro a b order above here
    have here := of_decide_eq_true here
    obtain less | ⟨same, -⟩ := order
    · exact absurd (here ▸ less) (of_decide_eq_false above)
    · exact decide_eq_true (same.trans here)
  have apart : ∀ a, decide (key a = k) = true → decide (key a < k) = false := by
    intro a here
    rw [of_decide_eq_true here]
    exact decide_eq_false Std.lt_irrefl
  refine ⟨_, _, xs.filter fun x => !decide (key x < k) && !decide (key x = k), ?_, lowerBound_sorted sorted down,
    takeWhile_run sorted down between apart, ?_, ?_, ?_⟩
  · rw [← filter_run sorted between apart, filter_append_rest sorted down]
  · exact fun x member => of_decide_eq_true (mem_filter.1 member).2
  · exact fun x member => of_decide_eq_true (mem_filter.1 member).2
  · intro x member
    have outside := (mem_filter.1 member).2
    simp only [Bool.and_eq_true, Bool.not_eq_true', decide_eq_false_iff_not] at outside
    obtain less | same | more := Std.lt_trichotomy (key x) k
    · exact absurd less outside.1
    · exact absurd same outside.2
    · exact more

/-- The element of a key that the binary search finds is the first one. -/
theorem keyed_found (k : κ) : (xs[keyPlace key xs k]?).filter (fun x => key x = k) = xs.find? fun x => key x = k := by
  obtain ⟨before, run, after, rfl, place, -, below, same, above⟩ := keyed_parts sorted k
  have first : before.find? (fun x => decide (key x = k)) = none :=
    find?_eq_none.2 fun x member => by simpa using key_ne (below x member)
  have last : after.find? (fun x => decide (key x = k)) = none :=
    find?_eq_none.2 fun x member => by simpa using (key_ne (above x member)).symm
  rw [place, getElem?_append_right (Nat.le_refl _), Nat.sub_self, find?_append, first, Option.none_or,
    find?_append, last]
  cases run with
  | cons x rest => simp [same x mem_cons_self]
  | nil =>
    cases after with
    | nil => rfl
    | cons x rest => simpa using (key_ne (above x mem_cons_self)).symm

section
variable {plain : α → Bool} (strict : ∀ a b, S a b → plain b = false) (x : α)
include strict

theorem putKeyed_parts : ∃ before run after, xs = before ++ (run ++ after) ∧
    putKeyed key plain xs x = before ++ x :: after ∧
    (∀ y ∈ before, key y < key x) ∧ (∀ y ∈ run, key y = key x) ∧ ∀ y ∈ after, key x < key y := by
  obtain ⟨before, run, after, whole, place, found, below, same, above⟩ := keyed_parts sorted (key x)
  refine ⟨before, run, after, whole, ?_, below, same, above⟩
  unfold putKeyed
  dsimp only
  rw [found, place]
  subst whole
  split
  next plainly =>
    obtain ⟨y, rest, rfl⟩ := exists_cons_of_ne_nil plainly.1
    cases rest with
    | nil => simp
    | cons z rest =>
      -- two plain elements of one key cannot stand in order
      have pair := (pairwise_append.1 (pairwise_append.1 sorted).2.1).1
      obtain less | ⟨-, before⟩ := rel_of_pairwise_cons pair mem_cons_self
      · exact absurd ((same y (by simp)).trans (same z (by simp)).symm) (key_ne less)
      · have both := all_eq_true.1 plainly.2 z (by simp)
        rw [strict y z before] at both
        cases both
  · simp [← drop_drop]

theorem mem_putKeyed (y : α) : y ∈ putKeyed key plain xs x ↔ y = x ∨ y ∈ xs ∧ key y ≠ key x := by
  obtain ⟨before, run, after, rfl, put, below, same, above⟩ := putKeyed_parts sorted strict x
  have left : y ∈ before → key y ≠ key x := fun member => key_ne (below y member)
  have right : y ∈ after → key y ≠ key x := fun member => (key_ne (above y member)).symm
  have here := same y
  rw [put]
  simp only [mem_append, mem_cons]
  tauto

theorem putKeyed_sorted : (putKeyed key plain xs x).Pairwise (KeyOrder key S) := by
  obtain ⟨before, run, after, rfl, put, below, same, above⟩ := putKeyed_parts sorted strict x
  obtain ⟨first, rest, across⟩ := pairwise_append.1 sorted
  rw [put]
  refine pairwise_append.2 ⟨first,
    pairwise_cons.2 ⟨fun y member => .inl (above y member), (pairwise_append.1 rest).2.1⟩, ?_⟩
  intro y member z later
  obtain rfl | later := mem_cons.1 later
  · exact .inl (below y member)
  · exact across y member z (mem_append_right _ later)

theorem filter_putKeyed (k : κ) : (putKeyed key plain xs x).filter (fun y => key y = k) =
    if key x = k then [x] else xs.filter fun y => key y = k := by
  obtain ⟨before, run, after, rfl, put, below, same, above⟩ := putKeyed_parts sorted strict x
  rw [put, filter_append, filter_append, filter_append]
  split
  next here =>
    subst here
    have left : before.filter (fun y => decide (key y = key x)) = [] :=
      filter_eq_nil_iff.2 fun y member => by simpa using key_ne (below y member)
    have right : after.filter (fun y => decide (key y = key x)) = [] :=
      filter_eq_nil_iff.2 fun y member => by simpa using (key_ne (above y member)).symm
    rw [left, filter_cons_of_pos (by simp), right, nil_append]
  next other =>
    have none : run.filter (fun y => decide (key y = k)) = [] :=
      filter_eq_nil_iff.2 fun y member => by simpa [same y member] using other
    rw [none, nil_append, filter_cons_of_neg (by simpa using other)]

end

end

end BashOs.Lib

import Mathlib.Data.Rat.Floor
import BashOs.Lib.Positional

/-!
The numbers of `bc`: a sign, decimal digits and how many of them stand behind the point; how they are brought into
form, and how they are compared.
-/

namespace BashOs.Bc

open BashOs.Lib List Bool

/-- `bc_num`, the digits as numbers, the first counting most. -/
structure Num where
  sign : Bool
  digits : List Nat
  scale : Nat
  deriving DecidableEq, Repr

namespace Num

/-- `_bc_zero` -/
def zero : Num := ⟨false, [0], 0⟩

/-- The digits in front of the point. -/
def whole (n : Num) : Nat := n.digits.length - n.scale

end Num

/-- Pass over zeros, but no more than so many. -/
def stripZeros : Nat → List Nat → List Nat
  | k + 1, 0 :: digits => stripZeros k digits
  | _, digits => digits

def stripLeading (n : Num) : Num := { n with digits := stripZeros (n.whole - 1) n.digits }

def stripTrailing (n : Num) : Num :=
  let kept := stripZeros n.scale n.digits.reverse
  { n with digits := kept.reverse, scale := n.scale - (n.digits.length - kept.length) }

def normalize (n : Num) : Num :=
  if n.digits = [] then .zero
  else
    let m := stripTrailing (stripLeading n)
    if m.digits = [0] then { m with sign := false, scale := 0 }
    else if m.digits = [] then .zero
    else m

def truncateToScale (n : Num) (scale : Nat) : Num :=
  if n.scale ≤ scale then n
  else if n.digits.length ≤ n.scale - scale then .zero
  else { n with digits := n.digits.take (n.digits.length - (n.scale - scale)), scale := scale }

/-- `bc_pad_scale`, which is all that `bc_fix_scale` does. -/
def fixScale (n : Num) (scale : Nat) : Num :=
  if scale ≤ n.scale then n
  else { n with digits := n.digits ++ List.replicate (scale - n.scale) 0, scale := scale }

def isZero (n : Num) : Bool := n.digits.all (· = 0)

def absCmp (a b : Num) : Ordering :=
  if isZero a || isZero b then
    if isZero a && isZero b then .eq else if isZero a then .lt else .gt
  else if a.whole ≠ b.whole then if b.whole < a.whole then .gt else .lt
  else
    let length := max a.digits.length b.digits.length
    lexCmp (a.digits ++ List.replicate (length - a.digits.length) 0)
      (b.digits ++ List.replicate (length - b.digits.length) 0)

def cmp (a b : Num) : Ordering :=
  if a.sign ≠ b.sign then if a.sign then .lt else .gt
  else if a.sign then (absCmp a b).swap
  else absCmp a b

def signed (negative : Bool) (x : ℚ) : ℚ := if negative then -x else x

namespace Num

def mantissa (n : Num) : Nat := valueOf 10 n.digits

def magnitude (n : Num) : ℚ := n.mantissa / 10 ^ n.scale

/-- The number that is meant. -/
def value (n : Num) : ℚ := signed n.sign n.magnitude

/-- Digits, at least one of them in front of the point. -/
structure Formed (n : Num) : Prop where
  small : ∀ d ∈ n.digits, d < 10
  room : n.scale < n.digits.length

/-- No zero leads more than one digit in front of the point. -/
structure Shaped (n : Num) : Prop extends Formed n where
  plain : n.digits.length = n.scale + 1 ∨ n.digits.head? ≠ some 0

structure WellFormed (n : Num) : Prop extends Shaped n where
  unsigned : n.mantissa = 0 → n.sign = false

end Num

/-- A number in the form the arithmetic expects and leaves. -/
def Decimal := { n : Num // n.WellFormed }

/-! ## Digits -/

theorem stripZeros_eq (k : Nat) (digits : List Nat) :
    ∃ j ≤ k, digits = List.replicate j 0 ++ stripZeros k digits ∧ (j = k ∨ (stripZeros k digits).head? ≠ some 0) := by
  fun_induction stripZeros k digits with
  | case1 k digits ih =>
    obtain ⟨j, most, same, last⟩ := ih
    exact ⟨j + 1, Nat.succ_le_succ most, congrArg (0 :: ·) same, last.imp_left (congrArg _)⟩
  | case2 k digits none =>
    refine ⟨0, Nat.zero_le _, rfl, ?_⟩
    cases k with
    | zero => exact .inl rfl
    | succ k =>
      refine .inr fun first => ?_
      obtain ⟨rest, rfl⟩ := head?_eq_some_iff.1 first
      exact none k rest rfl rfl

theorem valueOf_stripZeros (k : Nat) (digits : List Nat) : valueOf 10 (stripZeros k digits) = valueOf 10 digits := by
  obtain ⟨j, -, same, -⟩ := stripZeros_eq k digits
  conv_rhs => rw [same, valueOf_append, valueOf_replicate_zero, Nat.zero_mul, zero_add]

variable {digits : List Nat} {n a b : Num}

theorem mem_of_mem_stripZeros {k d : Nat} (member : d ∈ stripZeros k digits) : d ∈ digits := by
  obtain ⟨j, -, same, -⟩ := stripZeros_eq k digits
  rw [same]
  exact mem_append_right _ member

theorem valueOf_padded (digits : List Nat) (k : Nat) :
    valueOf 10 (digits ++ replicate k 0) = valueOf 10 digits * 10 ^ k := by
  rw [valueOf_append, valueOf_replicate_zero, length_replicate, add_zero]

theorem padded_small (small : ∀ d ∈ digits, d < 10) (k : Nat) : ∀ d ∈ digits ++ replicate k 0, d < 10 :=
  fun d member => (mem_append.1 member).elim (small d) fun new => (eq_of_mem_replicate new).symm ▸ by decide

theorem reverse_small (small : ∀ d ∈ digits, d < 10) : ∀ d ∈ digits.reverse, d < 10 :=
  fun d member => small d (mem_reverse.1 member)

theorem stripZeros_bare (digits : List Nat) :
    (stripZeros (digits.length - 1) digits).length ≤ 1 ∨ (stripZeros (digits.length - 1) digits).head? ≠ some 0 := by
  obtain ⟨j, -, same, last⟩ := stripZeros_eq (digits.length - 1) digits
  have size := congrArg length same
  rw [length_append, length_replicate] at size
  exact last.imp_left fun all => by omega

theorem le_valueOf (filled : digits ≠ []) (first : digits.head? ≠ some 0) :
    10 ^ (digits.length - 1) ≤ valueOf 10 digits := by
  obtain ⟨d, rest, rfl⟩ := exists_cons_of_ne_nil filled
  have positive : 0 < d := Nat.pos_of_ne_zero fun zero => first (congrArg _ zero)
  rw [valueOf_cons]
  exact (Nat.le_mul_of_pos_left _ positive).trans (Nat.le_add_right _ _)

theorem valueOf_eq_zero_iff : valueOf 10 digits = 0 ↔ ∀ d ∈ digits, d = 0 := by
  induction digits with
  | nil => simp [valueOf]
  | cons d rest ih =>
    rw [valueOf_cons, Nat.add_eq_zero_iff, ih]
    simp

theorem isZero_iff : isZero n = true ↔ n.mantissa = 0 := by
  rw [isZero, Num.mantissa, valueOf_eq_zero_iff]
  simp

/-! ## Magnitudes -/

theorem magnitude_eq {N p : Nat} (scale : n.scale ≤ p) (same : N = n.mantissa * 10 ^ (p - n.scale)) :
    n.magnitude = N / 10 ^ p := by
  rw [Num.magnitude, same, ← Nat.sub_add_cancel scale, pow_add, Nat.add_sub_cancel]
  push_cast
  field_simp

theorem magnitude_nonneg (n : Num) : 0 ≤ n.magnitude := by
  rw [Num.magnitude]
  positivity

theorem magnitude_eq_zero_iff : n.magnitude = 0 ↔ n.mantissa = 0 := by
  rw [Num.magnitude]
  simp

theorem compare_magnitude {N M p : Nat} : compare ((N : ℚ) / 10 ^ p) (M / 10 ^ p) = compare N M := by
  have mono : StrictMono fun n : Nat => (n : ℚ) / 10 ^ p := fun x y less =>
    div_lt_div_of_pos_right (Nat.cast_lt.2 less) (by positivity)
  rw [← cmp_eq_compare, ← cmp_eq_compare]
  exact mono.cmp_map_eq N M

/-- The integer digits of a number bound it from above, and from below if the first is no zero. -/
theorem magnitude_lt (formed : n.Formed) : n.magnitude < 10 ^ n.whole := by
  have below : (n.mantissa : ℚ) < 10 ^ n.digits.length := by exact_mod_cast valueOf_lt formed.small
  rwa [Num.magnitude, div_lt_iff₀ (by positivity), ← pow_add, Num.whole, Nat.sub_add_cancel formed.room.le]

theorem le_magnitude (shaped : n.Shaped) (more : 1 < n.whole) : (10 : ℚ) ^ (n.whole - 1) ≤ n.magnitude := by
  rw [Num.whole] at more ⊢
  have first := shaped.plain.resolve_left (by omega)
  have above : ((10 ^ (n.digits.length - 1) : ℕ) : ℚ) ≤ n.mantissa :=
    Nat.cast_le.2 (le_valueOf (ne_nil_of_length_pos (by omega)) first)
  rw [Num.magnitude, le_div_iff₀ (by positivity), ← pow_add,
    show n.digits.length - n.scale - 1 + n.scale = n.digits.length - 1 by omega]
  exact_mod_cast above

theorem magnitude_lt_of_whole_lt (left : a.Shaped) (right : b.Shaped) (less : a.whole < b.whole) :
    a.magnitude < b.magnitude := by
  have some : 0 < a.whole := Nat.sub_pos_of_lt left.room
  calc a.magnitude < 10 ^ a.whole := magnitude_lt left.toFormed
    _ ≤ 10 ^ (b.whole - 1) := pow_le_pow_right₀ (by norm_num) (by omega)
    _ ≤ b.magnitude := le_magnitude right (by omega)

/-! ## Bringing a number into form -/

theorem stripLeading_spec (formed : n.Formed) : (stripLeading n).Shaped ∧ (stripLeading n).mantissa = n.mantissa := by
  obtain ⟨j, most, same, last⟩ := stripZeros_eq (n.whole - 1) n.digits
  have room := formed.room
  have size := congrArg length same
  rw [length_append, length_replicate] at size
  rw [Num.whole] at most last
  refine ⟨⟨⟨fun d member => formed.small d (mem_of_mem_stripZeros member), ?_⟩, last.imp_left fun all => ?_⟩,
    valueOf_stripZeros _ _⟩
  · show n.scale < (stripZeros _ _).length
    omega
  · show (stripZeros _ _).length = n.scale + 1
    omega

theorem stripTrailing_eq (n : Num) : ∃ j ≤ n.scale, n.digits = (stripTrailing n).digits ++ List.replicate j 0 ∧
      (n.scale ≤ n.digits.length → (stripTrailing n).scale + j = n.scale) ∧
      (j = n.scale ∨ (stripTrailing n).digits.getLast? ≠ some 0) := by
  obtain ⟨j, most, same, last⟩ := stripZeros_eq n.scale n.digits.reverse
  have size := congrArg length same
  rw [length_append, length_replicate, length_reverse] at size
  refine ⟨j, most, ?_, fun _ => ?_, last.imp_right fun other => ?_⟩
  · rw [← reverse_reverse n.digits, same, reverse_append, reverse_replicate]
    rfl
  · show n.scale - (n.digits.length - (stripZeros _ _).length) + j = n.scale
    omega
  · rwa [stripTrailing, getLast?_reverse]

theorem stripTrailing_spec (shaped : n.Shaped) : (stripTrailing n).Shaped ∧ (stripTrailing n).magnitude = n.magnitude ∧
      (n.mantissa = 0 → (stripTrailing n).digits = [0]) := by
  obtain ⟨j, most, same, scale, last⟩ := stripTrailing_eq n
  have room := shaped.room
  have size := congrArg length same
  rw [length_append, length_replicate] at size
  have some : (stripTrailing n).digits ≠ [] := ne_nil_of_length_pos (by omega)
  have filled : n.digits ≠ [] := ne_nil_of_length_pos (by omega)
  have value : n.mantissa = (stripTrailing n).mantissa * 10 ^ j := by
    rw [Num.mantissa, same, valueOf_padded]
    rfl
  have small : ∀ d ∈ (stripTrailing n).digits, d < 10 :=
    fun d member => shaped.small d (same ▸ mem_append_left _ member)
  refine ⟨⟨⟨small, by omega⟩, shaped.plain.imp (fun _ => by omega) fun first => ?_⟩, magnitude_eq (by omega) ?_, ?_⟩
  · rwa [same, head?_append_of_ne_nil _ some] at first
  · rw [value, show n.scale - (stripTrailing n).scale = j by omega]
  · intro none
    have zeros := valueOf_eq_zero_iff.1 none
    have one : n.digits.length = n.scale + 1 := shaped.plain.resolve_right fun first => by
      have above := le_valueOf filled first
      have none' : valueOf 10 n.digits = 0 := none
      exact absurd above (by rw [none']; exact not_le.2 (by positivity))
    have zeros' : ∀ d ∈ (stripTrailing n).digits, d = 0 := fun d member => zeros d (same ▸ mem_append_left _ member)
    have all : j = n.scale := last.resolve_right fun other =>
      other ((getLast?_eq_some_getLast some).trans (congrArg _ (zeros' _ (getLast_mem some))))
    exact (eq_replicate_iff.2 ⟨(by omega : (stripTrailing n).digits.length = 1), zeros'⟩)

theorem normalize_spec (formed : n.Formed) :
    (normalize n).Shaped ∧ (normalize n).magnitude = n.magnitude ∧ (n.mantissa = 0 → (normalize n).sign = false) ∧
      (n.mantissa ≠ 0 → (normalize n).sign = n.sign) := by
  obtain ⟨led, value⟩ := stripLeading_spec formed
  obtain ⟨shaped, same, zero⟩ := stripTrailing_spec led
  have magnitude : (stripLeading n).magnitude = n.magnitude := by rw [Num.magnitude, value]; rfl
  have sign : (stripTrailing (stripLeading n)).sign = n.sign := rfl
  rw [magnitude] at same
  rw [value] at zero
  have some : n.digits ≠ [] := ne_nil_of_length_pos (lt_of_le_of_lt (Nat.zero_le _) formed.room)
  rw [normalize, if_neg some]
  generalize stripTrailing (stripLeading n) = m at shaped same zero sign
  dsimp only
  split
  next one =>
    have none : m.mantissa = 0 := by rw [Num.mantissa, one]; rfl
    have nothing : n.mantissa = 0 := magnitude_eq_zero_iff.1 (same ▸ magnitude_eq_zero_iff.2 none)
    refine ⟨⟨⟨shaped.small, by simp [one]⟩, .inl (by simp [one])⟩, ?_, fun _ => rfl, absurd nothing⟩
    rw [magnitude_eq_zero_iff.2 nothing]
    exact magnitude_eq_zero_iff.2 none
  rename_i other
  rw [if_neg (ne_nil_of_length_pos (lt_of_le_of_lt (Nat.zero_le _) shaped.room))]
  exact ⟨shaped, same, fun none => absurd (zero none) other, fun _ => sign⟩

theorem fixScale_spec (shaped : n.Shaped) (scale : Nat) :
    (fixScale n scale).Shaped ∧ (fixScale n scale).magnitude = n.magnitude ∧ (fixScale n scale).sign = n.sign := by
  have room := shaped.room
  rw [fixScale]
  split
  · exact ⟨shaped, rfl, rfl⟩
  rename_i less
  have size : (n.digits ++ replicate (scale - n.scale) 0).length = n.digits.length + (scale - n.scale) := by simp
  refine ⟨⟨⟨padded_small shaped.small _, ?_⟩, shaped.plain.imp ?_ ?_⟩, ?_, rfl⟩
  · show scale < (n.digits ++ _).length
    omega
  · intro one
    show (n.digits ++ _).length = scale + 1
    omega
  · intro first
    rwa [head?_append_of_ne_nil _ (ne_nil_of_length_pos (by omega))]
  · exact (magnitude_eq (Nat.le_of_not_le less) (valueOf_padded _ _)).symm

/-! ## Order -/

theorem absCmp_eq (left : a.Shaped) (right : b.Shaped) : absCmp a b = compare a.magnitude b.magnitude := by
  have zeroLeft := isZero_iff.trans (magnitude_eq_zero_iff (n := a)).symm
  have zeroRight := isZero_iff.trans (magnitude_eq_zero_iff (n := b)).symm
  have positive : ∀ n : Num, n.magnitude ≠ 0 → 0 < n.magnitude := fun n some => (magnitude_nonneg n).lt_of_ne' some
  rw [absCmp]
  by_cases noneLeft : a.magnitude = 0
  · by_cases noneRight : b.magnitude = 0
    · simp [zeroLeft.2 noneLeft, zeroRight.2 noneRight, noneLeft, noneRight]
    · have other : isZero b = false := eq_false_iff.2 fun zero => noneRight (zeroRight.1 zero)
      simp [zeroLeft.2 noneLeft, other, compare_lt_iff_lt.2 (noneLeft.symm ▸ positive b noneRight)]
  have someLeft : isZero a = false := eq_false_iff.2 fun zero => noneLeft (zeroLeft.1 zero)
  by_cases noneRight : b.magnitude = 0
  · simp [zeroRight.2 noneRight, someLeft, compare_gt_iff_gt.2 (noneRight.symm ▸ positive a noneLeft)]
  have someRight : isZero b = false := eq_false_iff.2 fun zero => noneRight (zeroRight.1 zero)
  rw [someLeft, someRight, if_neg (by decide)]
  split
  next differ =>
    split
    next more => exact (compare_gt_iff_gt.2 (magnitude_lt_of_whole_lt right left more)).symm
    next less => exact (compare_lt_iff_lt.2 (magnitude_lt_of_whole_lt left right (by omega))).symm
  rename_i same
  have roomLeft := left.room
  rw [Num.whole, Num.whole] at same
  -- With as many digits in front of the point, zeros behind it make both equally long.
  set length := max a.digits.length b.digits.length
  rw [lexCmp_eq_compare (by simp; omega) (padded_small left.small _)
    (padded_small right.small _), valueOf_padded, valueOf_padded,
    ← compare_magnitude (p := length - (a.digits.length - a.scale))]
  congr 1
  · exact (magnitude_eq (by omega) (by congr 2; omega)).symm
  · exact (magnitude_eq (by omega) (by congr 2; omega)).symm

theorem cmp_eq (left : a.WellFormed) (right : b.WellFormed) : cmp a b = compare a.value b.value := by
  have positive : ∀ n : Num, n.WellFormed → n.sign = true → 0 < n.magnitude := fun n wellFormed negative =>
    (magnitude_nonneg n).lt_of_ne' fun zero =>
      false_ne_true ((wellFormed.unsigned (magnitude_eq_zero_iff.1 zero)).symm.trans negative)
  rw [cmp, absCmp_eq left.toShaped right.toShaped, Num.value, Num.value]
  cases signLeft : a.sign <;> cases signRight : b.sign
  · simp [signed]
  · have less := positive b right signRight
    have most := magnitude_nonneg a
    exact (compare_gt_iff_gt.2 (show -b.magnitude < a.magnitude by linarith)).symm
  · have less := positive a left signLeft
    have most := magnitude_nonneg b
    exact (compare_lt_iff_lt.2 (show -a.magnitude < b.magnitude by linarith)).symm
  · show (compare a.magnitude b.magnitude).swap = compare (-a.magnitude) (-b.magnitude)
    rw [← cmp_eq_compare, ← cmp_eq_compare, cmp_swap]
    have anti : StrictAnti fun x : ℚ => -x := fun _ _ less => neg_lt_neg less
    exact (anti.cmp_map_eq _ _).symm

end BashOs.Bc

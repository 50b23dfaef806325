import BashOs.Lib.Bytes

/-!
Two codings of a number in groups of seven bits, a set high bit marking that another byte follows.
`sevenBits` writes the low group first. `backOffset` writes the high group first and counts each byte
after the first as one more, so that no number has two spellings. The readers take the word width they
must not overflow and the number of bytes they are willing to read.
-/

namespace BashOs.Lib
open List

section LowFirst

def sevenBits (n : Nat) : Bytes :=
  let byte := UInt8.ofNat (n &&& 0x7f)
  if n >>> 7 = 0 then [byte] else (byte ||| 0x80) :: sevenBits (n >>> 7)
termination_by n
decreasing_by
  rw [drop_seven] at *
  omega

/-- `limit` bytes may still be read; the next one lands at bit `shift` of `value`. -/
def readSevenBits (width : Nat) : Nat → Nat → Nat → Bytes → Option (Nat × Bytes)
  | limit + 1, shift, value, b :: rest =>
    if width ≤ shift ∨ (2 ^ width - 1) >>> shift < (b &&& 0x7f).toNat then none
    else
      let value := value ||| (b &&& 0x7f).toNat <<< shift
      if b &&& 0x80 = 0 then some (value, rest) else readSevenBits width limit (shift + 7) value rest
  | _, _, _, _ => none

theorem last_group {n : Nat} (last : n >>> 7 = 0) : sevenBits n = [UInt8.ofNat n] ∧ n < 128 := by
  have small : n < 128 := by omega
  rw [sevenBits, low_seven, drop_seven, Nat.mod_eq_of_lt small]
  simp [small]

theorem more_groups {n : Nat} (more : n >>> 7 ≠ 0) :
    ∃ b : UInt8, sevenBits n = b :: sevenBits (n / 128) ∧ b.toNat = n % 128 + 128 := by
  refine ⟨UInt8.ofNat (n &&& 0x7f) ||| 0x80, ?_, ?_⟩
  · rw [sevenBits]
    simp only [more, ↓reduceIte]
    rw [drop_seven]
  · have group : (UInt8.ofNat (n % 128)).toNat = n % 128 := byte_ofNat_toNat (by omega)
    rw [low_seven, set_high_bit _ (by omega), group]

theorem group_fits {width shift n : Nat} (fits : n * 2 ^ shift < 2 ^ width) (positive : 0 < n) :
    shift < width ∧ n ≤ (2 ^ width - 1) >>> shift := by
  have below : 2 ^ shift < 2 ^ width := Nat.lt_of_le_of_lt (Nat.le_mul_of_pos_left _ positive) fits
  refine ⟨(Nat.pow_lt_pow_iff_right (by decide)).1 below, ?_⟩
  rw [Nat.shiftRight_eq_div_pow, Nat.le_div_iff_mul_le (Nat.two_pow_pos shift)]
  omega

theorem readSevenBits_sevenBits (width : Nat) (n limit shift value : Nat) (tail : Bytes)
    (below : value < 2 ^ shift) (inside : shift < width) (fits : n * 2 ^ shift < 2 ^ width)
    (enough : n < 128 ^ limit) (some_left : 0 < limit) :
    readSevenBits width limit shift value (sevenBits n ++ tail) = some (value + n * 2 ^ shift, tail) := by
  induction n using Nat.strongRecOn generalizing limit shift value with
  | ind n ih =>
    obtain ⟨limit, rfl⟩ : ∃ k, limit = k + 1 := ⟨limit - 1, by omega⟩
    have allowed (group : Nat) (part : group ≤ n) : ¬(width ≤ shift ∨ (2 ^ width - 1) >>> shift < group) := by
      rcases Nat.eq_zero_or_pos group with rfl | positive
      · simp [inside]
      · have := group_fits (Nat.lt_of_le_of_lt (Nat.mul_le_mul_right _ part) fits) positive
        omega
    by_cases last : n >>> 7 = 0
    · obtain ⟨spelled, small⟩ := last_group last
      have byte : (UInt8.ofNat n).toNat = n := byte_ofNat_toNat (by omega)
      have done : UInt8.ofNat n &&& 0x80 = 0 := (high_bit_clear _).2 (by omega)
      simp only [spelled, cons_append, nil_append, readSevenBits, low_seven_byte, byte,
        Nat.mod_eq_of_lt small, allowed n (Nat.le_refl n), done, or_shiftLeft below, ↓reduceIte]
    obtain ⟨b, spelled, byte⟩ := more_groups last
    have goes_on : ¬b &&& 0x80 = 0 := by rw [high_bit_clear]; omega
    have group : b.toNat % 128 = n % 128 := by omega
    have parts : n = n / 128 * 128 + n % 128 := by omega
    have wider : (2 : Nat) ^ (shift + 7) = 128 * 2 ^ shift := by rw [Nat.pow_add]; omega
    have rest_fits : n / 128 * 2 ^ (shift + 7) < 2 ^ width := by
      rw [wider, ← Nat.mul_assoc]
      exact Nat.lt_of_le_of_lt (Nat.mul_le_mul_right _ (Nat.div_mul_le_self n 128)) fits
    have rest_enough : n / 128 < 128 ^ limit := by
      apply (Nat.div_lt_iff_lt_mul (by decide)).2
      simpa [Nat.pow_succ] using enough
    have limit_left : 0 < limit := by
      rcases Nat.eq_zero_or_pos limit with rfl | left
      · simp at enough; omega
      · exact left
    have grown : value + n % 128 * 2 ^ shift < 2 ^ (shift + 7) := by
      have : n % 128 * 2 ^ shift ≤ 127 * 2 ^ shift := Nat.mul_le_mul_right _ (by omega)
      omega
    have total : value + n % 128 * 2 ^ shift + n / 128 * 2 ^ (shift + 7) = value + n * 2 ^ shift := by
      conv_rhs => rw [parts]
      rw [wider, Nat.add_mul, Nat.mul_assoc]
      omega
    simp only [spelled, cons_append, readSevenBits, low_seven_byte, group,
      allowed _ (Nat.mod_le n 128), goes_on, or_shiftLeft below, ↓reduceIte]
    rw [ih (n / 128) (by omega) limit (shift + 7) _ grown
      (group_fits rest_fits (by omega)).1 rest_fits rest_enough limit_left, total]

end LowFirst

section HighFirst

def backOffsetMore (n : Nat) (spelled : Bytes) : Bytes :=
  let n := n >>> 7
  if n = 0 then spelled else backOffsetMore (n - 1) (UInt8.ofNat (128 ||| (n - 1) &&& 127) :: spelled)
termination_by n
decreasing_by
  rw [drop_seven] at *
  omega

def backOffset (n : Nat) : Bytes := backOffsetMore n [UInt8.ofNat (n &&& 127)]

def readBackOffsetMore (width : Nat) : Nat → Nat → UInt8 → Bytes → Option (Nat × Bytes)
  | limit, value, b, rest =>
    if b &&& 0x80 = 0 then some (value, rest)
    else
      match limit, rest with
      | limit + 1, next :: rest =>
        if (2 ^ width - 1) >>> 7 ≤ value then none
        else readBackOffsetMore width limit ((value + 1) <<< 7 ||| (next &&& 0x7f).toNat) next rest
      | _, _ => none

def readBackOffset (width limit : Nat) : Bytes → Option (Nat × Bytes)
  | b :: rest => readBackOffsetMore width limit (b &&& 0x7f).toNat b rest
  | [] => none

theorem marked_group (n : Nat) : (UInt8.ofNat (128 ||| n &&& 127)).toNat = n % 128 + 128 := by
  have group : 128 ||| n &&& 127 = 128 + n % 128 := by
    rw [low_seven]
    exact (Nat.two_pow_add_eq_or_of_lt (i := 7) (Nat.mod_lt n (by decide)) 1).symm
  rw [group, byte_ofNat_toNat (by omega), Nat.add_comm]

theorem readBackOffset_groups (width n k limit : Nat) (b : UInt8) (tail : Bytes)
    (low : b.toNat % 128 = n % 128) (fits : n < 2 ^ width) (short : n < 128 ^ (k + 1)) (enough : k ≤ limit) :
    ∃ spare, readBackOffset width limit (backOffsetMore n (b :: tail))
      = readBackOffsetMore width spare n b tail ∧ limit ≤ spare + k := by
  induction n using Nat.strongRecOn generalizing k b tail with
  | ind n ih =>
    rw [backOffsetMore]
    simp only [drop_seven]
    by_cases last : n / 128 = 0
    · refine ⟨limit, ?_, by omega⟩
      have value : b.toNat % 128 = n := by omega
      simp only [last, ↓reduceIte, readBackOffset, low_seven_byte, value]
    obtain ⟨k, rfl⟩ : ∃ j, k = j + 1 := by
      refine ⟨k - 1, ?_⟩
      rcases Nat.eq_zero_or_pos k with rfl | positive
      · simp at short; omega
      · omega
    have high_short : n / 128 - 1 < 128 ^ (k + 1) := by
      omega
    have marked := marked_group (n / 128 - 1)
    obtain ⟨spare, read, left⟩ := ih (n / 128 - 1) (by omega) k
      (UInt8.ofNat (128 ||| (n / 128 - 1) &&& 127)) (b :: tail) (by omega) (by omega) high_short (by omega)
    obtain ⟨spare, rfl⟩ : ∃ s, spare = s + 1 := ⟨spare - 1, by omega⟩
    refine ⟨spare, ?_, by omega⟩
    have goes_on : UInt8.ofNat (128 ||| (n / 128 - 1) &&& 127) &&& 0x80 ≠ 0 := by
      rw [Ne, high_bit_clear]; omega
    have room : n / 128 - 1 < (2 ^ width - 1) >>> 7 := by
      omega
    have value : (n / 128 - 1 + 1) <<< 7 ||| b.toNat % 128 = n := by
      rw [← Nat.shiftLeft_add_eq_or_of_lt (i := 7) (Nat.mod_lt _ (by decide))]
      omega
    simp only [last, ↓reduceIte, read]
    rw [readBackOffsetMore]
    simp only [goes_on, ↓reduceIte, Nat.not_le.2 room]
    rw [low_seven_byte, value]

theorem readBackOffset_backOffset (width n limit : Nat) (tail : Bytes)
    (fits : n < 2 ^ width) (enough : n < 128 ^ (limit + 1)) :
    readBackOffset width limit (backOffset n ++ tail) = some (n, tail) := by
  have grows (m : Nat) (spelled : Bytes) : backOffsetMore m spelled ++ tail = backOffsetMore m (spelled ++ tail) := by
    induction m using Nat.strongRecOn generalizing spelled with
    | ind m ih =>
      rw [backOffsetMore, backOffsetMore.eq_def m (spelled ++ tail)]
      simp only [drop_seven]
      split
      · rfl
      · rw [ih _ (by omega), cons_append]
  have byte : (UInt8.ofNat (n % 128)).toNat = n % 128 := byte_ofNat_toNat (by omega)
  obtain ⟨spare, read, -⟩ := readBackOffset_groups width n limit limit (UInt8.ofNat (n % 128)) tail
    (by omega) fits enough (Nat.le_refl limit)
  have done : UInt8.ofNat (n % 128) &&& 0x80 = 0 := (high_bit_clear _).2 (by omega)
  rw [backOffset, grows, low_seven, cons_append, nil_append, read]
  unfold readBackOffsetMore
  simp only [done, ↓reduceIte]

end HighFirst

end BashOs.Lib

import BashOs.Bc.Arithmetic
import BashOs.Lib.Loop

/-!
The square root of `bc`: Newton's iteration with five digits to spare, from a power of ten above the root. Counted
in its last place it is the iteration on natural numbers, which comes down to the floor of the root. From the second
turn on the divisor has all these digits behind the point, so the dividend takes twice as many.
-/

namespace BashOs.Bc

open BashOs.Lib List

/-- `_bc_one`, and `bc_from_int (2)`. -/
def ofDigit (d : Nat) : Num := ⟨false, [d], 0⟩

/-- The decimal places of the first digit that counts, from the point on. -/
def sqrtMagnitude (n : Num) : Int := (stripZeros n.digits.length n.digits).length - n.scale

-- division cuts toward zero
def sqrtExponent (n : Num) : Int :=
  if sqrtMagnitude n > 0 then (sqrtMagnitude n + 1) / 2 else -(-sqrtMagnitude n / 2)

def sqrtSeed (n : Num) : Num :=
  let exponent := sqrtExponent n
  ⟨false, replicate (-exponent).toNat 0 ++ 1 :: replicate exponent.toNat 0, (-exponent).toNat⟩

/-- The sums in `int` before the loop: the exponent, what `bc_alloc` is asked for, and the scale of the iteration. -/
def sqrtSums (n : Num) (scale : Nat) : List Nat :=
  [(sqrtMagnitude n).toNat + 1, (sqrtExponent n).natAbs + 2, scale + 5]

/-- One turn of the loop of `bc_sqrt`. -/
def sqrtTurn (n : Num) (scale : Nat) (x : Num) : Option (ForInStep Num) := do
  let q ← bcDiv n x scale
  let s ← bcAdd x q scale
  let next ← bcDiv s (ofDigit 2) scale
  some (if cmp next x = .lt then .yield next else .done x)

/-- `bc_sqrt`, its loop given up after so many turns. -/
def bcSqrt (turns : Nat) (n : Num) (scale : Nat) : Option Num :=
  if n.sign ∨ isZero n then some .zero
  else if cmp n (ofDigit 1) = .eq then some (ofDigit 1)
  else if ∀ s ∈ sqrtSums n (max n.scale scale), s ≤ intMax then do
    let scale := max n.scale scale
    let x ← repeatUntil (sqrtTurn n (scale + 5)) turns (sqrtSeed n)
    let r := normalize (truncateToScale x scale)
    within (fixSums r scale) (fixScale r scale)
  else none

/-- A number of so many units of the place `p` behind the point. -/
def Num.Counts (p X : Nat) (x : Num) : Prop := x.WellFormed ∧ x.value = X / 10 ^ p

variable {n x a b : Num} {p scale M N X : Nat}

theorem newton_ge (above : N.sqrt ≤ X) : N.sqrt ≤ (X + N / X) / 2 := by
  obtain rfl | positive := Nat.eq_zero_or_pos X
  · simpa using above
  obtain ⟨d, rfl⟩ := Nat.exists_eq_add_of_le above
  have below : (N.sqrt - d) * (N.sqrt + d) ≤ N := by
    rw [mul_comm, ← Nat.sq_sub_sq]
    exact (Nat.sub_le _ _).trans (Nat.sqrt_le' N)
  have half := (Nat.le_div_iff_mul_le positive).2 below
  omega

theorem newton_le (above : N.sqrt ≤ X) : X + N / X ≤ 2 * X + 2 := by
  have most : N ≤ X * (X + 2) := by
    have := Nat.lt_succ_sqrt' N
    nlinarith
  have := Nat.div_le_of_le_mul most
  omega

theorem cut_div (N D scale : Nat) : cut scale ((N : ℚ) / D) = (N * 10 ^ scale / D : ℕ) / 10 ^ scale :=
  (cut_signed (by positivity) scale false).trans (floorAt_div N D scale)

theorem counts_of_shaped (shaped : x.Shaped) (sign : x.sign = false) (room : x.scale ≤ p) :
    x.Counts p (x.mantissa * 10 ^ (p - x.scale)) := by
  refine ⟨⟨shaped, fun _ => sign⟩, ?_⟩
  rw [Num.value, sign]
  exact magnitude_eq room rfl

theorem counts_ofDigit {d : Nat} (digit : d < 10) (p : Nat) : (ofDigit d).Counts p (d * 10 ^ p) := by
  have counts := counts_of_shaped (x := ofDigit d) ⟨⟨by simpa [ofDigit] using digit, Nat.one_pos⟩, .inl rfl⟩ rfl
    (Nat.zero_le p)
  simpa [ofDigit, Num.mantissa, valueOf] using counts

theorem counts_div (left : a.Counts p M) (right : b.Counts p X) : (div a b p).Counts p (M * 10 ^ p / X) := by
  obtain ⟨formed, quotient⟩ := div_spec left.1.toFormed right.1.toFormed p
  rw [left.2, right.2, div_div_div_cancel_right₀ (by positivity), cut_div] at quotient
  exact ⟨formed, quotient⟩

theorem counts_cut (here : x.Counts (scale + 5) X) :
    (fixScale (normalize (truncateToScale x scale)) scale).Counts scale (X / 10 ^ 5) := by
  obtain ⟨formed, value⟩ := cut_spec here.1.toFormed scale
  have units := cut_div X (10 ^ (scale + 5)) scale
  rw [Nat.pow_add, mul_comm X, Nat.mul_div_mul_left _ _ (by positivity), ← Nat.pow_add, Nat.cast_pow] at units
  exact ⟨formed, value.trans (here.2 ▸ units)⟩

/-! ## How long the numbers of the iteration are -/

theorem fixScale_scale (n : Num) (scale : Nat) : (fixScale n scale).scale = max n.scale scale := by
  rw [fixScale]
  split
  · omega
  · exact (max_eq_right (Nat.le_of_not_le ‹_›)).symm

theorem normalize_scale_le (n : Num) : (normalize n).scale ≤ n.scale := by
  have less : (stripTrailing (stripLeading n)).scale ≤ n.scale := Nat.sub_le _ _
  rw [normalize]
  split
  · exact Nat.zero_le _
  dsimp only
  split
  · exact Nat.zero_le _
  split
  · exact Nat.zero_le _
  · exact less

theorem truncateToScale_scale_le (n : Num) (scale : Nat) : (truncateToScale n scale).scale ≤ scale := by
  rw [truncateToScale]
  split
  · assumption
  split
  · exact Nat.zero_le _
  · exact Nat.le_refl _

theorem div_scale (a b : Num) (scale : Nat) : (div a b scale).scale = scale := by
  rw [div, fixScale_scale]
  refine max_eq_right ?_
  show (divInternal a b scale).scale ≤ scale
  rw [divInternal]
  split
  · exact Nat.zero_le _
  split
  · exact Nat.zero_le _
  · exact (normalize_scale_le _).trans (truncateToScale_scale_le _ _)

theorem sumOf_scale_le (a b : Num) (scale : Nat) : (sumOf a b scale).scale ≤ max (max a.scale b.scale) scale := by
  rw [sumOf]
  split
  · exact normalize_scale_le _
  split
  · exact (normalize_scale_le _).trans (by dsimp only; omega)
  · exact normalize_scale_le _

theorem add_scale_le (a b : Num) (scale : Nat) : (add a b scale).scale ≤ max (max a.scale b.scale) scale := by
  rw [add, fixScale_scale]
  exact max_le (sumOf_scale_le a b scale) (le_max_left _ _)

theorem mem_fixSums {s : Nat} (member : s ∈ fixSums n scale) : s = (fixScale n scale).digits.length + 1 := by
  rw [fixSums] at member
  split at member
  · cases member
  next more =>
    rw [mem_singleton.1 member, fixScale, if_neg more]
    simp

variable {W : Nat}

theorem whole_le (shaped : x.Shaped) (some : 0 < W) (less : x.magnitude < 10 ^ W) : x.whole ≤ W := by
  by_contra more
  have above := (le_magnitude shaped (by omega)).trans_lt less
  have := (pow_lt_pow_iff_right₀ (by norm_num : (1 : ℚ) < 10)).1 above
  omega

theorem Num.Counts.sign (here : x.Counts p X) : x.sign = false := by
  by_contra negative
  have value := here.2
  rw [Num.value, eq_true_of_ne_false negative] at value
  have least : (0 : ℚ) ≤ X / 10 ^ p := by positivity
  have none : x.magnitude = 0 := le_antisymm (by simp only [signed, if_true] at value; linarith) (magnitude_nonneg x)
  exact negative (here.1.unsigned (magnitude_eq_zero_iff.1 none))

theorem Num.Counts.magnitude (here : x.Counts p X) : x.magnitude = X / 10 ^ p := by
  rw [← here.2, Num.value, here.sign]
  rfl

theorem Num.Counts.isZero_iff (here : x.Counts p X) : isZero x = true ↔ X = 0 := by
  rw [Bc.isZero_iff, ← magnitude_eq_zero_iff, here.magnitude]
  simp

/-- A number of few units is not long. -/
theorem Num.Counts.short (here : x.Counts p X) (some : 0 < W) (less : X < 10 ^ (W + p)) (scale : x.scale ≤ p) :
    x.whole ≤ W ∧ x.digits.length ≤ W + p := by
  have below : x.magnitude < 10 ^ W := by
    rw [here.magnitude, div_lt_iff₀ (by positivity), ← pow_add]
    exact_mod_cast less
  have wide := whole_le here.1.toShaped some below
  have room := here.1.room
  exact ⟨wide, by rw [Num.whole] at wide; omega⟩

theorem bcDiv_eq {r : Num} (formed : r.digits.length ≤ W) (same : div a b p = r)
    (dividend : a.digits.length + (p + b.scale) + 2 ≤ intMax) (fits : W + 1 ≤ intMax) : bcDiv a b p = some r := by
  rw [bcDiv, within, if_pos, same]
  intro s member
  obtain member | member := mem_append.1 member
  · split at member
    · cases member
    · rwa [mem_singleton.1 member]
  · rw [mem_fixSums member, show fixScale _ _ = r from same]
    omega

theorem bcAdd_eq {r : Num} (formed : r.digits.length ≤ W + p) (same : add a b p = r) (left : a.whole ≤ W)
    (right : b.whole ≤ W) (scales : a.scale ≤ p ∧ b.scale ≤ p) (fits : W + p + 3 ≤ intMax) : bcAdd a b p = some r := by
  rw [bcAdd, within, if_pos, same]
  have most : max (max a.scale b.scale) p = p := by omega
  have other : max (max b.scale a.scale) p = p := by omega
  intro s member
  obtain member | member := mem_append.1 member
  · unfold columnSums at member
    split at member
    · rw [mem_singleton.1 member, most]
      omega
    split at member
    · rw [mem_singleton.1 member, other]
      omega
    · rw [mem_singleton.1 member, most]
      omega
  · rw [mem_fixSums member, show fixScale _ _ = r from same]
    omega

/-! ## One turn and the run -/

theorem counts_turn (root : n.Counts p M) (here : x.Counts p X) :
    (add x (div n x p) p).Counts p (X + M * 10 ^ p / X) ∧
      (div (add x (div n x p) p) (ofDigit 2) p).Counts p ((X + M * 10 ^ p / X) / 2) := by
  have q := counts_div root here
  obtain ⟨formed, sum⟩ := add_spec here.1 q.1.toShaped p
  rw [here.2, q.2, ← add_div, ← Nat.cast_add] at sum
  have next := counts_div ⟨formed, sum⟩ (counts_ofDigit (d := 2) (by decide) p)
  rw [Nat.mul_div_mul_right _ _ (by positivity)] at next
  exact ⟨⟨formed, sum⟩, next⟩

section
variable (fits : max n.digits.length W + 2 * p + 2 ≤ intMax) (some : 0 < W)
include fits some

theorem sqrtTurn_counts (root : n.Counts p M) (here : x.Counts p X) (scale : x.scale ≤ p)
    (less : X + M * 10 ^ p / X < 10 ^ (W + p)) (spare : 0 < p) : ∃ next : Num,
    next.Counts p ((X + M * 10 ^ p / X) / 2) ∧ next.scale = p ∧
      sqrtTurn n p x = .some (if (X + M * 10 ^ p / X) / 2 < X then .yield next else .done x) := by
  have q := counts_div root here
  obtain ⟨s, next⟩ := counts_turn root here
  have sScale : (add x (div n x p) p).scale ≤ p := (add_scale_le _ _ _).trans (by rw [div_scale]; omega)
  have xShort := here.short some ((Nat.le_add_right _ _).trans_lt less) scale
  have qShort := q.short some ((Nat.le_add_left _ _).trans_lt less) (div_scale ..).le
  have sShort := s.short some less sScale
  have nextShort := next.short some ((Nat.div_le_self _ _).trans_lt less) (div_scale ..).le
  refine ⟨_, next, div_scale .., ?_⟩
  rw [sqrtTurn, bcDiv_eq qShort.2 rfl (by omega) (by omega), Option.bind_eq_bind, Option.bind_some,
    bcAdd_eq sShort.2 rfl xShort.1 qShort.1 ⟨scale, (div_scale ..).le⟩ (by omega), Option.bind_some,
    bcDiv_eq nextShort.2 rfl (by show _ + (p + 0) + 2 ≤ intMax; omega) (by omega), Option.bind_some]
  simp only [cmp_eq next.1 here.1, next.2, here.2, compare_magnitude, compare_lt_iff_lt]

theorem sqrt_run {turns : Nat} (root : n.Counts p M) (seed : x.Counts p X) (above : (M * 10 ^ p).sqrt ≤ X)
    (enough : X < turns) (scale : x.scale ≤ p) (less : 2 * X + 2 < 10 ^ (W + p)) (spare : 0 < p) :
    ∃ r, repeatUntil (sqrtTurn n p) turns x = .some r ∧ r.Counts p (M * 10 ^ p).sqrt := by
  have units : ∀ {x : Num} {X : Nat}, x.Counts p X → ⌊x.value * 10 ^ p⌋₊ = X := fun here => by
    rw [here.2, div_mul_cancel₀ _ (by positivity), Nat.floor_natCast]
  refine repeatUntil_spec (fun x => ∃ Y ≤ X, x.Counts p Y ∧ (M * 10 ^ p).sqrt ≤ Y ∧ x.scale ≤ p) _
    (fun x => ⌊x.value * 10 ^ p⌋₊) ?_ ⟨X, le_rfl, seed, above, scale⟩ (by rwa [units seed])
  rintro x ⟨Y, most, here, above, scale⟩
  obtain ⟨next, counts, places, turn⟩ := sqrtTurn_counts fits some root here scale
    (((newton_le above).trans (by omega)).trans_lt less) spare
  refine ⟨_, turn, ?_⟩
  split
  next less =>
    refine ⟨⟨_, (less.trans_le most).le, counts, newton_ge above, places.le⟩, ?_⟩
    dsimp only
    rwa [units here, units counts]
  next stop =>
    have least : Y * Y ≤ M * 10 ^ p :=
      (Nat.mul_le_mul_left Y (show Y ≤ M * 10 ^ p / Y by omega)).trans (Nat.mul_div_le _ _)
    exact above.antisymm (Nat.le_sqrt.2 least) ▸ here

end

theorem sqrtExponent_spec (n : Num) :
    ((stripZeros n.digits.length n.digits).length : Int) ≤ n.scale + 2 * sqrtExponent n ∧
    -(n.scale : Int) ≤ sqrtExponent n ∧ sqrtExponent n + 1 ≤ max n.digits.length 2 ∧
      sqrtMagnitude n ≤ n.digits.length := by
  obtain ⟨j, -, same, -⟩ := stripZeros_eq n.digits.length n.digits
  have size := congrArg List.length same
  rw [length_append, length_replicate] at size
  unfold sqrtExponent sqrtMagnitude
  split <;> omega

theorem sqrtSeed_counts (formed : n.Formed) (room : n.scale ≤ p) : ∃ X, (sqrtSeed n).Counts p X ∧
    n.mantissa * 10 ^ (p - n.scale) * 10 ^ p < X ^ 2 ∧ 2 * X + 2 < 10 ^ (max n.digits.length 2 + p) := by
  have small : n.mantissa < 10 ^ (stripZeros n.digits.length n.digits).length := by
    rw [Num.mantissa, ← valueOf_stripZeros n.digits.length]
    exact valueOf_lt fun d member => formed.small d (mem_of_mem_stripZeros member)
  obtain ⟨twice, least, most, -⟩ := sqrtExponent_spec n
  unfold sqrtSeed
  generalize (stripZeros n.digits.length n.digits).length = k at small twice
  generalize sqrtExponent n = e at twice least most
  refine ⟨_, counts_of_shaped ⟨⟨?_, ?_⟩, ?_⟩ rfl ?_, ?_⟩
  · simp
    omega
  · simp
  · obtain least | most := le_total 0 e
    · exact .inr (by simp [Int.toNat_of_nonpos (neg_nonpos.2 least)])
    · exact .inl (by simp [Int.toNat_of_nonpos most])
  · dsimp only
    omega
  · simp only [Num.mantissa, valueOf_append, valueOf_replicate_zero, valueOf_cons, length_replicate, zero_mul, zero_add,
      one_mul, add_zero, ← pow_add, ← pow_mul]
    constructor
    · calc n.mantissa * 10 ^ (p - n.scale) * 10 ^ p < 10 ^ k * 10 ^ (p - n.scale) * 10 ^ p := by gcongr
        _ = 10 ^ (k + (p - n.scale) + p) := by rw [pow_add, pow_add]
        _ ≤ _ := Nat.pow_le_pow_right (by decide) (by omega)
    · have one := Nat.one_le_pow (e.toNat + (p - (-e).toNat)) 10 (by decide)
      calc 2 * 10 ^ (e.toNat + (p - (-e).toNat)) + 2 < 10 ^ (e.toNat + (p - (-e).toNat) + 1) := by rw [pow_succ]; omega
        _ ≤ _ := Nat.pow_le_pow_right (by decide) (by omega)

/-! ## What a run needs -/

theorem bcDiv_eq_some {r : Num} (given : bcDiv a b p = some r) : div a b p = r ∧
    (isZero a = false → isZero b = false → a.digits.length + (p + b.scale) + 2 ≤ intMax) := by
  rw [bcDiv, within] at given
  split at given
  next fits =>
    refine ⟨Option.some.inj given, fun left right => fits _ (mem_append_left _ ?_)⟩
    rw [left, right]
    exact mem_singleton.2 rfl
  · cases given

theorem bcAdd_eq_some {r : Num} (given : bcAdd a b p = some r) : add a b p = r := by
  rw [bcAdd, within] at given
  split at given
  · exact Option.some.inj given
  · cases given

theorem sqrtTurn_eq_some {turn : ForInStep Num} (given : sqrtTurn n p x = some turn) :
    turn = (if cmp (div (add x (div n x p) p) (ofDigit 2) p) x = .lt
        then .yield (div (add x (div n x p) p) (ofDigit 2) p) else .done x) ∧
      (isZero n = false → isZero x = false → n.digits.length + (p + x.scale) + 2 ≤ intMax) ∧
      (isZero (add x (div n x p) p) = false → (add x (div n x p) p).digits.length + p + 2 ≤ intMax) := by
  rw [sqrtTurn, Option.bind_eq_bind] at given
  obtain ⟨q, divided, given⟩ := Option.bind_eq_some_iff.1 given
  obtain ⟨s, added, given⟩ := Option.bind_eq_some_iff.1 given
  obtain ⟨next, halved, given⟩ := Option.bind_eq_some_iff.1 given
  obtain ⟨rfl, first⟩ := bcDiv_eq_some divided
  obtain rfl := bcAdd_eq_some added
  obtain ⟨rfl, second⟩ := bcDiv_eq_some halved
  exact ⟨(Option.some.inj given).symm, first, fun some => second some rfl⟩

/-- A run from above the root takes a second turn, in which the divisor has all the places of the iteration. -/
theorem fits_of_run {turns : Nat} {r : Num} (root : n.Counts p M) (seed : x.Counts p X) (above : M * 10 ^ p < X ^ 2)
    (positive : 0 < M * 10 ^ p) (ran : repeatUntil (sqrtTurn n p) turns x = some r) :
    max n.digits.length x.whole + 2 * p + 2 ≤ intMax := by
  have big : 2 ≤ X := by nlinarith
  have least := Nat.zero_le (M * 10 ^ p / X)
  have down : M * 10 ^ p / X < X := Nat.div_lt_of_lt_mul (by rwa [← sq])
  obtain ⟨sum, next⟩ := counts_turn root seed
  have less : cmp (div (add x (div n x p) p) (ofDigit 2) p) x = .lt := by
    rw [cmp_eq next.1 seed.1, next.2, seed.2, compare_magnitude, compare_lt_iff_lt]
    omega
  have someN : isZero n = false := eq_false_of_ne_true fun zero => by
    rw [root.isZero_iff.1 zero, Nat.zero_mul] at positive
    exact Nat.lt_irrefl 0 positive
  obtain _ | turns := turns
  · cases ran
  rw [repeatUntil] at ran
  split at ran
  · cases ran
  next turn =>
    have stops := (sqrtTurn_eq_some turn).1
    rw [if_pos less] at stops
    cases stops
  next turn =>
  obtain ⟨goes, -, halved⟩ := sqrtTurn_eq_some turn
  rw [if_pos less] at goes
  cases goes
  have second : n.digits.length + (p + p) + 2 ≤ intMax := by
    have turned : ∃ turn, sqrtTurn n p (div (add x (div n x p) p) (ofDigit 2) p) = some turn := by
      obtain _ | turns := turns
      · cases ran
      · rw [repeatUntil] at ran
        split at ran
        · cases ran
        next turn => exact ⟨_, turn⟩
        next turn => exact ⟨_, turn⟩
    obtain ⟨_, turn⟩ := turned
    have divides := (sqrtTurn_eq_some turn).2.1 someN (eq_false_of_ne_true fun zero => ?_)
    · rwa [div_scale] at divides
    · have := next.isZero_iff.1 zero
      omega
  have first := halved (eq_false_of_ne_true fun zero => by have := sum.isZero_iff.1 zero; omega)
  have places : p ≤ (add x (div n x p) p).scale := by
    rw [add, fixScale_scale, div_scale]
    omega
  have wide : x.whole ≤ (add x (div n x p) p).whole := by
    by_contra narrow
    have below := magnitude_lt_of_whole_lt sum.1.toShaped seed.1.toShaped (not_le.1 narrow)
    rw [sum.magnitude, seed.magnitude] at below
    have := (div_lt_div_iff_of_pos_right (by positivity)).1 below
    have : X + M * 10 ^ p / X < X := by exact_mod_cast this
    omega
  rw [Num.whole] at wide ⊢
  rw [Num.whole] at wide
  omega

theorem sqrtSeed_whole (formed : n.Formed) (some : isZero n = false) (one : n.digits.length = 1) :
    (sqrtSeed n).whole = 2 := by
  obtain ⟨sign, digits, scale⟩ := n
  obtain ⟨d, rfl⟩ := length_eq_one_iff.1 one
  have room : scale < 1 := formed.room
  obtain rfl : scale = 0 := by omega
  obtain _ | d := d
  · cases some
  · simp [sqrtSeed, sqrtExponent, sqrtMagnitude, stripZeros, Num.whole]

/-- The floor of the root in the last place of the iteration, cut to the scale. -/
theorem root_between {r : Num} (root : n.Counts (scale + 5) M)
    (counts : r.Counts scale ((M * 10 ^ (scale + 5)).sqrt / 10 ^ 5)) :
    r.value ^ 2 ≤ n.value ∧ n.value < (r.value + 1 / 10 ^ scale) ^ 2 := by
  -- both sides in units of the last place of the iteration
  have square : ∀ Y : Nat,
      ((Y : ℚ) / 10 ^ scale) ^ 2 = ((Y * 10 ^ 5) ^ 2 : Nat) / 10 ^ (scale + 5) / 10 ^ (scale + 5) := by
    intro Y
    push_cast
    field_simp
    ring
  have whole : n.value = (M * 10 ^ (scale + 5) : Nat) / 10 ^ (scale + 5) / 10 ^ (scale + 5) := by
    push_cast
    rw [root.2, mul_div_cancel_right₀ _ (by positivity)]
  rw [counts.2, ← add_div, ← Nat.cast_add_one, square, square, whole]
  constructor
  · gcongr
    exact (Nat.pow_le_pow_left (Nat.div_mul_le_self _ _) 2).trans (Nat.sqrt_le' _)
  · gcongr
    exact (Nat.lt_succ_sqrt' _).trans_le (Nat.pow_le_pow_left (by omega) 2)

/-- Zero and one are their own roots. -/
theorem root_ofDigit {d : Nat} (small : d < 2) (same : n.value = (ofDigit d).value) (scale : Nat) :
    (ofDigit d).WellFormed ∧ (ofDigit d).value ^ 2 ≤ n.value ∧
      n.value < ((ofDigit d).value + 1 / 10 ^ scale) ^ 2 := by
  have counts := counts_ofDigit (d := d) (by omega) 0
  have more : (0 : ℚ) < 1 / 10 ^ scale := by positivity
  have square : (ofDigit d).value ^ 2 = (ofDigit d).value := by
    rw [counts.2]
    interval_cases d <;> norm_num
  refine ⟨counts.1, (square.trans same.symm).le, ?_⟩
  rw [same, ← square]
  exact pow_lt_pow_left₀ (by linarith) (by rw [counts.2]; positivity) two_ne_zero

/-- What is computed of any other number. -/
theorem bcSqrt_general (unsigned : n.sign = false) (some : ¬isZero n) (other : cmp n (ofDigit 1) ≠ .eq)
    (turns scale : Nat) :
    bcSqrt turns n scale = if ∀ s ∈ sqrtSums n (max n.scale scale), s ≤ intMax then
      (repeatUntil (sqrtTurn n (max n.scale scale + 5)) turns (sqrtSeed n)).bind fun x =>
        within (fixSums (normalize (truncateToScale x (max n.scale scale))) (max n.scale scale))
          (fixScale (normalize (truncateToScale x (max n.scale scale))) (max n.scale scale)) else none := by
  rw [bcSqrt, if_neg (by simp [unsigned, some]), if_neg other]
  rfl

/-- With room for the sums, the root is found. -/
theorem sqrt_found (formed : n.WellFormed) (unsigned : n.sign = false) (some : ¬isZero n)
    (other : cmp n (ofDigit 1) ≠ .eq) {scale : Nat}
    (fits : max n.digits.length 2 + 2 * (max n.scale scale + 5) + 2 ≤ intMax) :
    ∃ least, ∀ turns ≥ least, ∃ r, bcSqrt turns n scale = Option.some r ∧ r.WellFormed ∧
      r.value ^ 2 ≤ n.value ∧ n.value < (r.value + 1 / 10 ^ max n.scale scale) ^ 2 := by
  have room : n.scale ≤ max n.scale scale + 5 := by omega
  obtain ⟨X, seed, above, less⟩ := sqrtSeed_counts formed.toFormed room
  have root := counts_of_shaped formed.toShaped unsigned room
  refine ⟨X + 1, fun turns enough => ?_⟩
  obtain ⟨-, low, high, most⟩ := sqrtExponent_spec n
  have filled := formed.room
  obtain ⟨x, ran, last⟩ := sqrt_run (W := max n.digits.length 2) (by omega) (by omega) root seed
    (Nat.sqrt_lt'.2 above).le enough (show (-sqrtExponent n).toNat ≤ _ by omega) less (by omega)
  have counts := counts_cut last
  have below : (n.mantissa * 10 ^ (max n.scale scale + 5 - n.scale) * 10 ^ (max n.scale scale + 5)).sqrt <
      10 ^ 5 * 10 ^ (max n.digits.length 2 + max n.scale scale) := by
    rw [← pow_add, show 5 + (max n.digits.length 2 + max n.scale scale) =
      max n.digits.length 2 + (max n.scale scale + 5) by omega]
    exact (Nat.sqrt_lt'.2 above).trans (by omega)
  have places : (fixScale (normalize (truncateToScale x (max n.scale scale))) (max n.scale scale)).scale ≤
      max n.scale scale := by
    rw [fixScale_scale]
    exact max_le ((normalize_scale_le _).trans (truncateToScale_scale_le _ _)) le_rfl
  have short := counts.short (W := max n.digits.length 2) (by omega) (Nat.div_lt_of_lt_mul below) places
  have sums : ∀ s ∈ sqrtSums n (max n.scale scale), s ≤ intMax := by
    simp only [sqrtSums, forall_mem_cons, not_mem_nil, false_imp_iff, implies_true, and_true]
    omega
  rw [bcSqrt_general unsigned some other, if_pos sums, ran, Option.bind_some, within,
    if_pos fun s member => by rw [mem_fixSums member]; omega]
  exact ⟨_, rfl, counts.1, root_between root counts⟩

/-- The root of a number other than zero and one is found, and is right to the larger of the two scales, just if the
dividend of the second turn and the first sum leave room in an `int`. -/
theorem sqrt_floor_iff (n : { n : Num // n.WellFormed ∧ n.sign = false }) (scale : Nat) :
    (∃ least, ∀ turns ≥ least, ∃ r, bcSqrt turns n scale = some r ∧ r.WellFormed ∧
      r.value ^ 2 ≤ n.1.value ∧ n.1.value < (r.value + 1 / 10 ^ max n.1.scale scale) ^ 2) ↔
    n.1.value = 0 ∨ n.1.value = 1 ∨
      max n.1.digits.length 2 + 2 * (max n.1.scale scale + 5) + 2 ≤ intMax := by
  obtain ⟨n, formed, unsigned⟩ := n
  dsimp only
  have zeroIff : isZero n = true ↔ n.value = 0 := by
    rw [isZero_iff, ← magnitude_eq_zero_iff, Num.value, unsigned]
    rfl
  have oneIff : cmp n (ofDigit 1) = .eq ↔ n.value = 1 := by
    rw [cmp_eq formed (counts_ofDigit (by decide) 0).1, compare_eq_iff_eq, (counts_ofDigit (by decide) 0).2]
    norm_num
  by_cases zero : isZero n
  · refine iff_of_true ⟨0, fun turns _ => ⟨.zero, by simp [bcSqrt, zero], root_ofDigit (d := 0) (by decide) ?_ _⟩⟩
      (.inl (zeroIff.1 zero))
    rw [zeroIff.1 zero, (counts_ofDigit (by decide) 0).2]
    simp
  by_cases one : cmp n (ofDigit 1) = .eq
  · exact iff_of_true ⟨0, fun turns _ => ⟨ofDigit 1, by simp [bcSqrt, unsigned, zero, one], root_ofDigit (by decide)
      (compare_eq_iff_eq.1 ((cmp_eq formed (counts_ofDigit (by decide) 0).1).symm.trans one)) _⟩⟩
        (.inr (.inl (oneIff.1 one)))
  simp only [← zeroIff, ← oneIff, zero, one, Bool.false_eq_true, false_or]
  refine ⟨?_, sqrt_found formed unsigned zero one⟩
  rintro ⟨least, found⟩
  obtain ⟨r, ran, -⟩ := found least le_rfl
  rw [bcSqrt_general unsigned zero one] at ran
  split at ran
  · have room : n.scale ≤ max n.scale scale + 5 := by omega
    obtain ⟨X, seed, above, -⟩ := sqrtSeed_counts formed.toFormed room
    have root := counts_of_shaped formed.toShaped unsigned room
    have positive : 0 < n.mantissa * 10 ^ (max n.scale scale + 5 - n.scale) * 10 ^ (max n.scale scale + 5) := by
      have := Nat.pos_of_ne_zero (mt isZero_iff.2 zero)
      positivity
    obtain ⟨x, ran, -⟩ := Option.bind_eq_some_iff.1 ran
    have fits := fits_of_run root seed above positive ran
    have filled := formed.room
    by_cases single : n.digits.length = 1
    · rw [sqrtSeed_whole formed.toFormed (eq_false_of_ne_true zero) single] at fits
      omega
    · omega
  · cases ran

/-- With the largest scale the calculator accepts, two has no root: the scale of the iteration overflows. -/
theorem sqrt_two_overflows : (fun turns => bcSqrt turns (ofDigit 2) intMax) = fun _ => none := by
  funext turns
  rw [bcSqrt, if_neg (by decide), if_neg (by decide), if_neg]
  exact fun fits => absurd (fits (max 0 intMax + 5) (by simp [sqrtSums, ofDigit])) (by decide)

end BashOs.Bc

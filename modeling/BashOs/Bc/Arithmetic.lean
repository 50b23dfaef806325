import Mathlib.Algebra.Order.Floor.Semifield
import BashOs.Bc.Number

/-!
The four operations of `bc`. Sums and differences work on columns, products on digits or, for long operands, on
limbs of nine digits, and quotients take away the divisor until it no longer fits. The operations come twice: on
lengths without a limit (`add`), and as the source has them, with lengths and scales in `int` (`bcAdd`). Nothing
keeps their sums from overflowing, since a scale may be as large as an `int` can be.
-/

namespace BashOs.Bc

open BashOs.Lib List Option

/-! ## Sums and differences -/

/-- The digits of a number from the last place that counts on, zeros where it has none. -/
def columns (n : Num) (scale total : Nat) : List Nat :=
  (List.range total).map fun place =>
    if scale - n.scale ≤ place then n.digits.reverse.getD (place - (scale - n.scale)) 0 else 0

def addUnsigned (a b : Num) (scale : Nat) : Num :=
  let scale := max (max a.scale b.scale) scale
  let total := max a.whole b.whole + scale
  let (digits, carry) := addDigits 10 (columns a scale total) (columns b scale total) 0
  normalize ⟨false, if carry = 0 then digits.reverse else 1 :: digits.reverse, scale⟩

def subUnsigned (a b : Num) (scale : Nat) : Num :=
  let scale := max (max a.scale b.scale) scale
  let total := a.whole + scale
  normalize ⟨false, (subDigits 10 (columns a scale total) (columns b scale total) 0).reverse, scale⟩

/-- The sum of `bc_add` before it is given its scale. -/
def sumOf (a b : Num) (scale : Nat) : Num :=
  if a.sign = b.sign then { addUnsigned a b scale with sign := a.sign }
  else
    match absCmp a b with
    | .lt => { subUnsigned b a scale with sign := b.sign }
    | order => { subUnsigned a b scale with sign := order = .gt && a.sign }

def add (a b : Num) (scale : Nat) : Num := fixScale (sumOf a b scale) (max a.scale b.scale)

/-- The difference of `bc_sub` before it is given its scale. -/
def differenceOf (a b : Num) (scale : Nat) : Num :=
  if a.sign ≠ b.sign then { addUnsigned a b scale with sign := a.sign }
  else
    match absCmp a b with
    | .lt => { subUnsigned b a scale with sign := !a.sign }
    | order => { subUnsigned a b scale with sign := order = .gt && a.sign }

def sub (a b : Num) (scale : Nat) : Num := fixScale (differenceOf a b scale) (max a.scale b.scale)

/-! ## Products -/

/-- One turn of the outer loop of `bc_mul`. -/
def digitRow (ys : List Nat) (x : Nat) (prod : List Nat) : List Nat := mulRow (· + ·) 10 x ys prod 0

/-- One turn of the outer loop of `bc_mul_limbs`. -/
def limbRow (ys : List Nat) (x : Nat) (prod : List Nat) : List Nat :=
  if x = 0 then prod else mulRow (fun _ carry => carry) (10 ^ 9) x ys prod 0

def toLimbs (n : Num) : List Nat := grouped 10 9 ((n.digits.length + 8) / 9) n.digits.reverse

def mulLimbs (a b : Num) (total : Nat) : List Nat :=
  let r := mulRows (limbRow (toLimbs b)) (toLimbs a) (List.replicate ((toLimbs a).length + (toLimbs b).length) 0)
  (r.flatMap (lowDigits 10 9)).take total

/-- The digits of the product of two mantissas, the last one first. -/
def mulDigits (a b : Num) : List Nat :=
  let total := a.digits.length + b.digits.length
  if 40 < total then mulLimbs a b total
  else mulRows (digitRow b.digits.reverse) a.digits.reverse (List.replicate total 0)

def keptScale (a b : Num) (scale : Nat) : Nat := min (max (max a.scale b.scale) scale) (a.scale + b.scale)

/-- The whole product, with no more zeros in front than its scale asks for. -/
def productOf (a b : Num) : Num :=
  let total := a.digits.length + b.digits.length
  let digits := stripZeros (total - min (a.scale + b.scale + 1) total) (mulDigits a b).reverse
  ⟨a.sign != b.sign, digits, a.scale + b.scale⟩

/-- The product cut to the scale that is kept. -/
def keptOf (a b : Num) (scale : Nat) : Num :=
  if isZero a || isZero b then .zero
  else normalize (truncateToScale (productOf a b) (keptScale a b scale))

def mul (a b : Num) (scale : Nat) : Num := fixScale (keptOf a b scale) (keptScale a b scale)

/-! ## Quotients -/

/-- Take the divisor away from the remainder while it fits, for at most so many turns, and count how often it did. -/
def trialDigit (divisor : List Nat) : Nat → Nat → List Nat → Nat × List Nat
  | 0, q, rem => (q, rem)
  | turns + 1, q, rem =>
      if rem.length < divisor.length then (q, rem)
      else if rem.length = divisor.length ∧ lexCmp rem divisor = .eq then (q + 1, [0])
      else if rem.length = divisor.length ∧ lexCmp rem divisor = .lt then (q, rem)
      else
        let less := (subDigits 10 rem.reverse divisor.reverse 0).reverse
        trialDigit divisor turns (q + 1) (stripZeros (less.length - 1) less)

/-- Long division. The divisor fits nine times at most, so a digit takes no more than ten turns. -/
def longDivision (divisor : List Nat) : List Nat → List Nat → List Nat
  | [], _ => []
  | d :: dividend, rem =>
      let (q, rem) := trialDigit divisor 10 0 (stripZeros rem.length (rem ++ [d]))
      q :: longDivision divisor dividend rem

def divInternal (a b : Num) (scale : Nat) : Num :=
  if isZero b then .zero
  else if isZero a then .zero
  else
    let divisor := stripZeros (b.digits.length - 1) b.digits
    let digits := longDivision divisor (a.digits ++ List.replicate (scale + b.scale) 0) []
    normalize (truncateToScale ⟨false, digits, a.scale + scale⟩ scale)

def quotientOf (a b : Num) (scale : Nat) : Num :=
  let r := divInternal a b scale
  { r with sign := if isZero r then false else a.sign != b.sign }

def div (a b : Num) (scale : Nat) : Num := fixScale (quotientOf a b scale) scale

/-! ## Lengths and scales in `int` -/

def intMax : Nat := 2 ^ 31 - 1

/-- What a call answers that makes these sums in `int`: nothing can be said of it if one of them overflows. -/
def within (sums : List Nat) (r : Num) : Option Num := if ∀ s ∈ sums, s ≤ intMax then some r else none

/-- The sum that `bc_pad_scale` makes, with the byte behind the digits. -/
def fixSums (n : Num) (scale : Nat) : List Nat :=
  if scale ≤ n.scale then [] else [n.digits.length + (scale - n.scale) + 1]

/-- The largest sums of `bc_add_unsigned` and `bc_sub_unsigned`, those that are handed to `malloc`. -/
def addUnsignedSums (a b : Num) (scale : Nat) : List Nat := [max a.whole b.whole + max (max a.scale b.scale) scale + 3]

def subUnsignedSums (a b : Num) (scale : Nat) : List Nat := [a.whole + max (max a.scale b.scale) scale + 2]

/-- The sums made where the magnitudes are added or the smaller one is taken away. -/
def columnSums (adds : Bool) (a b : Num) (scale : Nat) : List Nat :=
  if adds then addUnsignedSums a b scale
  else
    match absCmp a b with
    | .lt => subUnsignedSums b a scale
    | _ => subUnsignedSums a b scale

def addSums (a b : Num) (scale : Nat) : List Nat :=
  columnSums (a.sign = b.sign) a b scale ++ fixSums (sumOf a b scale) (max a.scale b.scale)

def bcAdd (a b : Num) (scale : Nat) : Option Num := within (addSums a b scale) (add a b scale)

def subSums (a b : Num) (scale : Nat) : List Nat :=
  columnSums (a.sign ≠ b.sign) a b scale ++ fixSums (differenceOf a b scale) (max a.scale b.scale)

def bcSub (a b : Num) (scale : Nat) : Option Num := within (subSums a b scale) (sub a b scale)

/-- The sums of `bc_to_limbs`, and the first place of the last limb that `bc_mul_limbs` spreads. -/
def limbSums (a b : Num) : List Nat :=
  let limbs := (a.digits.length + 8) / 9 + (b.digits.length + 8) / 9
  [a.digits.length + 8, b.digits.length + 8, 9 * (limbs - 1)]

def mulSums (a b : Num) (scale : Nat) : List Nat :=
  let total := a.digits.length + b.digits.length
  (a.scale + b.scale) ::
    (if isZero a || isZero b then []
      else total :: (if 40 < total then limbSums a b else []) ++ [(productOf a b).digits.length + 2]) ++
    fixSums (keptOf a b scale) (keptScale a b scale)

def bcMul (a b : Num) (scale : Nat) : Option Num := within (mulSums a b scale) (mul a b scale)

def divSums (a b : Num) (scale : Nat) : List Nat :=
  (if isZero b || isZero a then [] else [a.digits.length + (scale + b.scale) + 2]) ++
    fixSums (quotientOf a b scale) scale

def bcDiv (a b : Num) (scale : Nat) : Option Num := within (divSums a b scale) (div a b scale)

/-! ## What the loops compute -/

variable {n a b : Num} {scale : Nat} {divisor rem : List Nat} {x : ℚ}

theorem columns_eq {total : Nat} (room : n.digits.length + (scale - n.scale) ≤ total) :
    columns n scale total = List.replicate (scale - n.scale) 0 ++ (n.digits.reverse ++
      List.replicate (total - (n.digits.length + (scale - n.scale))) 0) := by
  refine ext_getElem? fun place => ?_
  simp only [columns, getElem?_map, getElem?_append, length_replicate, getElem?_replicate,
    getD_eq_getElem?_getD, length_reverse]
  by_cases inside : place < total
  · rw [getElem?_range inside, map_some]
    by_cases early : place < scale - n.scale
    · rw [if_neg (not_le.2 early), if_pos early, if_pos early]
    rw [if_pos (not_lt.1 early), if_neg early]
    by_cases own : place - (scale - n.scale) < n.digits.length
    · rw [if_pos own, getElem?_eq_getElem (by rwa [length_reverse]), getD_some]
    · rw [if_neg own, if_pos (by omega), getElem?_eq_none (by rw [length_reverse]; omega), getD_none]
  · rw [getElem?_eq_none (by simpa using inside), map_none, if_neg (by omega), if_neg (by omega), if_neg (by omega)]

theorem columns_spec (formed : n.Formed) (scale total : Nat) (most : n.scale ≤ scale) (room : n.whole + scale ≤ total) :
    n.magnitude = (Nat.ofDigits 10 (columns n scale total) : ℕ) / 10 ^ scale ∧ ∀ d ∈ columns n scale total, d < 10 := by
  rw [Num.whole] at room
  rw [columns_eq (by omega)]
  refine ⟨magnitude_eq most ?_, fun d member => ?_⟩
  · rw [Nat.ofDigits_append, Nat.ofDigits_replicate_zero, Nat.ofDigits_append_replicate_zero, ← valueOf_eq_ofDigits,
      length_replicate, Num.mantissa]
    ring
  · simp only [mem_append, mem_replicate, mem_reverse] at member
    obtain zero | own | zero := member
    · omega
    · exact formed.small d own
    · omega

theorem addUnsigned_spec (left : a.Formed) (right : b.Formed) (scale : Nat) :
    (addUnsigned a b scale).Shaped ∧ (addUnsigned a b scale).magnitude = a.magnitude + b.magnitude := by
  have inside := left.room
  rw [addUnsigned]
  set places := max (max a.scale b.scale) scale
  set total := max a.whole b.whole + places
  obtain ⟨first, firstSmall⟩ := columns_spec left places total (by omega) (by omega)
  obtain ⟨second, secondSmall⟩ := columns_spec right places total (by omega) (by omega)
  have size : ∀ n : Num, (columns n places total).length = total := fun n => by simp [columns]
  obtain ⟨value, length, small, carried⟩ :=
    addDigits_spec (by decide) ((size a).trans (size b).symm) firstSmall secondSmall (Nat.zero_le 1)
  generalize addDigits 10 (columns a places total) (columns b places total) 0 = sum at value length small carried
  obtain ⟨digits, carry⟩ := sum
  dsimp only at value length small carried ⊢
  rw [size] at value length
  have some : 0 < a.whole := Nat.sub_pos_of_lt inside
  -- The carry is the digit that is put in front.
  have whole : valueOf 10 (if carry = 0 then digits.reverse else 1 :: digits.reverse) =
      Nat.ofDigits 10 (columns a places total) + Nat.ofDigits 10 (columns b places total) := by
    split
    next none =>
      rw [none] at value
      exact (valueOf_reverse 10 digits).trans value
    next one =>
      rw [show carry = 1 by omega] at value
      rw [valueOf_cons, valueOf_reverse, length_reverse, length, ← add_zero (Nat.ofDigits 10 _ + _), ← value]
      ring
  have formed : (⟨false, if carry = 0 then digits.reverse else 1 :: digits.reverse, places⟩ : Num).Formed := by
    refine ⟨fun d member => ?_, ?_⟩
    · dsimp only at member
      split at member
      · exact small d (mem_reverse.1 member)
      obtain rfl | member := mem_cons.1 member
      · decide
      · exact small d (mem_reverse.1 member)
    · dsimp only
      split
      · rw [length_reverse]; omega
      · rw [length_cons, length_reverse]; omega
  obtain ⟨shaped, same, -⟩ := normalize_spec formed
  refine ⟨shaped, same.trans ?_⟩
  rw [first, second, Num.magnitude, Num.mantissa, whole]
  push_cast
  ring

theorem subUnsigned_spec (left : a.Shaped) (right : b.Shaped) (less : b.magnitude ≤ a.magnitude) (scale : Nat) :
    (subUnsigned a b scale).Shaped ∧ (subUnsigned a b scale).magnitude = a.magnitude - b.magnitude := by
  have inside := left.room
  have narrow : b.whole ≤ a.whole := by
    by_contra wide
    exact absurd less (not_le.2 (magnitude_lt_of_whole_lt left right (not_le.1 wide)))
  set places := max (max a.scale b.scale) scale
  set total := a.whole + places
  obtain ⟨first, firstSmall⟩ := columns_spec left.toFormed places total (by omega) le_rfl
  obtain ⟨second, secondSmall⟩ := columns_spec right.toFormed places total (by omega) (by omega)
  have enough : Nat.ofDigits 10 (columns b places total) + 0 ≤ Nat.ofDigits 10 (columns a places total) := by
    rw [first, second, div_le_div_iff_of_pos_right (by positivity)] at less
    exact_mod_cast less
  obtain ⟨value, length, small⟩ := subDigits_spec (by decide) firstSmall secondSmall (Nat.zero_le 1) enough
  have some : 0 < a.whole := Nat.sub_pos_of_lt inside
  have formed : (⟨false, (subDigits 10 (columns a places total) (columns b places total) 0).reverse, places⟩ :
      Num).Formed := by
    refine ⟨fun d member => small d (mem_reverse.1 member), ?_⟩
    rw [length_reverse, length]
    simp [columns]
    omega
  obtain ⟨shaped, same, -⟩ := normalize_spec formed
  refine ⟨shaped, same.trans ?_⟩
  rw [first, second, Num.magnitude, Num.mantissa, valueOf_reverse, ← value]
  push_cast
  ring

theorem limbRow_spec {ys : List Nat} (right : ∀ d ∈ ys, d < 10 ^ 9) (x : Nat) (hx : x < 10 ^ 9) (prod : List Nat)
    (room : ys.length < prod.length) (fine : Unfinished (10 ^ 9) ys.length prod) :
    Nat.ofDigits (10 ^ 9) (limbRow ys x prod) = x * Nat.ofDigits (10 ^ 9) ys + Nat.ofDigits (10 ^ 9) prod ∧
      (limbRow ys x prod).length = prod.length ∧ Unfinished (10 ^ 9) (ys.length + 1) (limbRow ys x prod) := by
  rw [limbRow]
  split
  next zero =>
    refine ⟨by rw [zero, Nat.zero_mul, zero_add], rfl, fine.small, fun d member => fine.clear d ?_⟩
    exact (drop_sublist_drop_left _ (Nat.le_succ _)).subset member
  · exact mulRow_spec _ hx right (by decide) (fun _ => rfl) room fine

theorem unfinished_zeros {base k n : Nat} (positive : 0 < base) : Unfinished base k (List.replicate n 0) :=
  ⟨fun _ member => (eq_of_mem_replicate member).symm ▸ positive,
    fun _ member => eq_of_mem_replicate (mem_of_mem_drop member)⟩

theorem toLimbs_spec (formed : n.Formed) :
    Nat.ofDigits (10 ^ 9) (toLimbs n) = n.mantissa ∧ ∀ d ∈ toLimbs n, d < 10 ^ 9 := by
  refine ⟨?_, grouped_lt (by decide) (reverse_small formed.small)⟩
  rw [toLimbs, ofDigits_grouped (by rw [length_reverse]; omega), Num.mantissa, valueOf_eq_ofDigits]

theorem mantissa_lt (formed : n.Formed) : n.mantissa < 10 ^ n.digits.length := valueOf_lt formed.small

theorem mulLimbs_spec (left : a.Formed) (right : b.Formed) :
    Nat.ofDigits 10 (mulLimbs a b (a.digits.length + b.digits.length)) = a.mantissa * b.mantissa ∧
      (mulLimbs a b (a.digits.length + b.digits.length)).length = a.digits.length + b.digits.length ∧
      ∀ d ∈ mulLimbs a b (a.digits.length + b.digits.length), d < 10 := by
  obtain ⟨first, firstSmall⟩ := toLimbs_spec left
  obtain ⟨second, secondSmall⟩ := toLimbs_spec right
  obtain ⟨value, size, small⟩ := mulRows_spec firstSmall (limbRow_spec secondSmall)
    (length_replicate (n := (toLimbs a).length + (toLimbs b).length) (a := 0)) (unfinished_zeros (by decide))
  rw [first, second, Nat.ofDigits_replicate_zero, add_zero] at value
  rw [mulLimbs]
  generalize mulRows _ _ _ = limbs at value size small
  have spread : ∀ d ∈ limbs.flatMap (lowDigits 10 9), d < 10 := fun d member => by
    obtain ⟨limb, -, member⟩ := mem_flatMap.1 member
    exact lowDigits_lt (by decide) 9 limb d member
  have long : (limbs.flatMap (lowDigits 10 9)).length = limbs.length * 9 := by
    simp [length_lowDigits]
  have counts : ∀ n : Num, (toLimbs n).length = (n.digits.length + 8) / 9 := fun n => by
    rw [toLimbs]
    generalize n.digits.reverse = digits
    induction (n.digits.length + 8) / 9 generalizing digits with
    | zero => rfl
    | succ count ih => exact congrArg Nat.succ (ih _)
  refine ⟨?_, ?_, fun d member => spread d (mem_of_mem_take member)⟩
  · rw [← Nat.ofDigits_mod_pow_eq_ofDigits_take _ (by decide) _ spread, ofDigits_flatMap_lowDigits small, value,
      pow_add]
    exact Nat.mod_eq_of_lt (Nat.mul_lt_mul'' (mantissa_lt left) (mantissa_lt right))
  · rw [length_take, long, size, length_replicate, counts, counts]
    omega

theorem mulDigits_spec (left : a.Formed) (right : b.Formed) :
    valueOf 10 (mulDigits a b).reverse = a.mantissa * b.mantissa ∧
      (mulDigits a b).length = a.digits.length + b.digits.length ∧ ∀ d ∈ mulDigits a b, d < 10 := by
  rw [mulDigits, valueOf_reverse]
  split
  · exact mulLimbs_spec left right
  have room : (replicate (a.digits.length + b.digits.length) 0).length =
      a.digits.reverse.length + b.digits.reverse.length := by simp
  obtain ⟨value, size, small⟩ := mulRows_spec (reverse_small left.small)
    (fun _ small _ room fine => mulRow_spec _ small (reverse_small right.small)
      (show 0 < 10 by decide) zero_add room fine) room
    (unfinished_zeros (by decide))
  rw [Nat.ofDigits_replicate_zero, ← valueOf_eq_ofDigits, ← valueOf_eq_ofDigits] at value
  exact ⟨value, size.trans (length_replicate), small⟩

section
variable (divides : ∀ d ∈ divisor, d < 10) (filled : divisor ≠ []) (leads : divisor.head? ≠ some 0)
  (small : ∀ d ∈ rem, d < 10)
include divides filled leads small

theorem trialDigit_spec {turns q : Nat} (bare : rem.length ≤ 1 ∨ rem.head? ≠ some 0)
    (enough : valueOf 10 rem / valueOf 10 divisor < turns) :
    (trialDigit divisor turns q rem).1 = q + valueOf 10 rem / valueOf 10 divisor ∧
      valueOf 10 (trialDigit divisor turns q rem).2 = valueOf 10 rem % valueOf 10 divisor ∧
      ∀ d ∈ (trialDigit divisor turns q rem).2, d < 10 := by
  have least := le_valueOf filled leads
  have size := length_pos_of_ne_nil filled
  have most := valueOf_lt divides
  have positive : 0 < valueOf 10 divisor := (Nat.pow_pos (by decide)).trans_le least
  induction turns generalizing q rem with
  | zero => cases enough
  | succ turns ih =>
    have stops : valueOf 10 rem < valueOf 10 divisor → q = q + valueOf 10 rem / valueOf 10 divisor ∧
        valueOf 10 rem = valueOf 10 rem % valueOf 10 divisor ∧ ∀ d ∈ rem, d < 10 := fun less => by
      rw [Nat.div_eq_of_lt less, Nat.mod_eq_of_lt less]
      exact ⟨rfl, rfl, small⟩
    rw [trialDigit]
    split
    next short =>
      refine stops ((valueOf_lt small).trans_le (le_trans ?_ least))
      exact Nat.pow_le_pow_right (by decide) (by omega)
    rename_i long
    have order : rem.length = divisor.length → lexCmp rem divisor = compare (valueOf 10 rem) (valueOf 10 divisor) :=
      fun same => lexCmp_eq_compare same small divides
    split
    next even =>
      have same := Nat.compare_eq_eq.1 ((order even.1).symm.trans even.2)
      rw [same, Nat.div_self positive, Nat.mod_self]
      exact ⟨rfl, rfl, show ∀ d ∈ [0], d < 10 by decide⟩
    rename_i uneven
    split
    next below => exact stops (Nat.compare_eq_lt.1 ((order below.1).symm.trans below.2))
    rename_i above
    -- What is left is as long as the divisor and more, or longer.
    have fits : valueOf 10 divisor ≤ valueOf 10 rem := by
      by_cases same : rem.length = divisor.length
      · rw [order same] at uneven above
        by_contra less
        exact above ⟨same, Nat.compare_eq_lt.2 (not_le.1 less)⟩
      · refine most.le.trans (le_trans
          (Nat.pow_le_pow_right (by decide) (by omega : divisor.length ≤ rem.length - 1)) ?_)
        exact le_valueOf (ne_nil_of_length_pos (by omega)) (bare.resolve_left (by omega))
    obtain ⟨value, length, lessSmall⟩ := subDigits_spec (by decide) (reverse_small small)
      (reverse_small divides) (Nat.zero_le 1)
      (by rwa [← valueOf_eq_ofDigits, ← valueOf_eq_ofDigits])
    rw [add_zero, ← valueOf_eq_ofDigits, ← valueOf_eq_ofDigits, ← valueOf_reverse] at value
    replace lessSmall := reverse_small lessSmall
    dsimp only
    generalize (subDigits 10 rem.reverse divisor.reverse 0).reverse = less at value lessSmall
    have quotient := Nat.div_eq_sub_div positive fits
    have remainder := Nat.mod_eq_sub_mod fits
    have taken : valueOf 10 (stripZeros (less.length - 1) less) = valueOf 10 rem - valueOf 10 divisor := by
      rw [valueOf_stripZeros, ← value, Nat.add_sub_cancel]
    obtain ⟨count, rest, below⟩ := ih (q := q + 1) (fun d member => lessSmall d (mem_of_mem_stripZeros member))
      (stripZeros_bare less) (by rw [taken]; omega)
    rw [taken] at count rest
    exact ⟨by omega, rest.trans remainder.symm, below⟩

theorem longDivision_spec {dividend : List Nat} (digits : ∀ d ∈ dividend, d < 10)
    (less : valueOf 10 rem < valueOf 10 divisor) :
    valueOf 10 (longDivision divisor dividend rem) =
        (valueOf 10 rem * 10 ^ dividend.length + valueOf 10 dividend) / valueOf 10 divisor ∧
      (longDivision divisor dividend rem).length = dividend.length ∧
        ∀ d ∈ longDivision divisor dividend rem, d < 10 := by
  have positive := Nat.zero_lt_of_lt less
  induction dividend generalizing rem with
  | nil => simpa [longDivision, valueOf] using (Nat.div_eq_of_lt less).symm
  | cons d dividend ih =>
    obtain ⟨digit, digits⟩ := forall_mem_cons.1 digits
    have down : ∀ e ∈ rem ++ [d], e < 10 := fun e member =>
      (mem_append.1 member).elim (small e) fun last => mem_singleton.1 last ▸ digit
    have bare := stripZeros_bare (rem ++ [d])
    rw [length_append, length_singleton, Nat.add_sub_cancel] at bare
    have total := valueOf_append_singleton 10 d rem
    -- The remainder is less than the divisor, so a digit is less than ten.
    have ten : valueOf 10 (rem ++ [d]) / valueOf 10 divisor < 10 := (Nat.div_lt_iff_lt_mul positive).2 (by omega)
    obtain ⟨quotient, remainder, below⟩ := trialDigit_spec (q := 0) divides filled leads
      (fun e member => down e (mem_of_mem_stripZeros member)) bare (by rwa [valueOf_stripZeros])
    rw [longDivision]
    rw [valueOf_stripZeros, zero_add] at quotient
    rw [valueOf_stripZeros] at remainder
    obtain ⟨value, length, rest⟩ := ih below digits (remainder ▸ Nat.mod_lt _ positive)
    refine ⟨?_, congrArg Nat.succ length, forall_mem_cons.2 ⟨quotient ▸ ten, rest⟩⟩
    rw [valueOf_cons, value, length, remainder, quotient, add_comm, ← Nat.add_mul_div_left _ _ positive, valueOf_cons,
      length_cons]
    congr 1
    have whole := Nat.div_add_mod (valueOf 10 (rem ++ [d])) (valueOf 10 divisor)
    linear_combination (10 ^ dividend.length) * (whole + total)

end

/-! ## The operations -/

/-- What is left of a magnitude with so many digits behind the point. -/
def floorAt (scale : Nat) (x : ℚ) : ℚ := ⌊x * 10 ^ scale⌋₊ / 10 ^ scale

/-- A number cut toward zero, with so many digits behind the point. -/
def cut (scale : Nat) (x : ℚ) : ℚ := signed (x < 0) (floorAt scale |x|)

theorem floorAt_div (N D scale : Nat) : floorAt scale ((N : ℚ) / D) = (N * 10 ^ scale / D : ℕ) / 10 ^ scale := by
  rw [floorAt, ← Nat.floor_div_eq_div (K := ℚ), div_mul_eq_mul_div]
  push_cast
  rfl

theorem cut_signed (nonneg : 0 ≤ x) (scale : Nat) (negative : Bool) :
    cut scale (signed negative x) = signed negative (floorAt scale x) := by
  obtain rfl | positive := nonneg.eq_or_lt
  · simp [cut, signed, floorAt]
  · cases negative
    · simp [cut, signed, abs_of_nonneg nonneg, nonneg]
    · simp [cut, signed, abs_of_nonneg nonneg, positive]

theorem truncateToScale_spec (formed : n.Formed) (scale : Nat) :
    (truncateToScale n scale).Formed ∧ (truncateToScale n scale).magnitude = floorAt scale n.magnitude ∧
      (truncateToScale n scale).sign = n.sign := by
  have room := formed.room
  have floor := floorAt_div n.mantissa (10 ^ n.scale) scale
  push_cast at floor
  rw [← Num.magnitude] at floor
  rw [truncateToScale, floor]
  split
  next most =>
    refine ⟨formed, magnitude_eq most ?_, rfl⟩
    rw [← Nat.sub_add_cancel most, pow_add, ← Nat.mul_assoc, Nat.mul_div_cancel _ (by positivity), Nat.add_sub_cancel]
  rename_i more
  rw [if_neg (by omega)]
  set kept := n.digits.length - (n.scale - scale)
  have size : (n.digits.take kept).length = kept := by rw [length_take]; omega
  refine ⟨⟨fun d member => formed.small d (mem_of_mem_take member), by show scale < _; rw [size]; omega⟩, ?_, rfl⟩
  have low : valueOf 10 (n.digits.drop kept) < 10 ^ (n.scale - scale) := by
    rw [show n.scale - scale = (n.digits.drop kept).length by rw [length_drop]; omega]
    exact valueOf_lt fun d member => formed.small d (mem_of_mem_drop member)
  have split : n.mantissa = valueOf 10 (n.digits.take kept) * 10 ^ (n.scale - scale) + valueOf 10
      (n.digits.drop kept) := by
    rw [Num.mantissa, ← take_append_drop kept n.digits, valueOf_append, take_append_drop, length_drop]
    congr 3
    omega
  have high : n.mantissa * 10 ^ scale / 10 ^ n.scale = valueOf 10 (n.digits.take kept) := by
    rw [show n.scale = n.scale - scale + scale by omega, pow_add, Nat.mul_div_mul_right _ _ (by positivity), split,
      add_comm, Nat.add_mul_div_right _ _ (by positivity), Nat.div_eq_of_lt low, zero_add]
  rw [high]
  rfl

theorem shaped_zero : Num.zero.Shaped := ⟨⟨by decide, by decide⟩, .inl rfl⟩

/-- A product or a quotient: once the digits are right, so are the sign and the number. -/
theorem cut_of_magnitude {r : Num} {negative : Bool} (nonneg : 0 ≤ x) (shaped : r.Shaped)
    (same : r.magnitude = floorAt scale x) (sign : r.sign = (negative && decide (r.magnitude ≠ 0))) :
    r.WellFormed ∧ r.value = cut scale (signed negative x) := by
  refine ⟨⟨shaped, fun none => by rw [sign, magnitude_eq_zero_iff.2 none]; simp⟩, ?_⟩
  rw [cut_signed nonneg, ← same, Num.value, sign]
  by_cases none : r.magnitude = 0
  · simp [none, signed]
  · simp [none]

/-- How a number is cut to a scale that it is then given. -/
theorem cut_spec (formed : n.Formed) (scale : Nat) :
    (fixScale (normalize (truncateToScale n scale)) scale).WellFormed ∧
      (fixScale (normalize (truncateToScale n scale)) scale).value = cut scale n.value := by
  obtain ⟨cutFormed, cutValue, cutSign⟩ := truncateToScale_spec formed scale
  obtain ⟨shaped, same, zero, other⟩ := normalize_spec cutFormed
  obtain ⟨fixed, fixedSame, fixedSign⟩ := fixScale_spec shaped scale
  have all := fixedSame.trans same
  refine cut_of_magnitude (magnitude_nonneg n) fixed (all.trans cutValue) ?_
  rw [fixedSign, all]
  by_cases none : (truncateToScale n scale).mantissa = 0
  · rw [zero none, magnitude_eq_zero_iff.2 none]
    simp
  · rw [other none, cutSign]
    simp [mt magnitude_eq_zero_iff.1 none]

theorem signed_mul (s t : Bool) (x y : ℚ) : signed s x * signed t y = signed (s != t) (x * y) := by
  cases s <;> cases t <;> simp [signed]

theorem signed_div (s t : Bool) (x y : ℚ) : signed s x / signed t y = signed (s != t) (x / y) := by
  cases s <;> cases t <;> simp [signed, neg_div, div_neg]

section
variable (left : a.Formed) (right : b.Formed)
include left right

theorem mul_spec (scale : Nat) :
    (mul a b scale).WellFormed ∧ (mul a b scale).value = cut (keptScale a b scale) (a.value * b.value) := by
  rw [show a.value * b.value = signed (a.sign != b.sign) (a.magnitude * b.magnitude) from signed_mul ..]
  have nonneg := mul_nonneg (magnitude_nonneg a) (magnitude_nonneg b)
  rw [mul, keptOf]
  split
  next zero =>
    obtain ⟨shaped, magnitude, sign⟩ := fixScale_spec shaped_zero (keptScale a b scale)
    have none : a.magnitude * b.magnitude = 0 := by
      rw [Bool.or_eq_true, isZero_iff, isZero_iff, ← magnitude_eq_zero_iff, ← magnitude_eq_zero_iff] at zero
      exact mul_eq_zero.2 zero
    have zero' : Num.zero.magnitude = 0 := magnitude_eq_zero_iff.2 rfl
    refine cut_of_magnitude nonneg shaped ?_ ?_
    · rw [magnitude, zero', none]
      simp [floorAt]
    · rw [sign, magnitude, zero']
      simp [Num.zero]
  obtain ⟨value, length, small⟩ := mulDigits_spec left right
  have roomLeft := left.room
  have roomRight := right.room
  rw [productOf]
  set total := a.digits.length + b.digits.length
  rw [show min (a.scale + b.scale + 1) total = a.scale + b.scale + 1 by omega]
  set digits := stripZeros (total - (a.scale + b.scale + 1)) (mulDigits a b).reverse with made
  have formed : (⟨a.sign != b.sign, digits, a.scale + b.scale⟩ : Num).Formed := by
    refine ⟨fun d member => small d (mem_reverse.1 (mem_of_mem_stripZeros member)), ?_⟩
    obtain ⟨j, most, same, -⟩ := stripZeros_eq (total - (a.scale + b.scale + 1)) (mulDigits a b).reverse
    have size := congrArg List.length same
    rw [length_append, length_replicate, length_reverse, ← made] at size
    show a.scale + b.scale < digits.length
    omega
  have product : (⟨a.sign != b.sign, digits, a.scale + b.scale⟩ : Num).magnitude = a.magnitude * b.magnitude := by
    rw [Num.magnitude, Num.mantissa, valueOf_stripZeros, value, Num.magnitude, Num.magnitude]
    push_cast
    rw [pow_add, mul_div_mul_comm]
  rw [← product]
  exact cut_spec formed _

theorem divInternal_spec (scale : Nat) :
    (divInternal a b scale).Shaped ∧ (divInternal a b scale).magnitude = floorAt scale (a.magnitude / b.magnitude) := by
  have zero : Num.zero.magnitude = 0 := magnitude_eq_zero_iff.2 rfl
  rw [divInternal]
  split
  next none =>
    rw [zero, magnitude_eq_zero_iff.2 (isZero_iff.1 none)]
    exact ⟨shaped_zero, by simp [floorAt]⟩
  rename_i some
  split
  next none =>
    rw [zero, magnitude_eq_zero_iff.2 (isZero_iff.1 none)]
    exact ⟨shaped_zero, by simp [floorAt]⟩
  rw [isZero_iff] at some
  set divisor := stripZeros (b.digits.length - 1) b.digits with bare
  have value : valueOf 10 divisor = b.mantissa := valueOf_stripZeros _ _
  have divides : ∀ d ∈ divisor, d < 10 := fun d member => right.small d (mem_of_mem_stripZeros member)
  have filled : divisor ≠ [] := fun empty => some (value ▸ empty ▸ rfl)
  have leads : divisor.head? ≠ .some 0 := by
    refine (stripZeros_bare b.digits).elim (fun one first => ?_) id
    rw [← bare] at one
    obtain ⟨rest, found⟩ := head?_eq_some_iff.1 first
    rw [found] at one
    obtain rfl := length_eq_zero_iff.1 (Nat.le_zero.1 (Nat.le_of_succ_le_succ one))
    exact some (value ▸ found ▸ rfl)
  obtain ⟨quotient, length, small⟩ := longDivision_spec divides filled leads
    (show ∀ d ∈ ([] : List Nat), d < 10 by simp) (padded_small left.small _) (value ▸ Nat.pos_of_ne_zero some)
  rw [value, valueOf_padded] at quotient
  set result := longDivision divisor (a.digits ++ replicate (scale + b.scale) 0) []
  have room := left.room
  have formed : (⟨false, result, a.scale + scale⟩ : Num).Formed := by
    refine ⟨small, ?_⟩
    show a.scale + scale < result.length
    rw [length, length_append, length_replicate]
    omega
  obtain ⟨cutFormed, cutValue, -⟩ := truncateToScale_spec formed scale
  obtain ⟨shaped, same, -⟩ := normalize_spec cutFormed
  refine ⟨shaped, same.trans (cutValue.trans ?_)⟩
  -- Both are the same quotient of whole numbers, which may be cut in two steps.
  have ratio : a.magnitude / b.magnitude = (a.mantissa * 10 ^ b.scale : ℕ) / (b.mantissa * 10 ^ a.scale : ℕ) := by
    rw [Num.magnitude, Num.magnitude]
    push_cast
    field_simp
  have raw : (⟨false, result, a.scale + scale⟩ : Num).magnitude =
      (valueOf 10 result : ℕ) / (10 ^ (a.scale + scale) : ℕ) := by
    push_cast
    rfl
  rw [ratio, raw, floorAt_div, floorAt_div, pow_add, Nat.mul_div_mul_right _ _ (by positivity), quotient,
    Nat.div_div_eq_div_mul]
  rw [show valueOf 10 [] = 0 from rfl, ← Num.mantissa, zero_mul, zero_add, pow_add, mul_assoc,
    mul_comm (10 ^ scale)]

theorem div_spec (scale : Nat) : (div a b scale).WellFormed ∧
    (div a b scale).value = cut scale (a.value / b.value) := by
  rw [show a.value / b.value = signed (a.sign != b.sign) (a.magnitude / b.magnitude) from signed_div ..]
  obtain ⟨shaped, same⟩ := divInternal_spec left right scale
  rw [div, quotientOf]
  set r := divInternal a b scale
  set sign := if isZero r then false else a.sign != b.sign with given
  obtain ⟨fixed, fixedSame, fixedSign⟩ := fixScale_spec (n := { r with sign := sign })
    ⟨⟨shaped.small, shaped.room⟩, shaped.plain⟩ scale
  refine cut_of_magnitude (div_nonneg (magnitude_nonneg a) (magnitude_nonneg b)) fixed (fixedSame.trans same) ?_
  rw [fixedSign, fixedSame]
  show sign = (_ && decide (r.magnitude ≠ 0))
  simp only [given, ne_eq, magnitude_eq_zero_iff, ← isZero_iff]
  cases isZero r <;> simp

end

theorem add_spec (left : a.WellFormed) (right : b.Shaped) (scale : Nat) :
    (add a b scale).WellFormed ∧ (add a b scale).value = a.value + b.value := by
  have finish : ∀ {r : Num} {negative : Bool}, r.Shaped → (r.magnitude = 0 → negative = false) →
      signed negative r.magnitude = a.value + b.value →
      (fixScale { r with sign := negative } (max a.scale b.scale)).WellFormed ∧
        (fixScale { r with sign := negative } (max a.scale b.scale)).value = a.value + b.value := by
    intro r negative shaped zero value
    obtain ⟨fixed, same, sign⟩ := fixScale_spec (n := { r with sign := negative })
      ⟨⟨shaped.small, shaped.room⟩, shaped.plain⟩
      (max a.scale b.scale)
    refine ⟨⟨fixed, fun none => sign.trans (zero ?_)⟩, ?_⟩
    · exact same.symm.trans (magnitude_eq_zero_iff.2 none)
    · rwa [Num.value, sign, same]
  have order := absCmp_eq left.toShaped right
  have nonnegLeft := magnitude_nonneg a
  have nonnegRight := magnitude_nonneg b
  rw [add, sumOf]
  split
  next same =>
    obtain ⟨shaped, sum⟩ := addUnsigned_spec left.toFormed right.toFormed scale
    refine finish shaped (fun none => ?_) ?_
    · exact left.unsigned (magnitude_eq_zero_iff.1 (by linarith))
    · rw [sum, Num.value, Num.value, ← same]
      cases a.sign <;> simp [signed, add_comm]
  rename_i differ
  have other : b.sign = !a.sign := by
    revert differ
    cases a.sign <;> cases b.sign <;> simp
  split
  next less =>
    have below := compare_lt_iff_lt.1 (order.symm.trans less)
    obtain ⟨shaped, difference⟩ := subUnsigned_spec right left.toShaped below.le scale
    refine finish shaped (fun none => absurd none (by rw [difference]; linarith)) ?_
    rw [difference, Num.value, Num.value, other]
    cases a.sign <;> simp [signed] <;> ring
  rename_i notLess
  have above : b.magnitude ≤ a.magnitude := not_lt.1 fun less => notLess (order.trans (compare_lt_iff_lt.2 less))
  obtain ⟨shaped, difference⟩ := subUnsigned_spec left.toShaped right above scale
  have equal : absCmp a b ≠ .gt → b.magnitude = a.magnitude := fun notMore =>
    above.antisymm (not_lt.1 fun more => notMore (order.trans (compare_gt_iff_gt.2 more)))
  refine finish shaped (fun none => ?_) ?_
  · rw [difference, sub_eq_zero] at none
    rw [order, none, compare_eq_iff_eq.2 rfl]
    rfl
  · rw [difference, Num.value, Num.value, other]
    by_cases more : absCmp a b = .gt
    · rw [more]
      cases a.sign <;> simp [signed] <;> ring
    · rw [equal more]
      cases a.sign <;> simp [signed]

theorem sub_eq_add (a b : Num) (scale : Nat) : sub a b scale = add a { b with sign := !b.sign } scale := by
  rw [sub, differenceOf, add, sumOf]
  cases first : a.sign <;> cases second : b.sign <;> rfl

theorem sub_spec (left : a.WellFormed) (right : b.Shaped) (scale : Nat) :
    (sub a b scale).WellFormed ∧ (sub a b scale).value = a.value - b.value := by
  have negated : ({ b with sign := !b.sign } : Num).value = -b.value := by
    rw [Num.value, Num.value]
    cases b.sign <;> simp [signed, Num.magnitude, Num.mantissa]
  have shaped : ({ b with sign := !b.sign } : Num).Shaped := ⟨⟨right.small, right.room⟩, right.plain⟩
  rw [sub_eq_add, sub_eq_add_neg, ← negated]
  exact add_spec left shaped scale

theorem within_iff {sums : List Nat} {r : Num} {P : Num → Prop} (right : P r) :
    (∃ answer, within sums r = some answer ∧ P answer) ↔ ∀ s ∈ sums, s ≤ intMax := by
  unfold within
  split
  next fits => exact ⟨fun _ => fits, fun _ => ⟨r, rfl, right⟩⟩
  next past => exact ⟨nofun, fun fits => absurd fits past⟩

end BashOs.Bc

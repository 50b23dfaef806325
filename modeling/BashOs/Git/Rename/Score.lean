import Mathlib.Data.List.Sort
import BashOs.Git.Store.Links

/-!
How alike two blobs are. Each is cut into chunks, which are sorted by their hashes; what both have of a hash is copied.
Two empty blobs have nothing in common, and the score of contents is theirs only as far as its product fits in 64 bits.
-/

namespace BashOs.Git.Rename
open BashOs.Lib List

structure Chunk where
  hash : UInt64
  length : Nat

def chunkHash (bytes : Bytes) : UInt64 :=
  bytes.foldl (fun hash b => (hash ^^^ b.toUInt64) * 1099511628211) 1469598103934665603

/-- The chunks of a text, behind the bytes that the first one has already. -/
def chunksFrom (run : Bytes) : Bytes → List Chunk
  | [] => []
  | b :: rest =>
    if b ≠ 0x0a ∧ run.length + 1 < 64 ∧ rest ≠ [] then chunksFrom (run ++ [b]) rest
    else ⟨chunkHash (run ++ [b]), run.length + 1⟩ :: chunksFrom [] rest

def chunkFile (data : Bytes) : List Chunk := (chunksFrom [] data).insertionSort fun a b => a.hash ≤ b.hash

def total (chunks : List Chunk) : Nat := (chunks.map Chunk.length).sum

/-- `bgit_copied`: of each hash as many bytes as the thinner side has. -/
def copied : List Chunk → List Chunk → Nat
  | [], _ => 0
  | _ :: _, [] => 0
  | s :: src, d :: dst =>
    if s.hash < d.hash then copied src (d :: dst)
    else if d.hash < s.hash then copied (s :: src) dst
    else
      min (s.length + total (src.takeWhile (·.hash = s.hash))) (d.length + total (dst.takeWhile (·.hash = s.hash))) +
        copied (src.dropWhile (·.hash = s.hash)) (dst.dropWhile (·.hash = s.hash))
termination_by src dst => src.length + dst.length
decreasing_by
  · simp
  · simp
  · have left := (dropWhile_sublist (fun c : Chunk => decide (c.hash = s.hash)) (l := src)).length_le
    have right := (dropWhile_sublist (fun c : Chunk => decide (c.hash = s.hash)) (l := dst)).length_le
    simp only [length_cons]
    omega

/-- The score of two contents, in `unsigned long` as far as it can overflow. -/
def contentScore (old new : Bytes) : Nat :=
  let largest := max old.length new.length
  let delta := largest - min old.length new.length
  if largest ≠ 0 ∧ delta * 60000 % 2 ^ 64 ≤ largest * (60000 - 30000) % 2 ^ 64 then
    copied (chunkFile old) (chunkFile new) * 60000 % 2 ^ 64 / largest
  else 0

def scoreSides (oldSha newSha old new : Bytes) : Nat :=
  if oldSha ≠ [] ∧ newSha ≠ [] ∧ oldSha = newSha then 60000 else contentScore old new

section
variable {src dst : List Chunk}

theorem total_split (p : Chunk → Bool) (chunks : List Chunk) :
    total (chunks.takeWhile p) + total (chunks.dropWhile p) = total chunks := by
  rw [total, total, ← sum_append, ← map_append, takeWhile_append_dropWhile, total]

theorem copied_comm : copied src dst = copied dst src := by
  fun_induction copied src dst with
  | case1 dst => cases dst <;> rw [copied]
  | case2 => rw [copied]
  | case3 s src d dst less ih => rw [ih, copied.eq_3, if_neg (UInt64.lt_asymm less), if_pos less]
  | case4 s src d dst low less ih => rw [ih, copied.eq_3, if_pos less]
  | case5 s src d dst low high ih =>
    have same : s.hash = d.hash := UInt64.le_antisymm (UInt64.not_lt.1 high) (UInt64.not_lt.1 low)
    rw [ih, copied.eq_3 d, if_neg high, if_neg low, same, Nat.min_comm]

theorem copied_le : copied src dst ≤ total src := by
  fun_induction copied src dst with
  | case1 => exact Nat.zero_le _
  | case2 => exact Nat.zero_le _
  | case3 s src d dst less ih => exact le_trans ih (Nat.le_add_left _ _)
  | case4 s src d dst low less ih => exact ih
  | case5 s src d dst low high ih =>
    have split := total_split (·.hash = s.hash) src
    have whole : total (s :: src) = s.length + total src := rfl
    omega

theorem copied_self (chunks : List Chunk) : copied chunks chunks = total chunks := by
  induction long : chunks.length using Nat.strong_induction_on generalizing chunks with
  | _ n ih =>
    cases chunks with
    | nil => rw [copied]; rfl
    | cons c rest =>
      have split := total_split (·.hash = c.hash) rest
      have whole : total (c :: rest) = c.length + total rest := rfl
      have less := (dropWhile_sublist (fun d : Chunk => decide (d.hash = c.hash)) (l := rest)).length_le
      rw [copied, if_neg (UInt64.lt_irrefl _), if_neg (UInt64.lt_irrefl _), Nat.min_self,
        ih _ (by simp at long; omega) _ rfl]
      omega

theorem total_chunksFrom (run data : Bytes) (some : data ≠ []) :
    total (chunksFrom run data) = run.length + data.length := by
  induction data generalizing run with
  | nil => exact absurd rfl some
  | cons b rest ih =>
    rw [chunksFrom]
    split
    next more =>
      rw [ih _ more.2.2]
      simp
      omega
    · have last : total (chunksFrom [] rest) = rest.length := by
        by_cases none : rest = []
        · rw [none]; rfl
        · rw [ih [] none, length_nil, zero_add]
      show run.length + 1 + total (chunksFrom [] rest) = run.length + (rest.length + 1)
      omega

theorem total_chunkFile (data : Bytes) : total (chunkFile data) = data.length := by
  have same : total (chunkFile data) = total (chunksFrom [] data) := ((perm_insertionSort _ _).map _).sum_nat
  rw [same]
  by_cases none : data = []
  · rw [none]; rfl
  · rw [total_chunksFrom _ _ none, length_nil, zero_add]

end

theorem contentScore_comm (old new : Bytes) : contentScore new old = contentScore old new := by
  simp only [contentScore, Nat.max_comm old.length, Nat.min_comm old.length, copied_comm]

theorem contentScore_le (old new : Bytes) : contentScore old new ≤ 60000 := by
  unfold contentScore
  dsimp only
  split
  next large =>
    have bound : copied (chunkFile old) (chunkFile new) ≤ max old.length new.length :=
      le_trans copied_le (by rw [total_chunkFile]; exact le_max_left _ _)
    apply Nat.div_le_of_le_mul
    exact le_trans (Nat.mod_le _ _) (Nat.mul_le_mul_right _ bound)
  · exact Nat.zero_le _

theorem contentScore_self_iff (data : Bytes) :
    contentScore data data = 60000 ↔ data ≠ [] ∧ data.length * 60000 < 2 ^ 64 := by
  by_cases none : data = []
  · simp [contentScore, none]
  have positive := length_pos_of_ne_nil none
  rw [contentScore, Nat.max_self, Nat.min_self, Nat.sub_self, copied_self, total_chunkFile, if_pos (by simp; omega)]
  refine ⟨fun full => ⟨none, ?_⟩, fun fits => ?_⟩
  · -- What is left of a product that overflows is less than the product, and so is the quotient.
    by_contra large
    have least : data.length * 60000 ≤ data.length * 60000 % 2 ^ 64 := by
      rw [mul_comm data.length 60000]
      exact (Nat.le_div_iff_mul_le positive).1 (mul_comm data.length 60000 ▸ full.ge)
    have := Nat.mod_lt (data.length * 60000) (show 0 < 2 ^ 64 by decide)
    omega
  · rw [Nat.mod_eq_of_lt fits.2, Nat.mul_div_cancel_left _ positive]

/-- The score of two contents is at most 60000 and the same the other way round, with the shortcut for equal ids or
without. Of equal contents it is 60000 just if there is a byte and the product does not overflow. -/
theorem similarity_score (id : Bytes → ObjectId) (old new : Bytes) :
    (scoreSides (id old).hex (id new).hex old new ≤ 60000 ∧
      scoreSides (id new).hex (id old).hex new old = scoreSides (id old).hex (id new).hex old new) ∧
      contentScore old new ≤ 60000 ∧ contentScore new old = contentScore old new ∧
      (contentScore old old = 60000 ↔ old ≠ [] ∧ old.length * 60000 < 2 ^ 64) := by
  refine ⟨⟨?_, ?_⟩, contentScore_le old new, contentScore_comm old new, contentScore_self_iff old⟩
  · unfold scoreSides
    split
    · exact Nat.le_refl _
    · exact contentScore_le old new
  · simp only [scoreSides, contentScore_comm, eq_comm, and_left_comm]

theorem empty_contents_score : contentScore [] [] = 0 := rfl

end BashOs.Git.Rename

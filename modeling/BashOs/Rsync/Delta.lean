import BashOs.Lib.Bytes
import BashOs.Lib.Positional

/-!
The delta transfer of `rsync`: the signature of the old file, the delta of a new file against it, and the patch that
puts the new file together. MD5 is a parameter. The weak checksum only says where to look: a block is copied when
the digests agree.
-/

namespace BashOs.Rsync

open BashOs.Lib List

abbrev Digest := { bytes : Bytes // bytes.length = 16 }

/-! ## Numbers -/

/-- `br_put_u32` and `br_put_u64`: so many bytes of a number, the lowest first. -/
def putLe (size n : Nat) : Bytes := (lowDigits 256 size n).map UInt8.ofNat

def getLe (bytes : Bytes) : Nat := Nat.ofDigits 256 (bytes.map UInt8.toNat)

@[simp] theorem length_putLe (size n : Nat) : (putLe size n).length = size := by
  rw [putLe, length_map, length_lowDigits]

theorem getLe_putLe {size n : Nat} (fits : n < 256 ^ size) : getLe (putLe size n) = n := by
  have back : ∀ d ∈ lowDigits 256 size n, (UInt8.toNat ∘ UInt8.ofNat) d = id d := fun d member =>
    byte_ofNat_toNat (lowDigits_lt (by decide) size n d member)
  rw [getLe, putLe, map_map, map_congr_left back, map_id, ofDigits_lowDigits fits]

/-! ## Checksums and block sizes -/

def weak (block : Bytes) : Nat :=
  let sums := block.zipIdx.foldl (fun (a, b) (byte, i) => (a + byte.toNat, b + (block.length - i) * byte.toNat)) (0, 0)
  sums.1 % 2 ^ 16 + sums.2 % 2 ^ 16 * 2 ^ 16

def roll (sum : Nat) (out into : UInt8) (size : Nat) : Nat :=
  let a := ((sum % 2 ^ 16 : Int) - out.toNat + into.toNat) % 2 ^ 16
  let b := ((sum / 2 ^ 16 % 2 ^ 16 : Int) - size * out.toNat + a) % 2 ^ 16
  (a + b * 2 ^ 16).toNat

def isqrtLoop (n : Nat) : Nat → Nat → Nat → Nat
  | 0, x, _ => x
  | turns + 1, x, y => if y < x then isqrtLoop n turns y ((y + n / y) / 2) else x

def isqrt (n : Nat) : Nat := if n = 0 then 0 else isqrtLoop n n n ((n + 1) / 2)

def blocksize (oldsize : Nat) (override : Int) : Nat :=
  if 0 < override then override.toNat else min (max ((isqrt oldsize + 7) / 8 * 8) 512) 65536

/-! ## Signatures -/

def blocksOf (data : Bytes) (size count : Nat) : List Bytes :=
  (List.range count).map fun i => (data.drop (i * size)).take size

structure Sig where
  blocksize : Nat
  blocks : List (Nat × Bytes)

section
variable (md5 : Bytes → Digest)

def sigEntry (block : Bytes) : Bytes := putLe 4 (weak block) ++ (md5 block).1

/-- The block size that `br_server_sig` uses, a `uint32_t`. -/
def sigSize (old : Option Bytes) (override : Int) : Nat := blocksize ((old.map List.length).getD 0) override % 2 ^ 32

def sigBlocks (old : Option Bytes) (override : Int) : List Bytes :=
  match old with
  | none => []
  | some data => blocksOf data (sigSize old override) (data.length / sigSize old override % 2 ^ 32)

/-- `br_server_sig`. With a file that can be read, a block size of zero is a division by zero. -/
def serverSig (old : Option Bytes) (override : Int) : Option Bytes :=
  if old.isSome ∧ sigSize old override = 0 then none
  else some (ascii "bRS1" ++ putLe 4 (sigSize old override) ++ putLe 8 ((old.map List.length).getD 0) ++
    putLe 4 (sigBlocks old override).length ++ (sigBlocks old override).flatMap (sigEntry md5))

def parseBlocks : Nat → Bytes → List (Nat × Bytes)
  | 0, _ => []
  | count + 1, bytes => (getLe (bytes.take 4), (bytes.drop 4).take 16) :: parseBlocks count (bytes.drop 20)

def parseSig (bytes : Bytes) : Option Sig :=
  let size := getLe ((bytes.drop 4).take 4)
  let count := getLe ((bytes.drop 16).take 4)
  if bytes.length < 20 ∨ bytes.take 4 ≠ ascii "bRS1" then none
  else if size = 0 then none
  else if (bytes.drop 20).length < count * 20 then none
  else some ⟨size, parseBlocks count (bytes.drop 20)⟩

/-! ## Deltas -/

/-- `qsort` of the weak checksums with their block numbers. -/
def weakTable (sig : Sig) : List (Nat × Nat) :=
  (sig.blocks.zipIdx.map fun (block, i) => (block.1, i)).insertionSort fun a b => a.1 ≤ b.1

/-- The binary search of `br_match`. Its middle is a sum of two `uint32_t`; nothing if it takes more turns than are
given. -/
def searchWeak (table : List (Nat × Nat)) (w : Nat) : Nat → Nat → Nat → Option Nat
  | 0, _, _ => none
  | turns + 1, lo, hi =>
      if lo < hi then
        let m := (lo + hi) % 2 ^ 32 / 2
        if ((table[m]?).map Prod.fst).getD 0 < w then searchWeak table w turns
          (m + 1) hi else searchWeak table w turns lo m
      else some lo

/-- `br_match`, if its search ends: the number of a block with this weak checksum and the digest of the window. -/
def matchBlock (sig : Sig) (w : Nat) (window : Bytes) : Option (Option Nat) :=
  let table := weakTable sig
  (searchWeak table w (table.length + 1) 0 table.length).map fun lo =>
    (((table.drop lo).takeWhile fun entry => entry.1 = w).find? fun entry =>
      (sig.blocks[entry.2]?).map Prod.snd = some (md5 window).1).map Prod.snd

variable (new : Bytes)

def span (first last : Nat) : Bytes := (new.drop first).take (last - first)

def literal (first last : Nat) : Bytes :=
  if first < last then 0x4c :: putLe 4 (last - first) ++ span new first last else []

/-- The loop of `br_compute_delta` from a place on: what it writes, and where the bytes start that are not written
yet. -/
def deltaLoop (sig : Sig) : Nat → Nat → Nat → Nat → Option (Bytes × Nat)
  | 0, _, _, _ => none
  | turns + 1, i, lit, w =>
      (matchBlock md5 sig w (span new i (i + sig.blocksize))).bind fun
        | some block =>
            let written := literal new lit i ++ 0x43 :: putLe 4 block
            let next := i + sig.blocksize
            if next + sig.blocksize ≤ new.length then
              (deltaLoop sig turns next next (weak (span new next (next + sig.blocksize)))).map fun (rest, lit) =>
                (written ++ rest, lit)
            else some (written, next)
        | none =>
            if i + sig.blocksize < new.length then
              deltaLoop sig turns (i + 1) lit (roll w (new.getD i 0) (new.getD (i + sig.blocksize) 0) sig.blocksize)
            else some ([], lit)

def computeDelta (sig : Sig) : Option Bytes :=
  (if sig.blocks ≠ [] ∧ sig.blocksize ≠ 0 ∧ sig.blocksize ≤ new.length then
    deltaLoop md5 new sig (new.length + 1) 0 0 (weak (new.take sig.blocksize))
  else some ([], 0)).map fun (written, lit) =>
    ascii "bRD1" ++ putLe 4 sig.blocksize ++ putLe 8 new.length ++ written ++ literal new lit new.length ++
      0x45 :: (md5 new).1

/-! ## Patches -/

/-- The loop of `br_server_patch`: the new file so far, and what follows the end mark. -/
def patchLoop (old : Option Bytes) (size : Nat) : Bytes → Option (Bytes × Bytes)
  | [] => some ([], [])
  | tag :: rest =>
      if tag = 0x45 then some ([], rest)
      else if rest.length < 4 then none
      else if tag = 0x43 then
        old.bind fun data =>
          let off := getLe (rest.take 4) * size
          if data.length ≤ off then none
          else (patchLoop old size (rest.drop 4)).map fun (text, last) => ((data.drop off).take size ++ text, last)
      else if tag = 0x4c then
        let n := getLe (rest.take 4)
        if (rest.drop 4).length < n then none
        else (patchLoop old size ((rest.drop 4).drop n)).map fun (text, last) => ((rest.drop 4).take n ++ text, last)
      else none
termination_by bytes => bytes.length
decreasing_by all_goals simp only [length_cons, length_drop]; omega

/-- `br_server_patch` up to the write: the file it writes. -/
def serverPatch (old : Option Bytes) (delta : Bytes) : Option Bytes :=
  if delta.length < 33 ∨ delta.take 4 ≠ ascii "bRD1" then none
  else
    (patchLoop old (getLe ((delta.drop 4).take 4)) (delta.drop 16)).bind fun (text, last) =>
      if text.length = getLe ((delta.drop 8).take 8) ∧ 16 ≤ last.length ∧ (md5 text).1 = last.take 16 then some
        text else none

/-- Signature, delta and patch, one after the other. -/
def transfer (old : Option Bytes) (override : Int) : Option Bytes :=
  (serverSig md5 old override).bind fun bytes => (parseSig bytes).bind fun sig =>
    (computeDelta md5 new sig).bind (serverPatch md5 old)

end

/-! ## The signature is read as it was written -/

section
variable {md5 : Bytes → Digest}

theorem length_sigEntry (block : Bytes) : (sigEntry md5 block).length = 20 := by
  rw [sigEntry, length_append, length_putLe, (md5 block).2]

theorem weak_lt (block : Bytes) : weak block < 256 ^ 4 := by
  rw [weak]
  omega

theorem parseBlocks_entries (blocks : List Bytes) :
    parseBlocks blocks.length (blocks.flatMap (sigEntry md5)) = blocks.map fun block =>
      (weak block, (md5 block).1) := by
  induction blocks with
  | nil => rfl
  | cons block blocks ih =>
    have cut : (sigEntry md5 block ++ blocks.flatMap (sigEntry md5)).drop 20 = blocks.flatMap (sigEntry md5) :=
      drop_left' (length_sigEntry block)
    rw [flatMap_cons, length_cons, parseBlocks, cut, ih, map_cons, sigEntry, append_assoc,
      take_left' (length_putLe 4 _), drop_left' (length_putLe 4 _), take_left' (md5 block).2,
      getLe_putLe (weak_lt block)]

theorem sigSize_lt (old : Option Bytes) (override : Int) : sigSize old override < 256 ^ 4 := Nat.mod_lt _ (by decide)

theorem length_sigBlocks_lt (old : Option Bytes) (override : Int) : (sigBlocks old override).length < 256 ^ 4 := by
  cases old with
  | none => exact Nat.pow_pos (by decide)
  | some data =>
    rw [sigBlocks, blocksOf, length_map, length_range]
    exact Nat.mod_lt _ (by decide)

/-- The signature of a file, as it is read. -/
def sigOf (md5 : Bytes → Digest) (old : Option Bytes) (override : Int) : Sig :=
  ⟨sigSize old override, (sigBlocks old override).map fun block => (weak block, (md5 block).1)⟩

theorem parseSig_serverSig {old : Option Bytes} {override : Int} {bytes : Bytes}
    (made : serverSig md5 old override = some bytes) :
    parseSig bytes = if sigSize old override = 0 then none else some (sigOf md5 old override) := by
  rw [serverSig] at made
  split at made
  · cases made
  obtain rfl := Option.some.inj made
  have magic : (ascii "bRS1").length = 4 := by decide +kernel
  simp only [append_assoc]
  set entries := (sigBlocks old override).flatMap (sigEntry md5) with listed
  set count := putLe 4 (sigBlocks old override).length with counted
  set size := putLe 4 (sigSize old override) with sized
  set length := putLe 8 ((old.map length).getD 0)
  have four : ∀ rest : Bytes, (ascii "bRS1" ++ (size ++ (length ++ (count ++ rest)))).drop 16 = count ++ rest :=
      fun rest => by
    rw [← append_assoc, ← append_assoc, drop_left' (by simp [magic, sized, length])]
  have all : (ascii "bRS1" ++ (size ++ (length ++ (count ++ entries)))).drop 20 = entries := by
    rw [show 20 = 16 + 4 from rfl, ← drop_drop, four, drop_left' (length_putLe 4 _)]
  have long : entries.length = (sigBlocks old override).length * 20 := by
    simp [listed, length_sigEntry]
  rw [parseSig, four, all, drop_left' magic, take_left' (length_putLe 4 _),
    take_left' (length_putLe 4 _), getLe_putLe (sigSize_lt _ _), getLe_putLe (length_sigBlocks_lt _ _),
    long, if_neg (lt_irrefl _), parseBlocks_entries]
  rfl

end

/-! ## Searches end -/

theorem searchWeak_isSome {table : List (Nat × Nat)} {w turns lo hi : Nat} (few : hi ≤ 2 ^ 31)
    (enough : hi - lo < turns) :
    ∃ found, searchWeak table w turns lo hi = some found := by
  induction turns generalizing lo hi with
  | zero => omega
  | succ turns ih =>
    rw [searchWeak]
    split
    next more =>
      -- So small, the sum of the two ends is no less than it should be.
      rw [Nat.mod_eq_of_lt (show lo + hi < 2 ^ 32 by omega)]
      dsimp only
      split
      · exact ih few (by omega)
      · exact ih (by omega) (by omega)
    · exact ⟨lo, rfl⟩

theorem length_weakTable (sig : Sig) : (weakTable sig).length = sig.blocks.length := by simp [weakTable]

theorem matchBlock_cases (md5 : Bytes → Digest) (sig : Sig) (w : Nat) (window : Bytes)
    (few : sig.blocks.length ≤ 2 ^ 31) :
    matchBlock md5 sig w window = some none ∨ ∃ block, matchBlock md5 sig w window = some (some block) ∧
        (sig.blocks[block]?).map Prod.snd = some (md5 window).1 := by
  obtain ⟨lo, ended⟩ : ∃ lo, searchWeak (weakTable sig) w ((weakTable sig).length + 1) 0
      (weakTable sig).length = some lo :=
    searchWeak_isSome (by rwa [length_weakTable]) (Nat.lt_succ_self _)
  rw [matchBlock, ended, Option.map_some]
  cases found : ((weakTable sig).drop lo |>.takeWhile fun entry => entry.1 = w).find? fun entry =>
      (sig.blocks[entry.2]?).map Prod.snd = some (md5 window).1 with
  | none => exact .inl rfl
  | some entry => exact .inr ⟨entry.2, rfl, by simpa using find?_some found⟩

/-! ## What the patch makes of the delta -/

/-- Bytes of a delta that stand for a piece of the new file. -/
def Patches (old : Option Bytes) (size : Nat) (written text : Bytes) : Prop :=
  ∀ rest, patchLoop old size (written ++ rest) = (patchLoop old size rest).map fun (next, last) => (text ++ next, last)

section
variable {old : Option Bytes} {size : Nat} {new first second : Bytes} {i j k : Nat} {md5 : Bytes → Digest}
  {override : Int}

theorem Patches.nil : Patches old size [] [] := fun rest => by
  rw [nil_append]
  cases patchLoop old size rest <;> rfl

theorem Patches.append {more text : Bytes} (left : Patches old size first text) (right : Patches old size second more) :
    Patches old size (first ++ second) (text ++ more) := fun rest => by
  rw [append_assoc, left, right, Option.map_map]
  simp [Function.comp_def]

theorem length_span (le : j ≤ new.length) : (span new i j).length = j - i := by
  rw [span, length_take, length_drop]
  omega

theorem span_append (ij : i ≤ j) (jk : j ≤ k) : span new i j ++ span new j k = span new i k := by
  rw [span, span, span, show k - i = j - i + (k - j) by omega, take_add, drop_drop, show i + (j - i) = j by omega]

theorem patches_literal (short : new.length < 2 ^ 32) (le : j ≤ new.length) :
    Patches old size (literal new i j) (span new i j) := by
  rw [literal]
  split
  next less =>
    intro rest
    have size4 : (putLe 4 (j - i)).length = 4 := length_putLe 4 _
    have back : getLe (putLe 4 (j - i)) = j - i := getLe_putLe (by omega)
    have text : (span new i j).length = j - i := length_span le
    rw [cons_append, cons_append, append_assoc, patchLoop, if_neg (by decide), if_neg (by simp),
      if_neg (by decide), if_pos rfl,
      take_left' size4, drop_left' size4, back]
    rw [if_neg (by simp [text]), take_left' text, drop_left' text]
  rw [span, show j - i = 0 by omega]
  exact Patches.nil

theorem patches_copy {data : Bytes} {block : Nat} (small : block < 2 ^ 32) (inside : block * size < data.length) :
    Patches (some data) size (0x43 :: putLe 4 block) ((data.drop (block * size)).take size) := by
  intro rest
  rw [cons_append, patchLoop, if_neg (by decide), if_neg (by simp), if_pos rfl, take_left' (length_putLe 4 _),
    drop_left' (length_putLe 4 _), getLe_putLe small]
  dsimp only [Option.bind_some]
  rw [if_neg (not_le.2 inside)]

/-- A block that the signature numbers is copied from the old file. -/
theorem patches_block {block : Nat} {text : Bytes} (positive : sigSize old override ≠ 0)
    (listed : (sigBlocks old override)[block]? = some text) :
    Patches old (sigSize old override) (0x43 :: putLe 4 block) text := by
  cases old with
  | none => cases listed
  | some data =>
    rw [sigBlocks, blocksOf, List.getElem?_map] at listed
    obtain ⟨i, place, rfl⟩ := Option.map_eq_some_iff.1 listed
    obtain ⟨inside, rfl⟩ := List.getElem?_eq_some_iff.1 place
    rw [length_range] at inside
    rw [getElem_range]
    have bound := Nat.lt_of_lt_of_le inside (Nat.mod_le _ _)
    refine patches_copy (inside.trans (Nat.mod_lt _ (by decide))) ?_
    exact (Nat.mul_lt_mul_of_pos_right bound (Nat.pos_of_ne_zero positive)).trans_le (Nat.div_mul_le_self _ _)

/-- MD5 tells a block of the old file from a window of the new one. -/
def CollisionFree (md5 : Bytes → Digest) (old : Option Bytes) (override : Int) (new : Bytes) : Prop :=
  ∀ i < new.length + 1 - sigSize old override, ∀ block ∈ sigBlocks old override,
    md5 block = md5 (span new i (i + sigSize old override)) → block = span new i (i + sigSize old override)

theorem deltaLoop_spec {turns i lit w : Nat} (short : new.length < 2 ^ 32)
    (few : (sigBlocks old override).length ≤ 2 ^ 31) (positive : sigSize old override ≠ 0)
    (distinct : CollisionFree md5 old override new) (before : lit ≤ i) (room : i + sigSize old override ≤ new.length)
    (enough : new.length - i < turns) :
    ∃ written next, deltaLoop md5 new (sigOf md5 old override) turns i lit w = some (written, next) ∧
      lit ≤ next ∧ next ≤ new.length ∧ Patches old (sigSize old override) written (span new lit next) := by
  have blocksize : (sigOf md5 old override).blocksize = sigSize old override := rfl
  induction turns generalizing i lit w with
  | zero => omega
  | succ turns ih =>
    rw [deltaLoop, blocksize]
    obtain nothing | ⟨block, found, same⟩ := matchBlock_cases md5 (sigOf md5 old override) w
      (span new i (i + sigSize old override)) (by rwa [sigOf, length_map])
    · rw [nothing, Option.bind_some]
      dsimp only
      split
      · exact ih (by omega) (by omega) (by omega)
      · exact ⟨[], lit, rfl, le_rfl, by omega, by rw [span, Nat.sub_self]; exact Patches.nil⟩
    rw [found]
    dsimp only at same ⊢
    rw [sigOf, List.getElem?_map, Option.map_map] at same
    obtain ⟨text, listed, digest⟩ := Option.map_eq_some_iff.1 same
    obtain rfl := distinct i (by omega) text (mem_of_getElem? listed) (Subtype.ext digest)
    have written := (patches_literal (i := lit) short (by omega : i ≤ new.length)).append
      (patches_block positive listed)
    rw [span_append before (Nat.le_add_right _ _)] at written
    split
    next more =>
      obtain ⟨rest, next, run, after, inside, patches⟩ := ih (w := weak (span new (i + sigSize old override)
        (i + sigSize old override + sigSize old override))) (le_refl (i + sigSize old override)) more (by omega)
      rw [run]
      refine ⟨_, next, rfl, by omega, inside, ?_⟩
      rw [← span_append (by omega : lit ≤ i + sigSize old override) after]
      exact written.append patches
    · exact ⟨_, _, rfl, by omega, room, written⟩

theorem span_all (new : Bytes) : span new 0 new.length = new := by rw [span, drop_zero, Nat.sub_zero, take_length]

theorem delta_patches (short : new.length < 2 ^ 32)
    (few : sigSize old override ≤ new.length → (sigBlocks old override).length ≤ 2 ^ 31)
    (positive : sigSize old override ≠ 0) (distinct : CollisionFree md5 old override new) :
    ∃ delta, computeDelta md5 new (sigOf md5 old override) = some delta ∧ serverPatch md5 old delta = some new := by
  rw [computeDelta]
  set sig := sigOf md5 old override
  obtain ⟨written, lit, run, inside, patches⟩ : ∃ written lit,
      (if sig.blocks ≠ [] ∧ sig.blocksize ≠ 0 ∧ sig.blocksize ≤ new.length then
        deltaLoop md5 new sig (new.length + 1) 0 0 (weak (new.take sig.blocksize))
      else some ([], 0)) = some (written, lit) ∧ lit ≤ new.length ∧
      Patches old (sigSize old override) written (span new 0 lit) := by
    split
    next searched =>
      obtain ⟨written, lit, run, -, inside, patches⟩ := deltaLoop_spec short (few searched.2.2) positive distinct
        (le_refl 0)
        ((zero_add _).trans_le searched.2.2) (Nat.lt_succ_self _)
      exact ⟨written, lit, run, inside, patches⟩
    · exact ⟨[], 0, rfl, Nat.zero_le _, Patches.nil⟩
  have whole := patches.append (patches_literal (i := lit) short le_rfl)
  rw [span_append (Nat.zero_le _) inside, span_all] at whole
  rw [run]
  refine ⟨_, rfl, ?_⟩
  have magic : (ascii "bRD1").length = 4 := by decide +kernel
  have last : patchLoop old (sigSize old override) (0x45 :: (md5 new).1) = some ([], (md5 new).1) := by
    rw [patchLoop, if_pos rfl]
  simp only [show sig.blocksize = sigSize old override from rfl, append_assoc]
  rw [← append_assoc written]
  set commands := (written ++ literal new lit new.length) ++ 0x45 :: (md5 new).1 with body
  have eight : (ascii "bRD1" ++ (putLe 4 (sigSize old override) ++ (putLe 8 new.length ++ commands))).drop 8 =
      putLe 8 new.length ++ commands := by
    rw [← append_assoc, drop_left' (by simp [magic])]
  have sixteen : (ascii "bRD1" ++ (putLe 4 (sigSize old override) ++ (putLe 8 new.length ++ commands))).drop
      16 = commands := by
    rw [show 16 = 8 + 8 from rfl, ← drop_drop, eight, drop_left' (length_putLe 8 _)]
  have digest := (md5 new).2
  rw [serverPatch, if_neg, eight, sixteen, drop_left' magic, take_left' (length_putLe 4 _),
    take_left' (length_putLe 8 _), getLe_putLe (sigSize_lt _ _), getLe_putLe (by omega), whole, last]
  · simp [digest]
  · rw [take_left' magic]
    simp [body]
    omega

/-- The new file arrives, whatever the old one was, unless the block size is a multiple of 2^32. -/
theorem transfer_new_iff (old : Option Bytes) (override : Int) (new : Bytes) (short : new.length < 2 ^ 32)
    (few : sigSize old override ≤ new.length → (sigBlocks old override).length ≤ 2 ^ 31)
    (distinct : CollisionFree md5 old override new) :
    transfer md5 new old override = some new ↔ sigSize old override ≠ 0 := by
  rw [transfer]
  cases made : serverSig md5 old override with
  | none =>
    rw [serverSig] at made
    split at made
    next zero => simp [zero.2]
    · cases made
  | some bytes =>
    rw [Option.bind_some, parseSig_serverSig made]
    split
    next zero => simp [zero]
    rename_i positive
    refine ⟨fun _ => positive, fun _ => ?_⟩
    rw [Option.bind_some]
    obtain ⟨delta, computed, patched⟩ := delta_patches short few positive distinct
    rw [computed, Option.bind_some, patched]

/-- The first bytes of a text, for lack of MD5. -/
def sampleDigest (bytes : Bytes) : Digest := ⟨(bytes ++ List.replicate 16 0).take 16, by simp⟩

theorem transfer_new_sample : transfer sampleDigest [1, 2, 3] (some [1, 2]) 2 = some [1, 2, 3] :=
  (transfer_new_iff (some [1, 2]) 2 [1, 2, 3] (by decide) (by decide +kernel)
    (by unfold CollisionFree; decide +kernel)).2 (by decide +kernel)

/-- A block of 4 GiB: `br_server_sig` divides by zero. -/
theorem transfer_stops_at_full_word : sigSize (some [0]) (2 ^ 32) = 0 ∧
    transfer sampleDigest [1] (some [0]) (2 ^ 32) ≠ some [1] := by
  have zero : sigSize (some [0]) (2 ^ 32) = 0 := by decide +kernel
  refine ⟨zero, ?_⟩
  exact Option.some_ne_none _ ∘ Eq.symm

end

end BashOs.Rsync

import BashOs.Git.Store.Links
import BashOs.Lib.EditScript
import BashOs.Lib.Varint

/-!
Deltas between two byte strings, as a pack stores them: `deltaCreate` looks for runs of the target in an
index over the base, and `applyDelta` puts the target back together. What lies between the two is an edit
script: `Spells` says that a string of commands is one, and both ends are proved against it.
-/

namespace BashOs.Git.Pack
open BashOs.Lib List Option

/-! ## The index over a base -/

def deltaBlock : Nat := 16

def deltaPow : UInt32 := 0x0c3525e1

structure DeltaIndex where
  base : Bytes
  mask : UInt32
  -- slot to block number plus one, 0 when empty
  heads : UInt32 → UInt32
  -- block number to the next in its slot, plus one
  nexts : Nat → UInt32
  -- block number to where it starts in the base
  offs : Nat → UInt32

def deltaHash (p : Bytes) : UInt32 :=
  (p.take deltaBlock).foldl (fun hash b => hash * 33 + b.toUInt32) 0

def deltaSlot (hash mask : UInt32) : UInt32 := (hash ^^^ hash >>> 15) &&& mask

/-- The smallest power of two from `table` on that reaches `want`. -/
def tableSize (want : Nat) : Nat → Nat → Nat
  | 0, table => table
  | rounds + 1, table => if table < want then tableSize want rounds (table <<< 1) else table

def indexBlocks (index : DeltaIndex) : Nat → DeltaIndex
  | 0 => index
  | b + 1 =>
    let off := b * deltaBlock
    let slot := deltaSlot (deltaHash (index.base.drop off)) index.mask
    indexBlocks
      { index with
        offs := fun i => if i = b then UInt32.ofNat off else index.offs i
        nexts := fun i => if i = b then index.heads slot else index.nexts i
        heads := fun s => if s = slot then UInt32.ofNat b + 1 else index.heads s } b

def deltaIndexCreate (base : Bytes) : Option DeltaIndex :=
  if base.length < deltaBlock then none
  else
    let blocks := base.length / deltaBlock
    let table := min (tableSize (blocks * 2) 64 1) (1 <<< 24)
    some (indexBlocks
      { base, mask := UInt32.ofNat (table - 1), heads := fun _ => 0, nexts := fun _ => 0, offs := fun _ => 0 }
      blocks)

theorem indexBlocks_base (index : DeltaIndex) (blocks : Nat) : (indexBlocks index blocks).base = index.base := by
  induction blocks generalizing index with
  | zero => rfl
  | succ b ih => rw [indexBlocks, ih]

theorem deltaIndexCreate_base {base : Bytes} {index : DeltaIndex} (created : deltaIndexCreate base = some index) :
    index.base = base := by
  unfold deltaIndexCreate at created
  split at created
  · cases created
  cases created
  exact indexBlocks_base _ _

/-! ## Writing a delta -/

def deltaSize (size : Nat) : Bytes := sevenBits size

def deltaLiterals (bytes : Bytes) : Bytes :=
  if bytes = [] then []
  else
    let run := if bytes.length > 127 then 127 else bytes.length
    UInt8.ofNat run :: (bytes.take run ++ deltaLiterals (bytes.drop run))
termination_by bytes.length
decreasing_by
  have := length_pos_of_ne_nil ‹¬bytes = []›
  simp only [length_drop]
  split <;> omega

/-- The bytes of a copy's offset or size that are not zero, from byte `i` on, and the flags that tell which
they are. -/
def copyField (first v : Nat) : Nat → Nat → Nat × Bytes
  | 0, _ => (0, [])
  | n + 1, i =>
    let (flags, bytes) := copyField first v n (i + 1)
    if v >>> (i * 8) &&& 0xff ≠ 0 then
      (1 <<< (first + i) ||| flags, UInt8.ofNat (v >>> (i * 8) &&& 0xff) :: bytes)
    else (flags, bytes)

/-- `bgit_delta_copy`: a size of 65536 is written as no size at all. -/
def deltaCopy (off size : Nat) : Bytes :=
  let (offFlags, offBytes) := copyField 0 off 4 0
  let (sizeFlags, sizeBytes) := if size ≠ 0x10000 then copyField 4 size 3 0 else (0, [])
  UInt8.ofNat (0x80 ||| offFlags ||| sizeFlags) :: (offBytes ++ sizeBytes)

def extendRun : Nat → Bytes → Bytes → Nat
  | n + 1, x :: xs, y :: ys => if x = y then extendRun n xs ys + 1 else 0
  | _, _, _ => 0

/-- The longest run found at the front of `rest` along a chain of blocks: where it is in the base, and how
long. -/
def longestRun (index : DeltaIndex) (rest : Bytes) : Nat → UInt32 → Nat × Nat → Nat × Nat
  | 0, _, best => best
  | looks + 1, b, best =>
    if b = 0 then best
    else
      let off := (index.offs (b - 1).toNat).toNat
      let next := index.nexts (b - 1).toNat
      if (index.base.drop off).take deltaBlock ≠ rest.take deltaBlock then longestRun index rest looks next best
      else
        let run := deltaBlock + extendRun (0x10000 - deltaBlock)
          (index.base.drop (off + deltaBlock)) (rest.drop deltaBlock)
        if run > best.2 then
          if run ≥ 0x10000 then (off, run) else longestRun index rest looks next (off, run)
        else longestRun index rest looks next best

/-- The loop of `bgit_delta_create`. `rest` is the target from `at` on, `pending` the bytes before it that
are still to be written out. -/
def deltaLoop (index : DeltaIndex) (max : Nat) (hash : UInt32) (rolling : Bool) (delta pending : Bytes) :
    Bytes → Option Bytes
  | [] => do
    let delta ← bufAppend delta (deltaLiterals pending)
    if delta.length > max then none else some delta
  | byte :: more =>
    let rest := byte :: more
    let hash := if deltaBlock ≤ rest.length ∧ rolling = false then deltaHash rest else hash
    let best :=
      if deltaBlock ≤ rest.length then longestRun index rest 64 (index.heads (deltaSlot hash index.mask)) (0, 0)
      else (0, 0)
    if best.2 < deltaBlock then
      if delta.length + (pending.length + 1) > max then none
      else if deltaBlock < rest.length then
        deltaLoop index max ((hash - byte.toUInt32 * deltaPow) * 33 + (rest.getD deltaBlock 0).toUInt32) true
          delta (pending ++ [byte]) more
      else deltaLoop index max hash false delta (pending ++ [byte]) more
    else
      match (bufAppend delta (deltaLiterals pending)).bind fun delta => bufAppend delta (deltaCopy best.1 best.2) with
      | none => none
      | some delta =>
        if delta.length > max then none else deltaLoop index max hash false delta [] (more.drop (best.2 - 1))
termination_by rest => rest.length
decreasing_by
  · simp
  · simp
  · simp only [length_drop, length_cons]
    omega

def deltaCreate (index : DeltaIndex) (target : Bytes) (max : Nat) : Option Bytes := do
  let delta ← bufAppend [] (deltaSize index.base.length)
  let delta ← bufAppend delta (deltaSize target.length)
  deltaLoop index max 0 false delta [] target

/-! ## Putting the target back together -/

def sizeMax : Nat := 2 ^ 64 - 1

def readVarint (bytes : Bytes) : Option (Nat × Bytes) := readSevenBits 64 10 0 0 bytes

/-- The bytes a copy command's flags announce, from byte `i` on, put together low byte first. -/
def readCopyField (op : UInt8) (first : Nat) : Nat → Nat → Nat → Bytes → Option (Nat × Bytes)
  | 0, _, value, rest => some (value, rest)
  | n + 1, i, value, rest =>
    if op.toNat.testBit (first + i) then
      match rest with
      | [] => none
      | b :: rest => readCopyField op first n (i + 1) (value ||| b.toNat <<< (i * 8)) rest
    else readCopyField op first n (i + 1) value rest

/-- The loop of `bgit_pack_apply_delta`. Every round takes at least the command byte, so as many rounds as
there are bytes are enough. -/
def applyCommands (base : Bytes) (target : Nat) : Nat → Bytes → Bytes → Option Bytes
  | _, [], buf => if buf.length = target then some buf else none
  | 0, _ :: _, _ => none
  | rounds + 1, op :: rest, buf =>
    if op &&& 0x80 ≠ 0 then do
      let (copyOff, rest) ← readCopyField op 0 4 0 0 rest
      let (copySize, rest) ← readCopyField op 4 3 0 0 rest
      let copySize := if copySize = 0 then 0x10000 else copySize
      if copySize > base.length ∨ copyOff > base.length - copySize then none
      else if copySize > target ∨ buf.length > target - copySize then none
      else applyCommands base target rounds rest (buf ++ (base.drop copyOff).take copySize)
    else if op > 0 then
      if op.toNat > rest.length ∨ op.toNat > target - buf.length then none
      else applyCommands base target rounds (rest.drop op.toNat) (buf ++ rest.take op.toNat)
    else none

def applyDelta (base delta : Bytes) : Option Bytes := do
  let (srcSize, rest) ← readVarint delta
  let (tgtSize, rest) ← readVarint rest
  if srcSize ≠ base.length then none
  else
    -- a copy takes at most three bytes of size and no more than the base has
    let maxCopy := max (min base.length 0xffffff) 1
    let ceiling := if delta.length > sizeMax / maxCopy then sizeMax else delta.length * maxCopy
    if tgtSize > ceiling then none else applyCommands base tgtSize rest.length rest []

/-! ## Commands as edits -/

def spellEdit : Edit UInt8 → Bytes
  | .copy off len => deltaCopy off len
  | .insert run => UInt8.ofNat run.length :: run

def Command (base : Bytes) : Edit UInt8 → Prop
  | .copy off len => off < 2 ^ 32 ∧ 0 < len ∧ len ≤ 0x10000 ∧ off + len ≤ base.length
  | .insert run => 0 < run.length ∧ run.length ≤ 127

/-- The commands are those of a script that makes `part` out of the base. -/
def Spells (base commands part : Bytes) : Prop :=
  ∃ script : List (Edit UInt8),
    commands = script.flatMap spellEdit ∧ (∀ edit ∈ script, Command base edit) ∧ Edit.runAll base script = part

section Spelling
variable {base : Bytes}

theorem command_within {edit : Edit UInt8} (valid : Command base edit) : edit.Within base := by
  cases edit with
  | copy off len => exact valid.2.2.2
  | insert run => trivial

theorem Spells.nil : Spells base [] [] := ⟨[], rfl, by simp, rfl⟩

theorem Spells.append {front back one two : Bytes} (left : Spells base front one) (right : Spells base back two) :
    Spells base (front ++ back) (one ++ two) := by
  obtain ⟨script, rfl, valid, rfl⟩ := left
  obtain ⟨more, rfl, validMore, rfl⟩ := right
  exact ⟨script ++ more, by simp, forall_mem_append.2 ⟨valid, validMore⟩, by simp [Edit.runAll]⟩

theorem Spells.single (edit : Edit UInt8) (valid : Command base edit) : Spells base (spellEdit edit) (edit.run base) :=
  ⟨[edit], by simp, by simpa using valid, by simp⟩

theorem spells_literals (bytes : Bytes) : Spells base (deltaLiterals bytes) bytes := by
  induction bytes using deltaLiterals.induct with
  | case1 =>
    rw [deltaLiterals]
    exact Spells.nil
  | case2 bytes nonempty run ih =>
    have positive : 0 < bytes.length := length_pos_of_ne_nil nonempty
    have within : 0 < run ∧ run ≤ 127 ∧ run ≤ bytes.length := by
      simp only [run]
      split <;> omega
    have taken : (bytes.take run).length = run := by
      rw [length_take]
      omega
    have first : Spells base (spellEdit (.insert (bytes.take run))) (bytes.take run) :=
      Spells.single _ (by simp only [Command]; omega)
    have whole := first.append ih
    rw [deltaLiterals]
    simp only [nonempty]
    change Spells base (UInt8.ofNat run :: (bytes.take run ++ deltaLiterals (bytes.drop run))) bytes
    simpa only [spellEdit, taken, cons_append, take_append_drop] using whole

end Spelling

/-! ## The writer spells its target -/

section Writing

theorem extendRun_agree (n : Nat) (xs ys : Bytes) :
    xs.take (extendRun n xs ys) = ys.take (extendRun n xs ys) ∧ extendRun n xs ys ≤ n ∧
      extendRun n xs ys ≤ xs.length := by
  fun_induction extendRun n xs ys with
  | case1 n x xs ys ih =>
    obtain ⟨same, bound, inside⟩ := ih
    refine ⟨by simp [same], by omega, by simpa using inside⟩
  | case2 => simp
  | case3 => simp

def Found (base rest : Bytes) (best : Nat × Nat) : Prop :=
  best.2 = 0 ∨ (best.1 < 2 ^ 32 ∧ deltaBlock ≤ best.2 ∧ best.2 ≤ 0x10000 ∧ best.1 + best.2 ≤ base.length ∧
    (base.drop best.1).take best.2 = rest.take best.2)

theorem run_found {base rest : Bytes} (off : Nat) (inside : off < 2 ^ 32) (long : deltaBlock ≤ rest.length)
    (block : (base.drop off).take deltaBlock = rest.take deltaBlock) :
    Found base rest (off, deltaBlock + extendRun (0x10000 - deltaBlock)
      (base.drop (off + deltaBlock)) (rest.drop deltaBlock)) := by
  obtain ⟨same, bound, within⟩ :=
    extendRun_agree (0x10000 - deltaBlock) (base.drop (off + deltaBlock)) (rest.drop deltaBlock)
  have room : off + deltaBlock ≤ base.length := by
    have := congrArg length block
    simp only [length_take, length_drop] at this
    simp only [deltaBlock] at *
    omega
  rw [length_drop] at within
  refine .inr ⟨inside, Nat.le_add_right _ _, ?_, ?_, ?_⟩
  · simp only [deltaBlock] at *
    omega
  · simp only
    omega
  · simp only [take_add, drop_drop, block]
    rw [same]

theorem longestRun_found (index : DeltaIndex) (rest : Bytes) (long : deltaBlock ≤ rest.length) (looks : Nat)
    (b : UInt32) (best : Nat × Nat) (found : Found index.base rest best) :
    Found index.base rest (longestRun index rest looks b best) := by
  induction looks generalizing b best with
  | zero => exact found
  | succ looks ih =>
    unfold longestRun
    split
    · exact found
    · dsimp only
      split
      · exact ih _ _ found
      next block =>
        have here := run_found (index.offs (b - 1).toNat).toNat (UInt32.toNat_lt _) long (by simpa using block)
        split
        · split
          · exact here
          · exact ih _ _ here
        · exact ih _ _ found

theorem deltaLoop_spells (index : DeltaIndex) (max : Nat) (hash : UInt32) (rolling : Bool)
    (head commands written pending rest out : Bytes) (spelled : Spells index.base commands written)
    (made : deltaLoop index max hash rolling (head ++ commands) pending rest = some out) :
    ∃ all, out = head ++ all ∧ Spells index.base all (written ++ pending ++ rest) ∧ out.length < addressSpace ∧
      out.length ≤ max := by
  generalize same : head ++ commands = delta at made
  fun_induction deltaLoop index max hash rolling delta pending rest generalizing commands written with
  | case1 _ _ delta pending =>
    obtain ⟨grown, appended, kept⟩ := bind_eq_some_iff.1 made
    obtain ⟨rfl, bound⟩ := bufAppend_eq_some appended
    split at kept
    · cases kept
    rename_i within
    cases kept
    refine ⟨commands ++ deltaLiterals pending, by rw [← same, append_assoc], ?_, bound, not_lt.1 within⟩
    simpa using spelled.append (spells_literals pending)
  | case2 => cases made
  | case3 _ _ _ pending byte more _ _ _ _ _ _ ih | case4 _ _ _ pending byte more _ _ _ _ _ _ ih =>
    obtain ⟨all, out_eq, spells, bound⟩ := ih commands written spelled same made
    exact ⟨all, out_eq, by simpa using spells, bound⟩
  | case5 => cases made
  | case6 => cases made
  | case7 _ _ delta pending byte more rest hash best long grown appended _ ih =>
    obtain ⟨middle, literals, copied⟩ := bind_eq_some_iff.1 appended
    obtain ⟨rfl, -⟩ := bufAppend_eq_some literals
    obtain ⟨rfl, -⟩ := bufAppend_eq_some copied
    have enough : deltaBlock ≤ rest.length := by
      by_contra short
      simp only [best, short] at long
      simp [deltaBlock] at long
    have found : Found index.base rest best := by
      simp only [best, enough]
      exact longestRun_found index rest enough _ _ _ (.inl rfl)
    rcases found with none_found | ⟨inside, _, short, within, agrees⟩
    · simp [none_found, deltaBlock] at long
    have positive : 0 < best.2 := by simp only [deltaBlock] at long; omega
    have copy : Spells index.base (deltaCopy best.1 best.2) ((index.base.drop best.1).take best.2) :=
      Spells.single (.copy best.1 best.2) ⟨inside, positive, short, within⟩
    rw [agrees] at copy
    obtain ⟨all, out_eq, spells, bound⟩ := ih (commands ++ (deltaLiterals pending ++ deltaCopy best.1 best.2))
      (written ++ (pending ++ rest.take best.2)) (spelled.append ((spells_literals pending).append copy))
      (by rw [← same]; simp) made
    have whole : rest.take best.2 ++ more.drop (best.2 - 1) = byte :: more := by
      have : more.drop (best.2 - 1) = rest.drop best.2 := by
        obtain ⟨n, hn⟩ : ∃ n, best.2 = n + 1 := ⟨best.2 - 1, by omega⟩
        simp [rest, hn]
      rw [this, take_append_drop]
    refine ⟨all, out_eq, ?_, bound⟩
    simpa [whole] using spells

theorem deltaCreate_spells {index : DeltaIndex} {target delta : Bytes} {max : Nat}
    (created : deltaCreate index target max = some delta) :
    ∃ commands, delta = deltaSize index.base.length ++ deltaSize target.length ++ commands ∧
      Spells index.base commands target ∧ delta.length < addressSpace ∧ delta.length ≤ max := by
  obtain ⟨first, sized, rest⟩ := bind_eq_some_iff.1 created
  obtain ⟨head, sizedToo, made⟩ := bind_eq_some_iff.1 rest
  obtain ⟨rfl, -⟩ := bufAppend_eq_some sized
  obtain ⟨rfl, -⟩ := bufAppend_eq_some sizedToo
  rw [← append_nil (_ ++ _)] at made
  simpa using deltaLoop_spells index max 0 false _ [] [] [] target delta Spells.nil made

theorem deltaCreate_length_le {index : DeltaIndex} {target delta : Bytes} {max : Nat}
    (created : deltaCreate index target max = some delta) : delta.length ≤ max := by
  obtain ⟨-, -, -, -, most⟩ := deltaCreate_spells created
  exact most

end Writing

/-! ## The reader runs the script -/

section Reading

theorem copyField_flag_outside (first v n i k : Nat) (outside : k < first + i ∨ first + i + n ≤ k) :
    (copyField first v n i).1.testBit k = false := by
  induction n generalizing i with
  | zero => simp [copyField]
  | succ n ih =>
    have rest := ih (i + 1) (by omega)
    unfold copyField
    dsimp only
    split
    · simp only [Nat.testBit_or, Nat.one_shiftLeft, Nat.testBit_two_pow, rest, Bool.or_false, decide_eq_false_iff_not]
      omega
    · exact rest

theorem copyField_flag (first v n i j : Nat) (low : i ≤ j) (high : j < i + n) :
    (copyField first v n i).1.testBit (first + j) = decide (v >>> (j * 8) &&& 0xff ≠ 0) := by
  induction n generalizing i with
  | zero => omega
  | succ n ih =>
    unfold copyField
    dsimp only
    rcases Nat.eq_or_lt_of_le low with rfl | above
    · have clear := copyField_flag_outside first v n (i + 1) (first + i) (by omega)
      split
      next present =>
        rw [decide_eq_true present]
        simp only [Nat.testBit_or, Nat.one_shiftLeft, Nat.testBit_two_pow_self, Bool.true_or]
      next absent =>
        rw [decide_eq_false absent, clear]
    · have rest := ih (i + 1) above (by omega)
      split
      · have other : first + i ≠ first + j := by omega
        simp only [Nat.testBit_or, Nat.one_shiftLeft, Nat.testBit_two_pow, other, decide_false, Bool.false_or, rest]
      · exact rest

theorem field_byte (v i : Nat) : v % 2 ^ ((i + 1) * 8) = v % 2 ^ (i * 8) + (v >>> (i * 8) &&& 0xff) * 2 ^ (i * 8) := by
  have byte : v >>> (i * 8) &&& 0xff = v / 2 ^ (i * 8) % 256 := by
    rw [Nat.shiftRight_eq_div_pow]
    exact Nat.and_two_pow_sub_one_eq_mod _ 8
  rw [byte, Nat.add_mul, Nat.pow_add, Nat.mod_mul, mul_comm (2 ^ (i * 8))]

theorem readCopyField_copyField (op : UInt8) (first v n i : Nat) (tail : Bytes)
    (flags : ∀ j, i ≤ j → j < i + n → op.toNat.testBit (first + j) = decide (v >>> (j * 8) &&& 0xff ≠ 0)) :
    readCopyField op first n i (v % 2 ^ (i * 8)) ((copyField first v n i).2 ++ tail)
      = some (v % 2 ^ ((i + n) * 8), tail) := by
  induction n generalizing i with
  | zero => simp [readCopyField, copyField]
  | succ n ih =>
    have rest := ih (i + 1) (fun j low high => flags j (by omega) (by omega))
    have small : v >>> (i * 8) &&& 0xff < 256 := lt_of_le_of_lt Nat.and_le_right (by decide)
    have next := field_byte v i
    have flag := flags i (le_refl i) (by omega)
    have last : (i + 1 + n) * 8 = (i + (n + 1)) * 8 := by omega
    rw [last] at rest
    by_cases present : v >>> (i * 8) &&& 0xff ≠ 0
    · have placed : v % 2 ^ (i * 8) ||| (v >>> (i * 8) &&& 0xff) <<< (i * 8) = v % 2 ^ ((i + 1) * 8) := by
        rw [or_shiftLeft (Nat.mod_lt _ (Nat.two_pow_pos _)), next]
      rw [decide_eq_true present] at flag
      simp only [copyField, present, ne_eq, not_false_eq_true, ↓reduceIte, cons_append, readCopyField, flag,
        byte_ofNat_toNat small, placed, rest]
    have zero : v >>> (i * 8) &&& 0xff = 0 := by simpa using present
    simp only [zero, Nat.zero_mul, add_zero] at next
    rw [decide_eq_false present] at flag
    rw [next] at rest
    simp only [copyField, zero, ne_eq, not_true_eq_false]
    unfold readCopyField
    simp only [flag, Bool.false_eq_true, ↓reduceIte, rest]

theorem deltaCopy_eq (off size : Nat) : deltaCopy off size = let coded := if size = 0x10000 then 0 else size
      UInt8.ofNat (0x80 ||| (copyField 0 off 4 0).1 ||| (copyField 4 coded 3 0).1) ::
        ((copyField 0 off 4 0).2 ++ (copyField 4 coded 3 0).2) := by
  unfold deltaCopy
  by_cases whole : size = 0x10000
  · simp [whole, copyField]
  · simp [whole]

theorem copy_command_bits (off coded : Nat) :
    let op := UInt8.ofNat (0x80 ||| (copyField 0 off 4 0).1 ||| (copyField 4 coded 3 0).1)
    op &&& 0x80 ≠ 0 ∧ (∀ j, 0 ≤ j → j < 0 + 4 → op.toNat.testBit (0 + j) = decide (off >>> (j * 8) &&& 0xff ≠ 0)) ∧
      (∀ j, 0 ≤ j → j < 0 + 3 → op.toNat.testBit (4 + j) = decide (coded >>> (j * 8) &&& 0xff ≠ 0)) := by
  intro op
  have bit (k : Nat) (inside : k < 8) : op.toNat.testBit k =
      ((0x80 : Nat).testBit k || (copyField 0 off 4 0).1.testBit k || (copyField 4 coded 3 0).1.testBit k) := by
    have byte : op.toNat = (0x80 ||| (copyField 0 off 4 0).1 ||| (copyField 4 coded 3 0).1) % 2 ^ 8 :=
      UInt8.toNat_ofNat'
    rw [byte, Nat.testBit_mod_two_pow, Nat.testBit_or, Nat.testBit_or]
    simp [inside]
  have mark (k : Nat) (below : k < 7) : (0x80 : Nat).testBit k = false := by
    have other : 7 ≠ k := by omega
    simpa [other] using @Nat.testBit_two_pow 7 k
  refine ⟨?_, ?_, ?_⟩
  · have high : op.toNat.testBit 7 = true := by
      rw [bit 7 (by decide)]
      rfl
    rw [Ne, high_bit_clear, not_lt]
    exact Nat.ge_two_pow_of_testBit high
  · intro j low inside
    rw [bit _ (by omega), mark _ (by omega), copyField_flag_outside 4 coded 3 0 (0 + j) (by omega),
      copyField_flag 0 off 4 0 j low inside]
    simp
  · intro j low inside
    rw [bit _ (by omega), mark _ (by omega), copyField_flag_outside 0 off 4 0 (4 + j) (by omega),
      copyField_flag 4 coded 3 0 j low inside]
    simp

theorem applyCommands_edit (base : Bytes) (target rounds : Nat) (edit : Edit UInt8) (tail buf : Bytes)
    (valid : Command base edit) (room : buf.length + edit.size ≤ target) :
    applyCommands base target (rounds + 1) (spellEdit edit ++ tail) buf
      = applyCommands base target rounds tail (buf ++ edit.run base) := by
  cases edit with
  | insert run =>
    obtain ⟨positive, short⟩ := valid
    simp only [Edit.size] at room
    have length : (UInt8.ofNat run.length).toNat = run.length := byte_ofNat_toNat (by omega)
    have literal : UInt8.ofNat run.length &&& 0x80 = 0 := (high_bit_clear _).2 (by omega)
    have counted : UInt8.ofNat run.length > 0 := by
      rwa [GT.gt, UInt8.lt_iff_toNat_lt, length]
    have allowed : ¬(run.length > (run ++ tail).length ∨ run.length > target - buf.length) := by
      simp only [length_append]
      omega
    simp only [spellEdit, cons_append, applyCommands, literal, ne_eq, not_true_eq_false, ↓reduceIte, counted,
      length, allowed, drop_left, take_left, Edit.run]
  | copy off len =>
    obtain ⟨inside, positive, short, within⟩ := valid
    simp only [Edit.size] at room
    simp only [spellEdit, deltaCopy_eq]
    generalize written : (if len = 0x10000 then 0 else len) = coded
    have decoded : (if coded % 2 ^ 24 = 0 then 0x10000 else coded % 2 ^ 24) = len := by
      by_cases whole : len = 0x10000
      · simp only [whole] at written
        simp [← written, whole]
      · simp only [whole, ↓reduceIte] at written
        have same : coded % 2 ^ 24 = len := by omega
        simp only [same, ne_of_gt positive, ↓reduceIte]
    obtain ⟨marked, offFlags, sizeFlags⟩ := copy_command_bits off coded
    have readOff := readCopyField_copyField _ 0 off 4 0 ((copyField 4 coded 3 0).2 ++ tail) offFlags
    have readSize := readCopyField_copyField _ 4 coded 3 0 tail sizeFlags
    simp only [Nat.zero_mul, Nat.pow_zero, Nat.mod_one] at readOff readSize
    rw [Nat.mod_eq_of_lt inside] at readOff
    have inBase : ¬(len > base.length ∨ off > base.length - len) := by omega
    have inTarget : ¬(len > target ∨ buf.length > target - len) := by omega
    simp only [cons_append, append_assoc, applyCommands, marked, ne_eq, not_false_eq_true, ↓reduceIte,
      readOff, readSize, bind_eq_bind, bind_some, decoded, inBase, inTarget, Edit.run]

theorem applyCommands_script (base : Bytes) (target rounds : Nat) (script : List (Edit UInt8)) (buf : Bytes)
    (valid : ∀ edit ∈ script, Command base edit) (enough : script.length ≤ rounds)
    (whole : (buf ++ Edit.runAll base script).length = target) :
    applyCommands base target rounds (script.flatMap spellEdit) buf = some (buf ++ Edit.runAll base script) := by
  induction script generalizing rounds buf with
  | nil =>
    simp only [Edit.runAll_nil, append_nil] at whole
    simp [applyCommands, whole]
  | cons edit script ih =>
    obtain ⟨rounds, rfl⟩ : ∃ n, rounds = n + 1 := ⟨rounds - 1, by simp only [length_cons] at enough; omega⟩
    have here : Command base edit := valid edit (.head _)
    have sized := Edit.length_run (command_within here)
    rw [flatMap_cons, applyCommands_edit base target rounds edit _ buf here]
    · rw [ih rounds _ (fun e member => valid e (.tail _ member))]
      · simp
      · simpa using enough
      · simpa using whole
    · rw [← whole]
      simp only [Edit.runAll_cons, length_append]
      omega

theorem command_yield {base : Bytes} {edit : Edit UInt8} (valid : Command base edit) :
    edit.size ≤ (spellEdit edit).length * max (min base.length 0xffffff) 1 := by
  cases edit with
  | copy off len =>
    obtain ⟨-, -, short, within⟩ := valid
    have one : 1 ≤ (spellEdit (.copy off len)).length := by
      simp only [spellEdit, deltaCopy_eq, length_cons]
      omega
    calc len ≤ 1 * max (min base.length 0xffffff) 1 := by omega
      _ ≤ _ := Nat.mul_le_mul_right _ one
  | insert run =>
    calc run.length ≤ (spellEdit (.insert run)).length * 1 := by simp [spellEdit]
      _ ≤ _ := Nat.mul_le_mul_left _ (le_max_right _ _)

theorem spells_yield {base commands part : Bytes} (spelled : Spells base commands part) :
    part.length ≤ commands.length * max (min base.length 0xffffff) 1 := by
  obtain ⟨script, rfl, valid, rfl⟩ := spelled
  induction script with
  | nil => simp
  | cons edit script ih =>
    have here : Command base edit := valid edit (.head _)
    have rest := ih (fun e member => valid e (.tail _ member))
    have first := command_yield here
    rw [← Edit.length_run (command_within here)] at first
    simp only [Edit.runAll_cons, flatMap_cons, length_append, Nat.add_mul]
    omega

theorem readVarint_deltaSize (size : Nat) (fits : size < 2 ^ 64) (tail : Bytes) :
    readVarint (deltaSize size ++ tail) = some (size, tail) := by
  have read := readSevenBits_sevenBits 64 size 10 0 0 tail (by decide) (by decide) (by omega) (by omega) (by decide)
  simpa [readVarint, deltaSize] using read

theorem script_length_le {script : List (Edit UInt8)} : script.length ≤ (script.flatMap spellEdit).length := by
  induction script with
  | nil => simp
  | cons edit script ih =>
    have one : 1 ≤ (spellEdit edit).length := by cases edit <;> simp [spellEdit, deltaCopy_eq]
    simp only [length_cons, flatMap_cons, length_append]
    omega

theorem applyDelta_deltaCreate {base target delta : Bytes} {index : DeltaIndex} {max : Nat}
    (indexed : deltaIndexCreate base = some index) (created : deltaCreate index target max = some delta)
    (baseFits : base.length < addressSpace) (targetFits : target.length < addressSpace) :
    applyDelta base delta = some target := by
  obtain ⟨commands, rfl, spelled, bound, -⟩ := deltaCreate_spells created
  rw [deltaIndexCreate_base indexed] at spelled bound ⊢
  simp only [addressSpace] at baseFits targetFits bound
  have source := readVarint_deltaSize base.length (by omega) (deltaSize target.length ++ commands)
  have wanted := readVarint_deltaSize target.length (by omega) commands
  simp only [applyDelta, append_assoc, source, wanted, bind_eq_bind, bind_some, ne_eq, not_true_eq_false, ↓reduceIte]
  rw [if_neg (not_lt.2 (by
    split
    · simp only [sizeMax]
      omega
    · exact le_trans (spells_yield spelled) (Nat.mul_le_mul_right _ (by simp; omega))))]
  obtain ⟨script, rfl, valid, rfl⟩ := spelled
  exact applyCommands_script base _ _ script [] valid script_length_le rfl

end Reading

/-! ## Both ends -/

/-- A base of a block or more has an index, and whatever delta is made with it stays within the limit and turns the
base into the target. -/
theorem delta_round_trip (base : Bytes) (long : 16 ≤ base.length) (baseFits : base.length < addressSpace) :
    ∃ index, deltaIndexCreate base = some index ∧ ∀ (target : Bytes) (max : Nat) (delta : Bytes),
      target.length < addressSpace → deltaCreate index target max = some delta →
        delta.length ≤ max ∧ applyDelta base delta = some target := by
  have indexed : (deltaIndexCreate base).isSome := by
    rw [deltaIndexCreate, if_neg (show ¬ base.length < deltaBlock from not_lt.2 long)]
    rfl
  obtain ⟨index, indexed⟩ := isSome_iff_exists.1 indexed
  refine ⟨index, indexed, fun target max delta targetFits created => ?_⟩
  exact ⟨deltaCreate_length_le created, applyDelta_deltaCreate indexed created baseFits targetFits⟩

theorem delta_round_trip_sample : ∃ index delta, deltaIndexCreate (List.replicate 20 7) = some index ∧
    deltaCreate index (List.replicate 18 7 ++ [9]) 9 = some delta ∧ delta.length ≤ 9 ∧
      applyDelta (List.replicate 20 7) delta = some (List.replicate 18 7 ++ [9]) := by
  have fits : (replicate 20 (7 : UInt8)).length < addressSpace := by simp [addressSpace]
  have fits' : (replicate 18 (7 : UInt8) ++ [9]).length < addressSpace := by simp [addressSpace]
  have succeeds : ((deltaIndexCreate (replicate 20 7)).bind fun index =>
      deltaCreate index (replicate 18 7 ++ [9]) 9).isSome = true := by
    decide +kernel
  obtain ⟨index, indexed, works⟩ := delta_round_trip (replicate 20 7) (by decide) fits
  obtain ⟨delta, both⟩ := isSome_iff_exists.1 succeeds
  rw [indexed] at both
  exact ⟨index, delta, indexed, both, works _ 9 delta fits' both⟩

end BashOs.Git.Pack

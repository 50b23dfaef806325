import BashOs.Git.Pack.Read
import BashOs.Git.WorkTree.Index

/-!
A pack that came over the wire, before anything has an index of it: the walk that finds where its objects stand, the
naming of every object from those that lean on nothing outwards, and the writing of them into the store. A thin pack
leans on objects the store has already.
-/

namespace BashOs.Git.Pack
open BashOs.Lib

/-! ## Scanning -/

/-- `struct git_pack_entry`, as far as storing a pack uses it: `sha` is there once `resolved` is set. -/
structure WireEntry where
  offset : Nat
  type : Nat
  size : Nat
  baseOffset : Nat
  baseSha : Bytes
  dataOffset : Nat
  sha : Option ObjectId
deriving DecidableEq

def WireEntry.isDelta (entry : WireEntry) : Bool := entry.type = ofsDelta || entry.type = refDelta

def packBaseOffset : Nat → Bytes → Option (Nat × Bytes)
  | _, [] => none
  | value, c :: rest =>
    if (2 ^ 64 - 1) >>> 7 < value then none
    else
      let value := value <<< 7 ||| (c &&& 0x7f).toNat
      if c &&& 0x80 = 0 then some (value, rest)
      else if value = 2 ^ 64 - 1 then none
      else packBaseOffset (value + 1) rest

def wireBase (off type : Nat) (rest : Bytes) : Option (Nat × Bytes × Bytes) :=
  if type = ofsDelta then
    (packBaseOffset 0 rest).bind fun (back, rest) =>
      if back = 0 || off < back then none else some (off - back, [], rest)
  else if type = refDelta then if rest.length < 20 then none else some (0, rest.take 20, rest.drop 20)
  else some (0, [], rest)

section Scan
variable (prim : Primitives) (pack : Bytes)

def packBody : Bytes := pack.take (pack.length - 20)

/-- One turn of `git_pack_scan`: the entry, and where the next one starts. -/
def scanEntry (off : Nat) : Option (WireEntry × Nat) := do
  let (type, size, rest) ← readObjHeader ((packBody pack).drop off)
  if type < 1 || 7 < type || type = 5 then none
  else
    let (baseOffset, baseSha, rest) ← wireBase off type rest
    let (plain, used) ← prim.inflate rest
    if plain.length ≠ size then none
    else
      let dataOffset := (packBody pack).length - rest.length
      some ({ offset := off, type, size, baseOffset, baseSha, dataOffset, sha := none }, dataOffset + used)

def scanFrom : Nat → Nat → Option (List WireEntry × Nat)
  | 0, off => some ([], off)
  | count + 1, off => do
    let (entry, next) ← scanEntry prim pack off
    let (entries, last) ← scanFrom count next
    some (entry :: entries, last)

def packScan : Option (List WireEntry) :=
  let count := wordAt 4 pack 8
  if pack.length < 32 || pack.take 4 ≠ ascii "PACK" then none
  else if wordAt 4 pack 4 ≠ 2 then none
  else if pack.length - 32 < count then none
  else
    (scanFrom prim pack count 12).bind fun (entries, last) => if last ≠ pack.length - 20 then none else some entries

end Scan

/-! ## Contents -/

def wireBaseEntry (entries : List WireEntry) (entry : WireEntry) : Option WireEntry :=
  if entry.type = ofsDelta then entries.find? fun base => base.offset = entry.baseOffset
  else entries.find? fun base => base.sha.any fun sha => sha.bytes = entry.baseSha

section Content
-- `read` is `bgit_odb_read` of the store the pack goes to
variable (prim : Primitives) (read : Objects) (pack : Bytes)

def WireEntry.plain (entry : WireEntry) : Option Bytes :=
  (prim.inflate ((packBody pack).drop entry.dataOffset)).map Prod.fst

/-- `git_pack_content`, with `left` levels of deltas still allowed, and whether the store was asked for a base -/
def packContent (entries : List WireEntry) : Nat → Nat → Option (ObjectType × Bytes × Bool)
  | 0, _ => none
  | left + 1, offset => do
    let entry ← entries.find? fun entry => entry.offset = offset
    let data ← entry.plain prim pack
    if !entry.isDelta then (typeFromPack entry.type).map fun kind => (kind, data, false)
    else
      match wireBaseEntry entries entry with
      | some base =>
        let (kind, content, thin) ← packContent entries left base.offset
        (applyDelta content data).map fun target => (kind, target, thin)
      | none =>
        if entry.type ≠ refDelta then none
        else
          let object ← (idOf entry.baseSha).bind read
          (applyDelta object.content data).map fun target => (object.type, target, true)

def contentOf (entries : List WireEntry) (entry : WireEntry) : Option (ObjectType × Bytes × Bool) :=
  packContent prim read pack entries (maxDeltaDepth + 1) entry.offset

/-! ## Naming every object -/

/-- The deltas that lean on entry `i`, whose id is `sha`: those that name its offset, then those that name its id. -/
def leaning (entries : List WireEntry) (i : Nat) (sha : ObjectId) : List Nat :=
  let offset := (entries[i]?.map WireEntry.offset)
  let those (holds : WireEntry → Bool) := (List.range entries.length).filter fun j => entries[j]?.any holds
  those (fun entry => entry.type = ofsDelta && some entry.baseOffset = offset) ++
    those (fun entry => entry.type = refDelta && entry.baseSha = sha.bytes)

/-- `git_pack_settle`, with as many levels left -/
def settle : Nat → Nat → ObjectType → Bytes → List WireEntry → Option (List WireEntry)
  | 0, i, kind, content, entries =>
    (WorkTree.framedId prim kind content).map fun sha => entries.modify i fun entry => { entry with sha := some sha }
  | left + 1, i, kind, content, entries =>
    (WorkTree.framedId prim kind content).bind fun sha =>
      (leaning entries i sha).foldlM
        (fun entries j =>
          match entries[j]? with
          | none => some entries
          | some entry =>
            if entry.sha.isSome then some entries
            else
              (entry.plain prim pack).bind fun delta =>
                (applyDelta content delta).bind fun target => settle left j kind target entries)
        (entries.modify i fun entry => { entry with sha := some sha })

def settleWhole (entries : List WireEntry) : Option (List WireEntry) :=
  (List.range entries.length).foldlM
    (fun entries i =>
      match entries[i]? with
      | none => some entries
      | some entry =>
        if entry.sha.isSome || entry.isDelta then some entries
        else
          (entry.plain prim pack).bind fun content =>
            (typeFromPack entry.type).bind fun kind => settle prim pack maxDeltaDepth i kind content entries)
    entries

def settleThin (entries : List WireEntry) (thin : Bool) : Option (List WireEntry × Bool × Bool) :=
  (List.range entries.length).foldlM
    (fun (entries, thin, more) i =>
      match entries[i]? with
      | none => some (entries, thin, more)
      | some entry =>
        if entry.sha.isSome then some (entries, thin, more)
        else
          match contentOf prim read pack entries entry with
          | none => some (entries, thin, more)
          | some (kind, content, asked) =>
            (settle prim pack maxDeltaDepth i kind content entries).map fun entries => (entries, thin || asked, true))
    (entries, thin, false)

/-- Passes until one names nothing. Each but the last names an object, so as many as there are entries and one more
are enough. -/
def settleRest : Nat → List WireEntry → Bool → Option (List WireEntry × Bool)
  | 0, entries, thin => some (entries, thin)
  | rounds + 1, entries, thin =>
    (settleThin prim read pack entries thin).bind fun (entries, thin, more) =>
      if more then settleRest rounds entries thin else some (entries, thin)

def packResolve (entries : List WireEntry) : Option (List WireEntry × Bool) :=
  (settleWhole prim pack entries).bind fun entries =>
    (settleRest prim read pack (entries.length + 1) entries false).bind fun (entries, thin) =>
      if entries.all fun entry => entry.sha.isSome then some (entries, thin) else none

/-! ## Storing -/

def storedAs (sha : ObjectId) (kind : ObjectType) (content : Bytes) : Option (ObjectId × Object) :=
  if fits : content.length < addressSpace then some (sha, ⟨kind, content, fits⟩) else none

/-- `git_store_pack_into`: the objects the store has gained. A small pack and a thin one are written out object by
object, each under its own hash; a large one is kept beside an index that gives its objects the ids they were named
by. -/
def storePackInto : Option (List (ObjectId × Object)) :=
  if pack.length < 32 then some []
  else
    (packScan prim pack).bind fun entries =>
      (packResolve prim read pack entries).bind fun (entries, thin) =>
        if entries.length < 100 || thin then
          entries.mapM fun entry =>
            (contentOf prim read pack entries entry).bind fun (kind, content, _) =>
              (WorkTree.framedId prim kind content).bind fun sha => storedAs sha kind content
        else
          entries.mapM fun entry =>
            (contentOf prim read pack entries entry).bind fun (kind, content, _) =>
              entry.sha.bind fun sha => storedAs sha kind content

end Content

/-! ## Pack integers -/

/-- In `bgit_pack_read_fd_at`: a byte at a time from the file, under the guards of the mapped reader. -/
def fdBackOffset : Bytes → Option (Nat × Bytes) := readBackOffset 64 9

section
variable {b : UInt8} {limit value : Nat} {rest : Bytes}

theorem readBackOffsetMore_last (last : b &&& 0x80 = 0) :
    readBackOffsetMore 64 limit value b rest = some (value, rest) := by
  unfold readBackOffsetMore
  exact if_pos last

theorem readBackOffsetMore_full (marked : b &&& 0x80 ≠ 0) (full : (2 ^ 64 - 1) >>> 7 ≤ value ∨ rest = []) :
    readBackOffsetMore 64 limit value b rest = none := by
  unfold readBackOffsetMore
  rw [if_neg marked]
  split
  · exact if_pos (full.resolve_right (List.cons_ne_nil _ _))
  · rfl

/-- The scanner does not count the bytes, but each one multiplies the value by 128, so that its guard stops it. -/
theorem packBaseOffset_marked (marked : b &&& 0x80 ≠ 0) (big : 2 ^ 63 ≤ (value + 1) * 128 ^ limit) :
    packBaseOffset (value + 1) rest = readBackOffsetMore 64 limit value b rest := by
  induction rest generalizing limit value b with
  | nil => exact (readBackOffsetMore_full marked (.inr rfl)).symm
  | cons next rest ih =>
    by_cases past : (2 ^ 64 - 1) >>> 7 ≤ value
    · rw [readBackOffsetMore_full marked (.inl past)]
      exact if_pos (Nat.lt_succ_of_le past)
    obtain _ | limit := limit
    · omega
    rw [packBaseOffset, if_neg (by omega), readBackOffsetMore, if_neg marked, if_neg past]
    have grown : (value + 1) <<< 7 ≤ (value + 1) <<< 7 ||| (next &&& 0x7f).toNat := Nat.left_le_or
    generalize (value + 1) <<< 7 ||| (next &&& 0x7f).toNat = further at grown
    dsimp only
    split
    next last => exact (readBackOffsetMore_last last).symm
    next more =>
    split
    next full => exact (readBackOffsetMore_full more (.inl (by omega))).symm
    · refine ih more (big.trans ?_)
      rw [pow_succ', ← mul_assoc]
      exact Nat.mul_le_mul_right _ (by omega)

theorem packBaseOffset_eq (bytes : Bytes) : packBaseOffset 0 bytes = readBackOffset 64 9 bytes := by
  cases bytes with
  | nil => rfl
  | cons b rest =>
    have small : (b &&& 0x7f).toNat < 128 := by
      rw [low_seven_byte]
      omega
    rw [packBaseOffset, readBackOffset, if_neg (by decide), Nat.zero_shiftLeft, Nat.zero_or]
    dsimp only
    split
    next last => exact (readBackOffsetMore_last last).symm
    next more =>
    rw [if_neg (by omega)]
    exact packBaseOffset_marked more (by omega)

end

theorem pack_integers :
    (∀ bytes, packBaseOffset 0 bytes = readBackOffset 64 9 bytes ∧ fdBackOffset bytes = readBackOffset 64 9 bytes) ∧
    (∀ distance < 2 ^ 64, ∀ tail, ∀ read ∈ [readBackOffset 64 9, fdBackOffset, packBaseOffset 0],
      read (backOffset distance ++ tail) = some (distance, tail)) ∧
    ∀ type < 8, ∀ size < 2 ^ 64, ∀ tail, readObjHeader (encodeObjHeader type size ++ tail) =
      some (type, size, tail) := by
  refine ⟨fun bytes => ⟨packBaseOffset_eq bytes, rfl⟩, fun distance fits tail => ?_,
    fun type seven size fits => readObjHeader_encodeObjHeader seven fits⟩
  have read := readBackOffset_backOffset 64 distance 9 tail fits (by omega)
  simp [fdBackOffset, packBaseOffset_eq, read]

end BashOs.Git.Pack

import Mathlib.Data.List.Forall2
import BashOs.Git.IndexFile.Views

/-!
Writing an index, and that reading it gives the entries back.
-/

namespace BashOs.Git.IndexFile
open BashOs.Lib List DiskEntry

def sizeMax : Nat := 2 ^ 64 - 1

/-- `bgit_index_racy`. `stamp` is the second the index was written in, zero before one was read. -/
def DiskEntry.racy (stamp : UInt32) (entry : DiskEntry) : Bool := stamp ≠ 0 && stamp ≤ entry.mtimeSec

/-- The flags that are written: the length of the path as far as twelve bits can hold it, and whether a second word of
flags follows. -/
def DiskEntry.writtenFlags (entry : DiskEntry) : Nat :=
  entry.flags.toNat &&& 0xb000 ||| min entry.path.bytes.length 0xfff ||| if entry.flags2 ≠ 0 then 0x4000 else 0

def DiskEntry.written (stamp : UInt32) (entry : DiskEntry) : DiskEntry :=
  { entry with
    size := if entry.racy stamp then 0 else entry.size
    flags := UInt16.ofNat entry.writtenFlags }

def DiskEntry.extended (entry : DiskEntry) : Bytes := if entry.flags2 ≠ 0 then be 2 entry.flags2.toNat else []

def DiskEntry.length (entry : DiskEntry) : Nat := 62 + (if entry.flags2 ≠ 0 then 2 else 0) + entry.path.bytes.length

def DiskEntry.encode (stamp : UInt32) (entry : DiskEntry) : Bytes :=
  (entry.written stamp).fixed ++ (entry.extended ++ (entry.path.bytes ++ List.replicate (padding entry.length) 0))

/-- One turn of `bgit_index_write_ext`. -/
def writeEntry (stamp : UInt32) (out : Bytes) (entry : DiskEntry) : Option Bytes :=
  if !pathValid entry.path.bytes then none
  else if sizeMax - 72 < entry.path.bytes.length then none
  else if sizeMax - out.length - 20 < entry.length + padding entry.length then none
  else some (out ++ entry.encode stamp)

def versionFor (entries : List DiskEntry) : Nat := if entries.any fun entry => entry.flags2 ≠ 0 then 3 else 2

/-- `bgit_index_write_ext`: what the file holds afterwards. -/
def writeExt (stamp : UInt32) (entries : List DiskEntry) (ext : Bytes) : Option Bytes :=
  if 0xffffffff < entries.length then none
  else if entries.any fun entry => entry.flags2 &&& ~~~0x6000 ≠ 0 then none
  else
    (entries.foldlM (writeEntry stamp) (ascii "DIRC" ++ be 4 (versionFor entries) ++ be 4 entries.length)).bind
      fun out =>
      if sizeMax - out.length - 20 < ext.length then none
      else
        let out := out ++ ext
        some (out ++ indexSha1 out)

open DiskEntry (encode writtenFlags)

/-! ## The flags -/

theorem low_bits {n : Nat} (small : n ≤ 0xfff) : n &&& 0xfff = n := by
  rw [Nat.and_two_pow_sub_one_eq_mod n 12]
  omega

section
variable (entry : DiskEntry) (stamp : UInt32) {entries : List DiskEntry} {version : Nat}

theorem writtenFlags_low : entry.writtenFlags &&& 0xfff = min entry.path.bytes.length 0xfff := by
  unfold writtenFlags
  have kept : entry.flags.toNat &&& 0xb000 &&& 0xfff = 0 := by
    rw [Nat.and_assoc]
    exact Nat.and_zero _
  rw [Nat.and_or_distrib_right, Nat.and_or_distrib_right, kept, low_bits (min_le_right _ _)]
  split <;> simp

theorem writtenFlags_extended : entry.writtenFlags &&& 0x4000 ≠ 0 ↔ entry.flags2 ≠ 0 := by
  unfold writtenFlags
  have kept : entry.flags.toNat &&& 0xb000 &&& 0x4000 = 0 := by
    rw [Nat.and_assoc]
    exact Nat.and_zero _
  have length : min entry.path.bytes.length 0xfff &&& 0x4000 = 0 := by
    rw [← low_bits (min_le_right _ _), Nat.and_assoc]
    exact Nat.and_zero _
  rw [Nat.and_or_distrib_right, Nat.and_or_distrib_right]
  split <;> simp_all

theorem writtenFlags_lt : entry.writtenFlags < 2 ^ 16 := by
  refine Nat.or_lt_two_pow (Nat.or_lt_two_pow ?_ ?_) ?_
  · exact Nat.and_lt_two_pow _ (by decide)
  · omega
  · split <;> decide

theorem writtenFlags_kept : entry.writtenFlags &&& 0xb000 = entry.flags.toNat &&& 0xb000 := by
  unfold writtenFlags
  have length : min entry.path.bytes.length 0xfff &&& 0xb000 = 0 := by
    rw [← low_bits (min_le_right _ _), Nat.and_assoc]
    exact Nat.and_zero _
  rw [Nat.and_or_distrib_right, Nat.and_or_distrib_right, length, Nat.and_assoc]
  split <;> simp

/-! ## One entry -/

theorem padding_pos (length : Nat) : 0 < padding length := by
  unfold padding
  omega

theorem findNul_path (path : CString) {count : Nat} (some : 0 < count) (rest : Bytes) :
    findNul (path.bytes ++ (List.replicate count 0 ++ rest)) = Option.some path.bytes.length ∧
      CString.ofBytes (path.bytes ++ (List.replicate count 0 ++ rest)) = path := by
  obtain ⟨count, rfl⟩ := Nat.exists_eq_succ_of_ne_zero (ne_of_gt some)
  have pass : ∀ b ∈ path.bytes, decide (b ≠ 0) = true :=
    fun b inside => decide_eq_true fun zero => path.clean (zero ▸ inside)
  have stop : (path.bytes ++ (replicate (count + 1) 0 ++ rest)).takeWhile (fun b => decide (b ≠ 0)) = path.bytes := by
    rw [takeWhile_append_of_pos pass]
    simp
  constructor
  · rw [findNul, if_pos (by simp), stop]
  · unfold CString.ofBytes
    congr 1

section
variable (stamp : UInt32) (entry : DiskEntry)

def DiskEntry.start (entry : DiskEntry) : Nat := 62 + if entry.flags2 ≠ 0 then 2 else 0

theorem length_extended : entry.extended.length = if entry.flags2 ≠ 0 then 2 else 0 := by
  unfold extended
  split <;> simp

theorem drop_start (rest : Bytes) : (entry.encode stamp ++ rest).drop entry.start =
    entry.path.bytes ++ (List.replicate (padding entry.length) 0 ++ rest) := by
  have front : ((entry.written stamp).fixed ++ entry.extended).length = entry.start := by
    rw [length_append, length_fixed, length_extended, start]
  have split : entry.encode stamp ++ rest = (entry.written stamp).fixed ++ entry.extended ++
      (entry.path.bytes ++ (replicate (padding entry.length) 0 ++ rest)) := by
    simp [encode]
  rw [split, ← front, drop_left]

theorem length_encode : (entry.encode stamp).length = entry.length + padding entry.length := by
  simp only [encode, length_append, length_fixed, length_extended, length_replicate, DiskEntry.length]
  omega

theorem flags_encode (rest : Bytes) : wordAt 2 (entry.encode stamp ++ rest) 60 = entry.writtenFlags := by
  rw [encode, append_assoc, wordAt_flags]
  exact UInt16.toNat_ofNat_of_lt' (writtenFlags_lt entry)

variable {version : Nat}

theorem pathExtent_encode (known : entry.flags2 ≠ 0 → 3 ≤ version) (rest : Bytes) :
    pathExtent version (entry.encode stamp ++ rest) = some (entry.start, entry.path.bytes.length) := by
  have long : (entry.encode stamp ++ rest).length = entry.length + padding entry.length + rest.length := by
    rw [length_append, length_encode]
  have start : (if 3 ≤ version ∧ entry.writtenFlags &&& 0x4000 ≠ 0 then 64 else 62) = entry.start := by
    have bit := writtenFlags_extended entry
    by_cases second : entry.flags2 = 0
    · rw [if_neg fun both => bit.1 both.2 second, start, if_neg (not_not.2 second)]
    · rw [if_pos ⟨known second, bit.2 second⟩, start, if_pos second]
  have room : ¬ (entry.encode stamp ++ rest).length < entry.start := by
    rw [long, DiskEntry.length, DiskEntry.start]
    omega
  have fixed : ¬ (entry.encode stamp ++ rest).length < 62 := by
    rw [long, DiskEntry.length]
    omega
  have length : (if min entry.path.bytes.length 0xfff = 0xfff then entry.path.bytes.length
      else min entry.path.bytes.length 0xfff) = entry.path.bytes.length := by
    split <;> omega
  simp only [pathExtent, fixed, if_false, flags_encode, start, room, drop_start,
    (findNul_path entry.path (padding_pos _) rest).1, Option.bind_some, writtenFlags_low, length, ne_eq, not_true]

theorem drop_encode (rest : Bytes) :
    (entry.encode stamp ++ rest).drop
      (entry.start + entry.path.bytes.length + padding (entry.start + entry.path.bytes.length)) =
      rest := by
  have whole : entry.start + entry.path.bytes.length + padding (entry.start + entry.path.bytes.length) =
      (entry.encode stamp).length := by
    rw [length_encode]
    rfl
  rw [whole, drop_left]

theorem room_encode (rest : Bytes) : ¬ (entry.encode stamp ++ rest).length - (entry.start + entry.path.bytes.length) <
    padding (entry.start + entry.path.bytes.length) := by
  have same : entry.length = entry.start + entry.path.bytes.length := rfl
  rw [length_append, length_encode, same]
  omega

theorem skipEntry_encode (known : entry.flags2 ≠ 0 → 3 ≤ version) (rest : Bytes) :
    skipEntry version (entry.encode stamp ++ rest) = some rest := by
  rw [skipEntry, pathExtent_encode stamp entry known, Option.bind_some]
  dsimp only
  rw [if_neg (room_encode stamp entry rest), drop_encode]

theorem long_encode (rest : Bytes) : 62 ≤ (entry.encode stamp ++ rest).length := by
  rw [length_append, length_encode, DiskEntry.length]
  omega

theorem readView_encode (valid : pathValid entry.path.bytes = true) (known : entry.flags2 ≠ 0 → 3 ≤ version)
    (rest : Bytes) :
    readView version (entry.encode stamp ++ rest) =
      some (⟨entry.encode stamp ++ rest, entry.path, long_encode stamp entry rest⟩, rest) := by
  have path : CString.ofBytes ((entry.encode stamp ++ rest).drop entry.start) = entry.path := by
    rw [drop_start]
    exact (findNul_path entry.path (padding_pos _) rest).2
  have zeros : (((entry.encode stamp ++ rest).drop (entry.start + entry.path.bytes.length)).take
      (padding (entry.start + entry.path.bytes.length))).any (fun b => decide (b ≠ 0)) = false := by
    rw [← drop_drop, drop_start]
    have same : entry.length = entry.start + entry.path.bytes.length := rfl
    rw [same]
    simp
  rw [readView, dif_pos (long_encode stamp entry rest), pathExtent_encode stamp entry known, Option.bind_some]
  simp only [path, valid, Bool.not_true, Bool.false_eq_true, if_false, room_encode stamp entry rest, zeros, drop_encode]

section
variable (known : entry.flags2 ≠ 0 → 3 ≤ version) (rest : Bytes)
include known rest

theorem flags2_encode :
    (if 3 ≤ version ∧ entry.writtenFlags &&& 0x4000 ≠ 0 then UInt16.ofNat
      (wordAt 2 (entry.encode stamp ++ rest) 62) else 0) =
      entry.flags2 := by
  have bit := writtenFlags_extended entry
  by_cases second : entry.flags2 = 0
  · rw [if_neg fun both => bit.1 both.2 second, second]
  have word := wordAt_of_split 2 entry.flags2.toNat (entry.written stamp).fixed
    (entry.path.bytes ++ replicate (padding entry.length) 0 ++ rest) entry.flags2.toNat_lt
  rw [length_fixed] at word
  have split : entry.encode stamp ++ rest = (entry.written stamp).fixed ++ (be 2 entry.flags2.toNat ++
      (entry.path.bytes ++ replicate (padding entry.length) 0 ++ rest)) := by
    simp [encode, extended, second]
  rw [if_pos ⟨known second, bit.2 second⟩, split, word, UInt16.ofNat_toNat]

theorem decode_encode :
    (⟨entry.encode stamp ++ rest, entry.path, long_encode stamp entry rest⟩ : View).decode version =
      entry.written stamp := by
  have long := long_encode stamp entry rest
  unfold View.decode
  simp only [flags_encode, flags2_encode stamp entry known]
  have split : entry.encode stamp ++ rest = (entry.written stamp).fixed ++
      (entry.extended ++ (entry.path.bytes ++ replicate (padding entry.length) 0) ++ rest) := by
    simp [encode]
  have read := readFixed_fixed (entry.written stamp)
    (entry.extended ++ (entry.path.bytes ++ replicate (padding entry.length) 0) ++ rest) (split ▸ long)
  simp only [← split] at read
  exact read

end

end

/-! ## The whole file -/

theorem skipEntries_encode (known : ∀ entry ∈ entries, entry.flags2 ≠ 0 → 3 ≤ version) (rest : Bytes) :
    skipEntries version entries.length (entries.flatMap (encode stamp) ++ rest) = some rest := by
  induction entries with
  | nil => rfl
  | cons entry entries ih =>
    have more := ih fun other inside => known other (.tail _ inside)
    rw [flatMap_cons, append_assoc, length_cons, skipEntries,
      skipEntry_encode stamp entry (known entry (.head _)), Option.bind_some, more]

theorem readEntries_encode (valid : ∀ entry ∈ entries, pathValid entry.path.bytes = true)
    (known : ∀ entry ∈ entries, entry.flags2 ≠ 0 → 3 ≤ version) (rest : Bytes) :
    ∃ views, readEntries version entries.length (entries.flatMap (encode stamp) ++ rest) = some (views, rest) ∧
      views.map (View.decode version) = entries.map (written stamp) := by
  induction entries with
  | nil => exact ⟨[], rfl, rfl⟩
  | cons entry entries ih =>
    obtain ⟨views, read, decoded⟩ := ih (fun other inside => valid other (.tail _ inside))
      fun other inside => known other (.tail _ inside)
    have first := readView_encode stamp entry (valid entry (.head _)) (known entry (.head _))
    refine ⟨⟨_, entry.path, long_encode stamp entry (entries.flatMap (encode stamp) ++ rest)⟩ :: views, ?_, ?_⟩
    · rw [flatMap_cons, append_assoc, length_cons, readEntries, first, Option.bind_some]
      dsimp only
      rw [read, Option.map_some]
    · rw [map_cons, map_cons, decoded, decode_encode stamp entry (known entry (.head _))]

theorem writeEntries_some {out : Bytes} (valid : ∀ entry ∈ entries, pathValid entry.path.bytes = true)
    (fits : out.length + (entries.flatMap (encode stamp)).length + 20 ≤ sizeMax) :
    entries.foldlM (writeEntry stamp) out = some (out ++ entries.flatMap (encode stamp)) := by
  induction entries generalizing out with
  | nil => simp
  | cons entry entries ih =>
    have size := length_encode stamp entry
    rw [flatMap_cons, length_append] at fits
    have path : entry.path.bytes.length + 62 ≤ entry.length := by
      rw [DiskEntry.length]
      omega
    have first : writeEntry stamp out entry = some (out ++ entry.encode stamp) := by
      rw [writeEntry, valid entry (.head _), Bool.not_true, if_neg Bool.false_ne_true, if_neg, if_neg]
      · omega
      · omega
    have more := @ih (out ++ entry.encode stamp) (fun other inside => valid other (.tail _ inside))
      (by rw [length_append]; omega)
    rw [foldlM_cons, first]
    simpa using more

theorem long_entries (valid : ∀ entry ∈ entries, pathValid entry.path.bytes = true) :
    64 * entries.length ≤ (entries.flatMap (encode stamp)).length := by
  induction entries with
  | nil => simp
  | cons entry entries ih =>
    have more := ih fun other inside => valid other (.tail _ inside)
    rw [flatMap_cons, length_append, length_encode, length_cons, DiskEntry.length, padding]
    omega

theorem length_header (version count : Nat) : (ascii "DIRC" ++ be 4 version ++ be 4 count).length = 12 := by
  have magic : (ascii "DIRC").length = 4 := by decide +kernel
  simp [be_length, magic]

theorem readHeader_eq {version count : Nat} {rest : Bytes} (known : version = 2 ∨ version = 3) (few : count < 2 ^ 32)
    (long : 20 ≤ rest.length) : readHeader (ascii "DIRC" ++ be 4 version ++ be 4 count ++ rest) =
      some (version, count) := by
  have magic : (ascii "DIRC").length = 4 := by decide +kernel
  have first := wordAt_of_split 4 version (ascii "DIRC") (be 4 count ++ rest) (by omega)
  have second := wordAt_of_split 4 count (ascii "DIRC" ++ be 4 version) rest few
  have size : (ascii "DIRC" ++ be 4 version ++ be 4 count ++ rest).length = 12 + rest.length := by
    rw [length_append, length_header]
  have front : (ascii "DIRC" ++ be 4 version ++ be 4 count ++ rest).take 4 = ascii "DIRC" := by
    rw [append_assoc, append_assoc, ← magic, take_left]
  rw [length_append, magic] at second
  rw [magic] at first
  have one : wordAt 4 (ascii "DIRC" ++ be 4 version ++ be 4 count ++ rest) 4 = version := by simpa using first
  have two : wordAt 4 (ascii "DIRC" ++ be 4 version ++ be 4 count ++ rest) 8 = count := by simpa using second
  rw [readHeader, if_neg (by omega), front, if_neg (by simp), one, two, if_neg (by omega)]

structure ReadBack (stamp : UInt32) (entry back : DiskEntry) : Prop where
  same : back = { entry with size := back.size, flags := back.flags }
  size : back.size = if entry.racy stamp then 0 else entry.size
  length : back.flags.toNat &&& 0xfff = min entry.path.bytes.length 0xfff
  extended : back.flags.toNat &&& 0x4000 ≠ 0 ↔ entry.flags2 ≠ 0
  others : back.flags.toNat &&& 0xb000 = entry.flags.toNat &&& 0xb000

theorem readBack_written (entry : DiskEntry) : ReadBack stamp entry (entry.written stamp) := by
  have flags : (entry.written stamp).flags.toNat = entry.writtenFlags :=
    UInt16.toNat_ofNat_of_lt' (writtenFlags_lt entry)
  refine ⟨rfl, rfl, ?_, ?_, ?_⟩
  · rw [flags, writtenFlags_low]
  · rw [flags, writtenFlags_extended]
  · rw [flags, writtenFlags_kept]

theorem versionFor_known (entries : List DiskEntry) : versionFor entries = 2 ∨ versionFor entries = 3 := by
  unfold versionFor
  split <;> simp

theorem versionFor_enough (entries : List DiskEntry) :
    ∀ entry ∈ entries, entry.flags2 ≠ 0 → 3 ≤ versionFor entries := by
  intro entry inside second
  have found : (entries.any fun entry => decide (entry.flags2 ≠ 0)) = true :=
    any_eq_true.2 ⟨entry, inside, decide_eq_true second⟩
  rw [versionFor, if_pos found]

def bodyOf (stamp : UInt32) (entries : List DiskEntry) (ext : Bytes) : Bytes :=
  ascii "DIRC" ++ be 4 (versionFor entries) ++ be 4 entries.length ++ (entries.flatMap (encode stamp) ++ ext)

theorem length_bodyOf (entries : List DiskEntry) (ext : Bytes) :
    (bodyOf stamp entries ext).length = 12 + (entries.flatMap (encode stamp)).length + ext.length := by
  rw [bodyOf, length_append, length_header, length_append, Nat.add_assoc]

theorem fileBody_append (body : Bytes) : fileBody (body ++ indexSha1 body) = body ∧
    (body ++ indexSha1 body).drop ((body ++ indexSha1 body).length - 20) = indexSha1 body := by
  have size : (body ++ indexSha1 body).length - 20 = body.length := by
    rw [length_append, length_indexSha1]
    omega
  rw [fileBody, size]
  exact ⟨take_left, drop_left⟩

theorem drop_bodyOf (entries : List DiskEntry) (ext : Bytes) :
    (bodyOf stamp entries ext).drop 12 = entries.flatMap (encode stamp) ++ ext := by
  rw [bodyOf, ← length_header (versionFor entries) entries.length, drop_left]

theorem writeExt_eq {ext : Bytes} (valid : ∀ entry ∈ entries, pathValid entry.path.bytes = true)
    (marks : ∀ entry ∈ entries, entry.flags2 &&& ~~~0x6000 = 0) (few : entries.length ≤ 0xffffffff)
    (fits : (bodyOf stamp entries ext).length + 20 ≤ sizeMax) :
    writeExt stamp entries ext = some (bodyOf stamp entries ext ++ indexSha1 (bodyOf stamp entries ext)) := by
  rw [length_bodyOf] at fits
  have allowed : (entries.any fun entry => decide (entry.flags2 &&& ~~~0x6000 ≠ 0)) = false := by
    rw [any_eq_false]
    intro entry inside
    simp [marks entry inside]
  have ran : entries.foldlM (writeEntry stamp) (ascii "DIRC" ++ be 4 (versionFor entries) ++ be 4 entries.length) = _ :=
    writeEntries_some stamp valid (by rw [length_header]; omega)
  have room : ¬ sizeMax - (ascii "DIRC" ++ be 4 (versionFor entries) ++ be 4 entries.length ++
      entries.flatMap (encode stamp)).length - 20 < ext.length := by
    rw [length_append, length_header]
    omega
  rw [writeExt, if_neg (not_lt.2 few), allowed, ran, Option.bind_some, if_neg room]
  simp [bodyOf]

/-- Valid entries that fit into memory are written, and reading the file gives them back in their order; the place
after the entries is that of the extensions. -/
theorem index_round_trip (entries : List DiskEntry) (ext : Bytes)
    (valid : ∀ entry ∈ entries, pathValid entry.path.bytes = true)
      (marks : ∀ entry ∈ entries, entry.flags2 &&& ~~~0x6000 = 0)
    (few : entries.length ≤ 0xffffffff)
    (fits : 12 + (entries.flatMap (DiskEntry.encode stamp)).length + ext.length + 20 ≤ sizeMax) :
    ∃ file back off, writeExt stamp entries ext = some file ∧ readIndex file = some back ∧
      List.Forall₂ (ReadBack stamp) entries back ∧ afterEntries file = some off ∧
      file.length = off + ext.length + 20 ∧ (file.drop off).take ext.length = ext := by
  have size := length_bodyOf stamp entries ext
  generalize whole : bodyOf stamp entries ext = body at size
  obtain ⟨inner, trailer⟩ := fileBody_append body
  have header : readHeader (body ++ indexSha1 body) = some (versionFor entries, entries.length) := by
    rw [← whole, bodyOf, append_assoc]
    exact readHeader_eq (versionFor_known entries) (by omega) (by rw [length_append, length_indexSha1]; omega)
  have inside : (fileBody (body ++ indexSha1 body)).drop 12 = entries.flatMap (encode stamp) ++ ext := by
    rw [inner, ← whole, drop_bodyOf]
  obtain ⟨views, read, decoded⟩ := readEntries_encode stamp valid (versionFor_enough entries) ext
  have skipped := skipEntries_encode stamp (versionFor_enough entries) ext
  have long := long_entries stamp valid
  have length : (body ++ indexSha1 body).length = body.length + 20 := by rw [length_append, length_indexSha1]
  refine ⟨body ++ indexSha1 body, entries.map (written stamp), body.length - ext.length, ?_, ?_, ?_, ?_, ?_, ?_⟩
  · rw [← whole]
    exact writeExt_eq stamp valid marks few (by rw [length_bodyOf]; omega)
  · have count : ¬ ((body ++ indexSha1 body).length - 32) / 64 < entries.length := by
      omega
    rw [readIndex, readViews, header, Option.bind_some]
    dsimp only
    rw [if_neg count, inside, read, Option.bind_some]
    rw [inner, trailer, if_pos rfl]
    exact congrArg some decoded
  · exact forall₂_map_right_iff.2 (forall₂_same.2 fun entry _ => readBack_written stamp entry)
  · rw [afterEntries, header, Option.bind_some]
    dsimp only
    rw [inside, skipped, length]
    congr 1
  · rw [length]
    omega
  · obtain ⟨front, rfl⟩ : ∃ front, body = front ++ ext := ⟨_, by rw [← whole, bodyOf, ← append_assoc]⟩
    rw [length_append, Nat.add_sub_cancel, append_assoc, drop_left, take_left]

end

def sampleEntry : DiskEntry where
  ctimeSec := 9
  ctimeNsec := 0
  mtimeSec := 9
  mtimeNsec := 0
  dev := 1
  ino := 7
  mode := 0o100644
  uid := 0
  gid := 0
  size := 5
  sha := .filled 1
  flags := 0x8001
  flags2 := 0x4000
  path := ⟨ascii "d/f", by decide +kernel⟩

/-- A file that is not racy, with no second word of flags. -/
def otherEntry : DiskEntry :=
  { sampleEntry with path := ⟨ascii "g", by decide +kernel⟩, mtimeSec := 7, flags := 1, flags2 := 0 }

theorem index_round_trip_sample : ∃ file back off,
    writeExt 8 [sampleEntry, otherEntry] (ascii "TREE") = some file ∧ readIndex file = some back ∧
    List.Forall₂ (ReadBack 8) [sampleEntry, otherEntry] back ∧ afterEntries file = some off ∧
    file.length = off + (ascii "TREE").length + 20 ∧ (file.drop off).take (ascii "TREE").length = ascii "TREE" :=
  index_round_trip 8 [sampleEntry, otherEntry] (ascii "TREE") (by decide +kernel) (by decide +kernel) (by decide)
    (by decide +kernel)

end BashOs.Git.IndexFile

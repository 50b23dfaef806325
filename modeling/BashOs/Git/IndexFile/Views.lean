import BashOs.Lib.CString
import BashOs.Git.Store.Links

/-!
The entries of an index as memory holds them, the 62 bytes that every entry of the file begins with, the checksum at
its end, plain SHA-1 with the message schedule in a rolling window of sixteen words, and the reader that checks
everything it can: header, bounds, paths, padding and checksum. `room` is what is left of the file between the
reader's place and the checksum.
-/

namespace BashOs.Git.IndexFile
open BashOs.Lib List

@[ext] structure DiskEntry where
  ctimeSec : UInt32
  ctimeNsec : UInt32
  mtimeSec : UInt32
  mtimeNsec : UInt32
  dev : UInt32
  ino : UInt32
  mode : UInt32
  uid : UInt32
  gid : UInt32
  size : UInt32
  sha : ObjectId
  flags : UInt16
  flags2 : UInt16
  path : CString
deriving DecidableEq

def DiskEntry.stage (entry : DiskEntry) : Nat := entry.flags.toNat >>> 12 &&& 3

/-- What is wrong with one component of a path in `bgit_index_path_valid`; letters of `.git` in any case. -/
def badPart (part : Bytes) : Bool :=
  part = [] ∨ part = ascii "." ∨ part = ascii ".." ∨
    part.map (fun b => if 0x41 ≤ b ∧ b ≤ 0x5a then b + 0x20 else b) = ascii ".git"

def pathValid (path : Bytes) : Bool := (path.splitOn 0x2f).all fun part => !badPart part

/-! ## The fixed part -/

def DiskEntry.words (entry : DiskEntry) : List UInt32 :=
  [entry.ctimeSec, entry.ctimeNsec, entry.mtimeSec, entry.mtimeNsec, entry.dev, entry.ino, entry.mode, entry.uid,
    entry.gid, entry.size]

def DiskEntry.fixed (entry : DiskEntry) : Bytes :=
  (entry.words.flatMap fun word => be 4 word.toNat) ++ (entry.sha.bytes ++ be 2 entry.flags.toNat)

def readFixed (disk : Bytes) (long : 62 ≤ disk.length) (flags2 : UInt16) (path : CString) : DiskEntry where
  ctimeSec := UInt32.ofNat (wordAt 4 disk 0)
  ctimeNsec := UInt32.ofNat (wordAt 4 disk 4)
  mtimeSec := UInt32.ofNat (wordAt 4 disk 8)
  mtimeNsec := UInt32.ofNat (wordAt 4 disk 12)
  dev := UInt32.ofNat (wordAt 4 disk 16)
  ino := UInt32.ofNat (wordAt 4 disk 20)
  mode := UInt32.ofNat (wordAt 4 disk 24)
  uid := UInt32.ofNat (wordAt 4 disk 28)
  gid := UInt32.ofNat (wordAt 4 disk 32)
  size := UInt32.ofNat (wordAt 4 disk 36)
  sha := ⟨(disk.drop 40).take 20, by rw [length_take, length_drop]; omega⟩
  flags := UInt16.ofNat (wordAt 2 disk 60)
  flags2
  path

section
variable {entry : DiskEntry}

theorem length_words (entry : DiskEntry) : (entry.words.flatMap fun word => be 4 word.toNat).length = 40 := by
  simp [DiskEntry.words]

@[simp] theorem length_fixed (entry : DiskEntry) : entry.fixed.length = 62 := by
  rw [DiskEntry.fixed, length_append, length_words, length_append, entry.sha.width, be_length]

theorem wordAt_word (rest : Bytes) {i : Nat} {word : UInt32} (found : entry.words[i]? = some word) :
    UInt32.ofNat (wordAt 4 (entry.fixed ++ rest) (i * 4)) = word := by
  have layout : entry.fixed ++ rest = [] ++ ((entry.words.map UInt32.toNat).flatMap (be 4) ++
      (entry.sha.bytes ++ be 2 entry.flags.toNat ++ rest)) := by
    rw [DiskEntry.fixed, flatMap_map]
    simp
  have word_eq := wordAt_table layout rfl (i := i) (v := word.toNat) (by simp [found]) word.toNat_lt
  rw [length_nil, Nat.zero_add] at word_eq
  rw [word_eq, UInt32.ofNat_toNat]

theorem wordAt_flags (entry : DiskEntry) (rest : Bytes) : wordAt 2 (entry.fixed ++ rest) 60 = entry.flags.toNat := by
  have front : ((entry.words.flatMap fun word => be 4 word.toNat) ++ entry.sha.bytes).length = 60 := by
    rw [length_append, length_words, entry.sha.width]
  have split := wordAt_of_split 2 entry.flags.toNat
    ((entry.words.flatMap fun word => be 4 word.toNat) ++ entry.sha.bytes)
    rest entry.flags.toNat_lt
  rw [front] at split
  simpa [DiskEntry.fixed] using split

theorem readFixed_fixed (entry : DiskEntry) (rest : Bytes) (long : 62 ≤ (entry.fixed ++ rest).length) :
    readFixed (entry.fixed ++ rest) long entry.flags2 entry.path = entry := by
  have id : ((entry.fixed ++ rest).drop 40).take 20 = entry.sha.bytes := by
    have width := entry.sha.width
    rw [DiskEntry.fixed, append_assoc, ← length_words entry, drop_left, append_assoc, ← width, take_left]
  apply DiskEntry.ext
  · exact wordAt_word rest (i := 0) rfl
  · exact wordAt_word rest (i := 1) rfl
  · exact wordAt_word rest (i := 2) rfl
  · exact wordAt_word rest (i := 3) rfl
  · exact wordAt_word rest (i := 4) rfl
  · exact wordAt_word rest (i := 5) rfl
  · exact wordAt_word rest (i := 6) rfl
  · exact wordAt_word rest (i := 7) rfl
  · exact wordAt_word rest (i := 8) rfl
  · exact wordAt_word rest (i := 9) rfl
  · exact ObjectId.ext id
  · exact (congrArg UInt16.ofNat (wordAt_flags entry rest)).trans UInt16.ofNat_toNat
  · rfl
  · rfl

end

/-! ## The checksum -/

def rol32 (x n : UInt32) : UInt32 := x <<< n ||| x >>> (32 - n)

structure Sha1 where
  a : UInt32
  b : UInt32
  c : UInt32
  d : UInt32
  e : UInt32
deriving DecidableEq

/-- The function and the constant of a round: `BGIT_SHA1_R0` to `BGIT_SHA1_R4`. -/
def Sha1.mix (h : Sha1) (round : Nat) : UInt32 :=
  if round < 20 then (h.d ^^^ (h.b &&& (h.c ^^^ h.d))) + 0x5A827999
  else if round < 40 then (h.b ^^^ h.c ^^^ h.d) + 0x6ED9EBA1
  else if round < 60 then ((h.b &&& h.c) ||| (h.d &&& (h.b ||| h.c))) + 0x8F1BBCDC
  else (h.b ^^^ h.c ^^^ h.d) + 0xCA62C1D6

/-- The word of a round, with the window after it: `BGIT_SHA1_W` from the sixteenth round on. -/
def sha1Word (w : List UInt32) (round : Nat) : UInt32 × List UInt32 :=
  if round < 16 then (w.getD round 0, w)
  else
    let old (k : Nat) := w.getD ((round + k) % 16) 0
    let word := rol32 (old 13 ^^^ old 8 ^^^ old 2 ^^^ old 0) 1
    (word, w.set (round % 16) word)

/-- `BGIT_SHA1_STEP`. The source turns the names of the variables from round to round, here the values are. -/
def sha1Round (state : Sha1 × List UInt32) (round : Nat) : Sha1 × List UInt32 :=
  let h := state.1
  let (word, w) := sha1Word state.2 round
  ({ a := h.e + (rol32 h.a 5 + h.mix round + word), b := h.a, c := rol32 h.b 30, d := h.c, e := h.d }, w)

def sha1Block (h : Sha1) (block : Bytes) : Sha1 :=
  let words := (List.range 16).map fun i => UInt32.ofNat (wordAt 4 block (i * 4))
  let out := ((List.range 80).foldl sha1Round (h, words)).1
  { a := h.a + out.a, b := h.b + out.b, c := h.c + out.c, d := h.d + out.d, e := h.e + out.e }

def sha1Blocks (h : Sha1) (bytes : Bytes) : Nat → Sha1
  | 0 => h
  | blocks + 1 => sha1Blocks (sha1Block h bytes) (bytes.drop 64) blocks

def indexSha1 (data : Bytes) : Bytes :=
  let start : Sha1 := { a := 0x67452301, b := 0xEFCDAB89, c := 0x98BADCFE, d := 0x10325476, e := 0xC3D2E1F0 }
  let whole := data.length / 64
  let rest := data.drop (whole * 64)
  let tailLength := if rest.length < 56 then 64 else 128
  let tail := rest ++ 0x80 :: (List.replicate (tailLength - rest.length - 9) 0 ++ be 8 (data.length * 8))
  let h := sha1Blocks (sha1Blocks start data whole) tail (tailLength / 64)
  [h.a, h.b, h.c, h.d, h.e].flatMap fun word => be 4 word.toNat

@[simp] theorem length_indexSha1 (data : Bytes) : (indexSha1 data).length = 20 := by
  simp [indexSha1]

example : indexSha1 (ascii "abc") = [0xa9, 0x99, 0x3e, 0x36, 0x47, 0x06, 0x81, 0x6a, 0xba, 0x3e, 0x25, 0x71, 0x78, 0x50,
    0xc2, 0x6c, 0x9c, 0xd0, 0xd8, 0x9d] := by decide +kernel

/-! ## The reader -/

/-- `memchr` for a NUL -/
def findNul (bytes : Bytes) : Option Nat := if 0 ∈ bytes then some (bytes.takeWhile (· ≠ 0)).length else none

def padding (length : Nat) : Nat := 8 - length % 8

/-- Where the path of the entry at hand starts, and its length: what `bgit_index_read_views_len` and
`bgit_index_after_entries` do alike. A length that the flags cannot hold is that to the first NUL. -/
def pathExtent (version : Nat) (room : Bytes) : Option (Nat × Nat) :=
  if room.length < 62 then none
  else
    let flags := wordAt 2 room 60
    let start := if 3 ≤ version ∧ flags &&& 0x4000 ≠ 0 then 64 else 62
    if room.length < start then none
    else
      (findNul (room.drop start)).bind fun nul =>
        let length := if flags &&& 0xfff = 0xfff then nul else flags &&& 0xfff
        if nul ≠ length then none else some (start, length)

/-- `bgit_index_view`: the bytes from the entry on, and its path. -/
structure View where
  disk : Bytes
  path : CString
  long : 62 ≤ disk.length
deriving DecidableEq

/-- One turn of `bgit_index_read_views_len`. -/
def readView (version : Nat) (room : Bytes) : Option (View × Bytes) :=
  if long : 62 ≤ room.length then
    (pathExtent version room).bind fun (start, length) =>
      let path := CString.ofBytes (room.drop start)
      let pad := padding (start + length)
      if !pathValid path.bytes then none
      else if room.length - (start + length) < pad then none
      else if ((room.drop (start + length)).take pad).any (· ≠ 0) then none
      else some (⟨room, path, long⟩, room.drop (start + length + pad))
  else none

def readEntries (version : Nat) : Nat → Bytes → Option (List View × Bytes)
  | 0, room => some ([], room)
  | count + 1, room =>
    (readView version room).bind fun (view, room) =>
      (readEntries version count room).map fun (views, room) => (view :: views, room)

def readHeader (file : Bytes) : Option (Nat × Nat) :=
  if file.length < 32 then none
  else if file.take 4 ≠ ascii "DIRC" then none
  else if wordAt 4 file 4 ≠ 2 ∧ wordAt 4 file 4 ≠ 3 then none
  else some (wordAt 4 file 4, wordAt 4 file 8)

def fileBody (file : Bytes) : Bytes := file.take (file.length - 20)

/-- `bgit_index_read_views_len`, with the version that `bgit_index_decode_views` finds in the file again. -/
def readViews (file : Bytes) : Option (Nat × List View) :=
  (readHeader file).bind fun (version, count) =>
    if (file.length - 32) / 64 < count then none
    else
      (readEntries version count ((fileBody file).drop 12)).bind fun (views, _) =>
        if indexSha1 (fileBody file) = file.drop (file.length - 20) then some (version, views) else none

/-- `bgit_index_decode_views` for one view -/
def View.decode (version : Nat) (view : View) : DiskEntry :=
  let flags := wordAt 2 view.disk 60
  let flags2 := if 3 ≤ version ∧ flags &&& 0x4000 ≠ 0 then UInt16.ofNat (wordAt 2 view.disk 62) else 0
  readFixed view.disk view.long flags2 view.path

def readIndex (file : Bytes) : Option (List DiskEntry) :=
  (readViews file).map fun (version, views) => views.map (View.decode version)

/-- One turn of `bgit_index_after_entries`, which looks at no path and at no padding. -/
def skipEntry (version : Nat) (room : Bytes) : Option Bytes :=
  (pathExtent version room).bind fun (start, length) =>
    let pad := padding (start + length)
    if room.length - (start + length) < pad then none else some (room.drop (start + length + pad))

def skipEntries (version : Nat) : Nat → Bytes → Option Bytes
  | 0, room => some room
  | count + 1, room => (skipEntry version room).bind (skipEntries version count)

def afterEntries (file : Bytes) : Option Nat :=
  (readHeader file).bind fun (version, count) =>
    (skipEntries version count ((fileBody file).drop 12)).map fun room => file.length - 20 - room.length

end BashOs.Git.IndexFile

import Mathlib.Data.List.Dedup
import BashOs.Git.Pack.Read
import BashOs.Lib.Assoc

/-!
The object store: loose files and packs over a list of object directories, the repository's own first and its
alternates after it.
-/

namespace BashOs.Git
open BashOs.Lib BashOs.Git.Pack List

/-! ## Directories -/

structure LooseFile where
  data : Bytes
  mtime : Int
deriving DecidableEq

/-- One `objects` directory: its loose files under the ids their paths spell, the files of `pack/` under their
names, and what an unfinished write left at the top, under a name that starts with `tmp_obj_`, with its age. -/
structure ObjectDir where
  loose : List (ObjectId × LooseFile)
  packs : List (Bytes × Bytes)
  temporary : List (Bytes × Int)
  looseDistinct : (loose.map Prod.fst).Nodup
  packsDistinct : (packs.map Prod.fst).Nodup
deriving DecidableEq

def ObjectDir.looseFile (dir : ObjectDir) (id : ObjectId) : Option LooseFile := dir.loose.lookup id

def ObjectDir.packFile (dir : ObjectDir) (name : Bytes) : Option Bytes := dir.packs.lookup name

/-- `struct bgit_pack_file`, with the pack's bytes in place of its path. -/
structure PackFile where
  stem : Bytes
  idx : Bytes
  pack : Bytes
deriving DecidableEq

/-- What `bgit_odb_scan_packs` asks of an index before it takes it. -/
def idxUsable (idx : Bytes) : Bool :=
  1032 ≤ idx.length && idx.take 4 = [0xff, 0x74, 0x4f, 0x63] && wordAt 4 idx 4 = 2

/-- One turn of `bgit_odb_scan_packs`: the name of an index of version two whose pack stands beside it. -/
def ObjectDir.packNamed (dir : ObjectDir) (name : Bytes) : Option PackFile :=
  let stem := name.take (name.length - 4)
  if name.length < 5 ∨ name.drop (name.length - 4) ≠ ascii ".idx" then none
  else
    match dir.packFile (stem ++ ascii ".pack"), dir.packFile name with
    | some pack, some idx => if idxUsable idx then some { stem, idx, pack } else none
    | _, _ => none

def ObjectDir.scan (dir : ObjectDir) : List PackFile := dir.packs.filterMap fun file => dir.packNamed file.1

def scanPacks (dirs : List ObjectDir) : List PackFile := dirs.flatMap ObjectDir.scan

theorem ObjectDir.packNamed_eq_some {dir : ObjectDir} {name : Bytes} {file : PackFile}
    (found : dir.packNamed name = some file) :
    name = file.stem ++ ascii ".idx" ∧ file.stem ≠ [] ∧ dir.packFile name = some file.idx ∧
      dir.packFile (file.stem ++ ascii ".pack") = some file.pack ∧ idxUsable file.idx := by
  simp only [ObjectDir.packNamed] at found
  split at found
  · cases found
  next named =>
    simp only [not_or, not_not] at named
    split at found
    next pack idx besidePack besideIdx =>
      split at found
      next usable =>
        cases found
        refine ⟨?_, ?_, besideIdx, besidePack, usable⟩
        · rw [← named.2, take_append_drop]
        · apply ne_nil_of_length_pos
          simp
          omega
      · cases found
    · cases found

theorem ObjectDir.mem_scan_iff (dir : ObjectDir) (file : PackFile) :
    file ∈ dir.scan ↔ file.stem ≠ [] ∧ dir.packFile (file.stem ++ ascii ".idx") = some file.idx ∧
      dir.packFile (file.stem ++ ascii ".pack") = some file.pack ∧ idxUsable file.idx := by
  rw [ObjectDir.scan, mem_filterMap]
  constructor
  · rintro ⟨entry, -, found⟩
    obtain ⟨name, rest⟩ := ObjectDir.packNamed_eq_some found
    exact name ▸ rest
  · rintro ⟨long, besideIdx, besidePack, usable⟩
    have here : file.stem ++ ascii ".idx" ∈ dir.packs.map Prod.fst :=
      (mem_keys_iff dir.packs _).2 (congrArg Option.isSome besideIdx)
    obtain ⟨entry, member, name⟩ := mem_map.1 here
    refine ⟨entry, member, ?_⟩
    have four : (ascii ".idx").length = 4 := rfl
    have positive := length_pos_iff.2 long
    have cut : (file.stem ++ ascii ".idx").length - 4 = file.stem.length := by simp [four]
    have long : ¬(file.stem ++ ascii ".idx").length < 5 := by
      omega
    simp only [ObjectDir.packNamed, name, cut, take_left, drop_left, besideIdx, besidePack, usable, long,
      ne_eq, not_true_eq_false, or_self, if_false, if_true]

def PackFile.mapping (file : PackFile) : Option Bytes :=
  if file.pack.length < 32 ∨ file.pack.take 4 ≠ ascii "PACK" then none else some file.pack

/-! ## Reading -/

def decimal (digits : Bytes) : Option Nat :=
  digits.foldlM (fun size b =>
    let digit := b.toNat - 0x30
    if b < 0x30 ∨ b > 0x39 ∨ size > (2 ^ 64 - 1 - digit) / 10 then none else some (size * 10 + digit)) 0

def typeNamed (name : Bytes) : Option ObjectType :=
  if name = ascii "blob" then some .blob
  else if name = ascii "tree" then some .tree
  else if name = ascii "commit" then some .commit
  else if name = ascii "tag" then some .tag
  else none

/-- `bgit_parse_header`, with what follows the header. -/
def parseHeader (raw : Bytes) : Option (ObjectType × Nat × Bytes) :=
  match raw.dropWhile (fun b => b ≠ 0x20) with
  | [] => none
  | _ :: sized =>
    let digits := sized.takeWhile (fun b => b ≠ 0)
    match sized.dropWhile (fun b => b ≠ 0) with
    | [] => none
    | _ :: content =>
      -- no size at all, or a zero in front of more digits
      if digits = [] ∨ (digits.head? = some 0x30 ∧ digits.length > 1) then none
      else do
        let type ← typeNamed (raw.takeWhile (fun b => b ≠ 0x20))
        let size ← decimal digits
        some (type, size, content)

inductive Found where
  | here (object : Object)
  | broken
  | absent
deriving DecidableEq

def Found.ofContent (type : ObjectType) (content : Bytes) : Found :=
  if fits : content.length < addressSpace then .here ⟨type, content, fits⟩ else .broken

def Found.ofLoose (raw : Bytes) : Found :=
  match parseHeader raw with
  | some (type, size, content) => if size = content.length then .ofContent type content else .broken
  | none => .broken

/-- `bgit_odb_read_loose`: a file that does not inflate is passed over, one with a bad header is not. -/
def readLoose (prim : Primitives) (id : ObjectId) : List ObjectDir → Found
  | [] => .absent
  | dir :: dirs =>
    match (dir.looseFile id).bind fun file => prim.inflate file.data with
    | some (raw, _) => .ofLoose raw
    | none => readLoose prim id dirs

/-- One pack's turn in `bgit_odb_read_packed`. `loose` is where a delta's base is sought that its own pack does
not hold. -/
def PackFile.read (prim : Primitives) (loose : LooseRead) (file : PackFile)
    (id : ObjectId) : Found :=
  if lookupOffset file.idx id = notFound then .absent
  else
    match file.mapping with
    | none => .absent
    | some bytes =>
      match (readObjectAt prim loose { address := 0, bytes } file.idx (lookupOffset file.idx id) 0 Cache.empty).1 with
      | some (type, content) => .ofContent type content
      | none => .broken

def readPacked (prim : Primitives) (loose : LooseRead) (id : ObjectId) :
    List PackFile → Found
  | [] => .absent
  | file :: files =>
    match file.read prim loose id with
    | .absent => readPacked prim loose id files
    | answer => answer

def packed (packs : List PackFile) (id : ObjectId) : Bool :=
  packs.any fun file => lookupOffset file.idx id ≠ notFound

def has (dirs : List ObjectDir) (packs : List PackFile) (id : ObjectId) : Bool :=
  dirs.any (fun dir => (dir.looseFile id).isSome) || packed packs id

/-- `bgit_odb_read` of a whole id -/
def odbRead (prim : Primitives) (loose : LooseRead) (dirs : List ObjectDir)
    (packs : List PackFile) (id : ObjectId) : Option Object :=
  if has dirs packs id then
    match readLoose prim id dirs with
    | .here object => some object
    | .broken => none
    | .absent =>
      match readPacked prim loose id packs with
      | .here object => some object
      | _ => none
  else none

/-! ## Listing -/

def PackFile.names (file : PackFile) : Ids :=
  let total := wordAt 4 file.idx (8 + 255 * 4)
  if total * 20 > file.idx.length - 1032 then []
  else (List.range total).filterMap fun k => idOf ((file.idx.drop (1032 + k * 20)).take 20)

/-- `bgit_odb_list`: the sort puts repeats side by side, and one of each stays. -/
def odbList (dirs : List ObjectDir) (packs : List PackFile) : Ids :=
  let names := dirs.flatMap (fun dir => dir.loose.map Prod.fst) ++ packs.flatMap PackFile.names
  (names.insertionSort (fun a b => a.bytes ≤ b.bytes)).dedup

/-- `bgit_odb_loose_path`: the first directory that has the file. -/
def loosePath (dirs : List ObjectDir) (id : ObjectId) : Option Nat :=
  dirs.findIdx? fun dir => (dir.looseFile id).isSome

/-! ## A store that can be read -/

def Stored (dirs : List ObjectDir) (packs : List PackFile) (id : ObjectId) : Prop :=
  (∃ dir ∈ dirs, (dir.looseFile id).isSome) ∨ ∃ file ∈ packs, lookupOffset file.idx id ≠ notFound

theorem packed_iff (packs : List PackFile) (id : ObjectId) :
    packed packs id = true ↔ ∃ file ∈ packs, lookupOffset file.idx id ≠ notFound := by
  simp [packed]

theorem has_iff (dirs : List ObjectDir) (packs : List PackFile) (id : ObjectId) :
    has dirs packs id = true ↔ Stored dirs packs id := by
  simp [has, Stored, packed]

/-- Every copy of every object can be read and is the object its name stands for: each loose file, each entry of
each index whatever lies loose in the working directory, and no index lists a name it cannot find. -/
structure Sound (prim : Primitives) (obj : Objects) (dirs : List ObjectDir)
    (packs : List PackFile) : Prop where
  loose : ∀ dir ∈ dirs, ∀ id file, dir.looseFile id = some file →
    ∃ raw used object, prim.inflate file.data = some (raw, used) ∧ Found.ofLoose raw = .here object ∧
      obj id = some object
  packed : ∀ file ∈ packs, ∀ id, lookupOffset file.idx id ≠ notFound →
    ∃ object, obj id = some object ∧ ∀ loose, file.read prim loose id = .here object
  names : ∀ file ∈ packs, ∀ id ∈ file.names, lookupOffset file.idx id ≠ notFound

section Sound
variable {prim : Primitives} {obj : Objects} {dirs : List ObjectDir} {packs : List PackFile}

theorem readLoose_cases (all : ∀ dir ∈ dirs, ∀ id file, dir.looseFile id = some file →
    ∃ raw used object, prim.inflate file.data = some (raw, used) ∧ Found.ofLoose raw = .here object ∧
      obj id = some object) (id : ObjectId) :
    (∃ object, readLoose prim id dirs = .here object ∧ obj id = some object) ∨
      readLoose prim id dirs = .absent ∧ ∀ dir ∈ dirs, dir.looseFile id = none := by
  induction dirs with
  | nil => exact .inr ⟨rfl, by simp⟩
  | cons dir dirs ih =>
    cases file : dir.looseFile id with
    | some found =>
      obtain ⟨raw, used, object, inflated, reads, named⟩ := all dir (.head _) id found file
      exact .inl ⟨object, by simp [readLoose, file, inflated, reads], named⟩
    | none =>
      have next : readLoose prim id (dir :: dirs) = readLoose prim id dirs := by simp [readLoose, file]
      rw [next]
      rcases ih (fun dir member => all dir (.tail _ member)) with found | ⟨absent, none⟩
      · exact .inl found
      · exact .inr ⟨absent, forall_mem_cons.2 ⟨file, none⟩⟩

theorem readPacked_cases (loose : LooseRead)
    (all : ∀ file ∈ packs, ∀ id, lookupOffset file.idx id ≠ notFound →
      ∃ object, obj id = some object ∧ ∀ loose, file.read prim loose id = .here object) (id : ObjectId) :
    (∃ object, readPacked prim loose id packs = .here object ∧ obj id = some object) ∨
      readPacked prim loose id packs = .absent ∧ ∀ file ∈ packs, lookupOffset file.idx id = notFound := by
  induction packs with
  | nil => exact .inr ⟨rfl, by simp⟩
  | cons file files ih =>
    by_cases known : lookupOffset file.idx id = notFound
    · have next : readPacked prim loose id (file :: files) = readPacked prim loose id files := by
        simp [readPacked, PackFile.read, known]
      rw [next]
      rcases ih (fun file member => all file (.tail _ member)) with found | ⟨absent, none⟩
      · exact .inl found
      · exact .inr ⟨absent, forall_mem_cons.2 ⟨known, none⟩⟩
    · obtain ⟨object, named, reads⟩ := all file (.head _) id known
      exact .inl ⟨object, by simp [readPacked, reads loose], named⟩

section
variable (sound : Sound prim obj dirs packs) (loose : LooseRead) (id : ObjectId)
include sound loose id

/-- In a sound store an object can be read exactly when a copy of it is stored, and what is read is the object. -/
theorem Sound.read :
    (Stored dirs packs id ∧ ∃ object, obj id = some object ∧ odbRead prim loose dirs packs id = some object) ∨
      ¬Stored dirs packs id ∧ odbRead prim loose dirs packs id = none := by
  by_cases stored : Stored dirs packs id
  · refine .inl ⟨stored, ?_⟩
    have here := (has_iff dirs packs id).2 stored
    rcases readLoose_cases sound.loose id with ⟨object, reads, named⟩ | ⟨absent, noLoose⟩
    · exact ⟨object, named, by simp [odbRead, here, reads]⟩
    rcases readPacked_cases loose sound.packed id with ⟨object, reads, named⟩ | ⟨-, noPack⟩
    · exact ⟨object, named, by simp [odbRead, here, absent, reads]⟩
    · rcases stored with ⟨dir, member, file⟩ | ⟨file, member, known⟩
      · simp [noLoose dir member] at file
      · exact absurd (noPack file member) known
  · have gone : has dirs packs id = false := Bool.eq_false_iff.2 (fun here => stored ((has_iff dirs packs id).1 here))
    exact .inr ⟨stored, by simp [odbRead, gone]⟩

theorem Sound.isSome_read_iff : (odbRead prim loose dirs packs id).isSome ↔ Stored dirs packs id := by
  rcases sound.read loose id with ⟨stored, object, -, reads⟩ | ⟨gone, reads⟩
  · simp [reads, stored]
  · simp [reads, gone]

end

theorem PackFile.mem_names_of_known {file : PackFile} {id : ObjectId} (known : lookupOffset file.idx id ≠ notFound) :
    id ∈ file.names := by
  rw [lookupOffset] at known
  split at known
  · exact absurd rfl known
  next long =>
    simp only at known
    generalize (if firstByte id = 0 then 0 else wordAt 4 file.idx (8 + (firstByte id - 1) * 4)) = low at known
    split at known
    · exact absurd rfl known
    next range =>
      split at known
      · exact absurd rfl known
      next tables =>
        split at known
        · exact absurd rfl known
        next i found =>
          obtain ⟨-, upper, named⟩ := searchNames_some found
          rw [PackFile.names, if_neg (by omega)]
          refine mem_filterMap.2 ⟨i, mem_range.2 (by omega), ?_⟩
          rw [named, idOf, dif_pos id.width]

theorem Sound.mem_odbList (sound : Sound prim obj dirs packs) (id : ObjectId) :
    id ∈ odbList dirs packs ↔ Stored dirs packs id := by
  rw [odbList, mem_dedup, (perm_insertionSort _ _).mem_iff, mem_append, mem_flatMap, mem_flatMap]
  simp only [mem_keys_iff]
  constructor
  · rintro (loose | ⟨file, member, listed⟩)
    · exact .inl loose
    · exact .inr ⟨file, member, sound.names file member id listed⟩
  · rintro (loose | ⟨file, member, known⟩)
    · exact .inl loose
    · exact .inr ⟨file, member, PackFile.mem_names_of_known known⟩

end Sound

end BashOs.Git

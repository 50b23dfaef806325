import BashOs.Git.IndexFile.Listing
import BashOs.Git.Store.Keep

/-!
What a walk takes from the index file. Three readers go over the same bytes: one for the entries, which refuses a file
it finds anything wrong with, and two that look for an extension behind the entries and check next to nothing. A reader
that fails contributes no heads, and the walk goes on without them.
-/

namespace BashOs.Git.IndexFile
open BashOs.Lib

/-! ## Extensions -/

/-- The extensions in what is left of the file, each with its name. One that is longer than that ends them. -/
def extensions : Nat → Bytes → List (Bytes × Bytes)
  | 0, _ => []
  | rounds + 1, room =>
    if room.length < 8 then []
    else
      let size := wordAt 4 room 4
      if room.length - 8 < size then []
      else (room.take 4, (room.drop 8).take size) :: extensions rounds (room.drop (8 + size))

def extensionBodies (name file : Bytes) : Option (List Bytes) :=
  (afterEntries file).map fun off =>
    ((extensions file.length ((fileBody file).drop off)).filter fun found => found.1 = name).map Prod.snd

def undoModes : Nat → Bytes → Option (List Bool × Bytes)
  | 0, body => some ([], body)
  | stages + 1, body =>
    (findNul body).bind fun nul =>
      (undoModes stages (body.drop (nul + 1))).map fun (set, rest) =>
        ((0 < nul ∧ body.head? ≠ some 0x30 : Bool) :: set, rest)

def undoIds : List Bool → Bytes → Ids × Option Bytes
  | [], body => ([], some body)
  | false :: set, body => undoIds set body
  | true :: set, body =>
    if long : 20 ≤ body.length then
      let (ids, rest) := undoIds set (body.drop 20)
      (⟨body.take 20, length_take_id long⟩ :: ids, rest)
    else ([], none)

def undoBody : Nat → Bytes → Ids
  | 0, _ => []
  | rounds + 1, body =>
    match (findNul body).bind fun nul => undoModes 3 (body.drop (nul + 1)) with
    | none => []
    | some (set, body) =>
      match undoIds set body with
      | (ids, none) => ids
      | (ids, some rest) => ids ++ undoBody rounds rest

def resolveUndo (file : Bytes) : Option Ids :=
  (extensionBodies (ascii "REUC") file).map fun bodies => bodies.flatMap fun body => undoBody body.length body

/-- Whether `strtol` makes a negative number of a text. -/
def strtolNegative (text : Bytes) : Bool :=
  match text.dropWhile isSpace with
  | 0x2d :: digits => (digits.takeWhile fun b => 0x30 ≤ b && b ≤ 0x39).any fun b => b ≠ 0x30
  | _ => false

def cacheTreeBody : Nat → Bytes → Ids
  | 0, _ => []
  | rounds + 1, body =>
    match findNul body with
    | none => []
    | some nul =>
      let rest := body.drop (nul + 1)
      let line := rest.takeWhile fun b => b ≠ 0x0a
      if 0x0a ∉ rest ∨ 64 ≤ line.length then []
      else
        let rest := rest.drop (line.length + 1)
        -- not worked out yet
        if strtolNegative line then cacheTreeBody rounds rest
        else if long : 20 ≤ rest.length then ⟨rest.take 20, length_take_id long⟩ :: cacheTreeBody rounds (rest.drop 20)
        else []

def cacheTree (file : Bytes) : Option Ids :=
  (extensionBodies (ascii "TREE") file).map fun bodies => bodies.flatMap fun body => cacheTreeBody body.length body

/-! ## What a file names

Read for its ids alone, with no check of paths, padding or checksum, as far as the bytes go. -/

/-- Behind an entry. Version 4 has no length and no padding: what the name shares with the one before it, then the
rest of the name. -/
def nextEntry (version : Nat) (room : Bytes) : Option Bytes :=
  if version = 4 then
    (decodeVarint (room.drop (if wordAt 2 room 60 &&& 0x4000 ≠ 0 then 64 else 62))).bind fun (_, name) =>
      (findNul name).map fun nul => name.drop (nul + 1)
  else skipEntry version room

def entryNames (version : Nat) : Nat → Bytes → Ids
  | 0, _ => []
  | count + 1, room =>
    if long : 62 ≤ room.length then
      (readFixed room long 0 ⟨[], by simp⟩).sha :: ((nextEntry version room).map (entryNames version count)).getD []
    else []

def indexNames (file : Bytes) : Ids :=
  if file.take 4 = ascii "DIRC" then entryNames (wordAt 4 file 4) (wordAt 4 file 8) (file.drop 12) else []

/-- What `git_fsck_heads` gets out of an index file, and what it would get if no file were refused. -/
def indexIds (file : Bytes) : IndexIds where
  entries := ((readIndex file).getD []).map DiskEntry.sha
  undo := (resolveUndo file).getD []
  cacheTree := (cacheTree file).getD []
  named := indexNames file

end BashOs.Git.IndexFile

namespace BashOs.Git
open BashOs.Lib BashOs.Git.Pack BashOs.Git.IndexFile

/-! ## Pruning without the index -/

section Unread
variable {prim : Primitives} {loose : LooseRead} {dirs : List ObjectDir}

def Context.index (context : Context) (repo : Repository) : Option IndexIds :=
  context.indexFile.getD (context.gitDir repo).index

def otherRoots (repo : Repository) (context : Context) : Ids :=
  (refsList repo context).filterMap (fun ref => idOfHex ref.2) ++ (resolveHead repo context).toList.filterMap idOfHex ++
    logIds idOfHex repo.common

theorem mem_fsckHeads_iff {repo : Repository} {context : Context} {ids : IndexIds}
    (index : context.index repo = some ids)
    (id : ObjectId) :
    id ∈ fsckHeads repo context false ↔ id ∈ otherRoots repo context ∨ id ∈ ids.entries ∨ id ∈ ids.cacheTree := by
  rw [Context.index] at index
  rw [fsckHeads]
  cases given : context.indexFile with
  | none =>
    rw [given, Option.getD_none] at index
    rw [index]
    simp only [otherRoots, List.mem_append]
    tauto
  | some file =>
    rw [given, Option.getD_some] at index
    rw [index]
    simp only [otherRoots, List.mem_append]
    tauto

/-- With an index file that cannot be read, prune keeps what the file names just when each such object is reachable
all the same, from the refs, HEAD, the reflogs, the heads that were asked for or a tree the file's cache has, or is
spared. -/
theorem prune_keeps_unread_index_iff (repo : Repository) (context : Context) (file : Bytes)
    (index : context.index repo = some (indexIds file)) (unread : readIndex file = none) {more : List (Option ObjectId)}
    {dryRun : Bool} {expire : Option Int} {gone : List Location} {resolved : List ObjectId}
    (named : more.mapM id = some resolved)
    (ran : pruneRun prim loose dirs (fsckHeads repo context false) more dryRun expire = some gone) :
    (∀ id ∈ indexNames file, Stored dirs (scanPacks dirs) id →
      Stored (without dirs gone) (scanPacks (without dirs gone)) id) ↔
      ∀ id ∈ indexNames file, Stored dirs (scanPacks dirs) id →
        Reachable prim loose dirs
            (fun x => x ∈ otherRoots repo context ∨ x ∈ (cacheTree file).getD [] ∨ x ∈ resolved) id ∨
          SparedByPrune dirs dryRun expire id := by
  have heads (x : ObjectId) : x ∈ fsckHeads repo context false ++ resolved ↔
      x ∈ otherRoots repo context ∨ x ∈ (cacheTree file).getD [] ∨ x ∈ resolved := by
    rw [List.mem_append, mem_fsckHeads_iff index, indexIds, unread]
    simp [or_assoc]
  refine forall₃_congr fun id _ stored => ?_
  rw [prune_stored_iff ran named stored]
  simp only [heads]

end Unread

section Sample

/-! A staged file that nothing else holds, in an index that was written without its checksum. -/

def stagedId : ObjectId := .filled 1

def stagedDir : ObjectDir :=
  { sampleDir with
    loose := [(stagedId, ⟨storedBytes (ascii "blob 0" ++ [0]), 100⟩)]
    looseDistinct := by decide }

def unsummed : Bytes := bodyAt 1 [] ++ List.replicate 20 0

def stagedOnly : Repository :=
  { common := { unborn with index := some (indexIds unsummed) }, linked := [], packedRefs := [] }

theorem prune_loses_unread_index :
    readIndex unsummed = none ∧ stagedId ∈ indexNames unsummed ∧
      (odbRead storing noLoose [stagedDir] (scanPacks [stagedDir]) stagedId).isSome ∧
      ∃ gone, pruneRun storing noLoose [stagedDir] (fsckHeads stagedOnly ⟨none, none⟩ false) [] false none = some gone ∧
        odbRead storing noLoose (without [stagedDir] gone) (scanPacks (without [stagedDir] gone)) stagedId = none :=
  ⟨by decide +kernel, by decide +kernel, by decide +kernel, [⟨0, .loose stagedId⟩], by decide +kernel, by decide +kernel⟩

/-- With a time before the file's own, it is too young to go. -/
theorem prune_keeps_unread_index_young : ∃ gone,
    pruneRun storing noLoose [stagedDir] (fsckHeads stagedOnly ⟨none, none⟩ false) [] false (some 50) = some gone ∧
      ∀ id ∈ indexNames unsummed, Stored [stagedDir] (scanPacks [stagedDir]) id →
        Stored (without [stagedDir] gone) (scanPacks (without [stagedDir] gone)) id := by
  have ran : pruneRun storing noLoose [stagedDir] (fsckHeads stagedOnly ⟨none, none⟩ false) [] false (some 50) =
      some [] := by
    decide +kernel
  refine ⟨[], ran, ?_⟩
  refine (prune_keeps_unread_index_iff stagedOnly ⟨none, none⟩ unsummed rfl (by decide +kernel) rfl ran).2 ?_
  intro id member _
  cases List.mem_singleton.1 member
  exact .inr (.inr (.inr (.inr ⟨stagedDir, _, rfl, rfl, rfl⟩)))

end Sample

end BashOs.Git

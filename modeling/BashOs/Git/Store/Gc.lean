import BashOs.Git.Pack.RoundTrip
import BashOs.Git.Store.Odb
import BashOs.Lib.Worklist

/-!
Collecting the store: `git prune` takes away loose objects that nothing reaches, `git repack` puts what is
reachable into one pack and with `-d` takes away what that makes redundant.

A run is described by the files it unlinks; what it leaves is the store without them.
-/

namespace BashOs.Git
open BashOs.Lib BashOs.Git.Pack List

/-! ## Files of the store -/

inductive Place where
  | loose (id : ObjectId)
  | pack (name : Bytes)
  | temporary (name : Bytes)
deriving DecidableEq

structure Location where
  dir : Nat
  place : Place
deriving DecidableEq

/-- Directory number `i` without the files of it that are gone. -/
def ObjectDir.less (dir : ObjectDir) (i : Nat) (gone : List Location) : ObjectDir where
  loose := dir.loose.filter fun file => ⟨i, .loose file.1⟩ ∉ gone
  packs := dir.packs.filter fun file => ⟨i, .pack file.1⟩ ∉ gone
  temporary := dir.temporary.filter fun file => ⟨i, .temporary file.1⟩ ∉ gone
  looseDistinct := nodup_keys_filter dir.looseDistinct _
  packsDistinct := nodup_keys_filter dir.packsDistinct _

def without (dirs : List ObjectDir) (gone : List Location) : List ObjectDir :=
  dirs.mapIdx fun i dir => dir.less i gone

/-- A file written to `pack/` takes the place of one that had its name. -/
def ObjectDir.store (dir : ObjectDir) (name data : Bytes) : ObjectDir :=
  { dir with
    packs := (name, data) :: dir.packs.filter fun file => file.1 ≠ name
    packsDistinct := by
      rw [map_cons, nodup_cons]
      refine ⟨?_, nodup_keys_filter dir.packsDistinct _⟩
      intro member
      obtain ⟨file, kept, same⟩ := mem_map.1 member
      simpa [same] using (mem_filter.1 kept).2 }

/-! ## The walk -/

section Runs
variable (prim : Primitives) (loose : LooseRead) (dirs : List ObjectDir)

def linksOf (id : ObjectId) : Ids :=
  match odbRead prim loose dirs (scanPacks dirs) id with
  | some object => fsckLinks object
  | none => []

/-- What an object points at, however it spells the ids. -/
def pointsTo (id : ObjectId) : Ids :=
  match odbRead prim loose dirs (scanPacks dirs) id with
  | some object => linkIds object
  | none => []

/-- `git_fsck_reach` from a list of heads, every listed object taken as present. -/
def fsckReach (heads : Ids) : Ids :=
  let known := odbList dirs (scanPacks dirs)
  -- an object is visited once, so there are visits enough to empty the stack
  walk known (linksOf prim loose dirs) known.length [] (heads.foldl (push known []) [])

/-! ## Prune -/

/-- `(time_t) -1` stands for no limit, as no time at all does. -/
def expired (expire : Option Int) (mtime : Int) : Bool :=
  match expire with
  | none => true
  | some time => time = -1 || mtime ≤ time

/-- `git_prune_run`, answering the files it unlinks. `more` are the heads of the command line, each resolved or
not; one that names nothing ends the run before anything is removed. -/
def pruneRun (heads : Ids) (more : List (Option ObjectId)) (dryRun : Bool) (expire : Option Int) :
    Option (List Location) :=
  (more.mapM id).map fun more =>
    let reached := fsckReach prim loose dirs (heads ++ more)
    match dirs with
    | [] => []
    | own :: _ =>
      if dryRun then []
      else
        (own.temporary.filter fun file => expired expire file.2).map (fun file => ⟨0, .temporary file.1⟩) ++
          (own.loose.filter fun file => file.1 ∉ reached && expired expire file.2.mtime).map
            (fun file => ⟨0, .loose file.1⟩)

/-! ## Repack -/

def repackObjects (heads : Ids) (unpackedOnly : Bool) : Ids :=
  let snapshot := scanPacks dirs
  let reached := fsckReach prim loose dirs heads
  (odbList dirs snapshot).filter fun id => id ∈ reached && !(unpackedOnly && packed snapshot id)

/-- A name cut at its last dot, as `strrchr` finds it. -/
def lastDot (name : Bytes) : Option (Bytes × Bytes) :=
  if 0x2e ∈ name then
    let stem := name.length - (name.reverse.takeWhile fun b => b ≠ 0x2e).length - 1
    some (name.take stem, name.drop stem)
  else none

def packExtensions : List Bytes := [ascii ".pack", ascii ".idx", ascii ".rev", ascii ".bitmap", ascii ".mtimes"]

/-- A file of a pack that the new one, named for `checksum`, replaces: not one someone asked to keep. -/
def replaced (own : ObjectDir) (checksum name : Bytes) : Bool :=
  if name.length < 6 || !(ascii "pack-").isPrefixOf name then false
  else
    match lastDot name with
    | none => false
    | some (stem, extension) =>
      extension ∈ packExtensions && stem.drop 5 ≠ checksum && (own.packFile (stem ++ ascii ".keep")).isNone

/-- One turn of the loop over the packed ids: the loose copy found first goes, in whichever directory it is. -/
def unlinkLoose (dirs : List ObjectDir) (gone : List Location) (id : ObjectId) : List Location :=
  match loosePath (without dirs gone) id with
  | some dir => gone ++ [⟨dir, .loose id⟩]
  | none => gone

def redundantPacks (own : ObjectDir) : Option Bytes → List Location
  | none => []
  | some checksum => (own.packs.filter fun file => replaced own checksum file.1).map fun file => ⟨0, .pack file.1⟩

/-- What `-d` unlinks. `replacing` is the new pack's checksum when every reachable object is in it; `snapshot`
are the packs as they were indexed before it was written. -/
def sweepRedundant (dirs : List ObjectDir) (snapshot : List PackFile) (ids : Ids)
    (replacing : Option Bytes) : List Location :=
  match dirs with
  | [] => []
  | own :: _ =>
    let gone := ids.foldl (unlinkLoose dirs) (redundantPacks own replacing)
    let left := (own.loose.filter fun file => ⟨0, .loose file.1⟩ ∉ gone).filter fun file => packed snapshot file.1
    gone ++ left.map fun file => ⟨0, .loose file.1⟩

/-- What the file system does for a repack: whether the pack and then its index could be put in place, and the
endings of the names they are first written under. -/
structure RepackIo where
  packStored : Bool
  idxStored : Bool
  packEnding : Bytes
  idxEnding : Bytes

structure Repacked where
  ok : Bool
  dirs : List ObjectDir
  unlinked : List Location

def packStem (checksum : ObjectId) : Bytes := ascii "pack-" ++ checksum.hex

def finishRepack (snapshot : List PackFile) (ids : Ids) (removeRedundant : Bool) (written : List ObjectDir)
    (replacing : Option Bytes) : Repacked :=
  let unlinked := if removeRedundant then sweepRedundant written snapshot ids replacing else []
  { ok := true, dirs := without written unlinked, unlinked }

/-- `git_repack_run`. A pack that cannot be put in place is unlinked under the name it was first written to. -/
def repackRun (io : RepackIo) (heads : Ids) (all removeRedundant : Bool) : Repacked :=
  let snapshot := scanPacks dirs
  let ids := repackObjects prim loose dirs heads (!all)
  match dirs with
  | [] => { ok := false, dirs := [], unlinked := [] }
  | own :: alternates =>
    if ids = [] then finishRepack snapshot ids removeRedundant (own :: alternates) none
    else
      match packBuildDeltas prim (odbRead prim loose dirs snapshot) ids true with
      | none => { ok := false, dirs, unlinked := [] }
      | some built =>
        let stem := packStem built.checksum
        if !io.packStored then { ok := false, dirs, unlinked := [⟨0, .pack (stem ++ io.packEnding)⟩] }
        else
          let own := own.store (stem ++ ascii ".pack") built.pack
          match writeIdxV2 prim built.entries built.checksum with
          | none => { ok := false, dirs := own :: alternates, unlinked := [] }
          | some idx =>
            let name := stem ++ ascii ".idx"
            if !io.idxStored then
              { ok := false, dirs := own :: alternates, unlinked := [⟨0, .pack (name ++ io.idxEnding)⟩] }
            else
              finishRepack snapshot ids removeRedundant (own.store name idx :: alternates)
                (if all then some built.checksum.hex else none)

end Runs

/-! ## What a run leaves -/

section Left
variable {prim : Primitives} {obj : Objects} {dirs : List ObjectDir} {gone : List Location}

section
variable (dir : ObjectDir) (i : Nat)
include dir i

theorem ObjectDir.less_looseFile (id : ObjectId) :
    (dir.less i gone).looseFile id = if ⟨i, .loose id⟩ ∈ gone then none else dir.looseFile id := by
  have filtered := lookup_filter (fun id => decide (⟨i, .loose id⟩ ∉ gone)) dir.loose id
  simp only [decide_eq_true_eq, ite_not] at filtered
  exact filtered

theorem ObjectDir.less_packFile (name : Bytes) :
    (dir.less i gone).packFile name = if ⟨i, .pack name⟩ ∈ gone then none else dir.packFile name := by
  have filtered := lookup_filter (fun name => decide (⟨i, .pack name⟩ ∉ gone)) dir.packs name
  simp only [decide_eq_true_eq, ite_not] at filtered
  exact filtered

theorem ObjectDir.mem_scan_less (file : PackFile) :
    file ∈ (dir.less i gone).scan ↔ file ∈ dir.scan ∧ ⟨i, .pack (file.stem ++ ascii ".idx")⟩ ∉ gone ∧
      ⟨i, .pack (file.stem ++ ascii ".pack")⟩ ∉ gone := by
  rw [ObjectDir.mem_scan_iff, ObjectDir.mem_scan_iff, ObjectDir.less_packFile, ObjectDir.less_packFile]
  by_cases idxGone : ⟨i, .pack (file.stem ++ ascii ".idx")⟩ ∈ gone
  · simp [idxGone]
  · by_cases packGone : ⟨i, .pack (file.stem ++ ascii ".pack")⟩ ∈ gone
    · simp [packGone]
    · simp [idxGone, packGone]

end

theorem mem_without (dir : ObjectDir) :
    dir ∈ without dirs gone ↔ ∃ (i : Nat) (old : ObjectDir), dirs[i]? = some old ∧ old.less i gone = dir := by
  rw [without, mem_iff_getElem?]
  simp

theorem mem_scanPacks_without (file : PackFile) :
    file ∈ scanPacks (without dirs gone) ↔ ∃ i dir, dirs[i]? = some dir ∧ file ∈ dir.scan ∧
      ⟨i, .pack (file.stem ++ ascii ".idx")⟩ ∉ gone ∧ ⟨i, .pack (file.stem ++ ascii ".pack")⟩ ∉ gone := by
  rw [scanPacks, mem_flatMap]
  constructor
  · rintro ⟨dir, member, listed⟩
    obtain ⟨i, old, place, rfl⟩ := (mem_without dir).1 member
    exact ⟨i, old, place, (old.mem_scan_less i file).1 listed⟩
  · rintro ⟨i, old, place, listed⟩
    exact ⟨old.less i gone, (mem_without _).2 ⟨i, old, place, rfl⟩, (old.mem_scan_less i file).2 listed⟩

theorem stored_without (id : ObjectId) : Stored (without dirs gone) (scanPacks (without dirs gone)) id ↔
      (∃ i dir, dirs[i]? = some dir ∧ (dir.looseFile id).isSome ∧ ⟨i, .loose id⟩ ∉ gone) ∨
      ∃ i dir file, dirs[i]? = some dir ∧ file ∈ dir.scan ∧ ⟨i, .pack (file.stem ++ ascii ".idx")⟩ ∉ gone ∧
        ⟨i, .pack (file.stem ++ ascii ".pack")⟩ ∉ gone ∧ lookupOffset file.idx id ≠ notFound := by
  refine or_congr ?_ ?_
  · constructor
    · rintro ⟨dir, member, file⟩
      obtain ⟨i, old, place, rfl⟩ := (mem_without dir).1 member
      rw [ObjectDir.less_looseFile] at file
      split at file
      · cases file
      next kept => exact ⟨i, old, place, file, kept⟩
    · rintro ⟨i, old, place, file, kept⟩
      refine ⟨old.less i gone, (mem_without _).2 ⟨i, old, place, rfl⟩, ?_⟩
      rwa [ObjectDir.less_looseFile, if_neg kept]
  · simp only [mem_scanPacks_without]
    constructor
    · rintro ⟨file, ⟨i, dir, place, listed, idxKept, packKept⟩, known⟩
      exact ⟨i, dir, file, place, listed, idxKept, packKept, known⟩
    · rintro ⟨i, dir, file, place, listed, idxKept, packKept, known⟩
      exact ⟨file, ⟨i, dir, place, listed, idxKept, packKept⟩, known⟩

theorem Sound.without (sound : Sound prim obj dirs (scanPacks dirs)) (gone : List Location) :
    Sound prim obj (without dirs gone) (scanPacks (without dirs gone)) := by
  have before (file : PackFile) (left : file ∈ scanPacks (Git.without dirs gone)) : file ∈ scanPacks dirs := by
    obtain ⟨i, dir, place, listed, -⟩ := (mem_scanPacks_without file).1 left
    exact mem_flatMap.2 ⟨dir, mem_of_getElem? place, listed⟩
  constructor
  · intro dir member id file found
    obtain ⟨i, old, place, rfl⟩ := (mem_without dir).1 member
    rw [ObjectDir.less_looseFile] at found
    split at found
    · cases found
    · exact sound.loose old (mem_of_getElem? place) id file found
  · intro file left
    exact sound.packed file (before file left)
  · intro file left
    exact sound.names file (before file left)

end Left

/-! ## What is unlinked -/

section Unlinked
variable {prim : Primitives} {loose : LooseRead} {dirs : List ObjectDir}

/-- What the walk comes to from its heads. -/
def Reachable (prim : Primitives) (loose : LooseRead) (dirs : List ObjectDir)
    (roots : ObjectId → Prop) (id : ObjectId) : Prop :=
  Reach (odbList dirs (scanPacks dirs)) (linksOf prim loose dirs) roots id

/-- What is reachable: every stored object that a root or a link names, in whichever case. -/
def HeldBy (prim : Primitives) (loose : LooseRead) (dirs : List ObjectDir) (roots : Ids) (id : ObjectId) : Prop :=
  Reach (odbList dirs (scanPacks dirs)) (pointsTo prim loose dirs) (fun x => x ∈ roots) id

section
variable (heads : Ids)
include heads

theorem mem_fsckReach_iff (id : ObjectId) :
    id ∈ fsckReach prim loose dirs heads ↔ Reachable prim loose dirs (· ∈ heads) id :=
  mem_walk_iff heads id

theorem mem_repackObjects_iff (unpackedOnly : Bool) (id : ObjectId) :
    id ∈ repackObjects prim loose dirs heads unpackedOnly ↔
      Reachable prim loose dirs (· ∈ heads) id ∧ ¬(unpackedOnly = true ∧ packed (scanPacks dirs) id = true) := by
  rw [repackObjects, mem_filter, Bool.and_eq_true, decide_eq_true_eq, mem_fsckReach_iff, Bool.not_eq_true',
    Bool.and_eq_false_iff]
  constructor
  · rintro ⟨-, reach, new⟩
    refine ⟨reach, ?_⟩
    rintro ⟨only, inPack⟩
    simp [only, inPack] at new
  · rintro ⟨reach, new⟩
    refine ⟨reach.here, reach, ?_⟩
    cases only : unpackedOnly with
    | false => exact .inl rfl
    | true => exact .inr (Bool.eq_false_iff.2 fun inPack => new ⟨only, inPack⟩)

theorem repackObjects_nodup (unpackedOnly : Bool) : (repackObjects prim loose dirs heads unpackedOnly).Nodup :=
  (nodup_dedup _).filter _

end

theorem pruneRun_unlinks {heads : Ids} {more : List (Option ObjectId)} {dryRun : Bool} {expire : Option Int}
    {gone : List Location} (ran : pruneRun prim loose dirs heads more dryRun expire = some gone) :
    (∀ location ∈ gone, location.dir = 0) ∧ (∀ i name, ⟨i, .pack name⟩ ∉ gone) ∧
      ∃ resolved, more.mapM id = some resolved ∧ ∀ i id, ⟨i, .loose id⟩ ∈ gone ↔
        i = 0 ∧ dryRun = false ∧ ∃ own file, dirs[0]? = some own ∧ own.looseFile id = some file ∧
          ¬Reachable prim loose dirs (· ∈ heads ++ resolved) id ∧ expired expire file.mtime = true := by
  obtain ⟨resolved, named, rfl⟩ := Option.map_eq_some_iff.1 ran
  cases dirs with
  | nil => exact ⟨by simp, by simp, resolved, named, by simp⟩
  | cons own alternates =>
    cases dryRun with
    | true => exact ⟨by simp, by simp, resolved, named, by simp⟩
    | false =>
      refine ⟨?_, ?_, resolved, named, ?_⟩
      · intro location member
        simp only [Bool.false_eq_true, if_false, mem_append, mem_map] at member
        rcases member with ⟨file, -, rfl⟩ | ⟨file, -, rfl⟩
        · rfl
        · rfl
      · intro i name member
        simp at member
      · intro i id
        simp only [if_false, mem_append, mem_map, mem_filter, Bool.and_eq_true,
          decide_eq_true_eq, Location.mk.injEq, reduceCtorEq, and_false, exists_false, false_or, Place.loose.injEq,
          mem_fsckReach_iff, true_and, List.getElem?_cons_zero, Option.some.injEq]
        constructor
        · rintro ⟨⟨key, file⟩, ⟨member, unreached, old⟩, rfl, rfl⟩
          exact ⟨rfl, own, file, rfl, (mem_iff_lookup own.looseDistinct _ _).1 member, unreached, old⟩
        · rintro ⟨rfl, first, file, rfl, found, unreached, old⟩
          exact ⟨(id, file), ⟨(mem_iff_lookup own.looseDistinct _ _).2 found, unreached, old⟩, rfl, rfl⟩

end Unlinked

end BashOs.Git

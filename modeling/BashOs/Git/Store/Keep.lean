import BashOs.Git.Pack.Pays
import BashOs.Git.Store.Repack
import BashOs.Git.Store.Roots

/-!
What prune and repack may not take away: an object that something in the repository still reaches, and a file
of another repository's object directory.
-/

namespace BashOs.Git
open BashOs.Lib BashOs.Git.Pack List

/-! ## No reachable object is lost -/

section Keeps
variable {prim : Primitives} {obj : Objects} {loose : LooseRead}
  {dirs after : List ObjectDir}

def Keeps (prim : Primitives) (loose : LooseRead) (dirs after : List ObjectDir)
    (roots : Ids) : Prop :=
  ∀ id, HeldBy prim loose dirs roots id →
    ∃ object, odbRead prim loose dirs (scanPacks dirs) id = some object ∧
      odbRead prim loose after (scanPacks after) id = some object

/-- Where the walk starts from every root and no link is spelled in capitals, it comes to all that is reachable. -/
theorem HeldBy.reachable {roots heads : Ids} (starts : ∀ x ∈ roots, x ∈ heads)
    (spelled : ∀ x ∈ odbList dirs (scanPacks dirs), ∀ y ∈ pointsTo prim loose dirs x, y ∈ linksOf prim loose dirs x)
    {id : ObjectId} (held : HeldBy prim loose dirs roots id) : Reachable prim loose dirs (· ∈ heads) id := by
  induction held with
  | root start here => exact .root (starts _ start) here
  | step before link here ih => exact .step ih (spelled _ before.here _ link) here

theorem keeps_iff_stored (before : Sound prim obj dirs (scanPacks dirs))
    (later : Sound prim obj after (scanPacks after))
    (roots : Ids) :
    Keeps prim loose dirs after roots ↔
      ∀ id, HeldBy prim loose dirs roots id → Stored after (scanPacks after) id := by
  constructor
  · intro keeps id reach
    obtain ⟨object, -, reads⟩ := keeps id reach
    exact (later.isSome_read_iff loose id).1 (by rw [reads]; rfl)
  · intro stored id reach
    have here := (before.mem_odbList id).1 reach.here
    rcases before.read loose id with ⟨-, object, named, reads⟩ | ⟨gone, -⟩
    · rcases later.read loose id with ⟨-, same, named', reads'⟩ | ⟨gone, -⟩
      · rw [named] at named'
        exact ⟨object, reads, by rw [reads', ← Option.some.inj named']⟩
      · exact absurd (stored id reach) gone
    · exact absurd here gone

/-- What prune leaves although its walk did not reach it: with nothing to be removed at all, what has a copy in a
pack or in an alternate, and what is too young. -/
def SparedByPrune (dirs : List ObjectDir) (dryRun : Bool) (expire : Option Int) (id : ObjectId) : Prop :=
  dryRun = true ∨ packed (scanPacks dirs) id = true ∨ (∃ dir ∈ dirs.tail, (dir.looseFile id).isSome) ∨
    ∃ own file, dirs[0]? = some own ∧ own.looseFile id = some file ∧ expired expire file.mtime = false

theorem prune_stored_iff {heads : Ids} {more : List (Option ObjectId)} {dryRun : Bool} {expire : Option Int}
    {gone : List Location} {resolved : Ids}
    (ran : pruneRun prim loose dirs heads more dryRun expire = some gone) (named : more.mapM id = some resolved)
    {id : ObjectId} (here : Stored dirs (scanPacks dirs) id) :
    Stored (without dirs gone) (scanPacks (without dirs gone)) id ↔
      Reachable prim loose dirs (· ∈ heads ++ resolved) id ∨ SparedByPrune dirs dryRun expire id := by
  obtain ⟨-, noPack, resolved', named', looseGone⟩ := pruneRun_unlinks ran
  obtain rfl : resolved = resolved' := Option.some.inj (named.symm.trans named')
  rw [stored_without]
  constructor
  · rintro (⟨i, dir, place, file, kept⟩ | ⟨i, dir, file, place, listed, -, -, known⟩)
    · rw [looseGone] at kept
      cases i with
      | succ i =>
        have other : dir ∈ dirs.tail := by
          apply mem_of_getElem?
          rwa [getElem?_tail]
        exact .inr (.inr (.inr (.inl ⟨dir, other, file⟩)))
      | zero =>
        obtain ⟨data, found⟩ := Option.isSome_iff_exists.1 file
        by_contra lost
        rw [not_or, SparedByPrune, not_or, not_or, not_or] at lost
        apply kept
        refine ⟨rfl, Bool.eq_false_iff.2 lost.2.1, dir, data, place, found, lost.1, ?_⟩
        by_contra young
        exact lost.2.2.2.2 ⟨dir, data, place, found, Bool.eq_false_iff.2 young⟩
    · refine .inr (.inr (.inl ((packed_iff _ id).2 ⟨file, ?_, known⟩)))
      exact mem_flatMap.2 ⟨dir, mem_of_getElem? place, listed⟩
  · intro saved
    by_cases inPack : packed (scanPacks dirs) id = true
    · obtain ⟨file, member, known⟩ := (packed_iff _ id).1 inPack
      obtain ⟨dir, inside, listed⟩ := mem_flatMap.1 member
      obtain ⟨i, place⟩ := mem_iff_getElem?.1 inside
      exact .inr ⟨i, dir, file, place, listed, noPack i _, noPack i _, known⟩
    refine .inl ?_
    rcases here with ⟨dir, inside, file⟩ | known
    · -- the copy in the own directory may go, any other stays
      by_cases elsewhere : ∃ dir ∈ dirs.tail, (dir.looseFile id).isSome
      · obtain ⟨other, member, file⟩ := elsewhere
        obtain ⟨i, place⟩ := mem_iff_getElem?.1 member
        rw [getElem?_tail] at place
        refine ⟨i + 1, other, place, file, ?_⟩
        rw [looseGone]
        simp
      obtain ⟨i, place⟩ := mem_iff_getElem?.1 inside
      refine ⟨i, dir, place, file, ?_⟩
      rw [looseGone]
      rintro ⟨rfl, removes, own, data, first, found, unreached, old⟩
      rcases saved with reached | dry | packedHere | other | ⟨own', data', first', found', young⟩
      · exact unreached reached
      · simp [dry] at removes
      · exact inPack packedHere
      · exact elsewhere other
      · obtain rfl : own = own' := Option.some.inj (first.symm.trans first')
        obtain rfl : data = data' := Option.some.inj (found.symm.trans found')
        simp [old] at young
    · exact absurd ((packed_iff _ id).2 known) inPack

def KeptStem (own : ObjectDir) (stem : Bytes) : Prop :=
  ¬ascii "pack-" <+: stem ∨ own.packFile (stem ++ ascii ".keep") ≠ none

/-- What `repack -a -d` leaves although its walk did not reach it: everything, if it reached nothing; what an
alternate holds; what a pack that is kept holds; and an own loose file of which no pack had a copy. -/
def SparedByRepack (prim : Primitives) (loose : LooseRead) (dirs : List ObjectDir)
    (heads : Ids) (id : ObjectId) : Prop :=
  (∀ other, ¬Reachable prim loose dirs (fun x => x ∈ heads) other) ∨
  (∃ dir ∈ dirs.tail, (dir.looseFile id).isSome ∨ ∃ file ∈ dir.scan, lookupOffset file.idx id ≠ notFound) ∨
  ∃ own, dirs[0]? = some own ∧
    ((∃ file ∈ own.scan, lookupOffset file.idx id ≠ notFound ∧ KeptStem own file.stem) ∨
      ((own.looseFile id).isSome ∧ packed (scanPacks dirs) id = false))

/-- The new pack does not take the name of a pack that holds anything else. Packs are named for the hash of their
bytes, so this is the absence of a collision. -/
def NoClash (prim : Primitives) (loose : LooseRead) (dirs : List ObjectDir)
    (heads : Ids) : Prop :=
  ∀ own built, dirs[0]? = some own →
    packBuildDeltas prim (odbRead prim loose dirs (scanPacks dirs)) (repackObjects prim loose dirs heads false) true =
      some built →
    ∀ file ∈ own.scan, file.stem = packStem built.checksum →
      ∀ id, lookupOffset file.idx id ≠ notFound → Reachable prim loose dirs (fun x => x ∈ heads) id

/-- Nothing that is deflated for the new pack has four gigabytes: `bgit_deflate` tells zlib the low 32 bits of a length,
and `Primitives.deflate` is what it does below that. -/
def ShortPayloads (prim : Primitives) (loose : LooseRead) (dirs : List ObjectDir) (heads : Ids) : Prop :=
  ∀ visit ∈ visits prim (odbRead prim loose dirs (scanPacks dirs)) true (repackObjects prim loose dirs heads false),
    visit.payload.length < 2 ^ 32

theorem mem_packed_all (heads : Ids) (id : ObjectId) :
    id ∈ repackObjects prim loose dirs heads false ↔ Reachable prim loose dirs (· ∈ heads) id := by
  rw [mem_repackObjects_iff]
  simp

theorem nothing_packed_stored {own : ObjectDir} {alternates : List ObjectDir} {id : ObjectId}
    (here : Stored (own :: alternates) (scanPacks (own :: alternates)) id) :
    let gone := sweepRedundant (own :: alternates) (scanPacks (own :: alternates)) [] none
    Stored (without (own :: alternates) gone) (scanPacks (without (own :: alternates) gone)) id := by
  intro gone
  have sweep := mem_sweepRedundant own alternates (scanPacks (own :: alternates)) none nodup_nil
  have noPack : ∀ i name, ⟨i, .pack name⟩ ∉ gone := by
    intro i name member
    simpa [redundantPacks] using (sweep _).1 member
  rw [stored_without]
  by_cases inPack : packed (scanPacks (own :: alternates)) id = true
  · obtain ⟨file, member, known⟩ := (packed_iff _ id).1 inPack
    obtain ⟨dir, inside, listed⟩ := mem_flatMap.1 member
    obtain ⟨i, place⟩ := mem_iff_getElem?.1 inside
    exact .inr ⟨i, dir, file, place, listed, noPack i _, noPack i _, known⟩
  rcases here with ⟨dir, inside, file⟩ | known
  · obtain ⟨i, place⟩ := mem_iff_getElem?.1 inside
    refine .inl ⟨i, dir, place, file, ?_⟩
    intro member
    rcases (sweep _).1 member with pack | ⟨_, none, _⟩ | ⟨_, _, held, same⟩
    · cases pack
    · cases none
    · cases same
      exact inPack held
  · exact absurd ((packed_iff _ id).2 known) inPack

section Packed
variable {own : ObjectDir} {alternates : List ObjectDir} {ids : Ids} {built : Built} {idx : Bytes}

/-- With the new pack in place, the packs it replaces are the ones that are not kept; it never replaces itself. -/
theorem replacedStem_storePack_iff (own : ObjectDir) (checksum : ObjectId) (pack idx stem : Bytes) :
    ReplacedStem (own.storePack (packStem checksum) pack idx) checksum.hex stem ↔
      stem ≠ packStem checksum ∧ ¬KeptStem own stem := by
  have five : (ascii "pack-").length = 5 := rfl
  rw [ReplacedStem, KeptStem, ObjectDir.storePack_packFile_keep, not_or, not_not, not_not]
  constructor
  · rintro ⟨named, other, unkept⟩
    refine ⟨?_, named, unkept⟩
    rintro rfl
    apply other
    rw [packStem, ← five, drop_left]
  · rintro ⟨other, ⟨rest, rfl⟩, unkept⟩
    refine ⟨prefix_append _ _, ?_, unkept⟩
    rintro rfl
    exact other rfl

theorem pack_swept_iff (own : ObjectDir) (alternates : List ObjectDir) (snapshot : List PackFile) (distinct : ids.Nodup)
    (checksum name : Bytes) (i : Nat) :
    ⟨i, .pack name⟩ ∈ sweepRedundant (own :: alternates) snapshot ids (some checksum) ↔
      i = 0 ∧ (own.packFile name).isSome ∧ replaced own checksum name = true := by
  rw [mem_sweepRedundant own alternates snapshot (some checksum) distinct, mem_redundantPacks]
  simp only [Option.some.injEq, Location.mk.injEq, Place.pack.injEq, reduceCtorEq, and_false, exists_false, or_false]
  constructor
  · rintro ⟨_, _, rfl, here, goes, rfl, rfl⟩
    exact ⟨rfl, here, goes⟩
  · rintro ⟨rfl, here, goes⟩
    exact ⟨checksum, name, rfl, here, goes, rfl, rfl⟩

theorem own_packs_left (own : ObjectDir) (alternates : List ObjectDir) (snapshot : List PackFile)
    (written : writeIdxV2 prim built.entries built.checksum = some idx) (distinct : ids.Nodup) (file : PackFile) :
    let own' := own.storePack (packStem built.checksum) built.pack idx
    let gone := sweepRedundant (own' :: alternates) snapshot ids (some built.checksum.hex)
    (file ∈ own'.scan ∧ ⟨0, .pack (file.stem ++ ascii ".idx")⟩ ∉ gone ∧
      ⟨0, .pack (file.stem ++ ascii ".pack")⟩ ∉ gone) ↔
      file = { stem := packStem built.checksum, idx, pack := built.pack } ∨
        file ∈ own.scan ∧ file.stem ≠ packStem built.checksum ∧ KeptStem own file.stem := by
  intro own' gone
  have goesIdx : replaced own' built.checksum.hex (file.stem ++ ascii ".idx") = true ↔
      ReplacedStem own' built.checksum.hex file.stem :=
    @replaced_iff file.stem [0x69, 0x64, 0x78] own' built.checksum.hex (by decide) (by decide)
  have goesPack : replaced own' built.checksum.hex (file.stem ++ ascii ".pack") = true ↔
      ReplacedStem own' built.checksum.hex file.stem :=
    @replaced_iff file.stem [0x70, 0x61, 0x63, 0x6b] own' built.checksum.hex (by decide) (by decide)
  have stays := replacedStem_storePack_iff own built.checksum built.pack idx file.stem
  have scan := @ObjectDir.mem_scan_storePack own (packStem built.checksum) built.pack idx
    (packStem_ne_nil built.checksum) (writeIdxV2_usable written)
  -- a scanned pack has both files, and the two go together
  have left : file ∈ own'.scan → ((⟨0, .pack (file.stem ++ ascii ".idx")⟩ ∉ gone ∧
      ⟨0, .pack (file.stem ++ ascii ".pack")⟩ ∉ gone) ↔
        ¬(file.stem ≠ packStem built.checksum ∧ ¬KeptStem own file.stem)) := by
    intro member
    obtain ⟨-, besideIdx, besidePack, -⟩ := (own'.mem_scan_iff file).1 member
    rw [pack_swept_iff own' alternates snapshot distinct, pack_swept_iff own' alternates snapshot distinct, besideIdx,
      besidePack, goesIdx, goesPack, stays]
    simp
  constructor
  · rintro ⟨member, kept⟩
    rw [left member, not_and, not_not] at kept
    rcases (scan file).1 member with new | ⟨old, other⟩
    · exact .inl new
    · exact .inr ⟨old, other, kept other⟩
  · rintro (rfl | ⟨old, other, kept⟩)
    · have member := (scan { stem := packStem built.checksum, idx, pack := built.pack }).2 (.inl rfl)
      exact ⟨member, (left member).2 (fun replaced => replaced.1 rfl)⟩
    · have member := (scan file).2 (.inr ⟨old, other⟩)
      exact ⟨member, (left member).2 (fun replaced => replaced.2 kept)⟩

end Packed

/-- What `repack -a -d` leaves: what its walk reached, which is in the new pack, and what it spares. -/
theorem repack_stored_iff {heads : Ids} {written : List ObjectDir} {replacing : Option Bytes}
    (ready : Prepared prim loose dirs heads true written replacing) (noClash : NoClash prim loose dirs heads)
    {id : ObjectId} (here : Stored dirs (scanPacks dirs) id) :
    let gone := sweepRedundant written (scanPacks dirs) (repackObjects prim loose dirs heads false) replacing
    Stored (without written gone) (scanPacks (without written gone)) id ↔
      Reachable prim loose dirs (· ∈ heads) id ∨ SparedByRepack prim loose dirs heads id := by
  intro gone
  have distinct : (repackObjects prim loose dirs heads false).Nodup := repackObjects_nodup heads false
  cases ready with
  | nothing own alternates whole empty =>
    have unreached : ∀ other, ¬Reachable prim loose dirs (· ∈ heads) other := by
      intro other reach
      have member := (mem_packed_all heads other).2 reach
      rw [show repackObjects prim loose dirs heads false = [] from empty] at member
      cases member
    subst whole
    refine iff_of_true ?_ (.inr (.inl unreached))
    have stored := nothing_packed_stored here
    rwa [← show repackObjects prim loose (own :: alternates) heads false = [] from empty] at stored
  | pack own alternates built idx whole nonempty made written =>
    subst whole
    have known := newPack_known_iff made distinct written id
    rw [show repackObjects prim loose (own :: alternates) heads (!true) = repackObjects prim loose (own :: alternates)
      heads false from rfl, mem_packed_all] at known
    have mine := own_packs_left own alternates (scanPacks (own :: alternates)) written distinct
    have sweep := mem_sweepRedundant (own.storePack (packStem built.checksum) built.pack idx) alternates
      (scanPacks (own :: alternates)) (some built.checksum.hex) distinct
    have swept := pack_swept_iff (own.storePack (packStem built.checksum) built.pack idx) alternates
      (scanPacks (own :: alternates)) distinct built.checksum.hex
    rw [stored_without]
    constructor
    · rintro (⟨i, dir, place, file, kept⟩ | ⟨i, dir, file, place, listed, idxKept, packKept, finds⟩)
      · cases i with
        | succ i => exact .inr (.inr (.inl ⟨dir, mem_of_getElem? place, .inl file⟩))
        | zero =>
          cases place
          refine .inr (.inr (.inr ⟨own, rfl, .inr ⟨file, Bool.eq_false_iff.2 ?_⟩⟩))
          intro held
          exact kept ((sweep _).2 (.inr (.inr ⟨id, file, held, rfl⟩)))
      · cases i with
        | succ i => exact .inr (.inr (.inl ⟨dir, mem_of_getElem? place, .inr ⟨file, listed, finds⟩⟩))
        | zero =>
          cases place
          rcases (mine file).1 ⟨listed, idxKept, packKept⟩ with rfl | ⟨old, -, stays⟩
          · exact .inl (known.1 finds)
          · exact .inr (.inr (.inr ⟨own, rfl, .inl ⟨file, old, finds, stays⟩⟩))
    · intro saved
      by_cases reach : Reachable prim loose (own :: alternates) (· ∈ heads) id
      · obtain ⟨listed, idxKept, packKept⟩ :=
          (mine { stem := packStem built.checksum, idx, pack := built.pack }).2 (.inl rfl)
        exact .inr ⟨0, _, _, rfl, listed, idxKept, packKept, known.2 reach⟩
      -- no loose copy of it goes but one in the own directory of which a pack had another
      have looseKept (i : Nat) (held : i = 0 → packed (scanPacks (own :: alternates)) id = false) :
          ⟨i, .loose id⟩ ∉ gone := by
        intro member
        rcases (sweep _).1 member with pack | ⟨other, listed, _, _, same⟩ | ⟨other, _, inPack, same⟩
        · obtain ⟨_, _, _, _, _, impossible⟩ := (mem_redundantPacks _ _ _).1 pack
          cases impossible
        · cases same
          exact reach ((mem_packed_all heads id).1 listed)
        · cases same
          rw [held rfl] at inPack
          cases inPack
      rcases saved with reached | unreached | ⟨dir, member, copy⟩ | ⟨first, place, copy⟩
      · exact absurd reached reach
      · obtain ⟨other, listed⟩ := exists_mem_of_ne_nil _ nonempty
        exact absurd ((mem_packed_all heads other).1 listed) (unreached other)
      · obtain ⟨i, place⟩ := mem_iff_getElem?.1 member
        rcases copy with file | ⟨file, listed, finds⟩
        · exact .inl ⟨i + 1, dir, place, file, looseKept (i + 1) (by simp)⟩
        · have untouched (name : Bytes) : ⟨i + 1, .pack name⟩ ∉ gone := fun member =>
            absurd ((swept name (i + 1)).1 member).1 (Nat.succ_ne_zero i)
          exact .inr ⟨i + 1, dir, file, place, listed, untouched _, untouched _, finds⟩
      · cases place
        rcases copy with ⟨file, listed, finds, stays⟩ | ⟨file, unpacked⟩
        · have other : file.stem ≠ packStem built.checksum := fun same =>
            reach (noClash own built rfl made file listed same id finds)
          obtain ⟨scanned, idxKept, packKept⟩ := (mine file).2 (.inr ⟨listed, other, stays⟩)
          exact .inr ⟨0, _, file, rfl, scanned, idxKept, packKept, finds⟩
        · exact .inl ⟨0, _, rfl, file, looseKept 0 (fun _ => unpacked)⟩

theorem repackRun_left {io : RepackIo} {heads : Ids}
    (succeeded : (repackRun prim loose dirs io heads true true).ok = true) :
    ∃ written replacing, Prepared prim loose dirs heads true written replacing ∧
      (repackRun prim loose dirs io heads true true).dirs = without written
      (sweepRedundant written (scanPacks dirs) (repackObjects prim loose dirs heads false) replacing) := by
  rcases repackRun_cases prim loose dirs io heads true true with ⟨failed, -⟩ | ⟨written, replacing, ready, result⟩
  · rw [failed] at succeeded
    cases succeeded
  · exact ⟨written, replacing, ready, by rw [result]; rfl⟩

theorem repack_keeps_iff (sound : Sound prim obj dirs (scanPacks dirs)) {io : RepackIo} {heads : Ids}
    (succeeded : (repackRun prim loose dirs io heads true true).ok = true) (noClash : NoClash prim loose dirs heads)
    (roots : Ids) :
    Keeps prim loose dirs (repackRun prim loose dirs io heads true true).dirs roots ↔
      ∀ id, HeldBy prim loose dirs roots id →
        Reachable prim loose dirs (· ∈ heads) id ∨ SparedByRepack prim loose dirs heads id := by
  obtain ⟨written, replacing, ready, left⟩ := repackRun_left succeeded
  rw [left, keeps_iff_stored sound ((ready.sound sound).without _)]
  exact forall₂_congr fun id reach => repack_stored_iff ready noClash ((sound.mem_odbList id).1 reach.here)

end Keeps

section Sample

/-! A store with a commit and its empty tree, both loose, and two repositories over it: one whose HEAD is the
commit, and one whose only hold on it is the HEAD of a linked worktree. -/

def storedBytes (plain : Bytes) : Bytes := plain.flatMap (fun b => [1, b]) ++ [0]

def sampleCommit : Bytes := ascii "tree " ++ (sampleId 2).hex ++ ascii "\n\n"

def sampleDir : ObjectDir where
  loose := [(sampleId 1, ⟨storedBytes (ascii "commit 47" ++ 0 :: sampleCommit), 0⟩),
    (sampleId 2, ⟨storedBytes (ascii "tree 0" ++ [0]), 0⟩)]
  packs := []
  temporary := []
  looseDistinct := by decide
  packsDistinct := by decide

def sampleObjects (id : ObjectId) : Option Object :=
  if id = sampleId 1 then some ⟨.commit, sampleCommit, by decide +kernel⟩
  else if id = sampleId 2 then some emptyTree
  else none

theorem sampleDir_sound : Sound storing sampleObjects [sampleDir] (scanPacks [sampleDir]) := by
  have inflates (plain : Bytes) : storing.inflate (storedBytes plain) = some (plain, (storedBytes plain).length) := by
    have whole := storing.inflate_deflate plain (storedBytes plain) rfl []
    rwa [append_nil] at whole
  constructor
  · intro dir member id file found
    obtain rfl : dir = sampleDir := mem_singleton.1 member
    have listed := (mem_iff_lookup sampleDir.looseDistinct id file).2 found
    rcases mem_cons.1 listed with same | rest
    · cases same
      exact ⟨_, _, _, inflates _, by decide +kernel, rfl⟩
    · cases mem_singleton.1 rest
      exact ⟨_, _, _, inflates _, by decide +kernel, rfl⟩
  · intro file member
    cases member
  · intro file member
    cases member

def detached : GitDir where
  refs := [(ascii "HEAD", (sampleId 1).hex ++ ascii "\n")]
  logs := []
  index := none

def unborn : GitDir where
  refs := [(ascii "HEAD", ascii "ref: refs/heads/main\n")]
  logs := []
  index := none

def linkedOnly : Repository := { common := unborn, linked := [detached], packedRefs := [] }

def mainOnly : Repository := { common := detached, linked := [], packedRefs := [] }

def noLoose (_ : ObjectId) : Option (ObjectType × Bytes) := none

def sampleIo : RepackIo := { packStored := true, idxStored := true, packEnding := [], idxEnding := [] }

end Sample

/-! ## Other repositories' files -/

section Own
variable {prim : Primitives} {loose : LooseRead} {dirs : List ObjectDir}
  {heads : Ids} {all : Bool} {written : List ObjectDir} {replacing : Option Bytes}

section
variable (ready : Prepared prim loose dirs heads all written replacing)
include ready

theorem Prepared.loosePath_eq (id : ObjectId) : loosePath written id = loosePath dirs id := by
  cases ready with
  | nothing own alternates whole empty => rw [whole]
  | pack own alternates built idx whole nonempty made written =>
    rw [whole]
    rfl

theorem Prepared.eq_cons : ∃ own alternates, written = own :: alternates := by
  cases ready with
  | nothing own alternates whole empty => exact ⟨own, alternates, rfl⟩
  | pack own alternates built idx whole nonempty made written => exact ⟨_, alternates, rfl⟩

theorem sweep_own_iff :
    (∀ location ∈ sweepRedundant written (scanPacks dirs) (repackObjects prim loose dirs heads (!all)) replacing,
      location.dir = 0) ↔
    ∀ id, Reachable prim loose dirs (· ∈ heads) id → (all = true ∨ packed (scanPacks dirs) id = false) →
      ∀ i, loosePath dirs id = some i → i = 0 := by
  have distinct : (repackObjects prim loose dirs heads (!all)).Nodup := repackObjects_nodup heads _
  have listed (id : ObjectId) : id ∈ repackObjects prim loose dirs heads (!all) ↔
      Reachable prim loose dirs (· ∈ heads) id ∧ (all = true ∨ packed (scanPacks dirs) id = false) := by
    rw [mem_repackObjects_iff]
    cases all <;> simp
  obtain ⟨own, alternates, rfl⟩ := ready.eq_cons
  have sweep := mem_sweepRedundant own alternates (scanPacks dirs) replacing distinct
  constructor
  · intro stays id reach new i path
    rw [← ready.loosePath_eq] at path
    exact stays ⟨i, .loose id⟩ ((sweep _).2 (.inr (.inl ⟨id, (listed id).2 ⟨reach, new⟩, i, path, rfl⟩)))
  · intro first location member
    rcases (sweep location).1 member with pack | ⟨id, packs, i, path, rfl⟩ | ⟨id, _, _, rfl⟩
    · obtain ⟨_, _, _, _, _, rfl⟩ := (mem_redundantPacks own replacing location).1 pack
      rfl
    · obtain ⟨reach, new⟩ := (listed id).1 packs
      rw [ready.loosePath_eq] at path
      exact first id reach new i path
    · rfl

end

/-- Prune never unlinks a file of an alternate, nor does a repack that fails. One that succeeds stays in the own
directory exactly when it removes nothing, or when no object it packs has its first loose copy in an alternate. -/
theorem unlinks_own_iff (prim : Primitives) (loose : ObjectId → Option (ObjectType × Bytes)) (dirs : List ObjectDir)
    (heads : List ObjectId) :
    (∀ more dryRun expire gone, pruneRun prim loose dirs heads more dryRun expire = some gone →
      ∀ location ∈ gone, location.dir = 0) ∧
    ∀ io all removeRedundant,
      ((repackRun prim loose dirs io heads all removeRedundant).ok = false →
        ∀ location ∈ (repackRun prim loose dirs io heads all removeRedundant).unlinked, location.dir = 0) ∧
      ((repackRun prim loose dirs io heads all removeRedundant).ok = true →
        ((∀ location ∈ (repackRun prim loose dirs io heads all removeRedundant).unlinked, location.dir = 0) ↔
          removeRedundant = false ∨
            ∀ id, Reachable prim loose dirs (fun x => x ∈ heads) id →
              (all = true ∨ packed (scanPacks dirs) id = false) → ∀ i, loosePath dirs id = some i → i = 0)) := by
  refine ⟨fun more dryRun expire gone ran => (pruneRun_unlinks ran).1, ?_⟩
  intro io all removeRedundant
  rcases repackRun_cases prim loose dirs io heads all removeRedundant with ⟨failed, own⟩ | run
  · refine ⟨fun _ => own, ?_⟩
    intro succeeded
    rw [failed] at succeeded
    cases succeeded
  obtain ⟨written, replacing, ready, result⟩ := run
  rw [result]
  constructor
  · intro failed
    cases failed
  · intro _
    cases removeRedundant with
    | false => simp [finishRepack]
    | true =>
      simp only [Bool.true_eq_false, false_or]
      exact sweep_own_iff ready

end Own

section OwnSample

def emptyDir : ObjectDir where
  loose := []
  packs := []
  temporary := []
  looseDistinct := by decide
  packsDistinct := by decide

/-- A clone that borrows its objects from an alternate unlinks them there. -/
theorem repack_unlinks_in_alternate :
    (repackRun storing noLoose [emptyDir, sampleDir] sampleIo
      (fsckHeads mainOnly ⟨none, none⟩ true) true true).ok = true ∧
    ⟨1, .loose (sampleId 1)⟩ ∈
      (repackRun storing noLoose [emptyDir, sampleDir] sampleIo
        (fsckHeads mainOnly ⟨none, none⟩ true) true true).unlinked := by
  decide +kernel

/-- The alternate has the same objects, and its copies stay. -/
theorem unlinks_own_sample :
    (repackRun storing noLoose [sampleDir, sampleDir] sampleIo
      (fsckHeads mainOnly ⟨none, none⟩ true) true true).ok = true ∧
    ∀ location ∈
      (repackRun storing noLoose [sampleDir, sampleDir] sampleIo
        (fsckHeads mainOnly ⟨none, none⟩ true) true true).unlinked,
      location.dir = 0 := by
  have repacked : (repackRun storing noLoose [sampleDir, sampleDir] sampleIo (fsckHeads mainOnly ⟨none, none⟩ true)
      true true).ok = true := by
    decide +kernel
  have first : ∀ id ∈ odbList [sampleDir, sampleDir] (scanPacks [sampleDir, sampleDir]),
      loosePath [sampleDir, sampleDir] id = some 0 := by
    decide +kernel
  have whole :=
    (unlinks_own_iff storing noLoose [sampleDir, sampleDir] (fsckHeads mainOnly ⟨none, none⟩ true)).2 sampleIo true true
  refine ⟨repacked, (whole.2 repacked).2 (.inr fun id reach _ i path => ?_)⟩
  rw [first id reach.here] at path
  exact (Option.some.inj path).symm

end OwnSample

end BashOs.Git

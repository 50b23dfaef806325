import BashOs.Git.Store.Gc

/-!
What a repack takes away and what it leaves: the packs that the new one replaces, the loose copies of what is
packed, and a store in which the new pack can be read.
-/

namespace BashOs.Git
open BashOs.Lib BashOs.Git.Pack List

/-! ## Names of pack files -/

section Names
variable {stem ending : Bytes}

theorem endings_differ {a b : Bytes} (different : a.getLast? ≠ b.getLast?) (left : a ≠ []) (right : b ≠ [])
    (s t : Bytes) : s ++ a ≠ t ++ b := by
  intro same
  apply different
  have last := congrArg getLast? same
  rwa [getLast?_append_of_ne_nil s left, getLast?_append_of_ne_nil t right] at last

theorem lastDot_append (stem : Bytes) (plain : 0x2e ∉ ending) :
    lastDot (stem ++ 0x2e :: ending) = some (stem, 0x2e :: ending) := by
  have after : ((stem ++ 0x2e :: ending).reverse.takeWhile fun b => b ≠ 0x2e) = ending.reverse := by
    rw [reverse_append, reverse_cons, append_assoc, takeWhile_append_of_pos]
    · simp
    · intro b member
      simpa using fun same : b = 0x2e => plain (same ▸ mem_reverse.1 member)
  have cut : (stem ++ 0x2e :: ending).length - ending.reverse.length - 1 = stem.length := by
    simp
    omega
  rw [lastDot, if_pos (by simp)]
  simp only [after, cut, take_left, drop_left]

theorem prefix_of_append_dot {front : Bytes} (plain : 0x2e ∉ front) :
    front <+: stem ++ 0x2e :: ending ↔ front <+: stem := by
  constructor
  · intro whole
    rcases prefix_or_prefix_of_prefix whole (prefix_append stem (0x2e :: ending)) with short | ⟨more, rfl⟩
    · exact short
    have tail := (prefix_append_right_inj stem).1 whole
    cases more with
    | nil => simp
    | cons b more =>
      have dot := (cons_prefix_cons.1 tail).1
      exact absurd (by simp [dot]) plain
  · intro short
    exact short.trans (prefix_append stem _)

def ReplacedStem (own : ObjectDir) (checksum stem : Bytes) : Prop :=
  ascii "pack-" <+: stem ∧ stem.drop 5 ≠ checksum ∧ own.packFile (stem ++ ascii ".keep") = none

theorem replaced_iff (own : ObjectDir) (checksum : Bytes) (plain : 0x2e ∉ ending)
    (listed : 0x2e :: ending ∈ packExtensions) :
    replaced own checksum (stem ++ 0x2e :: ending) = true ↔ ReplacedStem own checksum stem := by
  have five : (ascii "pack-").length = 5 := rfl
  have front := @prefix_of_append_dot stem ending (ascii "pack-") (by decide)
  rw [← isPrefixOf_iff_prefix, ← isPrefixOf_iff_prefix] at front
  rw [replaced, ReplacedStem, ← isPrefixOf_iff_prefix, lastDot_append stem plain]
  by_cases named : (ascii "pack-").isPrefixOf stem = true
  · have begins := isPrefixOf_iff_prefix.1 named
    have long := begins.length_le
    have enough : 6 ≤ stem.length + (ending.length + 1) := by omega
    simp [enough, front.2 named, named, listed]
  · simp [front, named]

end Names

/-! ## The sweep -/

section Sweep
variable {dirs : List ObjectDir} {gone : List Location}

theorem loosePath_without {id : ObjectId} (untouched : ∀ i, ⟨i, .loose id⟩ ∉ gone) :
    loosePath (without dirs gone) id = loosePath dirs id := by
  have same : (without dirs gone).map (fun dir => (dir.looseFile id).isSome) =
      dirs.map fun dir => (dir.looseFile id).isSome := by
    apply ext_getElem?
    intro i
    rw [without, getElem?_map, getElem?_map, getElem?_mapIdx, Option.map_map]
    congr 1
    funext dir
    simp [ObjectDir.less_looseFile, untouched i]
  have byFlags (dirs : List ObjectDir) :
      loosePath dirs id = (dirs.map fun dir => (dir.looseFile id).isSome).findIdx? fun found => found := by
    rw [findIdx?_map]
    rfl
  rw [byFlags, byFlags, same]

theorem mem_unlinkLoose_foldl (ids : Ids) (distinct : ids.Nodup)
    (untouched : ∀ id ∈ ids, ∀ i, ⟨i, .loose id⟩ ∉ gone) (location : Location) :
    location ∈ ids.foldl (unlinkLoose dirs) gone ↔
      location ∈ gone ∨ ∃ id ∈ ids, ∃ dir, loosePath dirs id = some dir ∧ location = ⟨dir, .loose id⟩ := by
  induction ids generalizing gone with
  | nil => simp
  | cons id ids ih =>
    rw [nodup_cons] at distinct
    have path := @loosePath_without dirs gone id (untouched id (.head _))
    -- the file unlinked for this id is not one of a later id
    have next : ∀ other ∈ ids, ∀ i, ⟨i, .loose other⟩ ∉ unlinkLoose dirs gone id := by
      intro other member i
      have before := untouched other (.tail _ member) i
      have others : other ≠ id := fun same => distinct.1 (same ▸ member)
      unfold unlinkLoose
      split
      · simp [before, others]
      · exact before
    rw [foldl_cons, ih distinct.2 next, unlinkLoose, path]
    cases found : loosePath dirs id with
    | none => simp [found]
    | some dir => simp [found, or_assoc]

theorem mem_redundantPacks (own : ObjectDir) (replacing : Option Bytes) (location : Location) :
    location ∈ redundantPacks own replacing ↔ ∃ checksum name, replacing = some checksum ∧
      (own.packFile name).isSome ∧ replaced own checksum name = true ∧ location = ⟨0, .pack name⟩ := by
  cases replacing with
  | none => simp [redundantPacks]
  | some checksum =>
    simp only [redundantPacks, mem_map, mem_filter, Option.some.injEq]
    constructor
    · rintro ⟨file, ⟨member, goes⟩, rfl⟩
      refine ⟨checksum, file.1, rfl, ?_, goes, rfl⟩
      exact (mem_keys_iff own.packs file.1).1 (mem_map_of_mem member)
    · rintro ⟨_, name, rfl, here, goes, rfl⟩
      obtain ⟨file, member, rfl⟩ := mem_map.1 ((mem_keys_iff own.packs name).2 here)
      exact ⟨file, ⟨member, goes⟩, rfl⟩

section Redundant
variable (own : ObjectDir) (alternates : List ObjectDir) (snapshot : List PackFile) {ids : Ids}
  (replacing : Option Bytes)

/-- Everything `-d` unlinks: packs of the own directory, the first loose copy of each packed id wherever it
lies, and the own loose copies of what a pack of the snapshot holds. -/
theorem mem_sweepRedundant (distinct : ids.Nodup) (location : Location) :
    location ∈ sweepRedundant (own :: alternates) snapshot ids replacing ↔ location ∈ redundantPacks own replacing ∨
      (∃ id ∈ ids, ∃ dir, loosePath (own :: alternates) id = some dir ∧ location = ⟨dir, .loose id⟩) ∨
      ∃ id, (own.looseFile id).isSome ∧ packed snapshot id = true ∧ location = ⟨0, .loose id⟩ := by
  have noLoose : ∀ id ∈ ids, ∀ i, ⟨i, .loose id⟩ ∉ redundantPacks own replacing := by
    intro id _ i member
    obtain ⟨_, _, _, _, _, impossible⟩ := (mem_redundantPacks own replacing _).1 member
    cases impossible
  have loop := @mem_unlinkLoose_foldl (own :: alternates) (redundantPacks own replacing) ids distinct noLoose
  simp only [sweepRedundant, mem_append, mem_map, mem_filter, decide_eq_true_eq]
  rw [loop location, or_assoc]
  refine or_congr_right ?_
  constructor
  · rintro (first | ⟨file, ⟨⟨member, -⟩, inPack⟩, rfl⟩)
    · exact .inl first
    · exact .inr ⟨file.1, (mem_keys_iff own.loose file.1).1 (mem_map_of_mem member), inPack, rfl⟩
  · rintro (first | ⟨id, here, inPack, rfl⟩)
    · exact .inl first
    · obtain ⟨file, member, rfl⟩ := mem_map.1 ((mem_keys_iff own.loose id).2 here)
      -- either the loop before took it already, or the last one does
      by_cases taken : ⟨0, .loose file.1⟩ ∈ ids.foldl (unlinkLoose (own :: alternates)) (redundantPacks own replacing)
      · rcases (loop _).1 taken with pack | first
        · obtain ⟨_, _, _, _, _, impossible⟩ := (mem_redundantPacks own replacing _).1 pack
          cases impossible
        · exact .inl first
      · exact .inr ⟨file, ⟨⟨member, taken⟩, inPack⟩, rfl⟩

end Redundant

end Sweep

/-! ## The new pack -/

section NewPack
variable {prim : Primitives} {obj : Objects} {read : Objects}
  {ids : Ids} {ofsOk : Bool} {built : Built} {idx : Bytes}

theorem ObjectDir.store_packFile (dir : ObjectDir) (name data other : Bytes) :
    (dir.store name data).packFile other = if other = name then some data else dir.packFile other := by
  rw [ObjectDir.packFile, ObjectDir.store]
  by_cases same : other = name
  · subst same
    simp
  · have filtered := lookup_filter (fun key => decide (key ≠ name)) dir.packs other
    simp only [ne_eq, same] at filtered
    rwa [lookup_cons_ne same, if_neg same]

def ObjectDir.storePack (own : ObjectDir) (stem pack idx : Bytes) : ObjectDir :=
  (own.store (stem ++ ascii ".pack") pack).store (stem ++ ascii ".idx") idx

theorem idx_ne_pack (s t : Bytes) : s ++ ascii ".idx" ≠ t ++ ascii ".pack" :=
  endings_differ (by decide) (by decide) (by decide) s t

theorem ObjectDir.storePack_packFile_keep (own : ObjectDir) (stem pack idx other : Bytes) :
    (own.storePack stem pack idx).packFile (other ++ ascii ".keep") = own.packFile (other ++ ascii ".keep") := by
  have notIdx : other ++ ascii ".keep" ≠ stem ++ ascii ".idx" := endings_differ (by decide) (by decide) (by decide) _ _
  have notPack : other ++ ascii ".keep" ≠ stem ++ ascii ".pack" :=
    endings_differ (by decide) (by decide) (by decide) _ _
  rw [ObjectDir.storePack, ObjectDir.store_packFile, if_neg notIdx, ObjectDir.store_packFile, if_neg notPack]

theorem ObjectDir.mem_scan_storePack (own : ObjectDir) {stem pack idx : Bytes} (named : stem ≠ [])
    (usable : idxUsable idx) (file : PackFile) :
    file ∈ (own.storePack stem pack idx).scan ↔ file = { stem, idx, pack } ∨ file ∈ own.scan ∧ file.stem ≠ stem := by
  obtain ⟨other, otherIdx, otherPack⟩ := file
  have crossed : other ++ ascii ".pack" ≠ stem ++ ascii ".idx" := (idx_ne_pack stem other).symm
  have crossed' : other ++ ascii ".idx" ≠ stem ++ ascii ".pack" := idx_ne_pack other stem
  simp only [ObjectDir.mem_scan_iff, ObjectDir.storePack, ObjectDir.store_packFile, crossed, crossed', if_false,
    PackFile.mk.injEq]
  by_cases same : other = stem
  · subst same
    simp only [if_true, Option.some.injEq, ne_eq, not_true_eq_false, and_false, or_false, true_and, named,
      not_false_eq_true]
    constructor
    · rintro ⟨rfl, rfl, -⟩
      exact ⟨rfl, rfl⟩
    · rintro ⟨rfl, rfl⟩
      exact ⟨rfl, rfl, usable⟩
  · simp [same]

theorem writeIdxV2_usable {ents : List IdxEntry} {packSha : ObjectId}
    (written : writeIdxV2 prim ents packSha = some idx) : idxUsable idx := by
  obtain ⟨words, long, tables⟩ := writeIdxV2_tables written
  have size := tables.size
  have headed : ∃ tail, idx = idxHead ++ tail := by
    unfold writeIdxV2 at written
    split at written
    · cases written
    · obtain ⟨split, -, rest⟩ := Option.bind_eq_some_iff.1 written
      obtain ⟨body, laid, sealed⟩ := Option.bind_eq_some_iff.1 rest
      obtain ⟨rfl, -⟩ := bufAppend_eq_some laid
      split at sealed
      · cases sealed
      · obtain ⟨rfl, -⟩ := bufAppend_eq_some sealed
        exact ⟨_, by rw [nil_append, append_assoc]⟩
  obtain ⟨tail, rfl⟩ := headed
  have long : 1032 ≤ (idxHead ++ tail).length := by omega
  have magic : (idxHead ++ tail).take 4 = [0xff, 0x74, 0x4f, 0x63] := rfl
  have version : wordAt 4 (idxHead ++ tail) 4 = 2 := rfl
  simp only [idxUsable, long, magic, version, decide_true, Bool.and_self]

section
variable (made : packBuildDeltas prim read ids ofsOk = some built)
include made

theorem packBuildDeltas_mapping (stem idx : Bytes) :
    PackFile.mapping { stem, idx, pack := built.pack } = some built.pack := by
  obtain ⟨items, -, rest⟩ := Option.bind_eq_some_iff.1 made
  obtain ⟨header, headed, rest⟩ := Option.bind_eq_some_iff.1 rest
  obtain ⟨state, ran, rest⟩ := Option.bind_eq_some_iff.1 rest
  obtain ⟨pack, sealed, rest⟩ := Option.bind_eq_some_iff.1 rest
  obtain ⟨rfl, -⟩ := bufAppend_eq_some headed
  obtain ⟨rfl, -⟩ := bufAppend_eq_some sealed
  cases rest
  -- every item is appended, so the header stays in front
  have front : packHeader ids.length <+: state.body := by
    refine foldlM_invariant (fun _ s => packHeader ids.length <+: s.body) ran (by simp) ?_
    intro done item rest s t _ before wrote
    obtain ⟨_, _, _, _, _, _, grown, _⟩ := writeItem_eq_some wrote
    exact grown ▸ before.trans (prefix_append _ _)
  obtain ⟨more, body⟩ := front
  have twelve : (packHeader ids.length).length = 12 := by simp [packHeader]
  have size := congrArg length body
  have trailer := (prim.digest state.body).width
  rw [PackFile.mapping, if_neg]
  rw [not_or]
  constructor
  · simp only [length_append] at size ⊢
    omega
  · rw [← body]
    simp [packHeader, ascii]

section
variable (distinct : ids.Nodup) (written : writeIdxV2 prim built.entries built.checksum = some idx)
include distinct written

theorem newPack_known_iff (id : ObjectId) : lookupOffset idx id ≠ notFound ↔ id ∈ ids := by
  have packs := packBuildDeltas_packs made
  constructor
  · intro known
    by_contra unlisted
    apply known
    refine lookupOffset_unlisted written id ?_
    rintro e member rfl
    exact unlisted (packs.names ▸ mem_map_of_mem member)
  · intro listed
    obtain ⟨_, _, known, _⟩ := packs.reads distinct written listed
    exact known

theorem newPack_read (stem : Bytes) {id : ObjectId} (listed : id ∈ ids) : ∃ object, read id = some object ∧
      ∀ loose, PackFile.read prim loose { stem, idx, pack := built.pack } id = .here object := by
  obtain ⟨object, readable, known, reads⟩ := (packBuildDeltas_packs made).reads distinct written listed
  refine ⟨object, readable, fun loose => ?_⟩
  rw [PackFile.read, if_neg known, packBuildDeltas_mapping made]
  simp [reads, Found.ofContent, object.fits]

end

theorem newPack_names (written : writeIdxV2 prim built.entries built.checksum = some idx) (stem : Bytes) {id : ObjectId}
    (listed : id ∈ PackFile.names { stem, idx, pack := built.pack }) : id ∈ ids := by
  obtain ⟨words, long, tables⟩ := writeIdxV2_tables written
  have perm := perm_insertionSort idxEntryLE built.entries
  generalize built.entries.insertionSort idxEntryLE = sorted at tables perm
  have total : wordAt 4 idx (8 + 255 * 4) = sorted.length := by rw [tables.fan 255 (by decide), upTo_last]
  simp only [PackFile.names, total] at listed
  split at listed
  · cases listed
  · obtain ⟨k, inside, found⟩ := mem_filterMap.1 listed
    obtain ⟨e, place⟩ : ∃ e, sorted[k]? = some e := ⟨_, getElem?_eq_getElem (mem_range.1 inside)⟩
    rw [tables.name k e place, idOf, dif_pos e.sha.width] at found
    obtain rfl : e.sha = id := Option.some.inj found
    rw [← (packBuildDeltas_packs made).names]
    exact mem_map_of_mem (perm.mem_iff.1 (mem_of_getElem? place))

end

theorem Sound.storePack {own : ObjectDir} {alternates : List ObjectDir} {loose : LooseRead}
    (sound : Sound prim obj (own :: alternates) (scanPacks (own :: alternates)))
    (made : packBuildDeltas prim (odbRead prim loose (own :: alternates) (scanPacks (own :: alternates))) ids ofsOk =
      some built) (distinct : ids.Nodup) (written : writeIdxV2 prim built.entries built.checksum = some idx)
    {stem : Bytes} (named : stem ≠ []) :
    Sound prim obj (own.storePack stem built.pack idx :: alternates)
      (scanPacks (own.storePack stem built.pack idx :: alternates)) := by
  have scanned (file : PackFile) (member : file ∈ scanPacks (own.storePack stem built.pack idx :: alternates)) :
      file = { stem, idx, pack := built.pack } ∨ file ∈ scanPacks (own :: alternates) := by
    simp only [scanPacks, flatMap_cons, mem_append] at member ⊢
    rcases member with mine | theirs
    · rcases (own.mem_scan_storePack named (writeIdxV2_usable written) file).1 mine with new | old
      · exact .inl new
      · exact .inr (.inl old.1)
    · exact .inr (.inr theirs)
  constructor
  · intro dir member id file found
    rcases mem_cons.1 member with rfl | member
    · exact sound.loose own (.head _) id file found
    · exact sound.loose dir (.tail _ member) id file found
  · intro file member id known
    rcases scanned file member with rfl | old
    · have listed := (newPack_known_iff made distinct written id).1 known
      obtain ⟨object, readable, reads⟩ := newPack_read made distinct written stem listed
      rcases sound.read loose id with ⟨-, same, named, reads'⟩ | ⟨-, none⟩
      · rw [readable] at reads'
        exact ⟨object, by rw [named, Option.some.inj reads'], reads⟩
      · rw [readable] at none
        cases none
    · exact sound.packed file old id known
  · intro file member id listed
    rcases scanned file member with rfl | old
    · exact (newPack_known_iff made distinct written id).2 (newPack_names made written stem listed)
    · exact sound.names file old id listed

end NewPack

theorem packStem_ne_nil (checksum : ObjectId) : packStem checksum ≠ [] := append_ne_nil_of_left_ne_nil (by decide) _

/-! ## A whole run -/

section Run
variable (prim : Primitives) (loose : LooseRead) (dirs : List ObjectDir) (io : RepackIo)
  (heads : Ids) (all removeRedundant : Bool)

/-- What the sweep of a run that succeeds starts from: the store as it was, or with the new pack in place. -/
inductive Prepared : List ObjectDir → Option Bytes → Prop
  | nothing (own : ObjectDir) (alternates : List ObjectDir) (whole : dirs = own :: alternates)
      (empty : repackObjects prim loose dirs heads (!all) = []) : Prepared (own :: alternates) none
  | pack (own : ObjectDir) (alternates : List ObjectDir) (built : Built) (idx : Bytes) (whole : dirs = own :: alternates)
      (nonempty : repackObjects prim loose dirs heads (!all) ≠ [])
      (made : packBuildDeltas prim (odbRead prim loose dirs (scanPacks dirs))
        (repackObjects prim loose dirs heads (!all)) true = some built)
      (written : writeIdxV2 prim built.entries built.checksum = some idx) :
      Prepared (own.storePack (packStem built.checksum) built.pack idx :: alternates)
        (if all then some built.checksum.hex else none)

/-- A run fails, having unlinked no more than a file it was writing, or it sweeps what it prepared. -/
theorem repackRun_cases : ((repackRun prim loose dirs io heads all removeRedundant).ok = false ∧
      ∀ location ∈ (repackRun prim loose dirs io heads all removeRedundant).unlinked, location.dir = 0) ∨
    ∃ written replacing, Prepared prim loose dirs heads all written replacing ∧
      repackRun prim loose dirs io heads all removeRedundant =
        finishRepack (scanPacks dirs) (repackObjects prim loose dirs heads (!all)) removeRedundant written
          replacing := by
  cases dirs with
  | nil => exact .inl ⟨rfl, by simp [repackRun]⟩
  | cons own alternates =>
    rw [repackRun]
    split
    next empty => exact .inr ⟨_, _, .nothing own alternates rfl empty, rfl⟩
    next nonempty =>
      split
      · exact .inl ⟨rfl, by simp⟩
      next built made =>
        by_cases stored : io.packStored = true
        · simp only [stored, Bool.not_true, Bool.false_eq_true, if_false]
          split
          · exact .inl ⟨rfl, by simp⟩
          next idx written =>
            by_cases indexed : io.idxStored = true
            · simp only [indexed]
              exact .inr ⟨_, _, .pack own alternates built idx rfl nonempty made written, rfl⟩
            · simp [indexed]
        · simp [stored]

variable {prim loose dirs heads all}

theorem Prepared.sound {obj : Objects} {written : List ObjectDir} {replacing : Option Bytes}
    (ready : Prepared prim loose dirs heads all written replacing) (before : Sound prim obj dirs (scanPacks dirs)) :
    Sound prim obj written (scanPacks written) := by
  cases ready with
  | nothing own alternates whole empty => exact whole ▸ before
  | pack own alternates built idx whole nonempty made written =>
    subst whole
    exact before.storePack made (repackObjects_nodup heads _) written (packStem_ne_nil built.checksum)

end Run

end BashOs.Git

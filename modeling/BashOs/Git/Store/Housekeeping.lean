import BashOs.Git.Store.Keep

/-!
`git gc`: old reflog entries go, everything reachable is put into one pack in place of the packs there were, and then
loose objects that nothing reaches are pruned by age. A pack has an age as well, which nothing looks at.
-/

namespace BashOs.Git
open BashOs.Lib BashOs.Git.Pack List Option

/-- The expiry of a prune; no time at all, `(time_t) -1`, lets everything go. -/
abbrev Expiry := Option Int

def Repository.expireLogs (repo : Repository) (expire : List (Bytes × Bytes) → List (Bytes × Bytes)) : Repository :=
  { repo with common := { repo.common with logs := expire repo.common.logs } }

section Gc
variable (prim : Primitives) (loose : LooseRead) (dirs : List ObjectDir)

/-- `git_cmd_gc` from the repack on, in a repository whose reflogs have been seen to. A repack that fails ends it;
`prune` is none for `--no-prune`. -/
def gcRun (io : RepackIo) (repo : Repository) (context : Context) (prune : Option Expiry) : Option (List ObjectDir) :=
  let repacked := repackRun prim loose dirs io (fsckHeads repo context true) true true
  if repacked.ok then
    match prune with
    | none => some repacked.dirs
    | some expiry =>
      -- the store is opened anew, so the walk knows the pack just written
      (pruneRun prim loose repacked.dirs (fsckHeads repo context false) [] false expiry).map (without repacked.dirs)
  else none

/-- `git_cmd_gc`. `due` is false when `--auto` finds too little to do. -/
def cmdGc (io : RepackIo) (repo : Repository) (context : Context)
    (expire : List (Bytes × Bytes) → List (Bytes × Bytes)) (due : Bool) (prune : Option Expiry) :
    Option (List ObjectDir) :=
  if due then gcRun prim loose dirs io (repo.expireLogs expire) context prune else some dirs

end Gc

/-- Every file of the own directory that has the object is no newer than the expiry. Packs are dated by their stem. -/
def OldCopies (dirs : List ObjectDir) (packTime : Bytes → Int) (expiry : Expiry) (id : ObjectId) : Prop :=
  ∀ own, dirs[0]? = some own →
    (∀ file, own.looseFile id = some file → expired expiry file.mtime = true) ∧
      ∀ pack ∈ own.scan, lookupOffset pack.idx id ≠ notFound → expired expiry (packTime pack.stem) = true

def TakesOnlyOld (prim : Primitives) (loose : LooseRead) (dirs after : List ObjectDir)
    (roots : Ids) (packTime : Bytes → Int) (prune : Option Expiry) : Prop :=
  ∀ id, (odbRead prim loose dirs (scanPacks dirs) id).isSome → odbRead prim loose after (scanPacks after) id = none →
    ¬HeldBy prim loose dirs roots id ∧ ∃ expiry, prune = some expiry ∧ OldCopies dirs packTime expiry id

/-- What the prune behind a repack takes: the only copy of an object, loose and old enough. -/
def PrunedAfter (dirs : List ObjectDir) (prune : Option Expiry) (id : ObjectId) : Prop :=
  packed (scanPacks dirs) id = false ∧ (¬∃ dir ∈ dirs.tail, (dir.looseFile id).isSome) ∧
    ∃ expiry own file, prune = some expiry ∧ dirs[0]? = some own ∧ own.looseFile id = some file ∧
      expired expiry file.mtime = true

theorem fsckHeads_undo (repo : Repository) (context : Context) :
    ∀ x ∈ fsckHeads repo context false, x ∈ fsckHeads repo context true := by
  intro x listed
  unfold fsckHeads at listed ⊢
  simp only [mem_append, Bool.false_eq_true, if_false, if_true] at listed ⊢
  refine listed.imp_left (Or.imp_right ?_)
  split
  · simp only [mem_append, not_mem_nil, or_false]
    exact Or.imp_left .inl
  · exact id

section Repacked
variable {prim : Primitives} {obj : Objects} {loose : LooseRead} {dirs after : List ObjectDir} {heads : Ids}

section
variable {written : List ObjectDir} {replacing : Option Bytes}
  (ready : Prepared prim loose dirs heads true written replacing)
include ready

theorem Prepared.looseFile_eq : ∃ own alternates own', dirs = own :: alternates ∧ written = own' :: alternates ∧
    ∀ id, own'.looseFile id = own.looseFile id := by
  cases ready with
  | nothing own alternates whole empty => exact ⟨own, alternates, own, whole, rfl, fun _ => rfl⟩
  | pack own alternates built idx whole nonempty made written => exact ⟨own, alternates, _, whole, rfl, fun _ => rfl⟩

theorem Prepared.packed_left (id : ObjectId) :
    let gone := sweepRedundant written (scanPacks dirs) (repackObjects prim loose dirs heads false) replacing
    packed (scanPacks (without written gone)) id = true →
      Reachable prim loose dirs (· ∈ heads) id ∨ packed (scanPacks dirs) id = true := by
  intro gone inPack
  have distinct : (repackObjects prim loose dirs heads false).Nodup := repackObjects_nodup heads false
  obtain ⟨file, member, finds⟩ := (packed_iff _ id).1 inPack
  obtain ⟨i, dir, place, listed, kept⟩ := (mem_scanPacks_without file).1 member
  have old {dir : ObjectDir} (inside : dir ∈ dirs) (listed : file ∈ dir.scan) : packed (scanPacks dirs) id = true :=
    (packed_iff _ id).2 ⟨file, mem_flatMap.2 ⟨dir, inside, listed⟩, finds⟩
  cases ready with
  | nothing own alternates whole empty => exact .inr (old (whole ▸ mem_of_getElem? place) listed)
  | pack own alternates built idx whole nonempty made written =>
    subst whole
    cases i with
    | succ i => exact .inr (old (mem_cons_of_mem own (mem_of_getElem? place)) listed)
    | zero =>
      cases place
      rcases (own_packs_left own alternates _ written distinct file).1 ⟨listed, kept⟩ with rfl | ⟨before, -⟩
      · exact .inl ((mem_packed_all heads id).1 ((newPack_known_iff made distinct written id).1 finds))
      · exact .inr (old mem_cons_self before)

theorem Prepared.packs_reached (id : ObjectId) (reach : Reachable prim loose dirs (· ∈ heads) id) :
    let gone := sweepRedundant written (scanPacks dirs) (repackObjects prim loose dirs heads false) replacing
    packed (scanPacks (without written gone)) id = true := by
  intro gone
  have distinct : (repackObjects prim loose dirs heads false).Nodup := repackObjects_nodup heads false
  have listed := (mem_packed_all heads id).2 reach
  cases ready with
  | nothing own alternates whole empty =>
    rw [show repackObjects prim loose dirs heads false = [] from empty] at listed
    cases listed
  | pack own alternates built idx whole nonempty made written =>
    subst whole
    have new := (own_packs_left own alternates (scanPacks (own :: alternates)) written distinct
      { stem := packStem built.checksum, idx, pack := built.pack }).2 (.inl rfl)
    refine (packed_iff _ id).2 ⟨_, (mem_scanPacks_without _).2 ⟨0, _, rfl, new⟩, ?_⟩
    exact (newPack_known_iff made distinct written id).2 listed

theorem Prepared.sweeps_loose_iff {id : ObjectId} (unreached : ¬Reachable prim loose dirs (· ∈ heads) id) (i : Nat) :
    ⟨i, .loose id⟩ ∈ sweepRedundant written (scanPacks dirs) (repackObjects prim loose dirs heads false) replacing ↔
      i = 0 ∧ packed (scanPacks dirs) id = true ∧ ∃ own, dirs[0]? = some own ∧ (own.looseFile id).isSome := by
  obtain ⟨own, alternates, own', rfl, rfl, same⟩ := ready.looseFile_eq
  rw [mem_sweepRedundant own' alternates _ replacing (repackObjects_nodup heads false)]
  constructor
  · rintro (pack | ⟨other, listed, _, _, at'⟩ | ⟨other, file, inPack, at'⟩)
    · obtain ⟨_, _, _, _, _, impossible⟩ := (mem_redundantPacks _ _ _).1 pack
      cases impossible
    · cases at'
      exact absurd ((mem_packed_all heads id).1 listed) unreached
    · cases at'
      exact ⟨rfl, inPack, own, rfl, same id ▸ file⟩
  · rintro ⟨rfl, inPack, first, place, file⟩
    cases place
    exact .inr (.inr ⟨id, (same id).symm ▸ file, inPack, rfl⟩)

end

/-- What a repack leaves of an object that its walk did not reach. -/
structure LeftOver (dirs after : List ObjectDir) (id : ObjectId) : Prop where
  packs : packed (scanPacks after) id = true → packed (scanPacks dirs) id = true
  others : (∃ dir ∈ after.tail, (dir.looseFile id).isSome) ↔ ∃ dir ∈ dirs.tail, (dir.looseFile id).isSome
  own : ∀ file, (∃ own, after[0]? = some own ∧ own.looseFile id = some file) ↔
    packed (scanPacks dirs) id = false ∧ ∃ own, dirs[0]? = some own ∧ own.looseFile id = some file

theorem Prepared.leftOver {written : List ObjectDir} {replacing : Option Bytes}
    (ready : Prepared prim loose dirs heads true written replacing) (id : ObjectId)
    (unreached : ¬Reachable prim loose dirs (· ∈ heads) id) :
    LeftOver dirs (without written
      (sweepRedundant written (scanPacks dirs) (repackObjects prim loose dirs heads false) replacing)) id := by
  have swept := ready.sweeps_loose_iff unreached
  have packs := ready.packed_left id
  obtain ⟨own, alternates, own', rfl, rfl, same⟩ := ready.looseFile_eq
  generalize sweepRedundant (own' :: alternates) (scanPacks (own :: alternates)) _ replacing = gone at *
  refine ⟨fun inPack => (packs inPack).resolve_left unreached, ?_, ?_⟩
  · have kept (i : Nat) : ⟨i + 1, .loose id⟩ ∉ gone := fun member => absurd ((swept _).1 member).1 (Nat.succ_ne_zero i)
    constructor
    · rintro ⟨dir, member, file⟩
      obtain ⟨i, place⟩ := mem_iff_getElem?.1 member
      rw [getElem?_tail, without, getElem?_mapIdx] at place
      obtain ⟨old, at', rfl⟩ := map_eq_some_iff.1 place
      rw [ObjectDir.less_looseFile, if_neg (kept i)] at file
      exact ⟨old, mem_of_getElem? at', file⟩
    · rintro ⟨dir, member, file⟩
      obtain ⟨i, place⟩ := mem_iff_getElem?.1 member
      refine ⟨dir.less (i + 1) gone, mem_of_getElem? (i := i) ?_, ?_⟩
      · rw [getElem?_tail, without, getElem?_mapIdx]
        exact map_eq_some_iff.2 ⟨dir, place, rfl⟩
      · rwa [ObjectDir.less_looseFile, if_neg (kept i)]
  · intro file
    have first : (without (own' :: alternates) gone)[0]? = some (own'.less 0 gone) := by
      rw [without, getElem?_mapIdx]
      rfl
    simp only [first, Option.some.injEq, exists_eq_left', getElem?_cons_zero, ObjectDir.less_looseFile, same]
    by_cases goes : ⟨0, .loose id⟩ ∈ gone
    · rw [if_pos goes]
      refine iff_of_false (fun none => by cases none) fun found => ?_
      rw [((swept 0).1 goes).2.1] at found
      cases found.1
    · rw [if_neg goes]
      refine ⟨fun found => ⟨Bool.eq_false_iff.2 fun inPack => goes ?_, found⟩, And.right⟩
      exact (swept 0).2 ⟨rfl, inPack, own, rfl, by rw [found]; rfl⟩

theorem stored_iff_places (id : ObjectId) : Stored dirs (scanPacks dirs) id ↔
    packed (scanPacks dirs) id = true ∨ (∃ dir ∈ dirs.tail, (dir.looseFile id).isSome) ∨
      ∃ file own, dirs[0]? = some own ∧ own.looseFile id = some file := by
  rw [Stored, ← packed_iff, or_comm]
  refine or_congr_right ?_
  cases dirs with
  | nil => simp
  | cons own alternates => simp [isSome_iff_exists, or_comm]

theorem LeftOver.stored {id : ObjectId} (left : LeftOver dirs after id) (still : Stored after (scanPacks after) id) :
    Stored dirs (scanPacks dirs) id := by
  rw [stored_iff_places] at still ⊢
  refine still.imp left.packs (Or.imp left.others.1 ?_)
  rintro ⟨file, found⟩
  exact ⟨file, ((left.own file).1 found).2⟩

/-- The prune looks at the copies that the repack left. -/
theorem LeftOver.spared_iff {id : ObjectId} (left : LeftOver dirs after id) (still : Stored after (scanPacks after) id)
    (expiry : Expiry) : SparedByPrune after false expiry id ↔ ¬PrunedAfter dirs (some expiry) id := by
  constructor
  · rintro saved ⟨unpacked, alone, _, own, file, ⟨⟩, place, found, old⟩
    obtain ⟨own', first, found'⟩ := (left.own file).2 ⟨unpacked, own, place, found⟩
    rcases saved with dry | packedLeft | elsewhere | ⟨own₂, file₂, first₂, found₂, young⟩
    · cases dry
    · rw [left.packs packedLeft] at unpacked
      cases unpacked
    · exact alone (left.others.1 elsewhere)
    · cases first.symm.trans first₂
      cases found'.symm.trans found₂
      rw [old] at young
      cases young
  · intro kept
    by_contra lost
    rw [SparedByPrune, not_or, not_or, not_or] at lost
    obtain ⟨-, unpacked, elsewhere, young⟩ := lost
    rw [stored_iff_places] at still
    obtain ⟨file, own', first, found⟩ := (still.resolve_left unpacked).resolve_left elsewhere
    obtain ⟨unpacked', own, place, found'⟩ := (left.own file).1 ⟨own', first, found⟩
    refine kept ⟨unpacked', fun other => elsewhere (left.others.2 other), expiry, own, file, rfl, place, found', ?_⟩
    by_contra late
    exact young ⟨own', file, first, found, Bool.eq_false_iff.2 late⟩

/-- A walk over fewer objects from fewer heads reaches no more. -/
theorem reachable_of_fewer {fewer : Ids} (sound : Sound prim obj dirs (scanPacks dirs))
    (soundAfter : Sound prim obj after (scanPacks after)) (starts : ∀ x ∈ fewer, x ∈ heads)
    (stored : ∀ id, Stored after (scanPacks after) id → Stored dirs (scanPacks dirs) id) {id : ObjectId}
    (reach : Reachable prim loose after (· ∈ fewer) id) : Reachable prim loose dirs (· ∈ heads) id := by
  have here {x : ObjectId} (listed : x ∈ odbList after (scanPacks after)) : x ∈ odbList dirs (scanPacks dirs) :=
    (sound.mem_odbList x).2 (stored x ((soundAfter.mem_odbList x).1 listed))
  induction reach with
  | root start listed => exact .root (starts _ start) (here listed)
  | @step x y before link listed ih =>
    refine .step ih ?_ (here listed)
    have same : odbRead prim loose after (scanPacks after) x = odbRead prim loose dirs (scanPacks dirs) x := by
      have old := (soundAfter.mem_odbList x).1 before.here
      obtain ⟨-, object, named, reads⟩ | ⟨gone, -⟩ := soundAfter.read loose x
      · obtain ⟨-, object', named', reads'⟩ | ⟨gone, -⟩ := sound.read loose x
        · rw [reads, reads', ← named, named']
        · exact absurd (stored x old) gone
      · exact absurd old gone
    rwa [linksOf, same] at link

variable {io : RepackIo}

theorem stored_of_without {gone : List Location} {id : ObjectId}
    (left : Stored (without dirs gone) (scanPacks (without dirs gone)) id) : Stored dirs (scanPacks dirs) id := by
  rw [stored_without] at left
  obtain ⟨i, dir, place, file, -⟩ | ⟨i, dir, file, place, listed, -, -, known⟩ := left
  · exact .inl ⟨dir, mem_of_getElem? place, file⟩
  · exact .inr ⟨file, mem_flatMap.2 ⟨dir, mem_of_getElem? place, listed⟩, known⟩

theorem gcRun_cases {repo : Repository} {context : Context} {prune : Option Expiry}
    (ran : gcRun prim loose dirs io repo context prune = some after) :
    let repacked := repackRun prim loose dirs io (fsckHeads repo context true) true true
    repacked.ok = true ∧ (prune = none ∧ after = repacked.dirs ∨
        ∃ expiry gone, prune = some expiry ∧ after = without repacked.dirs gone ∧
          pruneRun prim loose repacked.dirs (fsckHeads repo context false) [] false expiry = some gone) := by
  unfold gcRun at ran
  dsimp only at ran ⊢
  split at ran
  next succeeded =>
    refine ⟨succeeded, ?_⟩
    cases prune with
    | none =>
      cases ran
      exact .inl ⟨rfl, rfl⟩
    | some expiry =>
      obtain ⟨gone, pruned, rfl⟩ := map_eq_some_iff.1 ran
      exact .inr ⟨expiry, gone, rfl, rfl, pruned⟩
  · cases ran

/-- What `gc` leaves: what its first walk reached, and what the repack spares and the prune does not take. -/
theorem gc_stored_iff {repo : Repository} {context : Context} {prune : Option Expiry}
    (sound : Sound prim obj dirs (scanPacks dirs)) (noClash : NoClash prim loose dirs (fsckHeads repo context true))
    (ran : gcRun prim loose dirs io repo context prune = some after) :
    Sound prim obj after (scanPacks after) ∧ ∀ id, Stored dirs (scanPacks dirs) id →
      (Stored after (scanPacks after) id ↔ Reachable prim loose dirs (· ∈ fsckHeads repo context true) id ∨
        SparedByRepack prim loose dirs (fsckHeads repo context true) id ∧ ¬PrunedAfter dirs prune id) := by
  obtain ⟨succeeded, ending⟩ := gcRun_cases ran
  obtain ⟨written, replacing, ready, result⟩ := repackRun_left succeeded
  have soundLeft : Sound prim obj _ (scanPacks _) := (ready.sound sound).without
    (sweepRedundant written (scanPacks dirs) (repackObjects prim loose dirs (fsckHeads repo context true) false)
      replacing)
  have stored (id : ObjectId) (here : Stored dirs (scanPacks dirs) id) := repack_stored_iff ready noClash here
  have inPack (id : ObjectId) := ready.packs_reached id
  have leftOver (id : ObjectId) := ready.leftOver id
  rw [result] at ending
  dsimp only at stored inPack
  generalize without written (sweepRedundant written _ _ _) = left at *
  obtain ⟨rfl, rfl⟩ | ⟨expiry, gone, rfl, rfl, pruned⟩ := ending
  · refine ⟨soundLeft, fun id here => (stored id here).trans (or_congr_right ?_)⟩
    exact (and_iff_left fun taken => by obtain ⟨-, -, _, _, _, impossible, -⟩ := taken; cases impossible).symm
  · refine ⟨soundLeft.without gone, fun id here => ?_⟩
    have known (x : ObjectId) (still : Stored left (scanPacks left) x) : Stored dirs (scanPacks dirs) x := by
      by_cases reach : Reachable prim loose dirs (· ∈ fsckHeads repo context true) x
      · exact (sound.mem_odbList x).1 reach.here
      · exact (leftOver x reach).stored still
    by_cases reach : Reachable prim loose dirs (· ∈ fsckHeads repo context true) id
    · have still := (stored id here).2 (.inl reach)
      exact iff_of_true ((prune_stored_iff pruned rfl still).2 (.inr (.inr (.inl (inPack id reach))))) (.inl reach)
    by_cases spared : SparedByRepack prim loose dirs (fsckHeads repo context true) id
    · have still := (stored id here).2 (.inr spared)
      have resolves : ([] : List (Option ObjectId)).mapM (fun x => x) = some [] := rfl
      have unreached : ¬Reachable prim loose left (· ∈ fsckHeads repo context false) id := fun reached =>
        reach (reachable_of_fewer sound soundLeft (fsckHeads_undo repo context) known reached)
      rw [prune_stored_iff pruned resolves still, append_nil, or_iff_right unreached, or_iff_right reach,
        and_iff_right spared, (leftOver id reach).spared_iff still expiry]
    · refine iff_of_false (fun still => ?_) (fun saved => saved.elim reach fun both => spared both.1)
      exact ((stored id here).1 (stored_of_without still)).elim reach spared

end Repacked

section Sample

/-! Beside the commit and its tree, a pack with a blob that nothing reaches. -/

def fetchedPack : Option (Bytes × Bytes) :=
  (packBuildDeltas storing (fun _ => some ⟨.blob, [7], by decide⟩) [sampleId 3] true).bind fun built =>
    (writeIdxV2 storing built.entries built.checksum).map fun idx => (built.pack, idx)

def fetchedDir : ObjectDir :=
  { sampleDir with
    packs := (fetchedPack.map fun found =>
      [(ascii "pack-fetched.pack", found.1), (ascii "pack-fetched.idx", found.2)]).getD []
    packsDistinct := by decide +kernel }

end Sample

end BashOs.Git

import BashOs.Git.WorkTree.Merge

/-!
What a merge does to work that was not committed: untracked files, local changes, and entries that were staged.
-/

namespace BashOs.Git.WorkTree
open BashOs.Lib List MergePath

/-! ## Untracked files -/

def KeepsUntracked (root : Place) (index : Index) (before after : Disk) : Prop :=
  ∀ place leaf, before.leaf place = some leaf → (∀ path, path.place root = place → entryFor index path = none) →
    (after.leaf place).map Leaf.content = some leaf.content

section
variable {host : Host} {read : Objects} {stamp : UInt32} {root : Place} {disk after : Disk}
  {index entries : Index} {paths : List MergePath} {merged : MergePath} {leaf : Leaf}

theorem untracked_calm (short : ∀ merged ∈ paths, merged.idle = false → fits root merged.path = true)
    (safe : mergeSafeText host stamp root disk index paths = true) (member : merged ∈ paths)
    (here : disk.leaf (merged.path.place root) = some leaf) (untracked : entryFor index merged.path = none) :
    merged.gone = true ∨ merged.idle = true := by
  by_cases idle : merged.idle = true
  · exact .inr idle
  have accepted : lostByMergeText host stamp root disk index merged = false := by
    simpa using all_eq_true.1 safe merged member
  have last : entryFor index.reverse merged.path = none := by simpa [entryFor_eq_none] using untracked
  rw [lostByMergeText_of_fits (short merged member (Bool.eq_false_iff.2 idle)), lostByMerge, lstat_of_leaf here,
    last] at accepted
  split at accepted
  next unchanged =>
    simp only [Bool.and_eq_true, decide_eq_true_eq] at unchanged
    by_cases none : merged.result.mode = 0
    · exact .inl (by simp [gone, unchanged.1, none])
    · exact .inr (by simp [MergePath.idle, gone, text, unchanged, none])
  · cases accepted

/-- A merge that was accepted, that acts on no path too long for its buffer, and that removes nothing and writes no
conflict through a link, keeps untracked files if none of them lies where the merge deletes a path that the index
has not; and if it goes through, only then. -/
theorem merge_keeps_untracked_iff (straight : StraightRun host read root paths disk)
    (short : ∀ merged ∈ paths, merged.idle = false → fits root merged.path = true)
    (safe : mergeSafeText host stamp root disk index paths = true) :
    ((∀ merged ∈ paths, merged.gone = true → entryFor index merged.path = none →
        disk.leaf (merged.path.place root) = none) →
      KeepsUntracked root index disk (applyPathsText host read root paths disk).1) ∧
    ((applyPathsText host read root paths disk).2.isSome →
      KeepsUntracked root index disk (applyPathsText host read root paths disk).1 →
      ∀ merged ∈ paths, merged.gone = true → entryFor index merged.path = none →
        disk.leaf (merged.path.place root) = none) := by
  obtain ⟨same, success⟩ := @applyPathsText_disk host read root disk paths short
  rw [same, success]
  constructor
  · intro clear place leaf here untracked
    have calm (merged : MergePath) (member : merged ∈ paths) (same : merged.path.place root = place) :
        merged.idle = true := by
      subst same
      obtain gone | idle := untracked_calm short safe member here (untracked _ rfl)
      · rw [clear merged member gone (untracked _ rfl)] at here
        cases here
      · exact idle
    rw [applyPaths_kept straight calm, here]
    rfl
  · intro through keeps merged member gone untracked
    by_contra present
    obtain ⟨leaf, here⟩ := Option.ne_none_iff_exists'.1 present
    obtain ⟨entries, ran⟩ := Option.isSome_iff_exists.1 through
    have alone : ∀ path, path.place root = merged.path.place root → entryFor index path = none := by
      intro path same
      rw [IndexPath.place_injective root same, untracked]
    have calm (other : MergePath) (inside : other ∈ paths) (same : other.path.place root = merged.path.place root) :
        other.gone = true ∨ other.idle = true := by
      rw [← same] at here
      exact untracked_calm short safe inside here (alone _ same)
    have removed := applyPaths_removed straight calm (Prod.ext rfl ran)
    rw [if_pos ⟨merged, member, rfl, gone⟩] at removed
    have after := keeps _ leaf here alone
    rw [removed] at after
    cases after

end

/-- `f` as our side and their side left it: gone, and as it was. -/
def goneF : MergePath where
  path := pathF
  kind := .clean
  result := Side.fill none
  base := Side.fill (some (listedF 1))
  ours := Side.fill none
  theirs := Side.fill (some (listedF 1))

theorem top_straight (disk : Disk) (name : FileName) : disk.Straight [name] := by
  intro above higher leaf held
  rw [suffix_nil.1 higher] at held
  cases held

/-- Our side deleted `f`, and an untracked `f` was made since: the merge unlinks it. -/
theorem merge_removes_untracked :
    (mergeTrees sampleHost (fun _ _ _ => none) sampleRead (some (byteId 0x41)) (some (byteId 0x40))
      (some (byteId 0x41))).map Prod.fst = some [goneF] ∧
    StraightRun sampleHost sampleRead [] [goneF] (diskF [9] 20) ∧ fits [] goneF.path = true ∧
    mergeSafeText sampleHost 50 [] (diskF [9] 20) [] [goneF] = true ∧
    (applyPathsText sampleHost sampleRead [] [goneF] (diskF [9] 20)).2.isSome ∧
    ¬ KeepsUntracked [] [] (diskF [9] 20) (applyPathsText sampleHost sampleRead [] [goneF] (diskF [9] 20)).1 := by
  refine ⟨by decide +kernel, ⟨fun _ => ?_, fun _ _ => trivial⟩, by decide +kernel, by decide +kernel, by decide +kernel,
    fun keeps => ?_⟩
  · exact top_straight _ nameF
  · have after := keeps [nameF] (.file [9] false { mtime := 20, ctime := 20, ino := 7 })
      (by decide +kernel) fun _ _ => rfl
    revert after
    decide +kernel

/-- `f` changed on their side only. -/
def takenF : MergePath where
  path := pathF
  kind := .clean
  result := Side.fill (some (listedF 2))
  base := Side.fill (some (listedF 1))
  ours := Side.fill (some (listedF 1))
  theirs := Side.fill (some (listedF 2))

/-- An untracked `g` beside a merged `f` stays. -/
theorem merge_keeps_untracked_sample :
    KeepsUntracked [] [entryF 1] diskFG (applyPathsText sampleHost sampleRead [] [takenF] diskFG).1 := by
  have safe : mergeSafeText sampleHost 50 [] diskFG [entryF 1] [takenF] = true := by decide +kernel
  have straight : StraightRun sampleHost sampleRead [] [takenF] diskFG := ⟨nofun, fun _ _ => trivial⟩
  refine (merge_keeps_untracked_iff straight (by decide +kernel) safe).1 ?_
  intro merged member gone
  obtain rfl := mem_singleton.1 member
  cases gone

/-! ## Local changes -/

def MergePath.fresh (merged : MergePath) (leaf : Leaf) : IndexEntry :=
  (merged.result.entry merged.path 0).setStat { size := leaf.content.length, stamp := leaf.stamp }

/-- The file passes for the path's new entry without being read: it has the entry's mode, and it is older than the
index that the merge found, or has no size to be written as zero. For a submodule what is there is asked. -/
def PassesUnread (host : Host) (stamp : UInt32) (root : Place) (merged : MergePath) (leaf : Leaf) : Prop :=
  if merged.result.mode = 0o160000 then
    host.submodule (merged.path.place root) = none ∨
      host.submodule (merged.path.place root) = some (merged.result.sha.getD nullId, true)
  else
    merged.result.mode = worktreeMode (.leaf leaf) ∧
      ((merged.fresh leaf).racy stamp = true → UInt32.ofNat leaf.content.length = 0)

section
variable {host : Host} {read : Objects} {stamp : UInt32} {root : Place} {disk after : Disk}
  {entries : Index} {entry : IndexEntry} {paths : List MergePath} {merged : MergePath} {leaf : Leaf}

section
variable (settled : merged.settled = true) (present : merged.result.mode ≠ 0)
include settled present

theorem applyEntries_fresh (here : disk.leaf (merged.path.place root) = some leaf) :
    applyEntries host root disk merged = [merged.fresh leaf] := by
  simp [applyEntries, entries, settled, present, lstat_of_leaf here, fresh, statOf]

theorem settled_plain : merged.gone = false ∧ merged.text = none ∧ merged.idle = merged.keepsOurs := by
  have plain : merged.text = none := by
    unfold MergePath.settled at settled
    unfold text
    split <;> simp_all
  have stays : merged.gone = false := by simp [gone, present]
  exact ⟨stays, plain, by simp [idle, stays, plain, present]⟩

end

theorem smudge_passes {newStamp : UInt32} (files : Files)
    (differs : blobId host leaf.content ≠ some (merged.result.sha.getD nullId))
    (older : UInt32.ofInt leaf.stamp.mtime < newStamp) :
    worktreeMatches host newStamp files (merged.path.place root) ((merged.fresh leaf).smudge stamp)
      (.leaf leaf) = true ↔
      PassesUnread host stamp root merged leaf := by
  obtain ⟨-, mode, sha, -⟩ := smudge_names stamp (merged.fresh leaf)
  have mode : ((merged.fresh leaf).smudge stamp).mode = merged.result.mode := mode
  have sha : ((merged.fresh leaf).smudge stamp).sha = merged.result.sha.getD nullId := sha
  have settledStat : ((merged.fresh leaf).smudge stamp).racy newStamp = false := by
    have time : ((merged.fresh leaf).smudge stamp).mtime = UInt32.ofInt leaf.stamp.mtime := by
      unfold IndexEntry.smudge
      split <;> rfl
    simp [IndexEntry.racy, time, older]
  have same : ((merged.fresh leaf).smudge stamp).sameStat
    (statOf host files (merged.path.place root) (.leaf leaf)) = true ↔
      ((merged.fresh leaf).racy stamp = true → UInt32.ofNat leaf.content.length = 0) := by
    unfold IndexEntry.smudge
    split
    next racy =>
      rw [racy]
      simp [IndexEntry.sameStat, IndexEntry.setStat, statOf, fresh]
    next calm =>
      refine iff_of_true ?_ fun racy => (calm racy).elim
      simp [IndexEntry.sameStat, IndexEntry.setStat, statOf, fresh]
  unfold worktreeMatches PassesUnread
  rw [mode, sha, settledStat]
  split
  · cases host.submodule (merged.path.place root) with
    | none => simp
    | some answer =>
      obtain ⟨head, clean⟩ := answer
      simp
  split
  next other => simp [other]
  rename_i right
  rw [not_not] at right
  simp only [Bool.not_false, Bool.true_and, right, ← same]
  split
  next yes => simp [yes]
  next no => simp [no, differs]

/-- After a merge that goes through, every file whose content is not that of its new entry, and which is older than
the new index, is seen to differ, exactly if no file that the merge leaves alone with another content than the
result's passes unread. No path acted on or entered is too long for its buffer, no link that is written has a NUL in its
text, and nothing is removed and no conflict written through a link. -/
theorem merge_shows_changes_iff (newStamp : UInt32) (straight : StraightRun host read root paths disk)
    (distinct : (paths.map MergePath.path).Nodup) (intact : Intact host read)
    (short : ∀ merged ∈ paths, merged.idle = false ∨ merged.settled = true ∧ merged.result.mode ≠ 0 →
      fits root merged.path = true)
    (texts : ∀ merged ∈ paths, merged.settled = true → merged.keepsOurs = false → merged.result.mode = 0o120000 →
      ∀ sha object, merged.result.sha = some sha → read sha = some object → 0 ∉ object.content)
    (ran : applyPathsText host read root paths disk = (after, some entries)) :
    (∀ entry ∈ storeIndex stamp entries, entry.stage = 0 → ∀ leaf, after.leaf (entry.path.place root) = some leaf →
      blobId host leaf.content ≠ some entry.sha → UInt32.ofInt leaf.stamp.mtime < newStamp →
      worktreeMatches host newStamp after.files (entry.path.place root) entry (.leaf leaf) = false) ↔
    ∀ merged ∈ paths, merged.settled = true → merged.result.mode ≠ 0 → merged.keepsOurs = true →
      ∀ leaf, disk.leaf (merged.path.place root) = some leaf →
      blobId host leaf.content ≠ some (merged.result.sha.getD nullId) → UInt32.ofInt leaf.stamp.mtime < newStamp →
      ¬ PassesUnread host stamp root merged leaf := by
  rw [applyPathsText_eq (fun merged member acts => short merged member (.inl acts))
    fun merged member settled present => short merged member (.inr ⟨settled, present⟩)] at ran
  obtain ⟨forward, back⟩ := applyPaths_landed straight distinct ran
  constructor
  · intro shows merged member settled present ours leaf here differs older passes
    obtain ⟨stays, plain, idle⟩ := settled_plain settled present
    obtain ⟨made, landed, within⟩ := forward merged member
    have still : after.leaf (merged.path.place root) = some leaf := by
      cases landed.fate with
      | removed gone => cases stays.symm.trans gone
      | left _ kept => exact kept.trans here
      | shown _ _ _ text => cases plain.symm.trans text
      | fetched _ _ _ _ busy => cases (idle.trans ours).symm.trans busy
    obtain ⟨mid, same, rfl⟩ := landed.entries
    rw [applyEntries_fresh settled present (same.trans still)] at within
    have stored : (merged.fresh leaf).smudge stamp ∈ storeIndex stamp entries :=
      mem_storeIndex.2 ⟨_, within (mem_singleton_self _), rfl⟩
    obtain ⟨path, -, sha, stage⟩ := smudge_names stamp (merged.fresh leaf)
    have path : ((merged.fresh leaf).smudge stamp).path = merged.path := path
    have seen := shows _ stored (stage.trans rfl) leaf (by rw [path, still]) (by rw [sha]; exact differs) older
    rw [path, ((smudge_passes after.files differs older).2 passes)] at seen
    cases seen
  · intro clear entry stored plain leaf here differs older
    obtain ⟨fresh, inside, rfl⟩ := mem_storeIndex.1 stored
    obtain ⟨merged, member, made, landed, inside⟩ := back fresh inside
    obtain ⟨mid, same, rfl⟩ := landed.entries
    obtain ⟨path, mode, sha, stage⟩ := smudge_names stamp fresh
    obtain ⟨settled, present, -⟩ := (MergePath.mem_entries inside).2 (stage.symm.trans plain)
    obtain ⟨stays, text, idle⟩ := settled_plain settled present
    have named : fresh.path = merged.path := (MergePath.mem_entries inside).1
    rw [path, named] at here ⊢
    rw [applyEntries_fresh settled present (same.trans here), mem_singleton] at inside
    subst inside
    rw [sha] at differs
    cases landed.fate with
    | removed gone => cases stays.symm.trans gone
    | left quiet kept =>
      have clear := clear merged member settled present (idle.symm.trans quiet) leaf
        (kept.symm.trans here) differs older
      simpa using mt (smudge_passes after.files differs older).1 clear
    | shown _ _ _ text' => cases text.symm.trans text'
    | fetched id object leaf' made busy _ digits found blob new put =>
      -- what was written is what the entry names
      cases put.symm.trans here
      have whole : written object.content merged.result.mode = object.content := written_of_calm fun link =>
        texts merged member settled (idle.symm.trans busy) link id object digits found
      rw [newLeaf_content new, whole, intact id object found blob] at differs
      exact (differs (by simp [fresh, Side.entry, IndexEntry.setStat, digits])).elim

end

/-- `f` as all three trees have it. -/
def keptF : MergePath where
  path := pathF
  kind := .clean
  result := Side.fill (some (listedF 1))
  base := Side.fill (some (listedF 1))
  ours := Side.fill (some (listedF 1))
  theirs := Side.fill (some (listedF 1))

/-- The file that `f` became when it was changed. -/
def changedF (time : Int) : Leaf := .file [9] false { mtime := time, ctime := time, ino := 7 }

theorem applyPaths_keptF (time : Int) : applyPathsText sampleHost sampleRead [] [keptF] (diskF [9] time) =
    (diskF [9] time, some [keptF.fresh (changedF time)]) := by
  have here : (diskF [9] time).leaf (keptF.path.place []) = some (changedF time) := rfl
  have idle : keptF.idle = true := by decide +kernel
  have made : applyEntries sampleHost [] (diskF [9] time) keptF = [keptF.fresh (changedF time)] :=
    applyEntries_fresh (by decide) (by decide) here
  rw [applyPathsText_eq (by decide +kernel) (by decide +kernel)]
  simp [applyPaths, applyFile_idle sampleHost sampleRead [] _ idle, made]

/-- A change to `f` made before the index was last written gets the stat data of the new index, and is no longer
seen. -/
theorem merge_hides_change :
    (mergeTrees sampleHost (fun _ _ _ => none) sampleRead (some (byteId 0x41)) (some (byteId 0x41))
      (some (byteId 0x41))).map Prod.fst = some [keptF] ∧
    mergeSafeText sampleHost 50 [] (diskF [9] 20) [entryF 1] [keptF] = true ∧
    applyPathsText sampleHost sampleRead [] [keptF] (diskF [9] 20) = (diskF [9] 20, some [keptF.fresh (changedF 20)]) ∧
    ¬ ∀ entry ∈ storeIndex 50 [keptF.fresh (changedF 20)], entry.stage = 0 → ∀ leaf,
      (diskF [9] 20).leaf (entry.path.place []) = some leaf → blobId sampleHost leaf.content ≠ some entry.sha →
      UInt32.ofInt leaf.stamp.mtime < 60 →
      worktreeMatches sampleHost 60 (diskF [9] 20).files (entry.path.place []) entry (.leaf leaf) = false := by
  refine ⟨by decide +kernel, by decide +kernel, applyPaths_keptF 20, fun shows => ?_⟩
  have seen := shows (keptF.fresh (changedF 20)) (by decide +kernel) rfl (changedF 20) rfl (by decide +kernel)
  revert seen
  decide +kernel

/-- A change made after it is. -/
theorem merge_shows_change :
    applyPathsText sampleHost sampleRead [] [keptF] (diskF [9] 60) = (diskF [9] 60, some [keptF.fresh (changedF 60)]) ∧
    ∀ entry ∈ storeIndex 50 [keptF.fresh (changedF 60)], entry.stage = 0 → ∀ leaf,
      (diskF [9] 60).leaf (entry.path.place []) = some leaf → blobId sampleHost leaf.content ≠ some entry.sha →
      UInt32.ofInt leaf.stamp.mtime < 70 →
      worktreeMatches sampleHost 70 (diskF [9] 60).files (entry.path.place []) entry (.leaf leaf) = false := by
  have straight : StraightRun sampleHost sampleRead [] [keptF] (diskF [9] 60) := ⟨nofun, fun _ _ => trivial⟩
  refine ⟨applyPaths_keptF 60, (merge_shows_changes_iff 70 straight (nodup_singleton _) sample_intact
    (by decide +kernel) ?_ (applyPaths_keptF 60)).2 ?_⟩
  · intro merged member _ _ link
    obtain rfl := mem_singleton.1 member
    cases link
  · intro merged member _ _ _ leaf here _ _ passes
    obtain rfl := mem_singleton.1 member
    cases (Option.some.inj here : changedF 60 = leaf)
    rw [PassesUnread] at passes
    revert passes
    decide +kernel

end BashOs.Git.WorkTree

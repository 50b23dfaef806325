import BashOs.Git.WorkTree.PathBuffer

/-!
What a switch to another tree does to work that was not committed: files that are untracked or changed, and
entries that were staged.
-/

namespace BashOs.Git.WorkTree
open BashOs.Lib List IndexPath

section
variable (host : Host) (read : Objects) (stamp : UInt32) (root : Place)

def Unsaved (index : Index) (place : Place) (leaf : Leaf) : Prop :=
  ∀ path staged, path.place root = place → entryFor index path = some staged →
    blobId host leaf.content ≠ some staged.sha

/-- The tree has the path's own entry and the file passes for it, or what the tree has there is what the file
holds. -/
def PutsBack (disk : Disk) (target : Index) (path : IndexPath) (staged : IndexEntry) (leaf : Leaf) : Prop :=
  ∃ entry, entryFor target path = some entry ∧
    (staged.sha = entry.sha ∧ staged.mode = entry.mode ∧
        worktreeMatches host stamp disk.files (path.place root) staged (.leaf leaf) = true ∨
      ∃ object, read entry.sha = some object ∧ written object.content entry.mode = leaf.content)

end

section
variable {host : Host} {read : Objects} {stamp : UInt32} {root : Place} {disk after : Disk}
  {index target news : Index} {entry staged : IndexEntry} {leaf : Leaf} {path : IndexPath}

theorem Listing.distinct (listing : Listing target) : (target.map IndexEntry.path).Nodup := by
  rw [List.Nodup, pairwise_map]
  refine List.Pairwise.imp ?_ listing
  rintro a b ⟨apart, -⟩ same
  exact apart (same ▸ suffix_refl _)

theorem entryFor_eq_some (distinct : (target.map IndexEntry.path).Nodup) (member : entry ∈ target) :
    entryFor target entry.path = some entry := by
  induction target with
  | nil => cases member
  | cons first rest ih =>
    rw [map_cons, nodup_cons] at distinct
    rw [entryFor, List.find?_cons]
    obtain rfl | member := mem_cons.1 member
    · simp
    · have other : first.path ≠ entry.path := fun same => distinct.1 (same ▸ mem_map_of_mem member)
      rw [decide_eq_false other]
      exact ih distinct.2 member

theorem firstLost_eq_none : firstLost host stamp root disk index target = none ↔
    (∀ entry ∈ target, lostByWriting host stamp root disk index entry = false) ∧
      ∀ entry ∈ index, lostByRemoving host stamp root disk target entry = false := by
  simp [firstLost]

/-! The entries that are removed are taken from a part of the index: what fits. -/

variable {gone : Index}

theorem untracked_stays (part : ∀ entry ∈ gone, entry ∈ index)
    (safe : ∀ entry ∈ target, lostByWriting host stamp root disk index entry = false)
    (ran : writeNew host read stamp root index target (removeOld root target gone disk) = (after, some news))
    {place : Place} (here : disk.leaf place = some leaf)
    (untracked : ∀ path, path.place root = place → entryFor index path = none) : after.leaf place = some leaf := by
  have unwritten : ∀ entry ∈ target, place ≠ entry.path.place root := by
    intro entry member same
    have lost := safe entry member
    rw [lostByWriting, ← same, lstat_of_leaf here, untracked _ same.symm] at lost
    cases lost
  have unremoved : ¬ ∃ entry ∈ gone, entryFor target entry.path = none ∧ entry.path.place root = place := by
    rintro ⟨entry, member, -, same⟩
    exact entryFor_eq_none.1 (untracked _ same) entry (part entry member) rfl
  have kept := writeNew_other host read stamp index target (removeOld root target gone disk) unwritten
  rw [ran, leaf_removeOld, if_neg unremoved] at kept
  exact kept.trans here

theorem tracked_removed
    (ran : writeNew host read stamp root index target (removeOld root target gone disk) = (after, some news))
    (member : staged ∈ gone) (absent : entryFor target staged.path = none) :
    after.leaf (staged.path.place root) = none := by
  have left := writeNew_other host read stamp index target (removeOld root target gone disk)
    fun entry member same => entryFor_eq_none.1 absent entry member (place_injective root same).symm
  rw [ran, leaf_removeOld, if_pos ⟨staged, member, absent, rfl⟩] at left
  exact left

theorem unlisted_stays
    (ran : writeNew host read stamp root index target (removeOld root target gone disk) = (after, some news))
    (unlisted : ∀ entry ∈ gone, entry.path ≠ path) (absent : entryFor target path = none) :
    after.leaf (path.place root) = disk.leaf (path.place root) := by
  have left := writeNew_other host read stamp index target (removeOld root target gone disk)
    fun entry member same => entryFor_eq_none.1 absent entry member (place_injective root same).symm
  rw [ran, leaf_removeOld, if_neg] at left
  · exact left
  · rintro ⟨entry, member, -, same⟩
    exact unlisted entry member (place_injective root same)

theorem tracked_put (distinct : (target.map IndexEntry.path).Nodup)
    (ran : writeNew host read stamp root index target (removeOld root target gone disk) = (after, some news))
    (present : entryFor target path = some entry) : Put host read stamp root index disk after entry := by
  refine (writeNew_put distinct ran entry (entryFor_mem present)).congr ?_ rfl
  rw [leaf_removeOld, if_neg]
  rintro ⟨other, -, absent, same⟩
  rw [place_injective root same, entryFor_path present, present] at absent
  cases absent

/-- A tracked file keeps its bytes where it passes for the tree's entry, or the tree has the same bytes. -/
theorem content_of_put_iff (put : Put host read stamp root index disk after entry)
    (tracked : entryFor index entry.path = some staged) (here : disk.leaf (entry.path.place root) = some leaf) :
    (after.leaf (entry.path.place root)).map Leaf.content = some leaf.content ↔
      (staged.sha = entry.sha ∧ staged.mode = entry.mode ∧
          worktreeMatches host stamp disk.files (entry.path.place root) staged (.leaf leaf) = true ∨
        ∃ object, read entry.sha = some object ∧ written object.content entry.mode = leaf.content) := by
  cases put with
  | kept mid still right left =>
    obtain ⟨staged', found, names⟩ := (alreadyRight_of_leaf disk.files (still.trans here)).1 right
    cases tracked.symm.trans found
    exact iff_of_true (by rw [left, here]; rfl) (.inl names)
  | written mid made object leaf' still wrong found blob new left =>
    rw [left, Option.map_some, Option.some_inj, newLeaf_content new, or_iff_right]
    · constructor
      · exact fun same => ⟨object, found, same⟩
      · rintro ⟨object', found', same⟩
        cases found.symm.trans found'
        exact same
    · intro names
      rw [(alreadyRight_of_leaf disk.files (still.trans here)).2 ⟨staged, tracked, names⟩] at wrong
      cases wrong

/-- A call that does not fail leaves every unsaved file with its bytes exactly if it refuses, or puts back every
tracked file whose content is not its entry's and whose path fits the buffer. -/
theorem checkout_keeps_unsaved_iff {tree : Option ObjectId} (listed : targetOf read tree = some target)
    (distinct : (target.map IndexEntry.path).Nodup)
    (returned : (checkoutTreeText host read stamp (some root) tree index false disk).outcome ≠ .failed) :
    (∀ place leaf, disk.leaf place = some leaf → Unsaved host root index place leaf →
      ((checkoutTreeText host read stamp (some root) tree index false disk).disk.leaf place).map Leaf.content =
        some leaf.content) ↔
    (firstLostText host stamp root disk index target ≠ none ∨
      ∀ path staged leaf, entryFor index path = some staged → disk.leaf (path.place root) = some leaf →
        blobId host leaf.content ≠ some staged.sha → fits root path = true →
        PutsBack host read stamp root disk target path staged leaf) := by
  obtain ⟨lost, refused, same⟩ | ⟨safe, fit, after, news, ran, same⟩ := checkoutTreeText_cases listed returned
  · rw [same]
    simp only [refused, ne_eq, reduceCtorEq, not_false_eq_true, true_or, iff_true]
    intro place leaf here _
    rw [here]
    rfl
  rw [same]
  simp only [safe, ne_eq, not_true_eq_false, false_or]
  constructor
  · intro kept path staged leaf tracked here differs short
    have unsaved : Unsaved host root index (path.place root) leaf := by
      intro other entry place found
      rw [place_injective root place, tracked] at found
      cases found
      exact differs
    have kept := kept _ leaf here unsaved
    cases present : entryFor target path with
    | none =>
      obtain rfl := entryFor_path tracked
      rw [tracked_removed ran (mem_filter.2 ⟨entryFor_mem tracked, short⟩) present] at kept
      cases kept
    | some entry =>
      obtain rfl := entryFor_path present
      exact ⟨entry, present, (content_of_put_iff (tracked_put distinct ran present) tracked here).1 kept⟩
  · intro back place leaf here unsaved
    by_cases untracked : ∀ path, path.place root = place → entryFor index path = none
    · have safe' (entry : IndexEntry) (member : entry ∈ target) :
          lostByWriting host stamp root disk index entry = false := by
        rw [← lostByWritingText_of_fits (fit entry member)]
        exact (firstLostText_eq_none.1 safe).1 entry member
      rw [untracked_stays (fun _ => mem_of_mem_filter) safe' ran here untracked]
      rfl
    push Not at untracked
    obtain ⟨path, rfl, tracked⟩ := untracked
    obtain ⟨staged, tracked⟩ := Option.ne_none_iff_exists'.1 tracked
    by_cases short : fits root path = true
    · obtain ⟨entry, present, back⟩ := back path staged leaf tracked here (unsaved path staged rfl tracked) short
      obtain rfl := entryFor_path present
      exact (content_of_put_iff (tracked_put distinct ran present) tracked here).2 back
    · -- a path that does not fit is not in the tree, and nothing removes its file
      have absent : entryFor target path = none :=
        entryFor_eq_none.2 fun entry member same => short (same ▸ fit entry member)
      have unlisted : ∀ entry ∈ index.filter (fun entry => fits root entry.path), entry.path ≠ path :=
        fun entry member same => short (same ▸ (mem_filter.1 member).2)
      rw [unlisted_stays ran unlisted absent, here]
      rfl

end

/-! A small repository in which the id of a blob is its last byte twenty times. -/

def byteId (b : UInt8) : ObjectId := .filled b

def sampleHost : Host where
  prim :=
    { deflate := fun _ => none
      inflate := fun _ => none
      crc32 := fun _ => 0
      digest := fun message => byteId (message.getLastD 0)
      attacked := fun _ => false
      inflate_deflate := nofun }
  stamp n := { mtime := 100 + n, ctime := 100 + n, ino := 1000 + n }
  executable := true
  dirStat _ _ := { size := 4096, stamp := { mtime := 1, ctime := 1, ino := 1 } }
  submodule _ := none

def nameF : FileName := ⟨ascii "f", by decide⟩

def pathF : IndexPath := ⟨[nameF], by decide⟩

def treeOfF (b : UInt8) : Bytes := ascii "100644 f" ++ 0 :: (byteId b).bytes

def treeWithF (b : UInt8) : Object := ⟨.tree, treeOfF b, by show 29 < addressSpace; decide⟩

def sampleRead (id : ObjectId) : Option Object :=
  if id = byteId 1 then some ⟨.blob, [1], by decide⟩
  else if id = byteId 2 then some ⟨.blob, [2], by decide⟩
  else if id = byteId 0x40 then some emptyTree
  else if id = byteId 0x41 then some (treeWithF 1)
  else if id = byteId 0x42 then some (treeWithF 2)
  else none

def entryF (b : UInt8) : IndexEntry where
  path := pathF
  mode := 0o100644
  sha := byteId b
  stage := 0
  size := 1
  mtime := 10
  ctime := 10
  ino := 7

/-- `f` as a tree lists it. -/
def listedF (b : UInt8) : IndexEntry := { entryF b with size := 0, mtime := 0, ctime := 0, ino := 0 }

def noFiles : Files := .empty

/-- A working tree at the root of the file system with the one file `f`, last written at `time`. -/
def diskF (content : Bytes) (time : Int) : Disk where
  files := noFiles.put nameF [] (.leaf (.file content false { mtime := time, ctime := time, ino := 7 }))
    FileTree.empty_top (FileTree.empty_free nameF)
  made := 0

/-- The tree switched to has what the index has, so the change is not looked for, and it is written over. -/
theorem checkout_overwrites_change :
    (checkoutTreeText sampleHost sampleRead 50 (some []) (some (byteId 0x41)) [entryF 1] false
      (diskF [9] 20)).outcome = .done ∧
    ¬ ∀ place leaf, (diskF [9] 20).leaf place = some leaf → Unsaved sampleHost [] [entryF 1] place leaf →
      ((checkoutTreeText sampleHost sampleRead 50 (some []) (some (byteId 0x41)) [entryF 1] false
        (diskF [9] 20)).disk.leaf place).map Leaf.content = some leaf.content := by
  refine ⟨by decide +kernel, fun kept => ?_⟩
  have unsaved : Unsaved sampleHost [] [entryF 1] [nameF] (.file [9] false { mtime := 20, ctime := 20, ino := 7 }) := by
    intro path staged place found
    obtain rfl : staged = entryF 1 := mem_singleton.1 (entryFor_mem found)
    decide +kernel
  have after := kept [nameF] _ (by decide +kernel) unsaved
  revert after
  decide +kernel

/-- The same change is kept, by refusal, when the tree has something else there. -/
theorem checkout_keeps_change :
    targetOf sampleRead (some (byteId 0x42)) = some [listedF 2] ∧
    firstLostText sampleHost 50 [] (diskF [9] 20) [entryF 1] [listedF 2] ≠ none ∧
    ∀ place leaf, (diskF [9] 20).leaf place = some leaf → Unsaved sampleHost [] [entryF 1] place leaf →
      ((checkoutTreeText sampleHost sampleRead 50 (some []) (some (byteId 0x42)) [entryF 1] false
        (diskF [9] 20)).disk.leaf place).map Leaf.content = some leaf.content := by
  have listed : targetOf sampleRead (some (byteId 0x42)) = some [listedF 2] := by decide +kernel
  have lost : firstLostText sampleHost 50 [] (diskF [9] 20) [entryF 1] [listedF 2] ≠ none := by decide +kernel
  exact ⟨listed, lost, (checkout_keeps_unsaved_iff listed (by decide) (by decide +kernel)).2 (.inl lost)⟩

/-! ## Switching to a commit -/

/-- Where `HEAD` stands. -/
inductive Head where
  | branch (name : Bytes)
  | detached (commit : ObjectId)
deriving DecidableEq

/-- What the switch asks of the rest of the program: what names stand for, which commit an object leads to, a
commit's tree, and whether the index file and `HEAD` could be written. -/
structure SwitchIo where
  branchId : Bytes → Option ObjectId
  resolve : Bytes → Option ObjectId
  peelToCommit : ObjectId → Option ObjectId
  commitTree : ObjectId → Option ObjectId
  indexWritten : Bool
  headWritten : Bool

structure Switched where
  status : Nat
  disk : Disk
  index : Index
  head : Head

def IndexEntry.smudge (stamp : UInt32) (entry : IndexEntry) : IndexEntry :=
  if entry.racy stamp then { entry with size := 0 } else entry

/-- `git_index_store`: what the index file holds afterwards. -/
def storeIndex (stamp : UInt32) (entries : Index) : Index :=
  (entries.insertionSort entryLE).map (IndexEntry.smudge stamp)

section
variable (host : Host) (read : Objects) (stamp : UInt32) (io : SwitchIo)

/-- `git_switch_to_saying`, apart from what it prints and logs -/
def switchTo (workTree : Option Place) (target : Bytes) (detach force : Bool) (index : Index) (head : Head)
    (disk : Disk) : Switched :=
  let stopped : Switched := { status := 128, disk, index, head }
  let branch := io.branchId target
  match branch.or (io.resolve target) with
  | none => stopped
  | some id =>
    match io.peelToCommit id with
    | none => stopped
    | some commit =>
      match io.commitTree commit with
      | none => stopped
      | some tree =>
        let moved := checkoutTreeText host read stamp workTree (some tree) index force disk
        match moved.outcome with
        | .refused _ => { status := 1, disk := moved.disk, index, head }
        | .failed => { status := 128, disk := moved.disk, index, head }
        | .done =>
          if !io.indexWritten then { status := 128, disk := moved.disk, index, head }
          else
            let index := storeIndex stamp moved.index
            if !io.headWritten then { status := 128, disk := moved.disk, index, head }
            else if branch.isSome && !detach then { status := 0, disk := moved.disk, index, head := .branch target }
            else { status := 0, disk := moved.disk, index, head := .detached commit }

end

/-- The index has the entry and the tree that `HEAD` names has not. -/
def Staged (head index : Index) (entry : IndexEntry) : Prop :=
  entry ∈ index ∧ ¬ ∃ other ∈ head, other.path = entry.path ∧ other.mode = entry.mode ∧ other.sha = entry.sha

def Has (entries : Index) (entry : IndexEntry) : Prop :=
  ∃ other ∈ entries, other.path = entry.path ∧ other.sha = entry.sha

section
variable {host : Host} {read : Objects} {stamp : UInt32} {io : SwitchIo} {root : Place} {name : Bytes}
  {detach : Bool} {head : Head} {disk : Disk} {index target news : Index} {entry : IndexEntry}
  {id commit tree : ObjectId}

theorem smudge_names (stamp : UInt32) (entry : IndexEntry) : (entry.smudge stamp).path = entry.path ∧
    (entry.smudge stamp).mode = entry.mode ∧ (entry.smudge stamp).sha = entry.sha ∧
    (entry.smudge stamp).stage = entry.stage := by
  unfold IndexEntry.smudge
  split <;> exact ⟨rfl, rfl, rfl, rfl⟩

theorem mem_storeIndex {entries : Index} :
    entry ∈ storeIndex stamp entries ↔ ∃ plain ∈ entries, plain.smudge stamp = entry := by
  simp [storeIndex]

theorem has_storeIndex : Has (storeIndex stamp news) entry ↔ Has news entry := by
  simp only [Has, mem_storeIndex, exists_exists_and_eq_and, smudge_names]

theorem has_of_map (same : news.map (fun new => (new.path, new.sha, new.stage)) =
    target.map (fun entry => (entry.path, entry.sha, entry.stage))) : Has news entry ↔ Has target entry := by
  have through : ∀ entries : Index, Has entries entry ↔
      ∃ triple ∈ entries.map (fun entry => (entry.path, entry.sha, entry.stage)),
        triple.1 = entry.path ∧ triple.2.1 = entry.sha := by
    simp [Has]
  rw [through, through, same]

theorem switchTo_succeeded (named : (io.branchId name).or (io.resolve name) = some id)
    (peeled : io.peelToCommit id = some commit) (treed : io.commitTree commit = some tree)
    (listed : readTree read tree = some target)
    (succeeded : (switchTo host read stamp io (some root) name detach false index head disk).status = 0) :
    ∃ start after news, writeNew host read stamp root index target start = (after, some news) ∧
      (switchTo host read stamp io (some root) name detach false index head disk).index = storeIndex stamp news := by
  have listed : targetOf read (some tree) = some target := listed
  simp only [switchTo, named, peeled, treed] at succeeded ⊢
  split at succeeded
  · cases succeeded
  · cases succeeded
  rename_i done
  have returned : (checkoutTreeText host read stamp (some root) (some tree) index false disk).outcome ≠ .failed := by
    rw [done]
    exact Outcome.noConfusion
  obtain ⟨lost, -, same⟩ | ⟨-, -, after, news, ran, same⟩ := checkoutTreeText_cases listed returned
  · rw [same] at done
    cases done
  refine ⟨_, after, news, ran, ?_⟩
  rw [same] at succeeded ⊢
  split at succeeded
  · cases succeeded
  rename_i written
  split at succeeded
  · cases succeeded
  rename_i moved
  rw [if_neg written, if_neg moved]
  split <;> rfl

/-- After a switch that succeeds, every entry that was staged is still in the index and in its file, or is in the
tree switched to, exactly if all of them are in that tree. -/
theorem switch_keeps_staged_iff (headTree : List IndexEntry)
    (named : (io.branchId name).or (io.resolve name) = some id) (peeled : io.peelToCommit id = some commit)
    (treed : io.commitTree commit = some tree) (listed : readTree read tree = some target)
    (succeeded : (switchTo host read stamp io (some root) name detach false index head disk).status = 0) :
    (∀ entry, Staged headTree index entry →
      (Has (switchTo host read stamp io (some root) name detach false index head disk).index entry ∧
        ∃ leaf, (switchTo host read stamp io (some root) name detach false index head disk).disk.leaf
          (entry.path.place root) = some leaf ∧ blobId host leaf.content = some entry.sha) ∨ Has target entry) ↔
    ∀ entry, Staged headTree index entry → Has target entry := by
  obtain ⟨_, after, news, ran, stored⟩ := switchTo_succeeded named peeled treed listed succeeded
  constructor
  · intro kept entry staged
    obtain ⟨held, -⟩ | there := kept entry staged
    · rwa [stored, has_storeIndex, has_of_map (writeNew_entries ran)] at held
    · exact there
  · intro there entry staged
    exact .inr (there entry staged)

end

def sampleSwitch : SwitchIo where
  branchId name := if name = ascii "one" then some (byteId 0x51) else if name = ascii "two" then some
    (byteId 0x52) else none
  resolve _ := none
  peelToCommit id := some id
  commitTree id := if id = byteId 0x51 then some (byteId 0x41) else if id = byteId 0x52 then some
    (byteId 0x42) else none
  indexWritten := true
  headWritten := true

def nameG : FileName := ⟨ascii "g", by decide⟩

def entryG : IndexEntry := { entryF 2 with path := ⟨[nameG], by decide⟩ }

/-- `f` and `g` as their entries have them. -/
def diskFG : Disk where
  files := (diskF [1] 10).files.put nameG [] (.leaf (.file [2] false { mtime := 10, ctime := 10, ino := 7 })) rfl rfl
  made := 0

/-- A file that was added to the index and is in neither tree is removed by the switch, and its entry too. -/
theorem switch_drops_addition :
    readTree sampleRead (byteId 0x41) = some [listedF 1] ∧
    (switchTo sampleHost sampleRead 50 sampleSwitch (some []) (ascii "one") false false [entryF 1, entryG]
      (.branch (ascii "two")) diskFG).status = 0 ∧
    ¬ ∀ entry, Staged [entryF 1] [entryF 1, entryG] entry →
      (Has (switchTo sampleHost sampleRead 50 sampleSwitch (some []) (ascii "one") false false [entryF 1, entryG]
          (.branch (ascii "two")) diskFG).index entry ∧
        ∃ leaf, (switchTo sampleHost sampleRead 50 sampleSwitch (some []) (ascii "one") false false [entryF 1, entryG]
          (.branch (ascii "two")) diskFG).disk.leaf (entry.path.place []) = some leaf ∧
          blobId sampleHost leaf.content = some entry.sha) ∨
      Has [listedF 1] entry := by
  refine ⟨by decide +kernel, by decide +kernel, fun kept => ?_⟩
  have staged : Staged [entryF 1] [entryF 1, entryG] entryG := by
    unfold Staged
    decide +kernel
  obtain ⟨held, -⟩ | held := kept entryG staged
  · revert held
    unfold Has
    decide +kernel
  · revert held
    unfold Has
    decide +kernel

/-- What the tree switched to has as well is not lost. -/
theorem switch_keeps_staged_sample :
    (switchTo sampleHost sampleRead 50 sampleSwitch (some []) (ascii "two") false false [entryF 2]
      (.branch (ascii "one")) (diskF [2] 10)).status = 0 ∧
    ∀ entry, Staged [entryF 1] [entryF 2] entry →
    (Has (switchTo sampleHost sampleRead 50 sampleSwitch (some []) (ascii "two") false false [entryF 2]
        (.branch (ascii "one")) (diskF [2] 10)).index entry ∧
      ∃ leaf, (switchTo sampleHost sampleRead 50 sampleSwitch (some []) (ascii "two") false false [entryF 2]
        (.branch (ascii "one")) (diskF [2] 10)).disk.leaf (entry.path.place []) = some leaf ∧
        blobId sampleHost leaf.content = some entry.sha) ∨ Has [listedF 2] entry := by
  have named : (sampleSwitch.branchId (ascii "two")).or (sampleSwitch.resolve (ascii "two")) = some (byteId 0x52) := by
    decide +kernel
  have peeled : sampleSwitch.peelToCommit (byteId 0x52) = some (byteId 0x52) := rfl
  have treed : sampleSwitch.commitTree (byteId 0x52) = some (byteId 0x42) := by decide +kernel
  have listed : readTree sampleRead (byteId 0x42) = some [listedF 2] := by decide +kernel
  refine ⟨by decide +kernel, (switch_keeps_staged_iff [entryF 1] named peeled treed listed (by decide +kernel)).2 ?_⟩
  rintro entry ⟨member, -⟩
  obtain rfl := mem_singleton.1 member
  exact ⟨listedF 2, mem_singleton_self _, rfl, rfl⟩

end BashOs.Git.WorkTree

import BashOs.Git.WorkTree.Switch

/-!
A switch away from a clean working tree: when it goes through, and what it leaves.
-/

namespace BashOs.Git.WorkTree
open BashOs.Lib List Function FileTree

def gitName : FileName := ⟨ascii ".git", by decide⟩

/-- The part of the file system that is the working tree: what is below its root, the git directory left out. -/
def Inside (root q : Place) : Prop := ∃ names, names ≠ [] ∧ names.getLast? ≠ some gitName ∧ q = names ++ root

/-- The working tree holds exactly the files of the index: each with its object's content and its mode, no other,
and no directory without one. -/
structure Clean (read : Objects) (root : Place) (index : Index) (disk : Disk) : Prop where
  here : disk.files.node root = some .dir
  held : ∀ entry ∈ index, ∃ leaf object, disk.leaf (entry.path.place root) = some leaf ∧
    read entry.sha = some object ∧ object.type = .blob ∧ leaf.content = object.content ∧
    worktreeMode (.leaf leaf) = entry.mode
  only : ∀ q leaf, Inside root q → disk.leaf q = some leaf → ∃ entry ∈ index, q = entry.path.place root
  tidy : disk.files.Tidy (Inside root)

def Intact (host : Host) (read : Objects) : Prop :=
  ∀ id object, read id = some object → object.type = .blob → blobId host object.content = some id

def FilesAndLinks (read : Objects) (target : Index) : Prop :=
  ∀ entry ∈ target, ∃ object, read entry.sha = some object ∧ object.type = .blob ∧
    (entry.mode = 0o120000 → object.content ≠ [] ∧ 0 ∉ object.content)

structure Holds (read : Objects) (root : Place) (target : Index) (disk : Disk) : Prop where
  held : ∀ entry ∈ target, ∃ leaf object, disk.leaf (entry.path.place root) = some leaf ∧
    read entry.sha = some object ∧ leaf.content = object.content ∧
    (worktreeMode (.leaf leaf) = 0o120000 ↔ entry.mode = 0o120000)
  only : ∀ q leaf, Inside root q → disk.leaf q = some leaf → ∃ entry ∈ target, q = entry.path.place root
  tidy : disk.files.Tidy (Inside root)

section
variable {root q : Place} {path : IndexPath}

theorem inside_place (root : Place) (path : IndexPath) : Inside root (path.place root) := by
  refine ⟨path.names, path.ok.1, fun last => ?_, rfl⟩
  have fine := path.ok.2 gitName (mem_of_getLast? last)
  revert fine
  decide

theorem Inside.child {name : FileName} (inside : Inside root q) : Inside root (name :: q) := by
  obtain ⟨names, some, last, rfl⟩ := inside
  refine ⟨name :: names, cons_ne_nil _ _, ?_, rfl⟩
  rw [getLast?_cons, getLast?_eq_getLast_of_ne_nil some] at *
  simpa using last

theorem Inside.deep (inside : Inside root q) : root.length < q.length := by
  obtain ⟨names, some, -, rfl⟩ := inside
  have := length_pos_iff.2 some
  rw [length_append]
  omega

theorem above_cases {names above : List FileName} (higher : above <:+ names ++ root) :
    above <:+ root ∨ ∃ part, part ≠ [] ∧ part <:+ names ∧ above = part ++ root := by
  induction names with
  | nil => exact .inl higher
  | cons name names ih =>
    obtain same | higher := suffix_cons_iff.1 higher
    · exact .inr ⟨name :: names, cons_ne_nil _ _, suffix_refl _, same⟩
    · obtain top | ⟨part, some, within, same⟩ := ih higher
      · exact .inl top
      · exact .inr ⟨part, some, within.trans (suffix_cons name names), same⟩

end

/-! ## The writing loop where nothing is in the way -/

/-- Between two writes: files are only where the tree has files, none is above the root, and no directory is
empty. -/
structure Ready (root : Place) (target : Index) (disk : Disk) : Prop where
  only : ∀ q leaf, Inside root q → disk.leaf q = some leaf → ∃ entry ∈ target, q = entry.path.place root
  way : ∀ above, above <:+ root → disk.leaf above = none
  tidy : disk.files.Tidy (Inside root)

section
variable {host : Host} {read : Objects} {stamp : UInt32} {root : Place} {disk after : Disk}
  {index target entries news : Index} {entry : IndexEntry}

theorem Listing.eq_of_suffix (listing : Listing target) {a b : IndexEntry} (here : a ∈ target) (there : b ∈ target)
    (through : a.path.names <:+ b.path.names) : a = b := by
  by_contra other
  exact (List.Pairwise.forall listing here there other).1 through

section
variable (ready : Ready root target disk) (listing : Listing target) (member : entry ∈ target)
include ready listing member

theorem Ready.clear : ∀ above, above <:+ entry.path.names.tail ++ root → disk.leaf above = none := by
  intro above higher
  obtain top | ⟨part, some, within, rfl⟩ := above_cases higher
  · exact ready.way above top
  by_contra present
  obtain ⟨leaf, held⟩ := Option.ne_none_iff_exists'.1 present
  have shorter : part <:+ entry.path.names := within.trans (tail_suffix _)
  have inside : Inside root (part ++ root) := by
    refine ⟨part, some, fun last => ?_, rfl⟩
    have fine := entry.path.ok.2 gitName (shorter.subset (mem_of_getLast? last))
    revert fine
    decide
  obtain ⟨other, there, same⟩ := ready.only _ leaf inside held
  obtain rfl : part = other.path.names := append_cancel_right same
  obtain rfl := listing.eq_of_suffix there member shorter
  have long := within.length_le
  have := length_pos_iff.2 some
  rw [length_tail] at long
  omega

theorem Ready.not_dir : disk.files.node (entry.path.place root) ≠ some .dir := by
  intro dir
  obtain ⟨p, held, lower⟩ := ready.tidy _ (inside_place root entry.path) dir
  obtain ⟨leaf, held⟩ := Option.isSome_iff_exists.1 held
  have inside := part_of_suffix (fun name q => Inside.child) (inside_place root entry.path) lower
  obtain ⟨other, there, rfl⟩ := ready.only p leaf inside held
  have through : entry.path.names <:+ other.path.names := by
    obtain ⟨more, same⟩ := lower
    exact ⟨more, append_cancel_right (by rw [append_assoc]; exact same)⟩
  obtain rfl := listing.eq_of_suffix member there through
  rw [leaf_eq_some.1 held] at dir
  cases dir

end

theorem Ready.step (host : Host) (stamp : UInt32) (index : Index) (ready : Ready root target disk)
    (listing : Listing target) (readable : FilesAndLinks read target) (member : entry ∈ target) : ∃ after new,
      writeEntry host read stamp root index disk entry = (after, some new) ∧ Ready root target after := by
  unfold writeEntry
  split
  next right =>
    cases found : disk.lstat (entry.path.place root) with
    | none => simp [alreadyRight, found] at right
    | some node => exact ⟨disk, _, by simp [checkoutStat, found]; rfl, ready⟩
  obtain ⟨object, found, blob, text⟩ := readable entry member
  have text : entry.mode = 0o120000 → object.content.takeWhile (· ≠ 0) ≠ [] := by
    intro link
    rw [takeWhile_eq_self_iff.2]
    · exact (text link).1
    · intro b inside
      exact decide_eq_true fun zero => (text link).2 (zero ▸ inside)
  obtain ⟨name, up, names⟩ := exists_cons_of_ne_nil entry.path.ok.1
  have place : entry.path.place root = name :: (up ++ root) := by simp [IndexPath.place, names]
  have clear := ready.clear listing member
  have free := ready.not_dir listing member
  rw [names, tail_cons] at clear
  rw [place] at free
  have ok := checkoutFile_succeeds host found blob text clear free
  rw [← place] at ok
  cases wrote : checkoutFile host disk read (entry.path.place root) entry.sha entry.mode with
  | mk after done =>
    rw [wrote] at ok
    obtain rfl : done = true := ok
    obtain ⟨-, leaf, -, -, -, -, update⟩ := checkoutFile_ok wrote
    have there : after.leaf (entry.path.place root) = some leaf := by rw [update, update_self]
    refine ⟨after, _, by simp [checkoutStat, lstat_of_leaf there]; rfl, ?_, ?_, checkoutFile_tidy wrote ready.tidy⟩
    · intro q held inside present
      by_cases same : q = entry.path.place root
      · exact ⟨entry, member, same⟩
      · rw [update, update_of_ne same] at present
        exact ready.only q held inside present
    · intro above higher
      have other : above ≠ entry.path.place root := by
        rintro rfl
        have := higher.length_le
        have := (inside_place root entry.path).deep
        omega
      rw [update, update_of_ne other]
      exact ready.way above higher

theorem Ready.run (host : Host) (stamp : UInt32) (index : Index) (ready : Ready root target disk)
    (listing : Listing target) (readable : FilesAndLinks read target)
      (part : ∀ entry ∈ entries, entry ∈ target) : ∃ after news,
      writeNew host read stamp root index entries disk = (after, some news) ∧ Ready root target after := by
  induction entries generalizing disk with
  | nil => exact ⟨disk, [], rfl, ready⟩
  | cons first rest ih =>
    obtain ⟨mid, new, turn, ready⟩ := ready.step host stamp index listing readable (part first (.head _))
    obtain ⟨after, news, ran, ready⟩ := ih ready fun entry member => part entry (.tail _ member)
    exact ⟨after, new :: news, by simp [writeNew, turn, ran], ready⟩

/-! ## From a clean tree -/

theorem removeOld_tidy (root : Place) (target index : Index) (tidy : disk.files.Tidy (Inside root)) :
    (removeOld root target index disk).files.Tidy (Inside root) := by
  unfold removeOld
  induction index generalizing disk with
  | nil => exact tidy
  | cons first rest ih =>
    rw [foldl_cons]
    apply ih
    split
    · exact tidy
    · exact checkoutRemove_tidy (fun _ => Inside.deep) (fun _ _ => Inside.child) first.path.ok.1 tidy

section
variable (clean : Clean read root index disk)
include clean

theorem Clean.ready (target : Index) : Ready root target (removeOld root target index disk) where
  only := by
    intro q leaf inside present
    rw [leaf_removeOld] at present
    split at present
    · cases present
    rename_i kept
    obtain ⟨entry, member, rfl⟩ := clean.only q leaf inside present
    cases there : entryFor target entry.path with
    | none => exact (kept ⟨entry, member, there, rfl⟩).elim
    | some other => exact ⟨other, entryFor_mem there, by rw [entryFor_path there]⟩
  way := by
    intro above higher
    rw [leaf_removeOld]
    split
    · rfl
    by_cases same : above = root
    · simp [Disk.leaf, leaf, same, clean.here, Node.held]
    · have dir : disk.files.node above = some .dir := node_above (by simp [clean.here]) higher same
      simp [Disk.leaf, leaf, dir, Node.held]
  tidy := removeOld_tidy root target index clean.tidy

theorem Clean.passes (intact : Intact host read) (stamp : UInt32) (files : Files)
    (member : entry ∈ index) : ∃ leaf, disk.leaf (entry.path.place root) = some leaf ∧
      worktreeMatches host stamp files (entry.path.place root) entry (.leaf leaf) = true := by
  obtain ⟨leaf, object, present, found, blob, content, mode⟩ := clean.held entry member
  refine ⟨leaf, present, ?_⟩
  have file : entry.mode ≠ 0o160000 := by
    rw [← mode]
    cases leaf with
    | link => simp [worktreeMode]
    | file _ executable => cases executable <;> simp [worktreeMode]
  rw [worktreeMatches, if_neg file, if_neg (by simp [mode])]
  split
  · rfl
  · simpa [content] using intact entry.sha object found blob

theorem Clean.safe (intact : Intact host read)
    (free : ∀ entry ∈ target, entryFor index entry.path = none → disk.lstat (entry.path.place root) = none) :
    firstLost host stamp root disk index target = none := by
  rw [firstLost_eq_none]
  constructor
  · intro entry member
    cases tracked : entryFor index entry.path with
    | none => simp [lostByWriting, free entry member tracked]
    | some staged =>
      obtain ⟨leaf, present, passes⟩ := clean.passes intact stamp disk.files (entryFor_mem tracked)
      rw [entryFor_path tracked] at present passes
      simp [lostByWriting, tracked, lstat_of_leaf present, passes]
  · intro entry member
    obtain ⟨leaf, present, passes⟩ := clean.passes intact stamp disk.files member
    simp [lostByRemoving, lstat_of_leaf present, passes]

end

theorem newLeaf_link {made : Disk} {content : Bytes} {mode : UInt32} {leaf : Leaf}
    (new : newLeaf host made content mode = some leaf) : worktreeMode (.leaf leaf) = 0o120000 ↔ mode = 0o120000 := by
  unfold newLeaf at new
  split at new
  next link =>
    obtain ⟨text, -, rfl⟩ := Option.map_eq_some_iff.1 new
    simp [worktreeMode, link]
  next file =>
    cases new
    have other : ∀ executable : Bool, (if executable then 0o100755 else 0o100644 : UInt32) ≠ 0o120000 := by decide
    simp only [file, iff_false]
    exact other _

theorem Clean.holds (clean : Clean read root index disk) (listing : Listing target)
    (readable : FilesAndLinks read target)
    (ran : writeNew host read stamp root index target (removeOld root target index disk) = (after, some news))
    (ready : Ready root target after) : Holds read root target after where
  held := by
    intro entry member
    cases tracked_put listing.distinct ran (entryFor_eq_some listing.distinct member) with
    | kept mid still right left =>
      -- the file passed, so the index has the path, and the clean tree has the file
      cases tracked : entryFor index entry.path with
      | none => simp [alreadyRight, tracked] at right
      | some staged =>
        obtain ⟨leaf, object, present, found, blob, content, mode⟩ := clean.held staged (entryFor_mem tracked)
        rw [entryFor_path tracked] at present
        obtain ⟨staged', tracked', sha, same, -⟩ := (alreadyRight_of_leaf disk.files (still.trans present)).1 right
        cases tracked.symm.trans tracked'
        exact ⟨leaf, object, left.trans present, sha ▸ found, content, by rw [mode, same]⟩
    | written mid made object leaf still wrong found blob new left =>
      refine ⟨leaf, object, left, found, ?_, newLeaf_link new⟩
      obtain ⟨object', found', -, text⟩ := readable entry member
      cases found.symm.trans found'
      rw [newLeaf_content new, written_of_calm fun link => (text link).2]
  only := ready.only
  tidy := ready.tidy

/-- From a clean tree, a switch to a tree of files and links goes through and leaves exactly that tree, in the
working tree and in the index, exactly if every path of the index and of the tree fits the buffer and no path of the
tree that is new to the index already names something. -/
theorem clean_switch_iff {tree : Option ObjectId} (clean : Clean read root index disk) (intact : Intact host read)
    (listed : targetOf read tree = some target) (listing : Listing target) (readable : FilesAndLinks read target) :
    ((checkoutTreeText host read stamp (some root) tree index false disk).outcome = .done ∧
      Holds read root target (checkoutTreeText host read stamp (some root) tree index false disk).disk ∧
      (checkoutTreeText host read stamp (some root) tree index false disk).index.map
        (fun entry => (entry.path, entry.sha)) = target.map (fun entry => (entry.path, entry.sha))) ↔
    (∀ entry ∈ target, fits root entry.path = true) ∧ (∀ entry ∈ index, fits root entry.path = true) ∧
      ∀ entry ∈ target, entryFor index entry.path = none → disk.lstat (entry.path.place root) = none := by
  constructor
  · rintro ⟨done, holds, -⟩
    have returned : (checkoutTreeText host read stamp (some root) tree index false disk).outcome ≠ .failed := by
      simp [done]
    obtain ⟨path, -, same⟩ | ⟨safe, fit, after, news, ran, same⟩ := checkoutTreeText_cases listed returned
    · rw [same] at done
      cases done
    refine ⟨fit, fun entry member => ?_, fun entry member untracked => ?_⟩
    · -- a file whose path does not fit is left where it was, so the tree has it, and then it fits
      by_contra long
      obtain ⟨leaf, object, present, -⟩ := clean.held entry member
      have absent : entryFor target entry.path = none :=
        entryFor_eq_none.2 fun other there path => long (path ▸ fit other there)
      have unlisted : ∀ other ∈ index.filter (fun entry => fits root entry.path), other.path ≠ entry.path :=
        fun other there path => long (path ▸ (mem_filter.1 there).2)
      have stays := unlisted_stays ran unlisted absent
      rw [same] at holds
      obtain ⟨other, there, place⟩ := holds.only _ leaf (inside_place root entry.path) (stays.trans present)
      exact entryFor_eq_none.1 absent other there (IndexPath.place_injective root place).symm
    · have lost := (firstLostText_eq_none.1 safe).1 entry member
      rw [lostByWritingText_of_fits (fit entry member)] at lost
      cases found : disk.lstat (entry.path.place root) with
      | none => rfl
      | some node => simp [lostByWriting, found, untracked] at lost
  · rintro ⟨fit, fits, free⟩
    rw [checkoutTreeText_eq listed fit fits]
    have safe : firstLost host stamp root disk index target = none := clean.safe intact free
    obtain ⟨after, news, ran, ready⟩ := (clean.ready target).run host stamp index listing readable fun _
      member => member
    have same : checkoutTree host read stamp (some root) tree index false disk =
        { outcome := .done, disk := after, index := news } := by
      simp [checkoutTree, listed, safe, ran]
    rw [same]
    refine ⟨rfl, clean.holds listing readable ran ready, ?_⟩
    have entries := congrArg (map fun triple : IndexPath × ObjectId × Fin 4 => (triple.1, triple.2.1))
      (writeNew_entries ran)
    rwa [map_map, map_map] at entries

end

theorem sample_intact : Intact sampleHost sampleRead := by
  intro id object found blob
  unfold sampleRead at found
  split_ifs at found with one two
  · cases found; rw [one]; decide +kernel
  · cases found; rw [two]; decide +kernel
  all_goals cases found; cases blob

/-- `g` in the directory `f`. -/
def entryFG : IndexEntry := { entryF 1 with path := ⟨[nameG, nameF], by decide⟩ }

def diskInF : Disk where
  files := (noFiles.put nameF [] .dir FileTree.empty_top (FileTree.empty_free nameF)).put nameG [nameF]
    (.leaf (.file [1] false { mtime := 10, ctime := 10, ino := 7 })) rfl rfl
  made := 0

/-- A tree with one file, and nothing but the directories on the way to it. -/
theorem clean_of_one {entry : IndexEntry} {disk : Disk}
    (held : ∃ leaf object, disk.leaf (entry.path.place []) = some leaf ∧ sampleRead entry.sha = some object ∧
      object.type = .blob ∧ leaf.content = object.content ∧ worktreeMode (.leaf leaf) = entry.mode)
    (keys : ∀ q ∈ disk.files.nodes.keys, q <:+ entry.path.place [] ∧ ((disk.leaf q).isSome → q = entry.path.place [])) :
    Clean sampleRead [] [entry] disk := by
  have listed (q : Place) (inside : Inside [] q) (present : disk.files.node q ≠ none) : q ∈ disk.files.nodes.keys := by
    obtain ⟨names, some, -, rfl⟩ := inside
    obtain ⟨name, up, rfl⟩ := exists_cons_of_ne_nil some
    exact mem_keys_of_node present
  refine ⟨rfl, by simpa using held, ?_, ?_⟩
  · intro q leaf inside here
    have present := leaf_eq_some.1 here
    exact ⟨entry, mem_singleton_self _, (keys q (listed q inside (by simp [present]))).2 (by simp [here])⟩
  · intro q inside dir
    obtain ⟨leaf, object, here, -⟩ := held
    exact ⟨_, Option.isSome_iff_exists.2 ⟨leaf, here⟩, (keys q (listed q inside (by simp [dir]))).1⟩

theorem diskInF_clean : Clean sampleRead [] [entryFG] diskInF :=
  clean_of_one ⟨.file [1] false { mtime := 10, ctime := 10, ino := 7 }, ⟨.blob, [1], by decide⟩, by decide +kernel⟩
    (by decide +kernel)

theorem listedF_readable (b : UInt8) (stored : b = 1 ∨ b = 2) : FilesAndLinks sampleRead [listedF b] := by
  intro entry member
  obtain rfl := mem_singleton.1 member
  refine ⟨⟨.blob, [b], by simp [addressSpace]⟩, ?_, rfl, fun link => ?_⟩
  · obtain rfl | rfl := stored <;> decide +kernel
  · cases link

/-- A directory of the old tree where the new one has a file is taken for an untracked file. -/
theorem clean_switch_refused : Clean sampleRead [] [entryFG] diskInF ∧ Intact sampleHost sampleRead ∧
    targetOf sampleRead (some (byteId 0x41)) = some [listedF 1] ∧ Listing [listedF 1] ∧
    FilesAndLinks sampleRead [listedF 1] ∧
    (checkoutTreeText sampleHost sampleRead 50 (some []) (some (byteId 0x41)) [entryFG] false diskInF).outcome =
      .refused pathF :=
  ⟨diskInF_clean, sample_intact, by decide +kernel, pairwise_singleton _ _, listedF_readable 1 (.inl rfl),
    by decide +kernel⟩

theorem diskF_clean : Clean sampleRead [] [entryF 1] (diskF [1] 10) :=
  clean_of_one ⟨.file [1] false { mtime := 10, ctime := 10, ino := 7 }, ⟨.blob, [1], by decide⟩, by decide +kernel⟩
    (by decide +kernel)

theorem clean_switch_sample :
    (checkoutTreeText sampleHost sampleRead 50 (some []) (some (byteId 0x42)) [entryF 1] false
      (diskF [1] 10)).outcome = .done ∧
    Holds sampleRead [] [listedF 2]
      (checkoutTreeText sampleHost sampleRead 50 (some []) (some (byteId 0x42)) [entryF 1] false (diskF [1] 10)).disk ∧
    (checkoutTreeText sampleHost sampleRead 50 (some []) (some (byteId 0x42)) [entryF 1] false (diskF [1] 10)).index.map
      (fun entry => (entry.path, entry.sha)) = [listedF 2].map (fun entry => (entry.path, entry.sha)) := by
  have listed : targetOf sampleRead (some (byteId 0x42)) = some [listedF 2] := by decide +kernel
  refine (clean_switch_iff diskF_clean sample_intact listed (pairwise_singleton _ _) (listedF_readable 2 (.inr rfl))).2
    ⟨by decide +kernel, by decide +kernel, ?_⟩
  intro entry member untracked
  obtain rfl := mem_singleton.1 member
  cases untracked

end BashOs.Git.WorkTree

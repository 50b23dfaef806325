import BashOs.Git.WorkTree.Index

/-!
Putting a tree into the working tree and the index: first every change is checked, then what the tree does not
have is removed and what it has is written.
-/

namespace BashOs.Git.WorkTree
open BashOs.Lib List Option

inductive Outcome where
  | done
  /-- the path that would be lost -/
  | refused (path : IndexPath)
  | failed
deriving DecidableEq

structure Checkout where
  outcome : Outcome
  disk : Disk
  index : Index

section
variable (host : Host) (read : Objects) (stamp : UInt32) (root : Place)

/-- The first loop of checks: writing an entry of the tree would lose an untracked file or local changes. -/
def lostByWriting (disk : Disk) (index : Index) (entry : IndexEntry) : Bool :=
  match disk.lstat (entry.path.place root), entryFor index entry.path with
  | none, _ => false
  | some _, none => true
  | some node, some staged =>
    staged.sha ≠ entry.sha && !worktreeMatches host stamp disk.files (entry.path.place root) staged node

def lostByRemoving (disk : Disk) (target : Index) (entry : IndexEntry) : Bool :=
  if (entryFor target entry.path).isSome then false
  else
    match disk.lstat (entry.path.place root) with
    | none => false
    | some node => !worktreeMatches host stamp disk.files (entry.path.place root) entry node

def firstLost (disk : Disk) (index target : Index) : Option IndexPath :=
  ((target.find? (lostByWriting host stamp root disk index)).or
    (index.find? (lostByRemoving host stamp root disk target))).map IndexEntry.path

def removeOld (target index : Index) (disk : Disk) : Disk :=
  index.foldl (fun disk entry =>
    if (entryFor target entry.path).isSome then disk else checkoutRemove disk root entry.path.names) disk

def alreadyRight (disk : Disk) (index : Index) (entry : IndexEntry) : Bool :=
  match disk.lstat (entry.path.place root), entryFor index entry.path with
  | some node, some staged =>
    staged.sha = entry.sha && staged.mode = entry.mode &&
      worktreeMatches host stamp disk.files (entry.path.place root) staged node
  | _, _ => false

/-- One turn of the writing loop; with the disk, the entry with its file's stat data, unless the turn failed. -/
def writeEntry (index : Index) (disk : Disk) (entry : IndexEntry) : Disk × Option IndexEntry :=
  if alreadyRight host stamp root disk index entry then (disk, checkoutStat host disk root entry)
  else
    match checkoutFile host disk read (entry.path.place root) entry.sha entry.mode with
    | (disk, true) => (disk, checkoutStat host disk root entry)
    | (disk, false) => (disk, none)

def writeNew (index : Index) : Index → Disk → Disk × Option Index
  | [], disk => (disk, some [])
  | entry :: rest, disk =>
    match writeEntry host read stamp root index disk entry with
    | (disk, none) => (disk, none)
    | (disk, some entry) =>
      let (disk, more) := writeNew index rest disk
      (disk, more.map (entry :: ·))

def targetOf : Option ObjectId → Option Index
  | none => some []
  | some tree => readTree read tree

def checkoutTree (workTree : Option Place) (tree : Option ObjectId) (index : Index) (force : Bool)
    (disk : Disk) : Checkout :=
  match workTree, targetOf read tree with
  | some root, some target =>
    match if force then none else firstLost host stamp root disk index target with
    | some path => { outcome := .refused path, disk, index }
    | none =>
      match writeNew host read stamp root index target (removeOld root target index disk) with
      | (disk, some entries) => { outcome := .done, disk, index := entries }
      | (disk, none) => { outcome := .failed, disk, index }
  | _, _ => { outcome := .failed, disk, index }

end

/-! ## What the loops leave -/

section
variable {host : Host} {read : Objects} {stamp : UInt32} {root : Place}
  {disk after : Disk} {index target entries : Index} {entry staged : IndexEntry} {q : Place} {news : Index}

theorem entryFor_path {path : IndexPath} (found : entryFor entries path = some entry) : entry.path = path := by
  simpa using find?_some found

theorem entryFor_mem {path : IndexPath} (found : entryFor entries path = some entry) : entry ∈ entries :=
  mem_of_find?_eq_some found

theorem entryFor_eq_none {path : IndexPath} : entryFor entries path = none ↔ ∀ entry ∈ entries, entry.path ≠ path := by
  simp [entryFor]

theorem leaf_removeOld (root : Place) (target index : Index) (disk : Disk) (q : Place) :
    (removeOld root target index disk).leaf q =
      if ∃ entry ∈ index, entryFor target entry.path = none ∧ entry.path.place root = q then none else disk.leaf q := by
  unfold removeOld
  induction index generalizing disk with
  | nil => simp
  | cons first rest ih =>
    rw [foldl_cons, ih]
    cases kept : entryFor target first.path with
    | some _ => simp [kept]
    | none =>
      simp only [isSome_none, Bool.false_eq_true, if_false, exists_mem_cons_iff, kept]
      rw [leaf_checkoutRemove]
      by_cases here : first.path.place root = q
      · subst here
        simp [IndexPath.place]
      · have other : q ≠ first.path.names ++ root := fun same => here same.symm
        simp [here, other]

theorem writeEntry_other (host : Host) (read : Objects) (stamp : UInt32) (index : Index)
    (disk : Disk) (entry : IndexEntry) (other : q ≠ entry.path.place root) :
    (writeEntry host read stamp root index disk entry).1.leaf q = disk.leaf q := by
  unfold writeEntry
  split
  · rfl
  have kept := checkoutFile_other host disk read (entry.path.place root) entry.sha entry.mode other
  split
  next after same => rw [same] at kept; exact kept
  next after same => rw [same] at kept; exact kept

theorem writeNew_other (host : Host) (read : Objects) (stamp : UInt32)
    (index entries : Index) (disk : Disk) (other : ∀ entry ∈ entries, q ≠ entry.path.place root) :
    (writeNew host read stamp root index entries disk).1.leaf q = disk.leaf q := by
  induction entries generalizing disk with
  | nil => rfl
  | cons first rest ih =>
    have kept := writeEntry_other host read stamp index disk first (other first (.head _))
    rw [writeNew]
    split
    next after same => rw [same] at kept; exact kept
    rename_i after entry same
    rw [same] at kept
    rw [← kept]
    exact ih after fun entry member => other entry (.tail _ member)

/-- How a turn that succeeds leaves its file, from the disk `before` any turn to the one `after` all of them: as it
was, or with the content of the object. No other turn having touched the file, `mid` is as good as `before`. -/
inductive Put (host : Host) (read : Objects) (stamp : UInt32) (root : Place) (index : Index)
    (before after : Disk) (entry : IndexEntry) : Prop where
  | kept (mid : Disk) : mid.leaf (entry.path.place root) = before.leaf (entry.path.place root) →
      alreadyRight host stamp root mid index entry = true →
      after.leaf (entry.path.place root) = before.leaf (entry.path.place root) →
      Put host read stamp root index before after entry
  | written (mid made : Disk) (object : Object) (leaf : Leaf) :
      mid.leaf (entry.path.place root) = before.leaf (entry.path.place root) →
      alreadyRight host stamp root mid index entry = false → read entry.sha = some object → object.type = .blob →
      newLeaf host made object.content entry.mode = some leaf → after.leaf (entry.path.place root) = some leaf →
      Put host read stamp root index before after entry

theorem writeEntry_some {new : IndexEntry}
    (turn : writeEntry host read stamp root index disk entry = (after, some new)) :
    checkoutStat host after root entry = some new ∧ Put host read stamp root index disk after entry := by
  unfold writeEntry at turn
  split at turn
  next right =>
    obtain ⟨rfl, stat⟩ := Prod.mk.inj turn
    exact ⟨stat, .kept disk rfl right rfl⟩
  rename_i wrong
  split at turn
  next files ok =>
    obtain ⟨rfl, stat⟩ := Prod.mk.inj turn
    obtain ⟨object, leaf, made, found, blob, new, update⟩ := checkoutFile_ok ok
    refine ⟨stat, .written disk made object leaf rfl (by simpa using wrong) found blob new ?_⟩
    rw [update, Function.update_self]
  · cases turn

theorem Put.congr {first last : Disk} (put : Put host read stamp root index first last entry)
    (earlier : first.leaf (entry.path.place root) = disk.leaf (entry.path.place root))
    (later : after.leaf (entry.path.place root) = last.leaf (entry.path.place root)) :
    Put host read stamp root index disk after entry := by
  cases put with
  | kept turn same right left => exact .kept turn (same.trans earlier) right (later.trans (left.trans earlier))
  | written turn made object leaf same wrong found blob new left =>
    exact .written turn made object leaf (same.trans earlier) wrong found blob new (later.trans left)

theorem writeNew_put (distinct : (entries.map IndexEntry.path).Nodup)
    (ran : writeNew host read stamp root index entries disk = (after, some news)) :
    ∀ entry ∈ entries, Put host read stamp root index disk after entry := by
  induction entries generalizing disk news with
  | nil => simp
  | cons first rest ih =>
    rw [map_cons, nodup_cons] at distinct
    have apart : ∀ entry ∈ rest, entry.path.place root ≠ first.path.place root := by
      intro entry member same
      exact distinct.1 (IndexPath.place_injective root same ▸ mem_map_of_mem member)
    rw [writeNew] at ran
    split at ran
    · cases ran
    rename_i mid new turn
    obtain ⟨-, put⟩ := writeEntry_some turn
    cases run : writeNew host read stamp root index rest mid with
    | mk last more =>
      rw [run] at ran
      obtain ⟨rfl, more'⟩ := Prod.mk.inj ran
      obtain ⟨others, rfl, -⟩ := map_eq_some_iff.1 more'
      intro entry member
      obtain rfl | member := mem_cons.1 member
      · have left := writeNew_other host read stamp index rest mid fun other inside => (apart other inside).symm
        rw [run] at left
        exact put.congr rfl left
      · refine (ih distinct.2 run entry member).congr ?_ rfl
        have left := writeEntry_other host read stamp index disk first (apart entry member)
        rwa [turn] at left

theorem writeNew_entries (ran : writeNew host read stamp root index entries disk = (after, some news)) :
    news.map (fun new => (new.path, new.sha, new.stage)) =
      entries.map (fun entry => (entry.path, entry.sha, entry.stage)) := by
  induction entries generalizing disk news with
  | nil =>
    cases ran
    rfl
  | cons first rest ih =>
    rw [writeNew] at ran
    split at ran
    · cases ran
    rename_i mid new turn
    obtain ⟨node, -, same⟩ := map_eq_some_iff.1 (writeEntry_some turn).1
    obtain ⟨rfl, more⟩ := Prod.mk.inj ran
    obtain ⟨others, found, rfl⟩ := map_eq_some_iff.1 more
    have run : writeNew host read stamp root index rest mid = (_, some others) := Prod.ext rfl found
    rw [map_cons, map_cons, ih run, ← same]
    rfl

/-! A file that is there is judged by itself, whatever else is on the disk. -/

variable {leaf : Leaf} {path : IndexPath}

theorem lstat_of_leaf {place : Place} (here : disk.leaf place = some leaf) : disk.lstat place = some (.leaf leaf) :=
  FileTree.lstat_of_node 40 (FileTree.leaf_eq_some.1 here)

theorem alreadyRight_of_leaf (files : Files) (here : disk.leaf (entry.path.place root) = some leaf) :
    alreadyRight host stamp root disk index entry = true ↔
      ∃ staged, entryFor index entry.path = some staged ∧ staged.sha = entry.sha ∧ staged.mode = entry.mode ∧
        worktreeMatches host stamp files (entry.path.place root) staged (.leaf leaf) = true := by
  unfold alreadyRight
  rw [lstat_of_leaf here]
  cases entryFor index entry.path with
  | none => simp
  | some staged =>
    have same : worktreeMatches host stamp disk.files (entry.path.place root) staged (.leaf leaf) =
        worktreeMatches host stamp files (entry.path.place root) staged (.leaf leaf) := rfl
    simp [same, and_assoc]

end

end BashOs.Git.WorkTree

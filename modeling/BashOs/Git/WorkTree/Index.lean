import Mathlib.Data.List.Sort
import Mathlib.Data.List.TakeWhile
import BashOs.Lib.ContentStore
import BashOs.Git.Store.Links
import BashOs.Lib.FileTree

/-!
Files on disk as the working tree's code sees them, and the writes that go through held directories: opening a
parent without following links, unlinking, writing one object, and removing a file with what it leaves empty. Then
entries of the index and of a tree read into entries, and what tells whether a file is still what its entry says.
-/

namespace BashOs.Git.WorkTree
open BashOs.Lib List Option Function FileTree

structure FileName where
  bytes : Bytes
  ok : bytes ≠ [] ∧ 0 ∉ bytes ∧ 0x2f ∉ bytes ∧ bytes ≠ [0x2e] ∧ bytes ≠ [0x2e, 0x2e]
deriving DecidableEq

def FileName.ofBytes (bytes : Bytes) : Option FileName :=
  if ok : bytes ≠ [] ∧ 0 ∉ bytes ∧ 0x2f ∉ bytes ∧ bytes ≠ [0x2e] ∧ bytes ≠ [0x2e, 0x2e] then some ⟨bytes, ok⟩
  else none

theorem FileName.ofBytes_bytes (name : FileName) : FileName.ofBytes name.bytes = some name := by
  rw [FileName.ofBytes, dif_pos name.ok]

abbrev Place := List FileName

structure LinkText where
  bytes : Bytes
  ok : bytes ≠ [] ∧ 0 ∉ bytes
deriving DecidableEq

def LinkText.ofBytes (bytes : Bytes) : Option LinkText :=
  if ok : bytes ≠ [] ∧ 0 ∉ bytes then some ⟨bytes, ok⟩ else none

structure Stamp where
  mtime : Int
  ctime : Int
  ino : Nat
deriving DecidableEq

/-- A regular file, of whose permissions only matters whether anyone may execute it, or a symbolic link. -/
inductive Leaf where
  | file (content : Bytes) (executable : Bool) (stamp : Stamp)
  | link (text : LinkText) (stamp : Stamp)
deriving DecidableEq

def Leaf.content : Leaf → Bytes
  | .file content _ _ => content
  | .link text _ => text.bytes

def Leaf.stamp : Leaf → Stamp
  | .file _ _ stamp => stamp
  | .link _ stamp => stamp

/-- Where a link leads: whether from the root, and the components, `.` and repeated slashes left out. -/
def Leaf.target : Leaf → Option (Bool × List (PathStep FileName))
  | .file _ _ _ => none
  | .link text _ =>
    some (text.bytes.head? = some 0x2f, (text.bytes.splitOn 0x2f).filterMap fun part =>
      if part = [0x2e, 0x2e] then some .back else (FileName.ofBytes part).map .down)

abbrev Files := FileTree FileName Leaf

structure Stat where
  size : Nat
  stamp : Stamp
deriving DecidableEq

/-- What the surroundings decide: the stamp of the nth file made, whether the umask leaves an execute bit, what
`lstat` says of a directory, and for a directory the commit and the cleanliness of the repository in it. -/
structure Host where
  prim : Primitives
  stamp : Nat → Stamp
  executable : Bool
  dirStat : Files → Place → Stat
  submodule : Place → Option (ObjectId × Bool)

structure Disk where
  files : Files
  made : Nat

def Disk.leaf (disk : Disk) (place : Place) : Option Leaf := disk.files.leaf place

/-- `lstat`, which follows links on the way and not at the end. The system follows at most forty. -/
def Disk.lstat (disk : Disk) (place : Place) : Option (Node Leaf) := disk.files.lstat Leaf.target 40 place

section Calls
variable (host : Host) (disk : Disk)

/-- What `symlinkat` or `openat` with `O_CREAT` and the writes after it make. The text of a link ends at its first
NUL, and there is no link without a text. -/
def newLeaf (content : Bytes) (mode : UInt32) : Option Leaf :=
  if mode = 0o120000 then (LinkText.ofBytes (content.takeWhile (· ≠ 0))).map (.link · (host.stamp disk.made))
  else some (.file content (mode = 0o100755 && host.executable) (host.stamp disk.made))

def Disk.make (content : Bytes) (mode : UInt32) (place : Place) : Option Disk :=
  (newLeaf host disk content mode).bind fun leaf =>
    (disk.files.add (.leaf leaf) place).map fun files => { files, made := disk.made + 1 }

/-- `bgit_worktree_parent`, for the directory `place` lies in. The components of a path in the index are names, so
the branches for `.`, `..` and doubled slashes have nothing to do. -/
def worktreeParent (create : Bool) (place : Place) : Option Disk :=
  (disk.files.openDir create place.tail).map fun files => { disk with files }

def worktreeUnlink (place : Place) : Option Disk :=
  (worktreeParent disk false place).bind fun disk =>
    (disk.files.unlink place).map fun files => { disk with files }

/-- `unlinkat` of what may not be there -/
def Disk.clear (place : Place) : Disk :=
  match disk.files.unlink place with
  | some files => { disk with files }
  | none => disk

/-- `bgit_checkout_file`, `read` being `bgit_odb_read` -/
def checkoutFile (read : Objects) (place : Place) (sha : ObjectId) (mode : UInt32) : Disk × Bool :=
  match read sha with
  | none => (disk, false)
  | some object =>
    if object.type ≠ .blob then (disk, false)
    else
      match worktreeParent disk true place with
      | none => (disk, false)
      | some opened =>
        -- only a directory makes `unlinkat` fail otherwise than with ENOENT
        if opened.files.isDir place then (opened, false)
        else
          match (opened.clear place).make host object.content mode place with
          | some after => (after, true)
          | none => (opened.clear place, false)

/-- `bgit_checkout_remove`. The loop's own walk to each parent finds directories only, the file having been found
below them. -/
def checkoutRemove (root : Place) (names : List FileName) : Disk :=
  match worktreeUnlink disk (names ++ root) with
  | none => disk
  | some after => { after with files := after.files.sweep root.length (names.tail ++ root) }

end Calls

/-! ## What they do to the files -/

def written (content : Bytes) (mode : UInt32) : Bytes :=
  if mode = 0o120000 then content.takeWhile (· ≠ 0) else content

theorem written_of_calm {content : Bytes} {mode : UInt32} (calm : mode = 0o120000 → 0 ∉ content) :
    written content mode = content := by
  unfold written
  split
  next link =>
    rw [takeWhile_eq_self_iff]
    exact fun b inside => decide_eq_true fun zero => calm link (zero ▸ inside)
  · rfl

theorem LinkText.ofBytes_bytes {bytes : Bytes} {text : LinkText} (made : LinkText.ofBytes bytes = some text) :
    text.bytes = bytes := by
  unfold LinkText.ofBytes at made
  split at made
  · cases made; rfl
  · cases made

variable {read : Objects} {sha : ObjectId} {q : Place} {part : Place → Prop}

section
variable {host : Host} {disk after : Disk} {place : Place} {content : Bytes} {mode : UInt32} {leaf : Leaf}
  {name : FileName} {up : Place}

theorem newLeaf_content (made : newLeaf host disk content mode = some leaf) : leaf.content = written content mode := by
  unfold newLeaf at made
  unfold written
  split at made
  next link =>
    obtain ⟨text, cut, rfl⟩ := map_eq_some_iff.1 made
    rw [if_pos link]
    exact LinkText.ofBytes_bytes cut
  next file =>
    cases made
    rw [if_neg file]
    rfl

theorem make_eq_some (made : disk.make host content mode place = some after) :
    ∃ leaf, newLeaf host disk content mode = some leaf ∧ disk.files.add (.leaf leaf) place = some after.files := by
  obtain ⟨leaf, new, made⟩ := bind_eq_some_iff.1 made
  obtain ⟨files, added, rfl⟩ := map_eq_some_iff.1 made
  exact ⟨leaf, new, added⟩

theorem worktreeUnlink_of_leaf (here : disk.leaf place = some leaf) :
    ∃ files, disk.files.unlink place = some files ∧ worktreeUnlink disk place = some { disk with files } := by
  have present : disk.files.node place = some (.leaf leaf) := leaf_eq_some.1 here
  cases place with
  | nil => cases present
  | cons name up =>
    cases taken : disk.files.unlink (name :: up) with
    | none =>
      rw [Disk.leaf, unlink_eq_none.1 taken] at here
      cases here
    | some files =>
      have opened := openDir_of_node false (node_up_of_eq present)
      simp [worktreeUnlink, worktreeParent, opened, taken]

theorem worktreeUnlink_eq_none (absent : disk.leaf place = none) : worktreeUnlink disk place = none := by
  unfold worktreeUnlink worktreeParent
  cases opening : disk.files.openDir false place.tail with
  | none => rfl
  | some files =>
    rw [openDir_false opening]
    simp [unlink_eq_none.2 absent]

theorem leaf_checkoutRemove (disk : Disk) (root : Place) (names : List FileName) :
    (checkoutRemove disk root names).leaf = update disk.leaf (names ++ root) none := by
  unfold checkoutRemove
  cases here : disk.leaf (names ++ root) with
  | none =>
    rw [worktreeUnlink_eq_none here]
    funext q
    by_cases same : q = names ++ root
    · simp [same, here]
    · simp [same]
  | some leaf =>
    obtain ⟨files, taken, unlinked⟩ := worktreeUnlink_of_leaf here
    rw [unlinked]
    change (files.sweep _ _).leaf = _
    rw [leaf_sweep, leaf_unlink taken]
    rfl

theorem leaf_worktreeParent {create : Bool} (opened : worktreeParent disk create place = some after) :
    after.leaf = disk.leaf := by
  obtain ⟨files, opening, rfl⟩ := map_eq_some_iff.1 opened
  exact (openDir_eq_some opening).leaf

theorem leaf_clear (disk : Disk) (place : Place) : (disk.clear place).leaf = update disk.leaf place none := by
  unfold Disk.clear
  cases taken : disk.files.unlink place with
  | some files => exact leaf_unlink taken
  | none =>
    funext q
    by_cases same : q = place
    · subst same
      rw [update_self]
      exact unlink_eq_none.1 taken
    · rw [update_of_ne same]

theorem leaf_make (made : disk.make host content mode place = some after) :
    ∃ leaf, newLeaf host disk content mode = some leaf ∧ after.leaf = update disk.leaf place (some leaf) := by
  obtain ⟨leaf, new, added⟩ := make_eq_some made
  exact ⟨leaf, new, leaf_add_leaf added⟩

inductive Write (host : Host) (disk : Disk) (read : Objects) (place : Place) (sha : ObjectId)
    (mode : UInt32) : Disk × Bool → Prop where
  | unread : (∀ object, read sha = some object → object.type ≠ .blob) → Write host disk read place sha mode (disk, false)
  | closed : worktreeParent disk true place = none → Write host disk read place sha mode (disk, false)
  | blocked {opened : Disk} : worktreeParent disk true place = some opened → opened.files.node place = some .dir →
      Write host disk read place sha mode (opened, false)
  | refused {object : Object} {opened : Disk} : read sha = some object → object.type = .blob →
      worktreeParent disk true place = some opened → opened.files.node place ≠ some .dir →
      (opened.clear place).make host object.content mode place = none →
      Write host disk read place sha mode (opened.clear place, false)
  | written {object : Object} {opened after : Disk} : read sha = some object → object.type = .blob →
      worktreeParent disk true place = some opened → opened.files.node place ≠ some .dir →
      (opened.clear place).make host object.content mode place = some after →
      Write host disk read place sha mode (after, true)

theorem checkoutFile_cases (host : Host) (disk : Disk) (read : Objects) (place : Place) (sha : ObjectId)
    (mode : UInt32) : Write host disk read place sha mode (checkoutFile host disk read place sha mode) := by
  unfold checkoutFile
  split
  next absent => exact .unread (by simp [absent])
  rename_i object found
  split
  next other => exact .unread (by simpa [found] using other)
  rename_i blob
  rw [not_not] at blob
  split
  next stopped => exact .closed stopped
  rename_i opened opening
  split
  next dir => exact .blocked opening (isDir_iff.1 dir)
  rename_i free
  have free := mt isDir_iff.2 free
  split
  next after made => exact .written found blob opening free made
  next refused => exact .refused found blob opening free refused

theorem checkoutFile_ok (ok : checkoutFile host disk read place sha mode = (after, true)) :
    ∃ object leaf made, read sha = some object ∧ object.type = .blob ∧
      newLeaf host made object.content mode = some leaf ∧ after.leaf = update disk.leaf place (some leaf) := by
  have done := checkoutFile_cases host disk read place sha mode
  rw [ok] at done
  cases done with
  | written found blob opening _ made =>
    obtain ⟨leaf, new, update⟩ := leaf_make made
    refine ⟨_, leaf, _, found, blob, new, ?_⟩
    rw [update, leaf_clear, update_idem, leaf_worktreeParent opening]

theorem checkoutFile_other (host : Host) (disk : Disk) (read : Objects) (place : Place)
    (sha : ObjectId) (mode : UInt32) (other : q ≠ place) :
    (checkoutFile host disk read place sha mode).1.leaf q = disk.leaf q := by
  have done := checkoutFile_cases host disk read place sha mode
  generalize checkoutFile host disk read place sha mode = result at done ⊢
  cases done with
  | unread => rfl
  | closed => rfl
  | blocked opening => rw [leaf_worktreeParent opening]
  | refused _ _ opening => rw [leaf_clear, update_of_ne other, leaf_worktreeParent opening]
  | written _ _ opening _ made =>
    obtain ⟨leaf, -, update⟩ := leaf_make made
    rw [update, update_of_ne other, leaf_clear, update_of_ne other, leaf_worktreeParent opening]

theorem node_clear_self (free : disk.files.node place ≠ some .dir) : (disk.clear place).files.node place = none := by
  unfold Disk.clear
  cases taken : disk.files.unlink place with
  | some files => simp [(unlink_eq_some taken).2]
  | none =>
    have absent := unlink_eq_none.1 taken
    by_contra present
    obtain ⟨thing, here⟩ := ne_none_iff_exists'.1 present
    cases thing with
    | dir => exact free here
    | leaf held =>
      rw [leaf_eq_some.2 here] at absent
      cases absent

theorem node_clear_other (other : q ≠ place) : (disk.clear place).files.node q = disk.files.node q := by
  unfold Disk.clear
  cases taken : disk.files.unlink place with
  | some files => simp [(unlink_eq_some taken).2, other]
  | none => rfl

theorem newLeaf_isSome (host : Host) (disk : Disk) (text : mode = 0o120000 → content.takeWhile (· ≠ 0) ≠ []) :
    (newLeaf host disk content mode).isSome := by
  unfold newLeaf
  split
  next link =>
    have clean : (0 : UInt8) ∉ content.takeWhile (· ≠ 0) := by
      intro member
      simpa using mem_takeWhile_imp member
    simp only [LinkText.ofBytes]
    rw [dif_pos ⟨text link, clean⟩]
    rfl
  · rfl

theorem make_isSome (host : Host) (room : disk.files.node up = some .dir)
    (free : disk.files.node (name :: up) ≠ some .dir) (text : mode = 0o120000 → content.takeWhile (· ≠ 0) ≠ []) :
    ((disk.clear (name :: up)).make host content mode (name :: up)).isSome := by
  obtain ⟨leaf, new⟩ := isSome_iff_exists.1 (newLeaf_isSome host (disk.clear (name :: up)) text)
  have room : (disk.clear (name :: up)).files.node up = some .dir := (node_clear_other ne_cons_self).trans room
  obtain ⟨files, added⟩ := isSome_iff_exists.1 (add_isSome room (node_clear_self free))
  rw [Disk.make, new, bind_some, added]
  rfl

theorem checkoutFile_succeeds (host : Host) {object : Object}
    (found : read sha = some object) (blob : object.type = .blob)
    (text : mode = 0o120000 → object.content.takeWhile (· ≠ 0) ≠ [])
    (clear : ∀ above, above <:+ up → disk.leaf above = none) (free : disk.files.node (name :: up) ≠ some .dir) :
    (checkoutFile host disk read (name :: up) sha mode).2 = true := by
  have done := checkoutFile_cases host disk read (name :: up) sha mode
  generalize checkoutFile host disk read (name :: up) sha mode = result at done ⊢
  have unblocked : ∀ opened, worktreeParent disk true (name :: up) = some opened →
      FileTree.Opened disk.files opened.files up ∧ opened.files.node (name :: up) ≠ some .dir := by
    intro opened opening
    obtain ⟨files, walked, rfl⟩ := map_eq_some_iff.1 opening
    have steps := openDir_eq_some walked
    refine ⟨steps, fun dir => ?_⟩
    by_cases absent : disk.files.node (name :: up) = none
    · have short := (steps.made _ absent (by simp [dir])).2
      exact Nat.not_succ_le_self _ short.length_le
    · exact free ((steps.keeps _ absent).symm.trans dir)
  cases done with
  | unread none => exact (none object found blob).elim
  | closed stopped =>
    have opens := openDir_isSome clear
    rw [worktreeParent, map_eq_none_iff] at stopped
    rw [tail_cons] at stopped
    rw [stopped] at opens
    cases opens
  | blocked opening dir => exact ((unblocked _ opening).2 dir).elim
  | refused found' blob' opening free' refused =>
    cases found.symm.trans found'
    have made := make_isSome host (unblocked _ opening).1.here free' text
    rw [refused] at made
    cases made
  | written => rfl

section
variable (ok : checkoutFile host disk read place sha mode = (after, true))
include ok

theorem checkoutFile_dirs (dir : after.files.node q = some .dir) : disk.files.node q = some .dir ∨ q <:+ place := by
  have done := checkoutFile_cases host disk read place sha mode
  rw [ok] at done
  cases done with
  | written _ _ opening _ made =>
    obtain ⟨leaf, -, added⟩ := make_eq_some made
    obtain ⟨files, walked, rfl⟩ := map_eq_some_iff.1 opening
    have steps := openDir_eq_some walked
    rw [(add_eq_some added).2] at dir
    split at dir
    · cases dir
    rename_i other
    rw [node_clear_other other] at dir
    by_cases absent : disk.files.node q = none
    · exact .inr ((steps.made q absent (by simp [dir])).2.trans (tail_suffix _))
    · exact .inl ((steps.keeps q absent).symm.trans dir)

theorem checkoutFile_tidy (tidy : disk.files.Tidy part) : after.files.Tidy part := by
  obtain ⟨-, leaf, -, -, -, -, update⟩ := checkoutFile_ok ok
  have here : (after.leaf place).isSome := by simp [update]
  intro q inside dir
  obtain before | higher := checkoutFile_dirs ok dir
  · obtain ⟨p, held, lower⟩ := tidy q inside before
    by_cases same : p = place
    · exact ⟨place, here, same ▸ lower⟩
    · refine ⟨p, ?_, lower⟩
      change (after.leaf p).isSome
      rwa [update, update_of_ne same]
  · exact ⟨place, here, higher⟩

end

theorem checkoutRemove_tidy {root : Place} {names : List FileName} (deep : ∀ q, part q → root.length < q.length)
    (below : ∀ child q, part q → part (child :: q)) (some : names ≠ []) (tidy : disk.files.Tidy part) :
    (checkoutRemove disk root names).files.Tidy part := by
  unfold checkoutRemove
  cases here : disk.leaf (names ++ root) with
  | none =>
    rwa [worktreeUnlink_eq_none here]
  | some leaf =>
    obtain ⟨files, taken, unlinked⟩ := worktreeUnlink_of_leaf here
    rw [unlinked]
    obtain ⟨name, rest, rfl⟩ := exists_cons_of_ne_nil some
    obtain ⟨-, nodes⟩ := unlink_eq_some taken
    have present : disk.files.node (name :: (rest ++ root)) = _ := leaf_eq_some.1 here
    apply FileTree.Tidy.sweep deep below
    · rw [nodes]
      exact (if_neg ne_cons_self).trans (node_up_of_eq present)
    · intro q inside off dir
      rw [nodes] at dir
      split at dir
      · cases dir
      rename_i other
      obtain ⟨p, held, lower⟩ := tidy q inside dir
      refine ⟨p, ?_, lower⟩
      rw [leaf_unlink taken, update_of_ne]
      · exact held
      · rintro rfl
        exact (suffix_cons_iff.1 lower).elim other off

end

open FileName

/-! ## Paths -/

/-- `.git` in any case, which no component of an index path may be. -/
def FileName.isDotGit (name : FileName) : Bool :=
  name.bytes.map (fun b => if 0x41 ≤ b ∧ b ≤ 0x5a then b + 0x20 else b) = ascii ".git"

/-- A path that `bgit_index_path_valid` accepts, its last component first. -/
structure IndexPath where
  names : List FileName
  ok : names ≠ [] ∧ ∀ name ∈ names, name.isDotGit = false
deriving DecidableEq

def IndexPath.text (path : IndexPath) : Bytes := List.intercalate [0x2f] (path.names.reverse.map FileName.bytes)

theorem IndexPath.splitOn_text (path : IndexPath) : path.text.splitOn 0x2f = path.names.reverse.map bytes := by
  apply splitOn_intercalate
  · intro part member
    obtain ⟨name, -, rfl⟩ := mem_map.1 member
    exact name.ok.2.2.1
  · simpa using path.ok.1

theorem IndexPath.text_injective : Function.Injective IndexPath.text := by
  intro a b same
  have whole : a.names.reverse.map bytes = b.names.reverse.map bytes := by
    rw [← a.splitOn_text, ← b.splitOn_text, same]
  have bytes : Function.Injective bytes := by
    rintro ⟨_, _⟩ ⟨_, _⟩ rfl
    rfl
  have names := reverse_injective (map_injective_iff.2 bytes whole)
  cases a
  cases names
  rfl

def IndexPath.place (root : Place) (path : IndexPath) : Place := path.names ++ root

theorem IndexPath.place_injective (root : Place) : Function.Injective (IndexPath.place root) := by
  intro a b same
  have names := append_cancel_right same
  cases a
  cases names
  rfl

/-! ## Entries -/

instance stages : NeZero 4 := ⟨by decide⟩

/-- `bgit_index_entry`, with the parts of its stat data that are compared; the stage is two bits of the flags. -/
structure IndexEntry where
  path : IndexPath
  mode : UInt32
  sha : ObjectId
  stage : Fin 4
  size : UInt32
  mtime : UInt32
  ctime : UInt32
  ino : UInt32
deriving DecidableEq

abbrev Index := List IndexEntry

/-- `bgit_entry_for` and `bgit_entry_for_path`: the first entry of the path. -/
def entryFor (entries : Index) (path : IndexPath) : Option IndexEntry :=
  entries.find? fun entry => entry.path = path

def entryLE (a b : IndexEntry) : Prop := a.path.text < b.path.text ∨ a.path = b.path ∧ a.stage ≤ b.stage

instance : DecidableRel entryLE := fun _ _ => inferInstanceAs (Decidable (_ ∨ _))

def worktreeMode : Node Leaf → UInt32
  | .dir => 0o040000
  | .leaf (.link _ _) => 0o120000
  | .leaf (.file _ executable _) => if executable then 0o100755 else 0o100644

def typeName : ObjectType → Bytes
  | .commit => ascii "commit"
  | .tree => ascii "tree"
  | .blob => ascii "blob"
  | .tag => ascii "tag"

/-- `bgit_write_object` for what is not to be written: the id of an object, unless sha1dc reports an attack. -/
def framedId (prim : Primitives) (type : ObjectType) (content : Bytes) : Option ObjectId :=
  let framed := typeName type ++ 0x20 :: ascii (toString content.length) ++ 0 :: content
  if prim.attacked framed then none else some (prim.digest framed)

section
variable (host : Host)

def statOf (files : Files) (place : Place) : Node Leaf → Stat
  | .dir => host.dirStat files place
  | .leaf leaf => { size := leaf.content.length, stamp := leaf.stamp }

/-- `bgit_index_entry_set_stat`, the mode apart -/
def IndexEntry.setStat (entry : IndexEntry) (stat : Stat) : IndexEntry :=
  { entry with
    size := UInt32.ofNat stat.size
    mtime := UInt32.ofInt stat.stamp.mtime
    ctime := UInt32.ofInt stat.stamp.ctime
    ino := UInt32.ofNat stat.stamp.ino }

def IndexEntry.sameStat (entry : IndexEntry) (stat : Stat) : Bool := entry.setStat stat = entry

/-- `bgit_index_racy`. `stamp` is the second the index was written in, zero before one was read. -/
def IndexEntry.racy (stamp : UInt32) (entry : IndexEntry) : Bool := stamp ≠ 0 && stamp ≤ entry.mtime

def objectId (type : ObjectType) (content : Bytes) : Option ObjectId := framedId host.prim type content

def blobId (content : Bytes) : Option ObjectId := objectId host .blob content

def objectName (object : Object) : Option ObjectId := objectId host object.type object.content

/-- `bgit_write_object`, with what `bgit_odb_read` answers afterwards. What is there already is not written again. -/
def writeObject (read : Objects) (type : ObjectType) (content : Bytes) : Option (ObjectId × Objects) :=
  if fits : content.length < addressSpace then ContentStore.put (objectName host) read ⟨type, content, fits⟩ else none

/-- `bgit_worktree_matches` for a file that `lstat` found as `node` -/
def worktreeMatches (stamp : UInt32) (files : Files) (place : Place) (entry : IndexEntry) (node : Node Leaf) : Bool :=
  if entry.mode = 0o160000 then
    match host.submodule place with
    | none => true
    | some (head, clean) => head = entry.sha && clean
  else if entry.mode ≠ worktreeMode node then false
  else if !entry.racy stamp && entry.sameStat (statOf host files place node) then true
  else
    match node with
    | .dir => false
    | .leaf leaf => blobId host leaf.content = some entry.sha

def checkoutStat (disk : Disk) (root : Place) (entry : IndexEntry) : Option IndexEntry :=
  (disk.lstat (entry.path.place root)).map fun node =>
    { entry.setStat (statOf host disk.files (entry.path.place root) node) with mode := worktreeMode node }

end

/-! ## Trees read from the store -/

/-- The path of a name in a directory of the tree, `none` being its top. -/
def IndexPath.child (dir : Option IndexPath) (name : FileName) (fine : name.isDotGit = false) : IndexPath where
  names := name :: (dir.map IndexPath.names).getD []
  ok := by
    refine ⟨List.cons_ne_nil _ _, fun other member => ?_⟩
    obtain rfl | above := List.mem_cons.1 member
    · exact fine
    · cases dir with
      | none => cases above
      | some dir => exact dir.ok.2 other above

structure TreeItem where
  mode : Bytes
  name : FileName
  sha : ObjectId
  fine : name.isDotGit = false
deriving DecidableEq

/-- `bgit_tree_type` says it is a tree -/
def TreeItem.isTree (item : TreeItem) : Bool := item.mode = ascii "40000" ∨ item.mode = ascii "040000"

/-- One turn of the loop of `bgit_tree_walk`: an entry and what follows it. -/
def treeItem (bytes : Bytes) : Option (TreeItem × Bytes) :=
  let mode := bytes.takeWhile (· ≠ 0x20)
  match bytes.dropWhile (· ≠ 0x20) with
  | [] => none
  | _ :: named =>
    if 16 ≤ mode.length then none
    else
      match named.dropWhile (· ≠ 0) with
      | [] => none
      | _ :: after =>
        (FileName.ofBytes (named.takeWhile (· ≠ 0))).bind fun name =>
          if fine : name.isDotGit = false then
            if room : 20 ≤ after.length then
              -- the mode is compared and read as a C string
              some ({ mode := mode.takeWhile (· ≠ 0), name, sha := ⟨after.take 20, length_take_id room⟩, fine },
                after.drop 20)
            else none
          else none

/-- The entries of a tree's content. Each takes more than twenty bytes, so as many rounds as there are bytes are
enough. -/
def treeItems : Nat → Bytes → Option (List TreeItem)
  | _, [] => some []
  | 0, _ :: _ => none
  | rounds + 1, bytes =>
    (treeItem bytes).bind fun (item, rest) => (treeItems rounds rest).map (item :: ·)

def TreeItem.entry (item : TreeItem) (path : IndexPath) : IndexEntry where
  path := path
  mode := UInt32.ofNat (octalValue item.mode)
  sha := item.sha
  stage := 0
  size := 0
  mtime := 0
  ctime := 0
  ino := 0

/-- `bgit_tree_walk` down from a directory, collecting what is not a tree. Each call takes some 8 KiB of the stack, and
`depth` is how many of them it has room for. -/
def treeWalk (read : Objects) : Nat → Option IndexPath → ObjectId → Option Index
  | 0, _, _ => none
  | depth + 1, dir, id =>
    (read id).bind fun object =>
      if object.type ≠ .tree then none
      else
        (treeItems object.content.length object.content).bind fun items =>
          (items.mapM fun item =>
            let path := IndexPath.child dir item.name item.fine
            if 4096 ≤ path.text.length then none
            else if item.isTree then
              if 4096 ≤ path.text.length + 1 then none else treeWalk read depth (some path) item.sha
            else some [item.entry path]).map List.flatten

def readTreeIn (depth : Nat) (read : Objects) (id : ObjectId) : Option Index :=
  (treeWalk read depth none id).map fun entries => entries.insertionSort entryLE

/-- `bgit_read_tree` with a stack for every tree. A path and a directory with its slash stay below 4096 bytes, so there
is no call for more than 2048 levels. -/
def readTree (read : Objects) (id : ObjectId) : Option Index := readTreeIn 2048 read id

def Apart (a b : IndexEntry) : Prop := ¬ a.path.names <:+ b.path.names ∧ ¬ b.path.names <:+ a.path.names

instance : Std.Symm Apart := ⟨fun _ _ => And.symm⟩

instance : DecidableRel Apart := fun _ _ => inferInstanceAs (Decidable (_ ∧ _))

def Listing (entries : Index) : Prop := entries.Pairwise Apart

/-! ## Order -/

def Ascending (listing : Index) : Prop := listing.Pairwise fun a b => a.path.text < b.path.text

theorem entryLE_total (a b : IndexEntry) : entryLE a b ∨ entryLE b a := by
  by_cases less : a.path.text < b.path.text
  · exact .inl (.inl less)
  by_cases more : b.path.text < a.path.text
  · exact .inr (.inl more)
  · have same := IndexPath.text_injective (List.le_antisymm (List.not_lt.1 more) (List.not_lt.1 less))
    obtain low | high := Fin.le_total a.stage b.stage
    · exact .inl (.inr ⟨same, low⟩)
    · exact .inr (.inr ⟨same.symm, high⟩)

theorem entryLE_trans {a b c : IndexEntry} (first : entryLE a b) (second : entryLE b c) : entryLE a c := by
  obtain less | ⟨same, low⟩ := first
  · obtain less' | ⟨same', -⟩ := second
    · exact .inl (List.lt_trans less less')
    · exact .inl (same' ▸ less)
  · obtain less' | ⟨same', low'⟩ := second
    · exact .inl (same ▸ less')
    · exact .inr ⟨same.trans same', Fin.le_trans low low'⟩

instance : Std.Total entryLE := ⟨entryLE_total⟩

instance : IsTrans IndexEntry entryLE := ⟨fun _ _ _ => entryLE_trans⟩

end BashOs.Git.WorkTree

import BashOs.Git.WorkTree.Merged
import BashOs.Git.WorkTree.PathBuffer

/-!
A checkout writes inside the working tree only, whatever the objects hold and whatever links lie there. Every path is
held in a buffer that may cut it, and the walk to its directory follows no link: a place that is touched lies below
the top of the working tree, and no directory on the way to it is a `.git`. A merge removes files, and writes those in
conflict, by calls that do follow links.
-/

namespace BashOs.Git.WorkTree
open BashOs.Lib List Option FileTree FileName

/-! ## What is out of reach -/

/-- Outside the working tree, or in the `.git` at its top: below it, or itself if it is a directory. -/
def Guarded (root : Place) (disk : Disk) (q : Place) : Prop :=
  (¬ ∃ names, names ≠ [] ∧ q = names ++ root) ∨
    ∃ name more, FileName.isDotGit name = true ∧ q = more ++ name :: root ∧
      (more ≠ [] ∨ disk.files.node q = some .dir)

def Confined (root : Place) (before after : Disk) : Prop :=
  ∀ q, Guarded root before q → after.files.node q = before.files.node q

section Guard
variable {root q : Place} {disk mid after : Disk} {dirs : List FileName} {name : FileName}

theorem Confined.refl (root : Place) (disk : Disk) : Confined root disk disk := fun _ _ => rfl

theorem Confined.guarded (confined : Confined root disk after) (guarded : Guarded root disk q) :
    Guarded root after q := by
  have same := confined q guarded
  refine guarded.imp_right ?_
  rintro ⟨name, more, git, whole, inside⟩
  exact ⟨name, more, git, whole, inside.imp_right same.trans⟩

theorem Confined.trans (first : Confined root disk mid) (second : Confined root mid after) : Confined root disk after :=
  fun q guarded => (second q (first.guarded guarded)).trans (first q guarded)

theorem guarded_root (root : Place) (disk : Disk) : Guarded root disk root := by
  refine .inl ?_
  rintro ⟨names, some, whole⟩
  exact some (self_eq_append_left.1 whole)

theorem Confined.top (confined : Confined root disk after) (top : disk.files.node root = some .dir) :
    after.files.node root = some .dir :=
  (confined root (guarded_root root disk)).trans top

theorem absurd_dotGit {more : List FileName} (fine : ∀ name ∈ dirs, isDotGit name = false) (git : name.isDotGit = true)
    (whole : dirs ++ root = more ++ name :: root) : False := by
  have last : dirs = more ++ [name] := append_cancel_right
    (show dirs ++ root = more ++ [name] ++ root by simpa using whole)
  have plain := fine name (by simp [last])
  rw [git] at plain
  cases plain

/-- A way through directories none of which is a `.git` passes by what is out of reach, except above the working
tree. -/
theorem Guarded.suffix (guarded : Guarded root disk q) (fine : ∀ name ∈ dirs, isDotGit name = false)
    (higher : q <:+ dirs ++ root) : q <:+ root := by
  obtain ⟨before, whole⟩ := higher
  obtain ⟨names, split, rfl⟩ | ⟨more, -, above⟩ := append_eq_append_iff.1 whole
  · by_cases empty : names = []
    · rw [empty]
      exact suffix_refl root
    · rcases guarded with outside | ⟨name, more, git, same, -⟩
      · exact absurd ⟨names, empty, rfl⟩ outside
      · exact (absurd_dotGit (fun name member => fine name (split ▸ mem_append_right _ member)) git same).elim
  · exact ⟨more, above.symm⟩

theorem openDir_confined (top : disk.files.node root = some .dir) (fine : ∀ name ∈ dirs, isDotGit name = false)
    {files : Files} (opening : disk.files.openDir true (dirs ++ root) = some files) :
    Confined root disk { disk with files } := by
  intro q guarded
  have opened := openDir_eq_some opening
  by_cases absent : disk.files.node q = none
  · by_contra changed
    have made := opened.made q absent (fun none => changed (none.trans absent.symm))
    by_cases same : q = root
    · rw [same, top] at absent
      cases absent
    · rw [node_above (by rw [top]; exact some_ne_none _) (guarded.suffix fine made.2) same] at absent
      cases absent
  · exact opened.keeps q absent

/-- A file in a directory that is no `.git` is out of reach only as the `.git` at the top, when that is a directory. -/
theorem Guarded.dir (guarded : Guarded root disk (name :: (dirs ++ root)))
    (fine : ∀ name ∈ dirs, isDotGit name = false) : disk.files.node (name :: (dirs ++ root)) = some .dir := by
  rcases guarded with outside | ⟨other, more, git, whole, deep | dir⟩
  · exact absurd ⟨name :: dirs, cons_ne_nil _ _, rfl⟩ outside
  · obtain ⟨first, more, rfl⟩ := exists_cons_of_ne_nil deep
    exact (absurd_dotGit fine git (cons.inj whole).2).elim
  · exact dir

theorem checkoutFile_confined (host : Host) (read : Objects) (sha : ObjectId) (mode : UInt32)
    (top : disk.files.node root = some .dir) (name : FileName) (fine : ∀ name ∈ dirs, isDotGit name = false) :
    Confined root disk (checkoutFile host disk read (name :: (dirs ++ root)) sha mode).1 := by
  have done := checkoutFile_cases host disk read (name :: (dirs ++ root)) sha mode
  generalize checkoutFile host disk read (name :: (dirs ++ root)) sha mode = result at done ⊢
  have walk {opened : Disk} (opening : worktreeParent disk true (name :: (dirs ++ root)) = some opened) :
      Confined root disk opened := by
    obtain ⟨files, walked, rfl⟩ := map_eq_some_iff.1 opening
    exact openDir_confined top fine walked
  -- where the file is written there is no directory, so the place is in reach
  have clear {opened : Disk} (free : opened.files.node (name :: (dirs ++ root)) ≠ some .dir) :
      Confined root opened (opened.clear (name :: (dirs ++ root))) := by
    intro q guarded
    refine node_clear_other ?_
    rintro rfl
    exact free (guarded.dir fine)
  cases done with
  | unread => exact .refl root disk
  | closed => exact .refl root disk
  | blocked opening => exact walk opening
  | refused _ _ opening free => exact (walk opening).trans (clear free)
  | written _ _ opening free made =>
    obtain ⟨leaf, -, added⟩ := make_eq_some made
    refine ((walk opening).trans (clear free)).trans fun q guarded => ?_
    rw [(add_eq_some added).2]
    refine if_neg ?_
    rintro rfl
    have dir := guarded.dir fine
    rw [node_clear_self free] at dir
    cases dir

theorem IndexPath.not_guarded (path : IndexPath) : ¬ Guarded root disk (path.place root) := by
  rintro (outside | ⟨name, more, git, whole, -⟩)
  · exact outside ⟨path.names, path.ok.1, rfl⟩
  · exact absurd_dotGit path.ok.2 git whole

theorem checkoutRemove_confined (root : Place) (disk : Disk) (path : IndexPath) :
    Confined root disk (checkoutRemove disk root path.names) := by
  rw [checkoutRemove]
  split
  · exact .refl root disk
  next unlinked taken =>
    obtain ⟨opened, opening, taken⟩ := bind_eq_some_iff.1 taken
    obtain ⟨files, unlinks, rfl⟩ := map_eq_some_iff.1 taken
    obtain ⟨walked, way, rfl⟩ := map_eq_some_iff.1 opening
    obtain rfl := openDir_false way
    obtain ⟨name, up, whole⟩ := exists_cons_of_ne_nil path.ok.1
    have fine : ∀ other ∈ up, isDotGit other = false :=
      fun other member => path.ok.2 other (by rw [whole]; exact .tail _ member)
    intro q guarded
    rw [whole, tail_cons, node_sweep fun higher => (guarded.suffix fine higher).length_le, (unlink_eq_some unlinks).2]
    refine if_neg ?_
    rintro rfl
    exact path.not_guarded guarded

end Guard

/-! ## The run -/

section Run
variable {root : Place} {disk : Disk}

section
variable (host : Host) (read : Objects) (short : (rootText root).length < 4096) (top : disk.files.node root = some .dir)
include host read short top

theorem checkoutFileText_confined (sha : ObjectId) (mode : UInt32) (path : IndexPath) :
    Confined root disk (checkoutFileText host read disk (fullText root path) sha mode).1 := by
  rcases pathParts_fullText path short with ⟨dirs, last, parts, inside⟩ | ⟨name, up, rfl, parts⟩
  · have fine (name : FileName) (member : name ∈ dirs) : name.isDotGit = false := path.ok.2 name (inside name member)
    simp only [checkoutFileText, parts]
    split
    · exact checkoutFile_confined host read sha mode top _ fine
    · split
      · split
        next files opening => exact openDir_confined top fine opening
        · exact .refl root disk
      · exact .refl root disk
  -- the text is the working tree's own, and that is a directory
  simp only [checkoutFileText, parts, ofBytes_bytes]
  have done := checkoutFile_cases host disk read (name :: up) sha mode
  generalize checkoutFile host disk read (name :: up) sha mode = result at done ⊢
  have walk {opened : Disk} (opening : worktreeParent disk true (name :: up) = some opened) : opened = disk := by
    obtain ⟨files, walked, rfl⟩ := map_eq_some_iff.1 opening
    rw [tail_cons, openDir_of_node true (node_up_of_eq top)] at walked
    cases walked
    rfl
  cases done with
  | unread => exact .refl _ disk
  | closed => exact .refl _ disk
  | blocked opening =>
    obtain rfl := walk opening
    exact .refl _ _
  | refused _ _ opening free | written _ _ opening free =>
    obtain rfl := walk opening
    exact absurd top free

theorem writeEntryText_confined (stamp : UInt32) (index : Index) (entry : IndexEntry) :
    Confined root disk (writeEntryText host read stamp root index disk entry).1 := by
  have wrote := checkoutFileText_confined host read short top entry.sha entry.mode entry.path
  rw [writeEntryText]
  split
  · exact .refl root disk
  · generalize checkoutFileText host read disk (fullText root entry.path) entry.sha entry.mode = result at wrote ⊢
    obtain ⟨after, ok⟩ := result
    cases ok <;> exact wrote

theorem writeNewText_confined (stamp : UInt32) (index target : Index) :
    Confined root disk (writeNewText host read stamp root index target disk).1 := by
  induction target generalizing disk with
  | nil => exact .refl root disk
  | cons entry rest ih =>
    have first := writeEntryText_confined host read short top stamp index entry
    rw [writeNewText]
    generalize writeEntryText host read stamp root index disk entry = result at first ⊢
    obtain ⟨mid, written⟩ := result
    cases written with
    | none => exact first
    | some entry => exact first.trans (ih (first.top top))

end

theorem removeOldText_confined (disk : Disk) (target index : Index) (top : disk.files.node root = some .dir) :
    Confined root disk (removeOldText root target index disk) := by
  induction index generalizing disk with
  | nil => exact .refl root disk
  | cons entry rest ih =>
    have first : Confined root disk (if (entryFor target entry.path).isSome then disk
        else if fits root entry.path then checkoutRemove disk root entry.path.names else disk) := by
      split
      · exact .refl root disk
      · split
        · exact checkoutRemove_confined root disk entry.path
        · exact .refl root disk
    exact first.trans (ih _ (first.top top))

/-- Whatever the store answers, whatever the index lists and whatever lies below the working tree, links included, a
checkout touches nothing outside the working tree and nothing in its `.git`. -/
theorem checkout_confined (host : Host) (read : ObjectId → Option Object) (stamp : UInt32) (root : Place)
    (tree : Option ObjectId) (index : List IndexEntry) (force : Bool) (disk : Disk)
    (short : (rootText root).length < 4096) (top : disk.files.node root = some .dir) :
    Confined root disk (checkoutTreeText host read stamp (some root) tree index force disk).disk := by
  unfold checkoutTreeText
  cases targetOf read tree with
  | none => exact .refl root disk
  | some target =>
    dsimp only
    split
    · exact .refl root disk
    · have removed := removeOldText_confined disk target index top
      have written := writeNewText_confined host read short (removed.top top) stamp index target
      generalize writeNewText host read stamp root index target (removeOldText root target index disk) =
        result at written ⊢
      obtain ⟨after, entries⟩ := result
      cases entries <;> exact removed.trans written

end Run

/-- A file system with the working tree `w`, in which `d` is a link to the directory `o` beside it, and a file there. -/
def nameW : FileName := ⟨ascii "w", by decide⟩

def nameD : FileName := ⟨ascii "d", by decide⟩

def nameO : FileName := ⟨ascii "o", by decide⟩

def diskEscape : Disk where
  files := (((noFiles.put nameW [] .dir FileTree.empty_top rfl).put nameD [nameW]
    (.leaf (.link ⟨ascii "/o", by decide⟩ { mtime := 10, ctime := 10, ino := 8 })) rfl rfl).put nameO
      [] .dir rfl rfl).put
    nameF [nameO] (.leaf (.file [1] false { mtime := 10, ctime := 10, ino := 7 })) rfl rfl
  made := 0

/-- The store of the samples with a tree that has `d/f`, and one that has the link `d`. -/
def readEscape (id : ObjectId) : Option Object :=
  if id = byteId 3 then some ⟨.blob, ascii "/o", by decide⟩
  else if id = byteId 0x50 then some ⟨.tree, ascii "40000 d" ++ 0 :: (byteId 0x41).bytes, by decide⟩
  else if id = byteId 0x51 then some ⟨.tree, ascii "120000 d" ++ 0 :: (byteId 3).bytes, by decide⟩
  else sampleRead id

/-- A forced checkout of `d/f` does not go through the link. -/
theorem checkout_confined_link :
    targetOf readEscape (some (byteId 0x50)) ≠ none ∧
    Confined [nameW] diskEscape
      (checkoutTreeText sampleHost readEscape 50 (some [nameW]) (some (byteId 0x50)) [] true diskEscape).disk :=
  ⟨by decide +kernel, checkout_confined sampleHost readEscape 50 [nameW] (some (byteId 0x50)) [] true diskEscape
    (by decide +kernel) (by decide +kernel)⟩

/-! ## Merging -/

section Merging
variable {root : Place} {disk after : Disk} {merged : MergePath} {paths rest : List MergePath}

/-- No path that the merge removes, or writes a conflict to, leads through a link, be it one that is there or one that
the merge makes. -/
structure StraightWays (root : Place) (paths : List MergePath) (disk : Disk) : Prop where
  straight : ∀ merged ∈ paths, merged.follows = true → disk.Straight (merged.path.place root)
  results : ∀ merged ∈ paths, merged.follows = true → ∀ other ∈ paths,
    other.path.place root <:+ (merged.path.place root).tail → other.result.mode ≠ 0o120000

theorem StraightWays.step {host : Host} {read : Objects} (free : StraightWays root paths disk) (member : merged ∈ paths)
    (ok : applyFile host read root disk merged = (after, true)) : StraightWays root paths after where
  straight other there follows :=
    (free.straight other there follows).step (free.straight merged member)
      (free.results other there follows merged member) ok
  results := free.results

theorem clear_confined (root : Place) (disk : Disk) (path : IndexPath) :
    Confined root disk (disk.clear (path.place root)) := by
  intro q guarded
  refine node_clear_other ?_
  rintro rfl
  exact path.not_guarded guarded

theorem writeWorktreeFile_confined (host : Host) (path : IndexPath) (straight : disk.Straight (path.place root))
    (content : Bytes) (mode : UInt32) :
    Confined root disk (writeWorktreeFile host disk (path.place root) content mode).1 := by
  unfold writeWorktreeFile
  split
  · exact .refl root disk
  next there found =>
    rw [locate_straight straight found]
    split
    next after made =>
      obtain ⟨leaf, -, added⟩ := make_eq_some made
      refine (clear_confined root disk path).trans fun q guarded => ?_
      rw [(add_eq_some added).2]
      refine if_neg ?_
      rintro rfl
      exact path.not_guarded guarded
    · exact clear_confined root disk path

theorem applyFile_confined (host : Host) (read : Objects) (top : disk.files.node root = some .dir)
    (straight : merged.follows = true → disk.Straight (merged.path.place root)) :
    Confined root disk (applyFile host read root disk merged).1 := by
  unfold applyFile
  split
  next gone =>
    unfold Disk.unlink
    split
    next there found =>
      rw [locate_straight (straight (by simp [MergePath.follows, gone])) found]
      exact clear_confined root disk merged.path
    · exact .refl root disk
  · split
    next text shown =>
      exact writeWorktreeFile_confined host merged.path (straight (by simp [MergePath.follows, shown])) text _
    · split
      · split
        next sha digits =>
          obtain ⟨name, up, whole⟩ := exists_cons_of_ne_nil merged.path.ok.1
          have fine (other : FileName) (member : other ∈ up) : other.isDotGit = false :=
            merged.path.ok.2 other (by rw [whole]; exact .tail _ member)
          rw [IndexPath.place, whole]
          exact checkoutFile_confined host read sha merged.result.mode top name fine
        · exact .refl root disk
      · exact .refl root disk

theorem applyPaths_confined (host : Host) (read : Objects) (free : StraightWays root paths disk)
    (part : ∀ merged ∈ rest, merged ∈ paths) (top : disk.files.node root = some .dir) :
    Confined root disk (applyPaths host read root rest disk).1 := by
  induction rest generalizing disk with
  | nil => exact .refl root disk
  | cons first rest ih =>
    have member := part first (.head _)
    have turn := applyFile_confined host read top (free.straight first member)
    rw [applyPaths]
    split
    next mid done =>
      rwa [done] at turn
    next mid done =>
      rw [done] at turn
      exact turn.trans (ih (free.step member done) (fun merged inside => part merged (.tail _ inside)) (turn.top top))

/-- However far a merge gets, it touches nothing outside the working tree if no path that it removes or writes a
conflict to leads through a link. -/
theorem merge_confined (host : Host) (read : Objects) (root : Place) (paths : List MergePath) (disk : Disk)
    (top : disk.files.node root = some .dir) (free : StraightWays root paths disk) :
    ∀ q, (¬ ∃ names, names ≠ [] ∧ q = names ++ root) →
      (applyPaths host read root paths disk).1.files.node q = disk.files.node q :=
  fun q outside => applyPaths_confined host read free (fun _ member => member) top q (.inl outside)

end Merging

def listedD : IndexEntry := { listedF 3 with path := ⟨[nameD], by decide⟩, mode := 0o120000 }

def listedDF : IndexEntry := { listedF 1 with path := ⟨[nameF, nameD], by decide⟩ }

/-- The link `d`, which only our side has. -/
def linkD : MergePath := ⟨listedD.path, .clean, Side.fill (some listedD), Side.fill none,
    Side.fill (some listedD), Side.fill none⟩

/-- The file `d/f`, which only our side does not have. -/
def goneDF : MergePath :=
  ⟨listedDF.path, .clean, Side.fill none, Side.fill (some listedDF), Side.fill none, Side.fill (some listedDF)⟩

/-- Base and their side have `d/f`; our side made `d` a link. The merge agrees that `d/f` is gone, as it is on our side,
and removes the file of that name behind the link. -/
theorem merge_removes_outside :
    (mergeTrees sampleHost (fun _ _ _ => none) readEscape (some (byteId 0x50)) (some (byteId 0x51))
      (some (byteId 0x50))).map Prod.fst = some [linkD, goneDF] ∧
    mergeSafe sampleHost 50 [nameW] diskEscape [listedD] [linkD, goneDF] = true ∧
    (¬ ∃ names, names ≠ [] ∧ [nameF, nameO] = names ++ [nameW]) ∧
    diskEscape.leaf [nameF, nameO] ≠ none ∧
    (applyPaths sampleHost readEscape [nameW] [linkD, goneDF] diskEscape).1.leaf [nameF, nameO] = none := by
  refine ⟨by decide +kernel, by decide +kernel, ?_, by decide +kernel, by decide +kernel⟩
  rintro ⟨names, -, whole⟩
  have last := congrArg getLast? whole
  rw [getLast?_concat] at last
  exact absurd last (by decide)

/-- A file at the top of the working tree is removed from there. -/
theorem merge_confined_sample :
    StraightWays [nameW] [goneF] diskEscape ∧ goneF.follows = true ∧
    ∀ q, (¬ ∃ names, names ≠ [] ∧ q = names ++ [nameW]) →
      (applyPaths sampleHost readEscape [nameW] [goneF] diskEscape).1.files.node q = diskEscape.files.node q := by
  have free : StraightWays [nameW] [goneF] diskEscape := by
    refine ⟨fun merged member _ above higher leaf held => ?_, by decide +kernel⟩
    obtain rfl := mem_singleton.1 member
    have bare : ∀ above ∈ tails [nameW], diskEscape.leaf above = none := by decide +kernel
    rw [bare above ((mem_tails _ _).2 higher)] at held
    cases held
  exact ⟨free, by decide, merge_confined sampleHost readEscape [nameW] [goneF] diskEscape (by decide +kernel) free⟩

end BashOs.Git.WorkTree

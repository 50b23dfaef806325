import BashOs.Git.WorkTree.MergeTrees

/-!
Putting a merge into the working tree and the index: the check that no work would be lost, and the pass that writes.
-/

namespace BashOs.Git.WorkTree
open BashOs.Lib List Option Function FileTree

def MergePath.keepsOurs (merged : MergePath) : Bool := merged.result = merged.ours

def MergePath.gone (merged : MergePath) : Bool := merged.kind = .clean && merged.result.mode = 0

def MergePath.text (merged : MergePath) : Option Bytes :=
  match merged.kind with
  | .content text => some text
  | .addAdd text => some text
  | _ => none

def MergePath.settled (merged : MergePath) : Bool := merged.kind = .clean || merged.kind = .auto

/-- The id that `bgit_hex_to_sha` leaves where there are no digits. -/
def nullId : ObjectId := .filled 0

section
variable (host : Host) (read : Objects) (stamp : UInt32) (root : Place)

/-- What `git_merge_safe` refuses a path for. The loop that looks for the path's entry goes on to the last. -/
def lostByMerge (disk : Disk) (index : Index) (merged : MergePath) : Bool :=
  if merged.kind = .clean && merged.keepsOurs then false
  else
    match disk.lstat (merged.path.place root) with
    | none => false
    | some node =>
      match entryFor index.reverse merged.path with
      | none => true
      | some staged => !worktreeMatches host stamp disk.files (merged.path.place root) staged node

/-- `git_merge_safe` accepts -/
def mergeSafe (disk : Disk) (index : Index) (paths : List MergePath) : Bool :=
  paths.all fun merged => !lostByMerge host stamp root disk index merged

def Disk.locate (disk : Disk) (place : Place) : Option Place := disk.files.locate Leaf.target 40 place

/-- `unlink`, its failures ignored -/
def Disk.unlink (disk : Disk) (place : Place) : Disk :=
  match disk.locate place with
  | some there => disk.clear there
  | none => disk

def writeWorktreeFile (disk : Disk) (place : Place) (content : Bytes) (mode : UInt32) : Disk × Bool :=
  match disk.locate place with
  | none => (disk, false)
  | some there =>
    match (disk.clear there).make host content mode there with
    | some after => (after, true)
    | none => (disk.clear there, false)

/-- The working tree's part of one turn of `git_merge_apply` -/
def applyFile (disk : Disk) (merged : MergePath) : Disk × Bool :=
  if merged.gone then (disk.unlink (merged.path.place root), true)
  else
    match merged.text with
    | some text => writeWorktreeFile host disk (merged.path.place root) text merged.result.mode
    | none =>
      if merged.result.mode ≠ 0 && !merged.keepsOurs then
        match merged.result.sha with
        | some sha => checkoutFile host disk read (merged.path.place root) sha merged.result.mode
        | none => (disk, false)
      else (disk, true)

def Side.entry (side : Side) (path : IndexPath) (stage : Fin 4) : IndexEntry where
  path := path
  mode := side.mode
  sha := side.sha.getD nullId
  stage := stage
  size := 0
  mtime := 0
  ctime := 0
  ino := 0

/-- One entry with its file's stat data, or one for each side when the path is in dispute. -/
def MergePath.entries (merged : MergePath) (stat : Option Stat) : Index :=
  if merged.settled then
    if merged.result.mode = 0 then []
    else
      let entry := merged.result.entry merged.path 0
      match stat with
      | some stat => [entry.setStat stat]
      | none => [entry]
  else
    [(merged.base, 1), (merged.ours, 2), (merged.theirs, 3)].filterMap fun (side, stage) =>
      if side.mode = 0 then none else some (side.entry merged.path stage)

/-- The index's part -/
def applyEntries (disk : Disk) (merged : MergePath) : Index :=
  let place := merged.path.place root
  merged.entries ((disk.lstat place).map (statOf host disk.files place))

/-- The loop of `git_merge_apply`: the entries of the new index, unless a turn failed. -/
def applyPaths : List MergePath → Disk → Disk × Option Index
  | [], disk => (disk, some [])
  | merged :: rest, disk =>
    match applyFile host read root disk merged with
    | (disk, false) => (disk, none)
    | (disk, true) =>
      let entries := applyEntries host root disk merged
      let (disk, more) := applyPaths rest disk
      (disk, more.map (entries ++ ·))

/-! The same with every path in its buffer. -/

/-- Where a text leads by its last name; one that ends in a slash or in dots has none. -/
def textPlace (text : Bytes) : Option Place :=
  match pathParts text with
  | (some up, last) => (FileName.ofBytes last).map (· :: up)
  | (none, _) => none

def lostByMergeText (disk : Disk) (index : Index) (merged : MergePath) : Bool :=
  if merged.kind = .clean && merged.keepsOurs then false
  else
    match lookText disk (fullText root merged.path) with
    | none => false
    | some (place, node) =>
      match entryFor index.reverse merged.path with
      | none => true
      | some staged => !worktreeMatches host stamp disk.files place staged node

def mergeSafeText (disk : Disk) (index : Index) (paths : List MergePath) : Bool :=
  paths.all fun merged => !lostByMergeText host stamp root disk index merged

def applyFileText (disk : Disk) (merged : MergePath) : Disk × Bool :=
  let full := fullText root merged.path
  if merged.gone then
    match textPlace full with
    | some place => (disk.unlink place, true)
    | none => (disk, true)
  else
    match merged.text with
    | some text =>
      match textPlace full with
      | some place => writeWorktreeFile host disk place text merged.result.mode
      | none => (disk, false)
    | none =>
      if merged.result.mode ≠ 0 && !merged.keepsOurs then
        match merged.result.sha with
        | some sha => checkoutFileText host read disk full sha merged.result.mode
        | none => (disk, false)
      else (disk, true)

def applyEntriesText (disk : Disk) (merged : MergePath) : Index :=
  merged.entries <| (lookText disk (fullText root merged.path)).map fun (place, node) =>
    statOf host disk.files place node

def applyPathsText : List MergePath → Disk → Disk × Option Index
  | [], disk => (disk, some [])
  | merged :: rest, disk =>
    match applyFileText host read root disk merged with
    | (disk, false) => (disk, none)
    | (disk, true) =>
      let entries := applyEntriesText host root disk merged
      let (disk, more) := applyPathsText rest disk
      (disk, more.map (entries ++ ·))

end

/-! ## What the turns do to the files -/

def Disk.Straight (disk : Disk) (place : Place) : Prop :=
  ∀ above, above <:+ place.tail → ∀ leaf, disk.leaf above = some leaf → leaf.target = none

def MergePath.follows (merged : MergePath) : Bool := merged.gone || merged.text.isSome

def MergePath.idle (merged : MergePath) : Bool :=
  !merged.gone && merged.text.isNone && (merged.result.mode = 0 || merged.keepsOurs)

/-- A turn that removes a file, or writes a conflict, finds no link on the way to its path. -/
def StraightRun (host : Host) (read : Objects) (root : Place) : List MergePath → Disk → Prop
  | [], _ => True
  | merged :: rest, disk => (merged.follows = true → disk.Straight (merged.path.place root)) ∧
      ∀ after, applyFile host read root disk merged = (after, true) → StraightRun host read root rest after

inductive Fate (host : Host) (read : Objects) (root : Place) (before after : Disk) (merged : MergePath) : Prop where
  | removed : merged.gone = true → after.leaf (merged.path.place root) = none → Fate host read root before after merged
  | left : merged.idle = true → after.leaf (merged.path.place root) = before.leaf (merged.path.place root) →
      Fate host read root before after merged
  | shown (text : Bytes) (leaf : Leaf) (made : Disk) : merged.text = some text →
      newLeaf host made text merged.result.mode = some leaf → after.leaf (merged.path.place root) = some leaf →
      Fate host read root before after merged
  | fetched (sha : ObjectId) (object : Object) (leaf : Leaf) (made : Disk) : merged.idle = false → merged.text = none →
      merged.result.sha = some sha → read sha = some object → object.type = .blob →
      newLeaf host made object.content merged.result.mode = some leaf →
        after.leaf (merged.path.place root) = some leaf →
      Fate host read root before after merged

variable {entries : Index}

section
variable {host : Host} {read : Objects} {root : Place} {disk after : Disk} {place q : Place} {content : Bytes}
  {mode : UInt32} {merged : MergePath} {paths rest : List MergePath}

theorem locate_straight {there : Place} (straight : disk.Straight place) (found : disk.locate place = some there) :
    there = place := by
  cases place with
  | nil => exact (Option.some.inj found).symm
  | cons name up => exact locate_linkFree 40 straight found

theorem leaf_of_locate (lost : disk.locate place = none) : disk.leaf place = none := by
  by_contra present
  obtain ⟨leaf, here⟩ := ne_none_iff_exists'.1 present
  cases place with
  | nil => cases lost
  | cons name up =>
    have found : disk.locate (name :: up) = some (name :: up) := locate_of_dir 40 (node_up_of_eq (leaf_eq_some.1 here))
    rw [found] at lost
    cases lost

section
variable (straight : disk.Straight place)
include straight

theorem leaf_unlink : (disk.unlink place).leaf = update disk.leaf place none := by
  unfold Disk.unlink
  split
  next there found =>
    rw [locate_straight straight found]
    exact leaf_clear disk place
  next lost => rw [← leaf_of_locate lost, update_eq_self]

theorem writeWorktreeFile_other (other : q ≠ place) :
    (writeWorktreeFile host disk place content mode).1.leaf q = disk.leaf q := by
  unfold writeWorktreeFile
  split
  · rfl
  rename_i there found
  rw [locate_straight straight found]
  split
  next after made =>
    obtain ⟨leaf, -, update⟩ := leaf_make made
    rw [update, update_of_ne other, leaf_clear, update_of_ne other]
  · rw [leaf_clear, update_of_ne other]

theorem writeWorktreeFile_ok (ok : writeWorktreeFile host disk place content mode = (after, true)) :
    ∃ leaf made, newLeaf host made content mode = some leaf ∧ after.leaf place = some leaf := by
  unfold writeWorktreeFile at ok
  split at ok
  · cases ok
  rename_i there found
  rw [locate_straight straight found] at ok
  split at ok
  next made =>
    cases ok
    obtain ⟨leaf, new, update⟩ := leaf_make made
    exact ⟨leaf, _, new, by rw [update, update_self]⟩
  · cases ok

end

theorem applyFile_other (host : Host) (read : Objects)
    (straight : merged.follows = true → disk.Straight (merged.path.place root)) (other : q ≠ merged.path.place root) :
    (applyFile host read root disk merged).1.leaf q = disk.leaf q := by
  unfold applyFile
  split
  next gone => rw [leaf_unlink (straight (by simp [MergePath.follows, gone])), update_of_ne other]
  split
  next text shown => exact writeWorktreeFile_other (straight (by simp [MergePath.follows, shown])) other
  split
  · split
    next sha _ => exact checkoutFile_other host disk read _ sha _ other
    · rfl
  · rfl

theorem applyFile_idle (host : Host) (read : Objects) (root : Place) (disk : Disk) (idle : merged.idle = true) :
    applyFile host read root disk merged = (disk, true) := by
  simp only [MergePath.idle, Bool.and_eq_true, Bool.not_eq_true', isNone_iff_eq_none, Bool.or_eq_true] at idle
  obtain ⟨⟨stays, plain⟩, still⟩ := idle
  rw [applyFile, if_neg (by simp [stays]), plain]
  exact if_neg (by simpa using fun some => still.resolve_left some)

theorem applyFile_ok (straight : merged.follows = true → disk.Straight (merged.path.place root))
    (ok : applyFile host read root disk merged = (after, true)) : Fate host read root disk after merged := by
  by_cases idle : merged.idle = true
  · rw [applyFile_idle host read root disk idle] at ok
    cases ok
    exact .left idle rfl
  unfold applyFile at ok
  split at ok
  next gone =>
    cases ok
    have straight := straight (by simp [MergePath.follows, gone])
    exact .removed gone (by rw [leaf_unlink straight, update_self])
  rename_i stays
  split at ok
  next text shown =>
    obtain ⟨leaf, made, new, here⟩ := writeWorktreeFile_ok (straight (by simp [MergePath.follows, shown])) ok
    exact .shown text leaf made shown new here
  rename_i plain
  split at ok
  · split at ok
    next sha digits =>
      obtain ⟨object, leaf, made, found, blob, new, update⟩ := checkoutFile_ok ok
      exact .fetched sha object leaf made (by simpa using idle) plain digits found blob new
        (by rw [update, update_self])
    · cases ok
  next still =>
    have idle' : merged.idle = true := by simpa [MergePath.idle, stays, plain, or_iff_not_imp_left] using still
    exact absurd idle' idle

/-! ## What the loop leaves -/

theorem Disk.Straight.step (before : disk.Straight place)
    (straight : merged.follows = true → disk.Straight (merged.path.place root))
    (file : merged.path.place root <:+ place.tail → merged.result.mode ≠ 0o120000)
    (ok : applyFile host read root disk merged = (after, true)) : after.Straight place := by
  intro above higher leaf held
  by_cases same : above = merged.path.place root
  · subst same
    have file := file higher
    cases applyFile_ok straight ok with
    | removed _ gone =>
      rw [gone] at held
      cases held
    | left _ stays => exact before _ higher leaf (stays.symm.trans held)
    | shown _ _ _ _ new here | fetched _ _ _ _ _ _ _ _ _ new here =>
      cases here.symm.trans held
      rw [newLeaf, if_neg file] at new
      cases new
      rfl
  · have kept := applyFile_other host read straight same
    rw [ok] at kept
    exact before above higher leaf (kept.symm.trans held)

theorem applyPaths_cons (ran : applyPaths host read root (merged :: rest) disk = (after, some entries)) :
    ∃ mid others, applyFile host read root disk merged = (mid, true) ∧
      applyPaths host read root rest mid = (after, some others) ∧
        entries = applyEntries host root mid merged ++ others := by
  rw [applyPaths] at ran
  split at ran
  · cases ran
  rename_i mid done
  obtain ⟨last, more⟩ := Prod.mk.inj ran
  obtain ⟨others, found, rfl⟩ := map_eq_some_iff.1 more
  exact ⟨mid, others, done, Prod.ext last found, rfl⟩

theorem applyPaths_kept (straight : StraightRun host read root rest disk)
    (calm : ∀ merged ∈ rest, merged.path.place root = q → merged.idle = true) :
    (applyPaths host read root rest disk).1.leaf q = disk.leaf q := by
  induction rest generalizing disk with
  | nil => rfl
  | cons first rest ih =>
    have turn : (applyFile host read root disk first).1.leaf q = disk.leaf q := by
      by_cases same : first.path.place root = q
      · rw [applyFile_idle host read root disk (calm first (.head _) same)]
      · exact applyFile_other host read straight.1 (Ne.symm same)
    rw [applyPaths]
    split
    next mid done =>
      rwa [done] at turn
    next mid done =>
      rw [done] at turn
      exact (ih (straight.2 mid done) fun merged inside => calm merged (.tail _ inside)).trans turn

theorem applyPaths_removed (straight : StraightRun host read root rest disk)
    (calm : ∀ merged ∈ rest, merged.path.place root = q → merged.gone = true ∨ merged.idle = true)
    (ran : applyPaths host read root rest disk = (after, some entries)) :
    after.leaf q = if ∃ merged ∈ rest, merged.path.place root = q ∧ merged.gone = true then none else disk.leaf q := by
  induction rest generalizing disk entries with
  | nil =>
    cases ran
    simp
  | cons first rest ih =>
    obtain ⟨mid, others, done, run, -⟩ := applyPaths_cons ran
    rw [ih (straight.2 mid done) (fun merged inside => calm merged (.tail _ inside)) run]
    by_cases same : first.path.place root = q
    · obtain gone | idle := calm first (.head _) same
      · have here : mid.leaf q = none := by
          rw [applyFile, if_pos gone] at done
          cases done
          rw [leaf_unlink (straight.1 (by simp [MergePath.follows, gone])), same, update_self]
        simp [same, gone, here]
      · have stays : first.gone = false := by simp [MergePath.idle] at idle; exact idle.1.1
        rw [applyFile_idle host read root disk idle] at done
        cases done
        simp [stays]
    · have kept := applyFile_other host read straight.1 (Ne.symm same)
      rw [done] at kept
      simp [same, kept]

theorem applyPathsText_entries (ran : applyPathsText host read root rest disk = (after, some entries)) :
    (∀ merged ∈ rest, ∃ stat, merged.entries stat ⊆ entries) ∧
      ∀ entry ∈ entries, ∃ merged ∈ rest, ∃ stat, entry ∈ merged.entries stat := by
  induction rest generalizing disk entries with
  | nil =>
    cases ran
    simp
  | cons first rest ih =>
    rw [applyPathsText] at ran
    split at ran
    · cases ran
    obtain ⟨last, more⟩ := Prod.mk.inj ran
    obtain ⟨others, found, rfl⟩ := map_eq_some_iff.1 more
    obtain ⟨forward, back⟩ := ih (Prod.ext last found)
    constructor
    · intro merged member
      obtain rfl | member := mem_cons.1 member
      · exact ⟨_, subset_append_left _ _⟩
      · obtain ⟨stat, within⟩ := forward merged member
        exact ⟨stat, subset_append_of_subset_right _ within⟩
    · intro entry inside
      obtain inside | inside := mem_append.1 inside
      · exact ⟨first, .head _, _, inside⟩
      · obtain ⟨merged, member, made⟩ := back entry inside
        exact ⟨merged, .tail _ member, made⟩

/-- What one path of a merge came to: the fate of its file, and the entries made from what its turn left there. -/
structure Landed (host : Host) (read : Objects) (root : Place) (before after : Disk) (merged : MergePath)
    (entries : Index) : Prop where
  fate : Fate host read root before after merged
  entries : ∃ mid : Disk, mid.leaf (merged.path.place root) = after.leaf (merged.path.place root) ∧
    entries = applyEntries host root mid merged

theorem Fate.between {before mid last : Disk} (fate : Fate host read root mid after merged)
    (earlier : mid.leaf (merged.path.place root) = before.leaf (merged.path.place root))
    (later : last.leaf (merged.path.place root) = after.leaf (merged.path.place root)) :
    Fate host read root before last merged := by
  cases fate with
  | removed gone none => exact .removed gone (later.trans none)
  | left idle stays => exact .left idle ((later.trans stays).trans earlier)
  | shown text leaf made shown new here => exact .shown text leaf made shown new (later.trans here)
  | fetched sha object leaf made idle plain digits found blob new here =>
    exact .fetched sha object leaf made idle plain digits found blob new (later.trans here)

theorem applyPaths_landed (straight : StraightRun host read root rest disk)
    (distinct : (rest.map MergePath.path).Nodup) (ran : applyPaths host read root rest disk = (after, some entries)) :
    (∀ merged ∈ rest, ∃ made, Landed host read root disk after merged made ∧ made ⊆ entries) ∧
      ∀ entry ∈ entries, ∃ merged ∈ rest, ∃ made, Landed host read root disk after merged made ∧ entry ∈ made := by
  induction rest generalizing disk entries with
  | nil =>
    cases ran
    simp
  | cons first rest ih =>
    rw [map_cons, nodup_cons] at distinct
    have apart : ∀ merged ∈ rest, merged.path.place root ≠ first.path.place root := by
      intro merged inside same
      exact distinct.1 (IndexPath.place_injective root same ▸ mem_map_of_mem inside)
    obtain ⟨mid, others, done, run, rfl⟩ := applyPaths_cons ran
    obtain ⟨forward, back⟩ := ih (straight.2 mid done) distinct.2 run
    have still := applyPaths_kept (straight.2 mid done) fun merged inside same => (apart merged inside same).elim
    rw [run] at still
    have here : Landed host read root disk after first (applyEntries host root mid first) :=
      ⟨(applyFile_ok straight.1 done).between rfl still, mid, still.symm, rfl⟩
    -- the other turns found their files as the first one did
    have earlier : ∀ merged ∈ rest, ∀ made, Landed host read root mid after merged made →
        Landed host read root disk after merged made := by
      intro merged inside made landed
      have kept := applyFile_other host read straight.1 (apart merged inside)
      rw [done] at kept
      exact ⟨landed.fate.between kept rfl, landed.entries⟩
    constructor
    · intro merged inside
      obtain rfl | inside := mem_cons.1 inside
      · exact ⟨_, here, subset_append_left _ _⟩
      · obtain ⟨made, landed, within⟩ := forward merged inside
        exact ⟨made, earlier merged inside made landed, subset_append_of_subset_right _ within⟩
    · intro entry inside
      obtain inside | inside := mem_append.1 inside
      · exact ⟨first, .head _, _, here, inside⟩
      · obtain ⟨merged, among, made, landed, inside⟩ := back entry inside
        exact ⟨merged, .tail _ among, made, earlier merged among made landed, inside⟩

/-! ## The entries of a path -/

variable {entry : IndexEntry}

theorem MergePath.mem_entries {stat : Option Stat} (inside : entry ∈ merged.entries stat) :
    entry.path = merged.path ∧
      (entry.stage = 0 → merged.settled = true ∧ merged.result.mode ≠ 0 ∧ entry.mode = merged.result.mode ∧
        entry.sha = merged.result.sha.getD nullId) := by
  unfold entries at inside
  split at inside
  next settled =>
    split at inside
    · cases inside
    rename_i present
    dsimp only at inside
    split at inside <;> (cases mem_singleton.1 inside; exact ⟨rfl, fun _ => ⟨settled, present, rfl, rfl⟩⟩)
  · obtain ⟨⟨side, stage⟩, listed, found⟩ := mem_filterMap.1 inside
    simp only [ite_none_left_eq_some, Option.some.injEq] at found
    obtain ⟨-, rfl⟩ := found
    refine ⟨rfl, fun plain => ?_⟩
    obtain rfl : stage = 0 := plain
    simp at listed

theorem MergePath.entries_settled (stat : Option Stat) (settled : merged.settled = true)
    (present : merged.result.mode ≠ 0) : ∃ entry ∈ merged.entries stat, entry.path = merged.path ∧
      entry.mode = merged.result.mode ∧ entry.sha = merged.result.sha.getD nullId ∧ entry.stage = 0 := by
  unfold entries
  rw [if_pos settled, if_neg present]
  split
  · exact ⟨_, mem_singleton_self _, rfl, rfl, rfl, rfl⟩
  · exact ⟨_, mem_singleton_self _, rfl, rfl, rfl, rfl⟩

/-! ## Paths that fit -/

variable {stamp : UInt32} {index : Index}

theorem textPlace_of_fits {path : IndexPath} (fit : fits root path = true) :
    textPlace (fullText root path) = some (path.place root) := by
  obtain ⟨name, up, place, parts⟩ := pathParts_of_fits fit
  simp only [textPlace, parts, FileName.ofBytes_bytes, map_some, place]

theorem lostByMergeText_of_fits (fit : fits root merged.path = true) :
    lostByMergeText host stamp root disk index merged = lostByMerge host stamp root disk index merged := by
  rw [lostByMergeText, lostByMerge, lookText_of_fits disk fit]
  cases disk.lstat (merged.path.place root) with
  | none => rfl
  | some node => cases entryFor index.reverse merged.path <;> rfl

theorem applyFileText_of_fits (fit : merged.idle = false → fits root merged.path = true) :
    applyFileText host read root disk merged = applyFile host read root disk merged := by
  by_cases idle : merged.idle = true
  · rw [applyFile_idle host read root disk idle]
    simp only [MergePath.idle, Bool.and_eq_true, Bool.not_eq_true', isNone_iff_eq_none, Bool.or_eq_true] at idle
    obtain ⟨⟨stays, plain⟩, still⟩ := idle
    dsimp only [applyFileText]
    rw [if_neg (by simp [stays]), plain]
    exact if_neg (by simpa using fun some => still.resolve_left some)
  · have fit := fit (Bool.eq_false_iff.2 idle)
    obtain ⟨name, up, place, parts⟩ := pathParts_of_fits fit
    have checks (sha : ObjectId) : checkoutFileText host read disk (fullText root merged.path) sha merged.result.mode =
        checkoutFile host disk read (merged.path.place root) sha merged.result.mode := by
      simp only [checkoutFileText, parts, FileName.ofBytes_bytes, place]
    simp only [applyFileText, applyFile, textPlace_of_fits fit, checks]

theorem applyEntriesText_of_fits
    (fit : merged.settled = true → merged.result.mode ≠ 0 → fits root merged.path = true) :
    applyEntriesText host root disk merged = applyEntries host root disk merged := by
  unfold applyEntriesText applyEntries MergePath.entries
  split
  next settled =>
    split
    · rfl
    next present =>
      rw [lookText_of_fits disk (fit settled present), Option.map_map]
      rfl
  · rfl

/-- Where every path that is acted on fits, the buffers make no difference to the working tree. -/
theorem applyPathsText_disk (fit : ∀ merged ∈ rest, merged.idle = false → fits root merged.path = true) :
    (applyPathsText host read root rest disk).1 = (applyPaths host read root rest disk).1 ∧
      (applyPathsText host read root rest disk).2.isSome = (applyPaths host read root rest disk).2.isSome := by
  induction rest generalizing disk with
  | nil => exact ⟨rfl, rfl⟩
  | cons first rest ih =>
    have later (disk : Disk) := @ih disk fun merged inside => fit merged (.tail _ inside)
    rw [applyPathsText, applyPaths, applyFileText_of_fits (fit first (.head _))]
    cases applyFile host read root disk first with
    | mk mid done =>
      cases done with
      | false => exact ⟨rfl, rfl⟩
      | true =>
        obtain ⟨same, through⟩ := later mid
        simp only [isSome_map]
        exact ⟨same, through⟩

/-- And where every path with an entry of its own fits as well, none to the index. -/
theorem applyPathsText_eq (fit : ∀ merged ∈ rest, merged.idle = false → fits root merged.path = true)
    (entered : ∀ merged ∈ rest, merged.settled = true → merged.result.mode ≠ 0 → fits root merged.path = true) :
    applyPathsText host read root rest disk = applyPaths host read root rest disk := by
  induction rest generalizing disk with
  | nil => rfl
  | cons first rest ih =>
    have later (disk : Disk) := @ih disk (fun merged inside => fit merged (.tail _ inside))
      fun merged inside => entered merged (.tail _ inside)
    have made (disk : Disk) := @applyEntriesText_of_fits host root disk first (entered first (.head _))
    simp only [applyPathsText, applyPaths, applyFileText_of_fits (fit first (.head _)), later, made]

end

end BashOs.Git.WorkTree

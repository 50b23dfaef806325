import Mathlib.Data.List.Find
import BashOs.Lib.CString
import BashOs.Git.WorkTree.Checkout

/-!
Paths as text in a buffer of 4096 bytes. `snprintf` cuts what does not fit, and the walk to the parent then takes the
cut text for the path: its last component may be shorter than the one that was meant, or missing. The checkout with
these buffers does what the one without them does as long as every path fits.
-/

namespace BashOs.Git.WorkTree
open BashOs.Lib List Option FileTree FileName

/-! ## Texts -/

/-- `work_tree`, as `realpath` writes it. -/
def rootText (root : Place) : Bytes := if root = [] then [0x2f] else root.reverse.flatMap fun name => 0x2f :: name.bytes

def fits (root : Place) (path : IndexPath) : Bool := (rootText root).length + 1 + path.text.length < 4096

/-- `full`, after `snprintf (full, sizeof full, "%s/%s", work_tree, path)` -/
def fullText (root : Place) (path : IndexPath) : Bytes := (rootText root ++ 0x2f :: path.text).take 4095

def named (part : Bytes) : Bool := part ≠ [] && part ≠ [0x2e]

/-- How `bgit_worktree_parent` takes a path apart: the directories on the way, unless `..` is one of them, and what
stands after the last slash. -/
def pathParts (text : Bytes) : Option Place × Bytes :=
  let parts := text.splitOn 0x2f
  (((parts.dropLast.filter named).mapM FileName.ofBytes).map List.reverse, parts.getLast?.getD [])

/-! ## Parts -/

section
variable {root : Place} {path : IndexPath}

theorem names_splitOn (first : FileName) (names : List FileName) :
    (first.bytes ++ names.flatMap fun name => 0x2f :: name.bytes).splitOn 0x2f = first.bytes :: names.map bytes := by
  induction names generalizing first with
  | nil => simpa using splitOn_eq_singleton first.ok.2.2.1
  | cons name names ih =>
    rw [flatMap_cons, cons_append, splitOn_append_mark, ih, splitOn_eq_singleton first.ok.2.2.1]
    rfl

theorem rootText_splitOn (some : root ≠ []) : (rootText root).splitOn 0x2f = [] :: root.reverse.map bytes := by
  obtain ⟨first, names, whole⟩ := exists_cons_of_ne_nil (reverse_ne_nil_iff.2 some)
  have lead := splitOn_append_mark (0x2f : UInt8) [] (first.bytes ++ names.flatMap fun name => 0x2f :: name.bytes)
  rw [rootText, if_neg some, whole, flatMap_cons, cons_append, ← nil_append (0x2f :: _), lead, names_splitOn]
  rfl

theorem named_bytes (name : FileName) : named name.bytes = true := by
  simp [named, name.ok.1, name.ok.2.2.2.1]

theorem filter_named (names : List FileName) : (names.map bytes).filter named = names.map bytes := by
  refine filter_eq_self.2 fun part member => ?_
  obtain ⟨name, -, rfl⟩ := mem_map.1 member
  exact named_bytes name

theorem mapM_ofBytes (names : List FileName) : (names.map bytes).mapM ofBytes = some names := by
  induction names with
  | nil => rfl
  | cons name names ih => simp [ofBytes_bytes, ih]

theorem filter_rootText (root : Place) : ((rootText root).splitOn 0x2f).filter named = root.reverse.map bytes := by
  by_cases empty : root = []
  · subst empty
    decide
  · rw [rootText_splitOn empty, filter_cons_of_neg (by decide), filter_named]

theorem pathParts_below (root : Place) (dirs : List FileName) {cut : Bytes}
    (parts : (cut.splitOn 0x2f).dropLast = dirs.reverse.map bytes) :
    pathParts (rootText root ++ 0x2f :: cut) = (some (dirs ++ root), (cut.splitOn 0x2f).getLast?.getD []) := by
  have some := splitOn_ne_nil 0x2f cut
  have names : root.reverse.map bytes ++ dirs.reverse.map bytes = (dirs ++ root).reverse.map bytes := by simp
  simp only [pathParts, splitOn_append_mark, dropLast_append_of_ne_nil some, filter_append, filter_rootText,
    parts, filter_named, names, mapM_ofBytes, List.getLast?_append_of_ne_nil _ some, map_some, reverse_reverse]

theorem pathParts_fullText (path : IndexPath) (short : (rootText root).length < 4096) :
    (∃ dirs last, pathParts (fullText root path) = (some (dirs ++ root), last) ∧ ∀ name ∈ dirs, name ∈ path.names) ∨
      ∃ name up, root = name :: up ∧ pathParts (fullText root path) = (some up, name.bytes) := by
  by_cases full : (rootText root).length = 4095
  · have some : root ≠ [] := by
      rintro rfl
      cases full
    obtain ⟨name, up, rfl⟩ := exists_cons_of_ne_nil some
    refine .inr ⟨name, up, rfl, ?_⟩
    have cut : fullText (name :: up) path = rootText (name :: up) := by
      rw [fullText, ← full, take_left]
    have parts : (rootText (name :: up)).splitOn 0x2f = ([] :: up.reverse.map bytes) ++ [name.bytes] := by
      rw [rootText_splitOn some, reverse_cons, map_append]
      rfl
    simp only [cut, pathParts, parts, dropLast_concat, List.getLast?_concat, getD_some]
    rw [filter_cons_of_neg (by decide), filter_named, mapM_ofBytes, map_some, reverse_reverse]
  · obtain ⟨room, length⟩ : ∃ room, 4095 = (rootText root).length + (room + 1) :=
      ⟨4094 - (rootText root).length, by omega⟩
    have cut : fullText root path = rootText root ++ 0x2f :: path.text.take room := by
      rw [fullText, length, take_length_add_append]
      rfl
    obtain ⟨rest, split⟩ := splitOn_append_dropLast (0x2f : UInt8) (path.text.take room) (path.text.drop room)
    rw [take_append_drop, path.splitOn_text] at split
    have dirs : ((path.text.take room).splitOn 0x2f).dropLast =
        (path.names.reverse.take ((path.text.take room).splitOn 0x2f).dropLast.length).reverse.reverse.map bytes := by
      rw [reverse_reverse, map_take, split, take_left]
    refine .inl ⟨_, _, by rw [cut, pathParts_below root _ dirs], fun name member => ?_⟩
    exact mem_reverse.1 (mem_of_mem_take (mem_reverse.1 member))

end

/-! ## The checkout with its buffers -/

/-- `lstat` of a text: what is there, and where. A text that ends in a slash or in dots is a directory's. -/
def lookText (disk : Disk) (text : Bytes) : Option (Place × Node Leaf) :=
  match pathParts text with
  | (some up, last) =>
    match FileName.ofBytes last with
    | some name => (disk.lstat (name :: up)).map fun node => (name :: up, node)
    | none =>
      let steps := (text.splitOn 0x2f).filterMap fun part =>
        if part = [0x2e, 0x2e] then some .back else (FileName.ofBytes part).map .down
      (disk.files.walk Leaf.target 40 [] steps).map fun there => (there, .dir)
  | (none, _) => none

section
variable (host : Host) (read : Objects) (stamp : UInt32) (root : Place)

/-- `bgit_checkout_file` at a text. Where nothing stands after its last slash, the directories are made all the same. -/
def checkoutFileText (disk : Disk) (text : Bytes) (sha : ObjectId) (mode : UInt32) : Disk × Bool :=
  match pathParts text with
  | (some up, last) =>
    match FileName.ofBytes last with
    | some name => checkoutFile host disk read (name :: up) sha mode
    | none =>
      if (read sha).any fun object => object.type = .blob then
        match disk.files.openDir true up with
        | some files => ({ disk with files }, false)
        | none => (disk, false)
      else (disk, false)
  | (none, _) => (disk, false)

def lostByWritingText (disk : Disk) (index : Index) (entry : IndexEntry) : Bool :=
  match lookText disk (fullText root entry.path), entryFor index entry.path with
  | none, _ => false
  | some _, none => true
  | some (place, node), some staged =>
    staged.sha ≠ entry.sha && !worktreeMatches host stamp disk.files place staged node

def lostByRemovingText (disk : Disk) (target : Index) (entry : IndexEntry) : Bool :=
  if (entryFor target entry.path).isSome then false
  else
    match lookText disk (fullText root entry.path) with
    | none => false
    | some (place, node) => !worktreeMatches host stamp disk.files place entry node

def firstLostText (disk : Disk) (index target : Index) : Option IndexPath :=
  ((target.find? (lostByWritingText host stamp root disk index)).or
    (index.find? (lostByRemovingText host stamp root disk target))).map IndexEntry.path

/-- `bgit_checkout_remove` gives up on a path that does not fit. -/
def removeOldText (target index : Index) (disk : Disk) : Disk :=
  index.foldl (fun disk entry =>
    if (entryFor target entry.path).isSome then disk
    else if fits root entry.path then checkoutRemove disk root entry.path.names
    else disk) disk

def alreadyRightText (disk : Disk) (index : Index) (entry : IndexEntry) : Bool :=
  match lookText disk (fullText root entry.path), entryFor index entry.path with
  | some (place, node), some staged =>
    staged.sha = entry.sha && staged.mode = entry.mode && worktreeMatches host stamp disk.files place staged node
  | _, _ => false

/-- `bgit_checkout_stat` fails on a path that does not fit. -/
def checkoutStatText (disk : Disk) (entry : IndexEntry) : Option IndexEntry :=
  if fits root entry.path then checkoutStat host disk root entry else none

def writeEntryText (index : Index) (disk : Disk) (entry : IndexEntry) : Disk × Option IndexEntry :=
  if alreadyRightText host stamp root disk index entry then (disk, checkoutStatText host root disk entry)
  else
    match checkoutFileText host read disk (fullText root entry.path) entry.sha entry.mode with
    | (disk, true) => (disk, checkoutStatText host root disk entry)
    | (disk, false) => (disk, none)

def writeNewText (index : Index) : Index → Disk → Disk × Option Index
  | [], disk => (disk, some [])
  | entry :: rest, disk =>
    match writeEntryText host read stamp root index disk entry with
    | (disk, none) => (disk, none)
    | (disk, some entry) =>
      let (disk, more) := writeNewText index rest disk
      (disk, more.map (entry :: ·))

/-- `bgit_checkout_tree` with every path in its buffer. -/
def checkoutTreeText (workTree : Option Place) (tree : Option ObjectId) (index : Index) (force : Bool)
    (disk : Disk) : Checkout :=
  match workTree, targetOf read tree with
  | some root, some target =>
    match if force then none else firstLostText host stamp root disk index target with
    | some path => { outcome := .refused path, disk, index }
    | none =>
      match writeNewText host read stamp root index target (removeOldText root target index disk) with
      | (disk, some entries) => { outcome := .done, disk, index := entries }
      | (disk, none) => { outcome := .failed, disk, index }
  | _, _ => { outcome := .failed, disk, index }

end

/-! ## Paths that fit -/

section
variable {host : Host} {read : Objects} {stamp : UInt32} {root : Place} {disk : Disk} {index target : Index}
  {path : IndexPath} {entry : IndexEntry}

theorem pathParts_of_fits (fit : fits root path = true) : ∃ name up, path.place root = name :: up ∧
    pathParts (fullText root path) = (some up, name.bytes) := by
  obtain ⟨name, dirs, names⟩ := exists_cons_of_ne_nil path.ok.1
  have parts : path.text.splitOn 0x2f = dirs.reverse.map bytes ++ [name.bytes] := by
    rw [path.splitOn_text, names, reverse_cons, map_append]
    rfl
  have whole : fullText root path = rootText root ++ 0x2f :: path.text := by
    refine take_of_length_le ?_
    have := of_decide_eq_true fit
    rw [length_append, length_cons]
    omega
  refine ⟨name, dirs ++ root, by rw [IndexPath.place, names, cons_append], ?_⟩
  rw [whole, pathParts_below root dirs (by rw [parts, dropLast_concat]), parts, List.getLast?_concat, getD_some]

theorem lookText_of_fits (disk : Disk) (fit : fits root path = true) : lookText disk (fullText root path) =
    (disk.lstat (path.place root)).map fun node => (path.place root, node) := by
  obtain ⟨name, up, place, parts⟩ := pathParts_of_fits fit
  simp only [lookText, parts, ofBytes_bytes, place]

theorem lostByWritingText_of_fits (fit : fits root entry.path = true) :
    lostByWritingText host stamp root disk index entry = lostByWriting host stamp root disk index entry := by
  rw [lostByWritingText, lostByWriting, lookText_of_fits disk fit]
  cases disk.lstat (entry.path.place root) with
  | none => rfl
  | some node => cases entryFor index entry.path <;> rfl

theorem lostByRemovingText_of_fits (fit : fits root entry.path = true) :
    lostByRemovingText host stamp root disk target entry = lostByRemoving host stamp root disk target entry := by
  rw [lostByRemovingText, lostByRemoving, lookText_of_fits disk fit]
  cases disk.lstat (entry.path.place root) <;> rfl

theorem writeEntryText_of_fits (fit : fits root entry.path = true) :
    writeEntryText host read stamp root index disk entry = writeEntry host read stamp root index disk entry := by
  obtain ⟨name, up, place, parts⟩ := pathParts_of_fits fit
  have right : alreadyRightText host stamp root disk index entry = alreadyRight host stamp root disk index entry := by
    rw [alreadyRightText, alreadyRight, lookText_of_fits disk fit]
    cases disk.lstat (entry.path.place root) with
    | none => rfl
    | some node => cases entryFor index entry.path <;> rfl
  have writes : checkoutFileText host read disk (fullText root entry.path) entry.sha entry.mode =
      checkoutFile host disk read (entry.path.place root) entry.sha entry.mode := by
    simp only [checkoutFileText, parts, ofBytes_bytes, place]
  simp only [writeEntryText, writeEntry, right, writes, checkoutStatText, fit, if_true]
  all_goals rfl

theorem writeEntryText_of_not_fits (host : Host) (read : Objects) (stamp : UInt32) (index : Index) (disk : Disk)
    (long : fits root entry.path = false) :
    (writeEntryText host read stamp root index disk entry).2 = none := by
  simp only [writeEntryText, checkoutStatText, long, Bool.false_eq_true, if_false]
  split
  · rfl
  · split <;> rfl

theorem writeNewText_of_fits (fit : ∀ entry ∈ target, fits root entry.path = true) :
    writeNewText host read stamp root index target disk = writeNew host read stamp root index target disk := by
  induction target generalizing disk with
  | nil => rfl
  | cons first rest ih =>
    have later (disk : Disk) := @ih disk fun entry member => fit entry (.tail _ member)
    simp only [writeNewText, writeNew, writeEntryText_of_fits (fit first (.head _)), later]
    all_goals rfl

theorem fits_of_writeNewText {after : Disk} {news : Index}
    (ran : writeNewText host read stamp root index target disk = (after, some news)) :
    ∀ entry ∈ target, fits root entry.path = true := by
  induction target generalizing disk news with
  | nil => simp
  | cons first rest ih =>
    rw [writeNewText] at ran
    split at ran
    · cases ran
    rename_i mid new turn
    obtain ⟨rfl, more⟩ := Prod.mk.inj ran
    obtain ⟨others, found, -⟩ := map_eq_some_iff.1 more
    intro entry member
    obtain rfl | member := mem_cons.1 member
    · by_contra long
      have failed := writeEntryText_of_not_fits host read stamp index disk (Bool.eq_false_iff.2 long)
      rw [turn] at failed
      cases failed
    · exact ih (Prod.ext rfl found) entry member

/-- What does not fit is not removed. -/
theorem removeOldText_eq (root : Place) (target index : Index) (disk : Disk) : removeOldText root target index disk =
    removeOld root target (index.filter fun entry => fits root entry.path) disk := by
  unfold removeOldText removeOld
  rw [foldl_filter]
  congr 1
  funext disk entry
  cases fits root entry.path <;> simp

theorem firstLostText_eq_none : firstLostText host stamp root disk index target = none ↔
    (∀ entry ∈ target, lostByWritingText host stamp root disk index entry = false) ∧
      ∀ entry ∈ index, lostByRemovingText host stamp root disk target entry = false := by
  simp [firstLostText]

/-- Where every path fits, the buffers make no difference. -/
theorem checkoutTreeText_eq {tree : Option ObjectId} {force : Bool} (listed : targetOf read tree = some target)
    (targetFits : ∀ entry ∈ target, fits root entry.path = true)
      (indexFits : ∀ entry ∈ index, fits root entry.path = true) :
    checkoutTreeText host read stamp (some root) tree index force disk =
      checkoutTree host read stamp (some root) tree index force disk := by
  have writing : target.find? (lostByWritingText host stamp root disk index) =
      target.find? (lostByWriting host stamp root disk index) :=
    find?_congr fun entry member => lostByWritingText_of_fits (targetFits entry member)
  have removing : index.find? (lostByRemovingText host stamp root disk target) =
      index.find? (lostByRemoving host stamp root disk target) :=
    find?_congr fun entry member => lostByRemovingText_of_fits (indexFits entry member)
  simp only [checkoutTreeText, checkoutTree, listed, firstLostText, firstLost, writing, removing, removeOldText_eq,
    filter_eq_self.2 indexFits, writeNewText_of_fits targetFits]
  all_goals rfl

/-- A call that does not fail refuses, or every path of the tree fits and the loops run as they do without buffers,
over what of the index fits. -/
theorem checkoutTreeText_cases {tree : Option ObjectId} (listed : targetOf read tree = some target)
    (returned : (checkoutTreeText host read stamp (some root) tree index false disk).outcome ≠ .failed) :
    (∃ path, firstLostText host stamp root disk index target = some path ∧
      checkoutTreeText host read stamp (some root) tree index false disk = { outcome := .refused path, disk, index }) ∨
    (firstLostText host stamp root disk index target = none ∧ (∀ entry ∈ target, fits root entry.path = true) ∧
      ∃ after news, writeNew host read stamp root index target
          (removeOld root target (index.filter fun entry => fits root entry.path) disk) = (after, some news) ∧
        checkoutTreeText host read stamp (some root) tree index false disk =
          { outcome := .done, disk := after, index := news }) := by
  unfold checkoutTreeText at returned ⊢
  rw [listed] at returned ⊢
  simp only [Bool.false_eq_true, if_false] at returned ⊢
  cases lost : firstLostText host stamp root disk index target with
  | some path => exact .inl ⟨path, rfl, rfl⟩
  | none =>
    rw [lost] at returned
    refine .inr ⟨rfl, ?_⟩
    cases ran : writeNewText host read stamp root index target (removeOldText root target index disk) with
    | mk after written =>
      cases written with
      | none => simp [ran] at returned
      | some news =>
        have fit := fits_of_writeNewText ran
        refine ⟨fit, after, news, ?_, rfl⟩
        rw [← removeOldText_eq, ← writeNewText_of_fits fit, ran]

end

end BashOs.Git.WorkTree

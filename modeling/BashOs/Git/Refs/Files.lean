import BashOs.Git.Store.Roots
import BashOs.Git.WorkTree.PathBuffer

/-!
Refs as files: which names are good, reading a ref, writing one under its lock with its reflog, and removing one
with its line in `packed-refs` and its reflog. No file of the repository is taken to be a symbolic link, so a path
leads where its text says.
-/

namespace BashOs.Git.Refs
open BashOs.Lib BashOs.Git.WorkTree List Option FileTree FileName
open FileName (ofBytes ofBytes_bytes)

abbrev RefDisk := Tracked FileName Bytes

/-- `git_dir` and `common_dir` of a `bgit_repo`. -/
structure GitDirs where
  gitDir : Place
  commonDir : Place

/-! ## Names -/

/-- The loop of `bgit_ref_name_ok`, `start` being `component_start`. -/
def componentsOk : Bool → Bytes → Bool
  | _, [] => true
  | start, b :: rest =>
    !(b < 0x20 || b = 0x7f) && b ∉ ascii " ~^:?*[\\" && !(start && b = 0x2e) && componentsOk (b = 0x2f) rest

def nameOk (name : Bytes) : Bool :=
  name ≠ [] && name.head? ≠ some 0x2f && name.getLast? ≠ some 0x2f && name.getLast? ≠ some 0x2e &&
  (cutAt (ascii "..") name).isNone && (cutAt (ascii "@\x7b") name).isNone && (cutAt (ascii "//") name).isNone &&
  !(ascii ".lock").isSuffixOf name && componentsOk true name

/-! ## Paths -/

def GitDirs.base (dirs : GitDirs) (name : Bytes) : Place := if perWorktree name then dirs.gitDir else dirs.commonDir

def pathBelow (base : Place) (text : Bytes) : Option Bytes :=
  let path := rootText base ++ 0x2f :: text
  if path.length < 4096 then some path else none

def refPath (dirs : GitDirs) (name : Bytes) : Option Bytes := pathBelow (dirs.base name) name

def reflogPath (dirs : GitDirs) (name : Bytes) : Option Bytes := pathBelow (dirs.base name) (ascii "logs/" ++ name)

inductive Led where
  | there (place : Place)
  | missing
  | blocked
deriving DecidableEq

def Led.place : Led → Option Place
  | .there place => some place
  | _ => none

def walkDirs (tree : FileTree FileName Bytes) : Place → List Bytes → Led
  | here, [] => .there here
  | here, part :: rest =>
    if part = [0x2e, 0x2e] then walkDirs tree here.tail rest
    else
      match ofBytes part with
      | none => walkDirs tree here rest
      | some name =>
        match tree.node (name :: here) with
        | some .dir => walkDirs tree (name :: here) rest
        | some (.leaf _) => .blocked
        | none => .missing

def leads (tree : FileTree FileName Bytes) (base : Place) (text : Bytes) : Led :=
  let parts := text.splitOn 0x2f
  match walkDirs tree base parts.dropLast with
  | .there up =>
    match ofBytes (parts.getLast?.getD []) with
    | some name => .there (name :: up)
    | none => .blocked
  | other => other

/-- The same for a name that `bgit_ref_name_ok` has passed, all of whose components are names. -/
def namePlace (base : Place) (name : Bytes) : Option Place :=
  ((name.splitOn 0x2f).mapM ofBytes).map fun names => names.reverse ++ base

def logs : FileName := ⟨ascii "logs", by decide +kernel⟩
def refsDir : FileName := ⟨ascii "refs", by decide +kernel⟩
def packedRefs : FileName := ⟨ascii "packed-refs", by decide +kernel⟩

/-! ## Reading -/

/-- What `bgit_ref_read` answers: 0 and the id, 1, or -1. -/
inductive RefValue where
  | found (id : Bytes)
  | absent
  | broken
deriving DecidableEq

def RefValue.id : RefValue → Option Bytes
  | .found id => some id
  | _ => none

section Reading
variable (dirs : GitDirs) (disk : RefDisk)

/-- `bgit_first_line` of the file a ref's path names -/
def refFileLine (name : Bytes) : Option Bytes :=
  ((leads disk.tree (dirs.base name) name).place.bind disk.leaf).bind firstLine

def packedRefsRead (name : Bytes) : RefValue :=
  if (pathBelow dirs.commonDir (ascii "packed-refs")).isNone then .broken
  else
    match disk.leaf (packedRefs :: dirs.commonDir) with
    | none => .absent
    | some content =>
      match (packedRefLines content).lookup name with
      | some id => .found id
      | none => .absent

def refValue (name : Bytes) : RefValue :=
  if (refPath dirs name).isNone then .broken
  else
    match refFileLine dirs disk name with
    | none => packedRefsRead dirs disk name
    | some line =>
      if (ascii "ref:").isPrefixOf line then .broken
      else if line.length < 40 || !allHex line then .broken
      else .found (line.take 40)

/-- `bgit_symref_read`, of which the caller here only uses the target -/
def symrefTarget (name : Bytes) : Option Bytes :=
  if (refPath dirs name).isNone then none
  else
    (refFileLine dirs disk name).bind fun line =>
      if (ascii "ref:").isPrefixOf line then
        let target := (line.drop 4).dropWhile isSpace
        if target = [] then none else some target
      else none

/-- `bgit_ref_check_old`, answering what the ref holds -/
def checkOld (name : Bytes) (old : Option Bytes) : Option (Option Bytes) :=
  match refValue dirs disk name with
  | .broken => none
  | .absent =>
    match old with
    | none => some none
    | some [] => some none
    | some _ => none
  | .found current =>
    match old with
    | none => some (some current)
    | some [] => none
    -- strcasecmp
    | some expected => if current.map lowerByte = expected.map lowerByte then some (some current) else none

end Reading

/-! ## Writing -/

def lockName (name : FileName) : FileName where
  bytes := name.bytes ++ ascii ".lock"
  ok := by
    have long : ∀ few : Bytes, few.length < 5 → name.bytes ++ ascii ".lock" ≠ few := by
      rintro few short rfl
      rw [length_append, show (ascii ".lock").length = 5 from rfl] at short
      omega
    have tail : ∀ b ∈ ascii ".lock", b ≠ 0 ∧ b ≠ 0x2f := by decide +kernel
    refine ⟨long [] (by decide), fun bad => ?_, fun bad => ?_, long _ (by decide), long _ (by decide)⟩
    · exact (mem_append.1 bad).elim name.ok.2.1 fun last => (tail 0 last).1 rfl
    · exact (mem_append.1 bad).elim name.ok.2.2.1 fun last => (tail 0x2f last).2 rfl

/-- `bgit_lock_acquire`, the writes and `bgit_lock_commit`, or `bgit_lock_rollback` where the file is a directory:
`rename` then fails. -/
def writeLocked (disk : RefDisk) (path : Bytes) (content : Bytes) : Place → RefDisk × Bool
  | [] => (disk, false)
  | name :: up =>
    if 4096 ≤ path.length + 5 then (disk, false)
    else
      match disk.makeDirs up with
      | none => (disk, false)
      | some opened =>
        -- O_EXCL
        if (opened.tree.node (lockName name :: up)).isSome then (opened, false)
        else
          match opened.write (lockName name :: up) content with
          | none => (opened, false)
          | some locked =>
            match (locked.remove (lockName name :: up)).write (name :: up) content with
            | some after => (after, true)
            | none => (locked.remove (lockName name :: up), false)

def zeroes : Bytes := List.replicate 40 0x30

def alwaysLogged (name : Bytes) : Bool :=
  name = ascii "HEAD" || name = ascii "refs/stash" || (ascii "refs/heads/").isPrefixOf name ||
  (ascii "refs/remotes/").isPrefixOf name || (ascii "refs/notes/").isPrefixOf name

section Writing
-- `bgit_committer_ident`
variable (ident : Option Bytes) (dirs : GitDirs) (disk : RefDisk)

def reflogAppend (name : Bytes) (old : Option Bytes) (new message : Bytes) : RefDisk × Bool :=
  if (reflogPath dirs name).isNone then (disk, false)
  else
    match namePlace (logs :: dirs.base name) name with
    | none => (disk, false)
    | some place =>
      if !alwaysLogged name && (disk.tree.node place).isNone then (disk, true)
      else
        match disk.makeDirs place.tail with
        | none => (disk, false)
        | some opened =>
          match ident with
          | none => (opened, false)
          | some ident =>
            let line := old.getD zeroes ++ 0x20 :: new ++ 0x20 :: ident ++ 0x09 :: message ++ [0x0a]
            match opened.write place ((opened.leaf place).getD [] ++ line) with
            | some after => (after, true)
            | none => (opened, false)

def refUpdate (name new : Bytes) (old : Option Bytes) (message : Bytes) : RefDisk × Bool :=
  if !nameOk name then (disk, false)
  else if new.length ≠ 40 || !allHex new then (disk, false)
  else
    match checkOld dirs disk name old, refPath dirs name, namePlace (dirs.base name) name with
    | some current, some path, some place =>
      match writeLocked disk path (new ++ [0x0a]) place with
      | (after, false) => (after, false)
      | (after, true) =>
        if current = some new then (after, true) else reflogAppend ident dirs after name current new message
    | _, _, _ => (disk, false)

/-- A line of `packed-refs` gives the ref of this name. -/
def packedLineOf (name line : Bytes) : Bool :=
  let text := stripLineEnd (cString line)
  line.head? ≠ some 0x5e && line.head? ≠ some 0x23 && 41 < text.length && text[40]? = some 0x20 && text.drop 41 = name

/-- The lines `bgit_packed_refs_remove` keeps, `dropPeel` telling whether the line before was dropped. -/
def packedKept (name : Bytes) : Bool → List Bytes → Bytes
  | _, [] => []
  | dropPeel, line :: rest =>
    if dropPeel && line.head? = some 0x5e then packedKept name false rest
    else if packedLineOf name line then packedKept name true rest
    else cString line ++ packedKept name false rest

def packedRefsRemove (name : Bytes) : RefDisk × Bool :=
  match pathBelow dirs.commonDir (ascii "packed-refs") with
  | none => (disk, false)
  | some path =>
    match disk.leaf (packedRefs :: dirs.commonDir) with
    | none => (disk, true)
    | some content =>
      if (fileLines content).any (packedLineOf name) then
        writeLocked disk path (packedKept name false (fileLines content)) (packedRefs :: dirs.commonDir)
      else (disk, true)

/-- `unlink`, with whether it succeeds or fails with ENOENT -/
def unlinkFile (base : Place) (text : Bytes) : RefDisk × Bool :=
  match leads disk.tree base text with
  | .there place => if disk.tree.isDir place then (disk, false) else (disk.remove place, true)
  | .missing => (disk, true)
  | .blocked => (disk, false)

def refDelete (name : Bytes) (old : Option Bytes) : RefDisk × Bool :=
  match checkOld dirs disk name old, refPath dirs name with
  | some (some _), some _ =>
    match unlinkFile disk (dirs.base name) name with
    | (after, false) => (after, false)
    | (after, true) =>
      match packedRefsRemove dirs after name with
      | (after, false) => (after, false)
      | (after, true) =>
        if (reflogPath dirs name).isSome then ((unlinkFile after (dirs.base name) (ascii "logs/" ++ name)).1, true)
        else (after, true)
  | _, _ => (disk, false)

end Writing

/-! ## Where names and paths lead -/

variable {text name : Bytes} {parts : List Bytes} {base place up : Place} {last : FileName}

theorem componentsOk_parts {start : Bool} (good : componentsOk start text = true) :
    ∃ first rest, text.splitOn 0x2f = first :: rest ∧ (start = true → first.head? ≠ some 0x2e) ∧ 0 ∉ first ∧
      ∀ part ∈ rest, part.head? ≠ some 0x2e ∧ 0 ∉ part := by
  induction text generalizing start with
  | nil => exact ⟨[], [], rfl, by simp, by simp, by simp⟩
  | cons b text ih =>
    rw [componentsOk] at good
    simp only [Bool.and_eq_true, Bool.not_eq_true', Bool.or_eq_false_iff, decide_eq_false_iff_not,
      Bool.and_eq_false_iff] at good
    obtain ⟨⟨⟨⟨printed, -⟩, -⟩, dot⟩, good⟩ := good
    obtain ⟨first, rest, split, begins, clean, others⟩ := ih good
    rw [splitOn_cons_eq_if_modifyHead, split]
    split
    next slash =>
      have slash := beq_iff_eq.1 slash
      subst slash
      refine ⟨[], first :: rest, rfl, by simp, by simp, fun part member => ?_⟩
      obtain rfl | member := mem_cons.1 member
      · exact ⟨begins (by simp), clean⟩
      · exact others part member
    refine ⟨b :: first, rest, rfl, fun started => ?_, ?_, others⟩
    · obtain off | plain := dot
      · simp [off] at started
      · simpa using plain
    · rw [mem_cons, not_or]
      refine ⟨?_, clean⟩
      rintro rfl
      exact printed (by decide)

theorem componentsOk_bytes {start : Bool} (good : componentsOk start text = true) : ∀ b ∈ text, ¬ b < 0x20 := by
  induction text generalizing start with
  | nil => simp
  | cons b text ih =>
    rw [componentsOk] at good
    simp only [Bool.and_eq_true, Bool.not_eq_true', Bool.or_eq_false_iff, decide_eq_false_iff_not] at good
    exact forall_mem_cons.2 ⟨good.1.1.1.1, ih good.2⟩

theorem nameOk_bytes (good : nameOk name = true) : ∀ b ∈ name, ¬ b < 0x20 := by
  unfold nameOk at good
  rw [Bool.and_eq_true] at good
  exact componentsOk_bytes good.2

theorem ofBytes_isSome {part : Bytes} (some : part ≠ []) (clean : 0 ∉ part) (whole : 0x2f ∉ part)
    (plain : part.head? ≠ .some 0x2e) : (ofBytes part).isSome := by
  have dots : ∀ more, part ≠ 0x2e :: more := by
    rintro more rfl
    exact plain rfl
  simp [ofBytes, some, clean, whole, dots]

theorem mapM_isSome (all : ∀ part ∈ parts, (ofBytes part).isSome) :
    ∃ names, parts.mapM ofBytes = some names ∧ names.length = parts.length := by
  induction parts with
  | nil => exact ⟨[], rfl, rfl⟩
  | cons part parts ih =>
    obtain ⟨name, named⟩ := isSome_iff_exists.1 (all part (.head _))
    obtain ⟨names, rest, same⟩ := ih fun other member => all other (mem_cons_of_mem part member)
    exact ⟨name :: names, by simp [named, rest], by simp [same]⟩

theorem nameOk_place (good : nameOk name = true) (base : Place) :
    ∃ last up, namePlace base name = some (last :: up ++ base) := by
  unfold nameOk at good
  simp only [Bool.and_eq_true, decide_eq_true_eq, isNone_iff_eq_none] at good
  obtain ⟨⟨⟨⟨⟨⟨⟨⟨nonempty, begins⟩, ends⟩, -⟩, -⟩, -⟩, single⟩, -⟩, good⟩ := good
  obtain ⟨first, rest, split, head, clean, others⟩ := componentsOk_parts good
  have parts : ∀ part ∈ name.splitOn 0x2f, (ofBytes part).isSome := by
    intro part member
    have whole := (part_of_splitOn member).1
    rw [split] at member
    obtain rfl | later := mem_cons.1 member
    · refine ofBytes_isSome ?_ clean whole (head rfl)
      -- the first part is empty only if the name is, or begins with a slash
      rintro rfl
      cases name with
      | nil => exact nonempty rfl
      | cons b text =>
        rw [splitOn_cons_eq_if_modifyHead] at split
        split at split
        next slash => exact begins (by simpa using slash)
        obtain ⟨part, parts, same⟩ := exists_cons_of_ne_nil (splitOn_ne_nil 0x2f text)
        simp [same] at split
    · refine ofBytes_isSome ?_ (others part later).2 whole (others part later).1
      rintro rfl
      exact ends (empty_part single (by rw [split]; exact later))
  obtain ⟨names, named, length⟩ := mapM_isSome parts
  have some : names.reverse ≠ [] := by
    intro none
    rw [reverse_eq_nil_iff.1 none, split] at length
    cases length
  obtain ⟨last, up, same⟩ := exists_cons_of_ne_nil some
  exact ⟨last, up, by rw [namePlace, named, map_some, same]⟩

section
variable {tree : FileTree FileName Bytes} {base here place : Place} {text : Bytes} {name : FileName}

theorem walkDirs_below (down : [0x2e, 0x2e] ∉ parts) (led : walkDirs tree here parts = .there place) :
    ∃ more, place = more ++ here := by
  induction parts generalizing here with
  | nil =>
    cases led
    exact ⟨[], rfl⟩
  | cons part parts ih =>
    rw [mem_cons, not_or] at down
    rw [walkDirs, if_neg (Ne.symm down.1)] at led
    split at led
    · exact ih down.2 led
    rename_i name _
    split at led
    · obtain ⟨more, rfl⟩ := ih down.2 led
      exact ⟨more ++ [name], by simp⟩
    · cases led
    · cases led

theorem leads_below (down : [0x2e, 0x2e] ∉ text.splitOn 0x2f) (led : leads tree base text = .there place) :
    ∃ last more, place = last :: more ++ base := by
  unfold leads at led
  dsimp only at led
  split at led
  next up walked =>
    obtain ⟨more, rfl⟩ := walkDirs_below (fun member => down (mem_of_mem_dropLast member)) walked
    split at led
    next last _ =>
      cases led
      exact ⟨last, more, rfl⟩
    · cases led
  next other =>
    exact (other place led).elim

theorem splitOn_name (name : FileName) (text : Bytes) :
    (name.bytes ++ 0x2f :: text).splitOn 0x2f = name.bytes :: text.splitOn 0x2f := by
  rw [splitOn_append_mark, splitOn_eq_singleton name.ok.2.2.1, singleton_append]

theorem leads_cons (led : leads tree base (name.bytes ++ 0x2f :: text) = .there place) :
    leads tree (name :: base) text = .there place := by
  have some := splitOn_ne_nil 0x2f text
  unfold leads at led ⊢
  dsimp only at led ⊢
  rw [splitOn_name, dropLast_cons_of_ne_nil some, walkDirs, if_neg name.ok.2.2.2.2, ofBytes_bytes] at led
  rw [getLast?_cons_of_ne_nil some] at led
  cases node : tree.node (name :: base) with
  | none => simp [node] at led
  | some thing =>
    cases thing with
    | leaf held => simp [node] at led
    | dir => simpa only [node] using led

theorem leads_name (led : leads tree base name.bytes = .there place) : place = name :: base := by
  unfold leads at led
  rw [splitOn_eq_singleton name.ok.2.2.1] at led
  simp only [dropLast_singleton, walkDirs, getLast?_singleton, getD_some, ofBytes_bytes, Led.there.injEq] at led
  exact led.symm

theorem namePlace_cons (base : Place) (name : FileName) (text : Bytes) :
    namePlace base (name.bytes ++ 0x2f :: text) = namePlace (name :: base) text := by
  unfold namePlace
  rw [splitOn_name, mapM_cons, ofBytes_bytes]
  cases (text.splitOn 0x2f).mapM ofBytes <;> simp

theorem namePlace_below (found : namePlace base text = some place) : ∃ last more, place = last :: more ++ base := by
  obtain ⟨names, named, rfl⟩ := map_eq_some_iff.1 found
  obtain ⟨part, parts, split⟩ := exists_cons_of_ne_nil (splitOn_ne_nil 0x2f text)
  rw [split, mapM_cons] at named
  obtain ⟨first, -, named⟩ := bind_eq_some_iff.1 named
  obtain ⟨more, -, named⟩ := bind_eq_some_iff.1 named
  cases named
  obtain ⟨last, up, same⟩ := exists_cons_of_ne_nil (reverse_ne_nil_iff.2 (cons_ne_nil first more))
  exact ⟨last, up, by rw [same]⟩

theorem namePlace_name (base : Place) (name : FileName) : namePlace base name.bytes = some (name :: base) := by
  rw [namePlace, splitOn_eq_singleton name.ok.2.2.1]
  simp [ofBytes_bytes]

end

theorem parts_of_mapM {names : List FileName} (named : parts.mapM ofBytes = some names) : parts = names.map bytes := by
  induction parts generalizing names with
  | nil =>
    cases named
    rfl
  | cons part parts ih =>
    rw [mapM_cons] at named
    obtain ⟨first, made, named⟩ := bind_eq_some_iff.1 named
    obtain ⟨more, rest, named⟩ := bind_eq_some_iff.1 named
    cases named
    unfold ofBytes at made
    split at made
    · cases made
      rw [ih rest, map_cons]
    · cases made

theorem splitOn_of_namePlace (found : namePlace base text = some (place ++ base)) :
    text.splitOn 0x2f = place.reverse.map bytes := by
  obtain ⟨names, named, same⟩ := map_eq_some_iff.1 found
  rw [parts_of_mapM named, ← append_cancel_right same, reverse_reverse]

theorem walkDirs_names {tree : FileTree FileName Bytes} {here : Place} (names : List FileName) :
    walkDirs tree here (names.map bytes) = .there (names.reverse ++ here) ∨
      (walkDirs tree here (names.map bytes)).place = none ∧
        ∀ child, tree.node (child :: (names.reverse ++ here)) = none := by
  induction names generalizing here with
  | nil => exact .inl rfl
  | cons name names ih =>
    rw [map_cons, walkDirs, if_neg name.ok.2.2.2.2, ofBytes_bytes, reverse_cons, append_assoc, singleton_append]
    dsimp only
    have above : tree.node (name :: here) ≠ some .dir →
        ∀ child, tree.node (child :: (names.reverse ++ name :: here)) = none := by
      intro other child
      by_contra present
      have higher : name :: here <:+ child :: (names.reverse ++ name :: here) := ⟨child :: names.reverse, rfl⟩
      refine other (node_above present higher fun same => ?_)
      have lengths := congrArg length same
      simp only [length_cons, length_append] at lengths
      omega
    split
    · exact ih
    next leaf => exact .inr ⟨rfl, above (by simp [leaf])⟩
    next none => exact .inr ⟨rfl, above (by simp [none])⟩

theorem leads_names {tree : FileTree FileName Bytes} {base place : Place} {text : Bytes}
    (found : namePlace base text = some place) :
    leads tree base text = .there place ∨ (leads tree base text).place = none ∧ tree.leaf place = none := by
  obtain ⟨names, named, rfl⟩ := map_eq_some_iff.1 found
  have parts := parts_of_mapM named
  obtain ⟨init, last, rfl⟩ := eq_nil_or_concat names |>.resolve_left (by
    rintro rfl
    exact splitOn_ne_nil 0x2f text parts)
  unfold leads
  rw [parts, concat_eq_append]
  simp only [map_append, map_cons, map_nil, dropLast_concat, getLast?_concat, getD_some,
    ofBytes_bytes, reverse_append, reverse_cons, reverse_nil, nil_append,
    cons_append]
  obtain there | ⟨nowhere, nothing⟩ := @walkDirs_names tree base init
  · exact .inl (by rw [there])
  refine .inr ⟨?_, by simp [leaf, nothing]⟩
  split
  next up walked =>
    rw [walked] at nowhere
    cases nowhere
  · exact nowhere

theorem refFileLine_eq {dirs : GitDirs} {disk : RefDisk} (found : namePlace (dirs.base name) name = some place) :
    refFileLine dirs disk name = (disk.leaf place).bind firstLine := by
  refine congrArg (Option.bind · firstLine) ?_
  obtain there | ⟨nowhere, absent⟩ := @leads_names disk.tree (dirs.base name) place name found
  · rw [there]
    rfl
  · rw [nowhere]
    exact absent.symm

theorem lockName_injective : Function.Injective lockName := by
  intro a b same
  have bytes := append_cancel_right (congrArg bytes same)
  cases a
  cases bytes
  rfl

/-! ## What a change touches -/

structure Covered (area : Set Place) (dirs : GitDirs) (name : Bytes) : Prop where
  file : ∀ tree place, leads tree (dirs.base name) name = .there place → place ∈ area
  log : ∀ tree place, leads tree (dirs.base name) (ascii "logs/" ++ name) = .there place → place ∈ area
  written : nameOk name → ∀ last up, namePlace (dirs.base name) name = some (last :: up) →
    last :: up ∈ area ∧ lockName last :: up ∈ area
  logged : nameOk name → ∀ place, namePlace (logs :: dirs.base name) name = some place → place ∈ area
  packed : packedRefs :: dirs.commonDir ∈ area ∧ lockName packedRefs :: dirs.commonDir ∈ area

section
variable {area : Set Place} {ident : Option Bytes} {dirs : GitDirs} {disk : RefDisk} {name : Bytes}

theorem writeLocked_within (file : last :: up ∈ area) (lock : lockName last :: up ∈ area) (path content : Bytes) :
    disk.Within area (writeLocked disk path content (last :: up)).1 := by
  rw [writeLocked]
  split
  · exact .refl area disk
  split
  · exact .refl area disk
  rename_i opened made
  have opened := Tracked.makeDirs_within area made
  split
  · exact opened
  split
  · exact opened
  rename_i locked held
  have released := (opened.trans (Tracked.write_within lock held)).trans (Tracked.remove_within lock)
  split
  next after renamed => exact released.trans (Tracked.write_within file renamed)
  · exact released

theorem reflogAppend_within (covered : ∀ place, namePlace (logs :: dirs.base name) name = some place → place ∈ area)
    (old : Option Bytes) (new message : Bytes) :
    disk.Within area (reflogAppend ident dirs disk name old new message).1 := by
  fun_cases reflogAppend ident dirs disk name old new message with
  | case5 _ _ _ _ _ made | case7 _ _ _ _ _ made => exact Tracked.makeDirs_within area made
  | case6 _ place found _ _ made =>
    rename_i written
    exact (Tracked.makeDirs_within area made).trans (Tracked.write_within (covered place found) written)
  | _ => exact .refl area disk

theorem refUpdate_within (covered : Covered area dirs name) (new : Bytes) (old : Option Bytes) (message : Bytes) :
    disk.Within area (refUpdate ident dirs disk name new old message).1 := by
  unfold refUpdate
  split
  · exact .refl area disk
  rename_i good
  have good : nameOk name = true := by simpa using good
  split
  · exact .refl area disk
  split
  next current path place _ _ found =>
    have locked : disk.Within area (writeLocked disk path (new ++ [0x0a]) place).1 := by
      cases place with
      | nil => exact .refl area disk
      | cons last up =>
        obtain ⟨file, lock⟩ := covered.written good last up found
        exact writeLocked_within file lock path _
    split
    next after wrote =>
      rwa [wrote] at locked
    next after wrote =>
      rw [wrote] at locked
      split
      · exact locked
      · exact locked.trans (reflogAppend_within (covered.logged good) _ _ _)
  · exact .refl area disk

theorem unlinkFile_within (covered : ∀ place, leads disk.tree base text = .there place → place ∈ area) :
    disk.Within area (unlinkFile disk base text).1 := by
  unfold unlinkFile
  split
  next place led =>
    split
    · exact .refl area disk
    · exact Tracked.remove_within (covered place led)
  · exact .refl area disk
  · exact .refl area disk

theorem packedRefsRemove_within (disk : RefDisk) (name : Bytes) (file : packedRefs :: dirs.commonDir ∈ area)
    (lock : lockName packedRefs :: dirs.commonDir ∈ area) : disk.Within area (packedRefsRemove dirs disk name).1 := by
  fun_cases packedRefsRemove dirs disk name with
  | case3 => exact writeLocked_within file lock _ _
  | _ => exact .refl area disk

theorem refDelete_within (covered : Covered area dirs name) (old : Option Bytes) :
    disk.Within area (refDelete dirs disk name old).1 := by
  unfold refDelete
  split
  · have removed := unlinkFile_within (covered.file disk.tree)
    split
    next after gone =>
      rwa [gone] at removed
    rename_i after gone
    rw [gone] at removed
    have unpacked := removed.trans (packedRefsRemove_within after name covered.packed.1 covered.packed.2)
    split
    next last done =>
      rwa [done] at unpacked
    next last done =>
      rw [done] at unpacked
      split
      · exact unpacked.trans (unlinkFile_within (covered.log last.tree))
      · exact unpacked
  · exact .refl area disk

theorem writeLocked_touches {opened : RefDisk} {path : Bytes} (content : Bytes) (room : path.length + 5 < 4096)
    (made : disk.makeDirs up = some opened) (free : opened.tree.node (lockName last :: up) = none) :
    lockName last :: up ∈ (writeLocked disk path content (last :: up)).1.touched := by
  obtain ⟨tree, walked, rfl⟩ := map_eq_some_iff.1 made
  have dir := (openDir_eq_some walked).here
  have absent : tree.unlink (lockName last :: up) = none := unlink_eq_none.2 (by simp [leaf, free])
  obtain ⟨locked, wrote⟩ : ∃ locked, ({ disk with tree } : RefDisk).write (lockName last :: up) content =
      some locked := by
    have room : (tree.add (.leaf content) (lockName last :: up)).isSome := add_isSome dir free
    obtain ⟨after, added⟩ := isSome_iff_exists.1 room
    exact ⟨_, by rw [Tracked.write, absent, getD_none, added, map_some]⟩
  have held := Tracked.touched_of_write wrote
  have released : lockName last :: up ∈ (locked.remove (lockName last :: up)).touched :=
    (Tracked.remove_within (Set.mem_univ _)).grown _ held
  rw [writeLocked, if_neg (by omega), made]
  dsimp only
  rw [if_neg (by simp [free]), wrote]
  dsimp only
  split
  next after renamed => exact (Tracked.write_within (Set.mem_univ _) renamed).grown _ released
  · exact released

theorem refUpdate_touches {opened : RefDisk} {new : Bytes} {path : Bytes} {old current : Option Bytes}
    (message : Bytes) (good : nameOk name = true) (id : new.length = 40 ∧ allHex new = true)
    (checked : checkOld dirs disk name old = some current) (fits : refPath dirs name = some path)
    (room : path.length + 5 < 4096) (found : namePlace (dirs.base name) name = some (last :: up))
    (made : disk.makeDirs up = some opened) (free : opened.tree.node (lockName last :: up) = none) :
    lockName last :: up ∈ (refUpdate ident dirs disk name new old message).1.touched := by
  have locked := writeLocked_touches (new ++ [0x0a]) room made free
  unfold refUpdate
  rw [if_neg (by simp [good]), if_neg (by simp [id]), checked, fits, found]
  dsimp only
  split
  next after wrote =>
    rwa [wrote] at locked
  next after wrote =>
    rw [wrote] at locked
    split
    · exact locked
    · exact (reflogAppend_within (fun _ _ => Set.mem_univ _) _ _ _).grown _ locked
end

/-!
## Lock files in single steps

No one reads a lock file, so it is made with the content that is written to it.
-/

open Function Tracked

def lockPlace : Place → Place
  | [] => []
  | name :: up => lockName name :: up

/-- `bgit_lock_acquire` and the calls of `bgit_lock_write` -/
def takeLock (disk : RefDisk) (path content : Bytes) : Place → RefDisk × Bool
  | [] => (disk, false)
  | name :: up =>
    if 4096 ≤ path.length + 5 then (disk, false)
    else
      match disk.makeDirs up with
      | none => (disk, false)
      | some opened =>
        -- O_EXCL
        if (opened.tree.node (lockName name :: up)).isSome then (opened, false)
        else
          match opened.write (lockName name :: up) content with
          | none => (opened, false)
          | some locked => (locked, true)

def dropLock (disk : RefDisk) (place : Place) : RefDisk := disk.remove (lockPlace place)

/-- The `rename` of `bgit_lock_commit`. -/
def commitLock (disk : RefDisk) (place : Place) : RefDisk × Bool :=
  match disk.leaf (lockPlace place) with
  | none => (disk, false)
  | some content =>
    match (disk.remove (lockPlace place)).write place content with
    | some after => (after, true)
    | none => (dropLock disk place, false)

section
variable {disk after : RefDisk} {path content : Bytes} {place : Place} {ok : Bool}

theorem lockPlace_ne (some : place ≠ []) : lockPlace place ≠ place := by
  obtain ⟨last, up, rfl⟩ := List.exists_cons_of_ne_nil some
  intro same
  have bytes : last.bytes ++ ascii ".lock" = last.bytes := congrArg FileName.bytes (List.cons.inj same).1
  have length := congrArg List.length bytes
  rw [List.length_append, show (ascii ".lock").length = 5 from rfl] at length
  omega

theorem lockPlace_ne_packed (place base : Place) : lockPlace place ≠ packedRefs :: base := by
  cases place with
  | nil => exact (List.cons_ne_nil _ _).symm
  | cons last up =>
    intro same
    have bytes : last.bytes ++ ascii ".lock" = ascii "packed-refs" := congrArg FileName.bytes (List.cons.inj same).1
    have ends : ascii ".lock" <:+ ascii "packed-refs" := ⟨_, bytes⟩
    revert ends
    decide +kernel

@[simp] theorem length_lockPlace (place : Place) : (lockPlace place).length = place.length := by
  cases place <;> rfl

theorem takeLock_spec {ok : Bool} (ran : takeLock disk path content place = (after, ok)) :
    (ok = true → disk.leaf (lockPlace place) = none ∧
      after.leaf = update disk.leaf (lockPlace place) (some content)) ∧ (ok = false → after.leaf = disk.leaf) := by
  revert ran
  fun_cases takeLock disk path content place with
  | case4 _ _ _ _ made | case5 _ _ _ _ made =>
    rintro ⟨⟩
    exact ⟨nofun, fun _ => leaf_makeDirs made⟩
  | case6 last up _ opened made free _ wrote =>
    rintro ⟨⟩
    rw [← leaf_makeDirs made]
    have nothing : opened.tree.node (lockName last :: up) = none := by simpa using free
    exact ⟨fun _ => ⟨by simp [lockPlace, Tracked.leaf, FileTree.leaf, nothing], leaf_write wrote⟩, nofun⟩
  | _ =>
    rintro ⟨⟩
    exact ⟨nofun, fun _ => rfl⟩

theorem commitLock_spec {ok : Bool} (ran : commitLock disk place = (after, ok)) :
    (ok = true → ∃ content, disk.leaf (lockPlace place) = some content ∧
      after.leaf = update (update disk.leaf (lockPlace place) none) place (some content)) ∧
      (ok = false → ∀ q ≠ lockPlace place, after.leaf q = disk.leaf q) := by
  unfold commitLock at ran
  split at ran
  · cases ran
    exact ⟨by rintro ⟨⟩, fun _ _ _ => rfl⟩
  rename_i content held
  split at ran
  next renamed wrote =>
    cases ran
    exact ⟨fun _ => ⟨content, held, by rw [leaf_write wrote, leaf_remove]⟩, by rintro ⟨⟩⟩
  · cases ran
    refine ⟨by rintro ⟨⟩, fun _ q other => ?_⟩
    rw [dropLock, leaf_remove, update_of_ne other]

end

end BashOs.Git.Refs

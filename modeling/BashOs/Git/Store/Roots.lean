import BashOs.Git.Store.Links
import BashOs.Lib.Assoc
import BashOs.Lib.CString

/-!
Where a walk over the store starts: refs, HEAD, the index and the reflogs. A repository has one common git
directory and one more for each linked worktree; a command runs in one worktree.
-/

namespace BashOs.Git
open BashOs.Lib List

/-! ## Git directories -/

/-- The ids an index file names: its entries as the reader takes them, who may refuse the file, the sides of settled
conflicts it kept, and the trees it has worked out; and what its entries name whether the file is refused or not. -/
structure IndexIds where
  entries : Ids
  undo : Ids
  cacheTree : Ids
  named : Ids

/-- One git directory: its ref files by name (`HEAD` and what is under `refs/`), the files under `logs/`, and the
index. -/
structure GitDir where
  refs : List (Bytes × Bytes)
  logs : List (Bytes × Bytes)
  index : Option IndexIds

structure Repository where
  common : GitDir
  linked : List GitDir
  packedRefs : Bytes

/-- Where a command runs: the linked worktree's git directory, or none for the main worktree, and the index that
`GIT_INDEX_FILE` names in place of the worktree's own. -/
structure Context where
  linked : Option GitDir
  indexFile : Option (Option IndexIds)

def Context.gitDir (context : Context) (repo : Repository) : GitDir := context.linked.getD repo.common

/-! ## Reading refs -/

def cString (text : Bytes) : Bytes := text.takeWhile fun b => b ≠ 0

theorem cString_eq {text : Bytes} (clean : 0 ∉ text) : cString text = text := takeWhile_ne_of_not_mem clean

def stripLineEnd (line : Bytes) : Bytes :=
  (line.reverse.dropWhile fun b => b = 0x0a || b = 0x0d).reverse

/-- A text cut after each newline, as `fgets` reads it. -/
def fileLines : Bytes → List Bytes
  | [] => []
  | b :: rest =>
    if b = 0x0a then [b] :: fileLines rest
    else
      match fileLines rest with
      | [] => [[b]]
      | line :: lines => (b :: line) :: lines

/-- `bgit_first_line`, which has room for 4095 bytes of the line. -/
def firstLine (content : Bytes) : Option Bytes :=
  (fileLines content).head?.map fun line => stripLineEnd (cString (line.take 4095))

def perWorktree (name : Bytes) : Bool :=
  name ∈ [ascii "HEAD", ascii "ORIG_HEAD", ascii "FETCH_HEAD", ascii "MERGE_HEAD", ascii "CHERRY_PICK_HEAD",
    ascii "REVERT_HEAD", ascii "REBASE_HEAD", ascii "BISECT_HEAD", ascii "AUTO_MERGE"] ||
  (ascii "refs/bisect/").isPrefixOf name || (ascii "refs/worktree/").isPrefixOf name ||
  (ascii "refs/rewritten/").isPrefixOf name

/-- The lines of `packed-refs` that name a ref, as the text of the id and the name. -/
def packedRefLines (content : Bytes) : List (Bytes × Bytes) :=
  (fileLines content).filterMap fun line =>
    if line.head? = some 0x23 ∨ line.head? = some 0x5e then none
    else
      let text := stripLineEnd (cString line)
      if text.length < 42 ∨ text[40]? ≠ some 0x20 then none else some (text.drop 41, text.take 40)

section Refs
variable (repo : Repository) (context : Context)

/-- The first line of the file `bgit_ref_path` names. -/
def refLine (name : Bytes) : Option Bytes :=
  let dir := if perWorktree name then context.gitDir repo else repo.common
  (dir.refs.lookup name).bind firstLine

/-- `bgit_ref_read`, answering the text of the id. -/
def refRead (name : Bytes) : Option Bytes :=
  match refLine repo context name with
  | none => (packedRefLines repo.packedRefs).lookup name
  | some line =>
    if (ascii "ref:").isPrefixOf line then none
    else if line.length < 40 || !allHex line then none
    else some (line.take 40)

def isSpace (b : UInt8) : Bool := b = 0x20 || (0x09 ≤ b && b ≤ 0x0d)

/-- The loop of `bgit_ref_resolve`, with as many turns left. -/
def resolveFrom : Nat → Bytes → Option Bytes
  | 0, _ => none
  | left + 1, name =>
    match refLine repo context name with
    | some line =>
      if (ascii "ref:").isPrefixOf line then
        let target := (line.drop 4).dropWhile isSpace
        -- a symbolic ref that names nothing is an error
        if target = [] then none else resolveFrom left target
      else refRead repo context name
    | none => refRead repo context name

def symrefDepth : Nat := 8

/-- `bgit_ref_resolve` of `HEAD` -/
def resolveHead : Option Bytes := resolveFrom repo context symrefDepth (ascii "HEAD")

/-- What `bgit_refs_walk` finds under `refs/` of one directory. -/
def refsWalk (dir : GitDir) : List (Bytes × Bytes) :=
  dir.refs.filterMap fun file =>
    if (ascii "refs/").isPrefixOf file.1 then
      (firstLine file.2).bind fun line =>
        if 40 ≤ line.length && allHex line then some (file.1, line.take 40)
        else if (ascii "ref: ").isPrefixOf line then
          (refRead repo context (line.drop 5)).map fun sha => (file.1, sha)
        else none
    else none

/-- `bgit_refs_list` of everything: of two refs with one name the one found first is listed. -/
def refsList : List (Bytes × Bytes) :=
  let found := refsWalk repo context repo.common ++
    (match context.linked with
      | some dir => refsWalk repo context dir
      | none => []) ++
    packedRefLines repo.packedRefs
  found.foldl (fun refs ref => if ref.1 ∈ refs.map Prod.fst then refs else refs ++ [ref]) []

/-! ## Heads -/

def zeroId : ObjectId := .filled 0

section
variable (reads : Bytes → Option ObjectId)

def reflogIds (content : Bytes) : Ids :=
  (fileLines content).flatMap fun line =>
    let line := cString line
    let old := line.take 40
    let new := (line.drop 41).take 40
    if line.length < 82 || !allHex old || !allHex new then []
    else ([old, new].filterMap reads).filter fun id => id ≠ zeroId

def logIds (dir : GitDir) : Ids := dir.logs.flatMap fun file => reflogIds reads file.2

end

/-- `git_fsck_heads` with the reflogs: what the walk of prune, and with `withUndo` that of repack, starts from. -/
def fsckHeads (withUndo : Bool) : Ids :=
  let index := match context.indexFile with
    | some named => named
    | none => (context.gitDir repo).index
  let indexed := match index with
    | some ids => ids.entries ++ (if withUndo then ids.undo else []) ++ ids.cacheTree
    | none => []
  (refsList repo context).filterMap (fun ref => idOfHex ref.2) ++ (resolveHead repo context).toList.filterMap idOfHex ++
    indexed ++ logIds idOfHex repo.common

end Refs

/-! ## Roots -/

def Repository.worktrees (repo : Repository) : List Context :=
  ⟨none, none⟩ :: repo.linked.map fun dir => ⟨some dir, none⟩

/-- What a repository holds on to: in any of its worktrees, the refs seen there, HEAD, what the entries of the index
name, and the reflogs, with ids in either case. -/
def Repository.roots (repo : Repository) : Ids :=
  repo.worktrees.flatMap fun worktree =>
    (refsList repo worktree).filterMap (fun ref => hexToSha ref.2) ++
      (resolveHead repo worktree).toList.filterMap hexToSha ++
      (match (worktree.gitDir repo).index with
        | some ids => ids.entries ++ ids.named
        | none => []) ++
      logIds hexToSha repo.common ++ logIds hexToSha (worktree.gitDir repo)

end BashOs.Git

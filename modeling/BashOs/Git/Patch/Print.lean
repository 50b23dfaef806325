import BashOs.Git.Diff.Xdiff
import BashOs.Git.Store.Links
import BashOs.Lib.Decimal

/-!
A patch as it is printed: `bgit_patch_single` for one path, by lines and with no prefix in front of them. The two
texts are those `bgit_patch_content` has loaded.
-/

namespace BashOs.Git.Patch
open BashOs.Lib BashOs.Git.Diff

/-! ## Names -/

/-- `bgit_quote_needed`; `fully` is `bgit_quote_path_fully`. -/
def quoteNeeded (fully spaces : Bool) (path : Bytes) : Bool :=
  path.any fun c => c < 0x20 || c = 0x7f || c = 0x22 || c = 0x5c || (0x80 ≤ c && fully) || (c = 0x20 && spaces)

def quoteByte (fully : Bool) (c : UInt8) : Bytes :=
  if c = 0x22 then [0x5c, 0x22]
  else if c = 0x5c then [0x5c, 0x5c]
  else if c = 0x07 then ascii "\\a"
  else if c = 0x08 then ascii "\\b"
  else if c = 0x0c then ascii "\\f"
  else if c = 0x0a then ascii "\\n"
  else if c = 0x0d then ascii "\\r"
  else if c = 0x09 then ascii "\\t"
  else if c = 0x0b then ascii "\\v"
  else if c < 0x20 ∨ c = 0x7f ∨ (0x80 ≤ c ∧ fully) then [0x5c, 0x30 + c / 64, 0x30 + c / 8 % 8, 0x30 + c % 8]
  else [c]

/-- `bgit_quote_body`, which stops where the buffer is full -/
def quoteBody (fully : Bool) (size : Nat) : Bytes → Bytes → Bytes
  | [], buf => buf
  | c :: path, buf => if buf.length + 5 < size then quoteBody fully size path (buf ++ quoteByte fully c) else buf

def quoted (fully : Bool) (size : Nat) (parts : List Bytes) : Bytes :=
  let buf := if 1 < size then [0x22] else []
  let buf := parts.foldl (fun buf part => quoteBody fully size part buf) buf
  if buf.length + 2 < size then buf ++ [0x22] else buf

def quotePath (fully : Bool) (size : Nat) (path : Bytes) : Bytes :=
  if !quoteNeeded fully false path then path else quoted fully size [path]

def quoteTwo (fully : Bool) (size : Nat) (first second : Bytes) : Bytes :=
  if !quoteNeeded fully false first && !quoteNeeded fully false second then (first ++ second).take (size - 1)
  else quoted fully size [first, second]

/-- `bgit_shown_path`, below `bgit_relative_to` -/
def shownPath (relative path : Bytes) : Bytes :=
  if relative ≠ [] ∧ relative.isPrefixOf path then path.drop relative.length else path

/-! ## What is printed -/

inductive PathStatus where
  | added
  | deleted
  | modified
  | renamed
deriving DecidableEq, Repr

/-- `bgit_diff_entry`. An id is spelled in digits, or empty. -/
structure DiffEntry where
  path : Bytes
  status : PathStatus
  oldMode : Nat
  newMode : Nat
  oldSha : Bytes
  newSha : Bytes
  renamedFrom : Option Bytes
  score : Nat
  spelled : ∀ b ∈ oldSha ++ newSha, (hexValue b).isSome

inductive DiffAlgorithm where
  | standard
  | minimal
  | patience
  | histogram
deriving DecidableEq, Repr

/-- `bgit_patch_options` without its word diff and line prefix, and the two settings that names are shown by. -/
structure PatchOptions where
  context : Int
  interContext : Int
  abbrevLength : Nat
  prefixOld : Bytes
  prefixNew : Bytes
  ignoreWs : Bool
  ignoreWsChange : Bool
  ignoreWsAtEol : Bool
  ignoreCrAtEol : Bool
  functionContext : Bool
  ignoreBlankLines : Bool
  algorithm : DiffAlgorithm
  quoteFully : Bool
  relativeTo : Bytes

def PatchOptions.flags (options : PatchOptions) : Flags where
  indentHeuristic := true
  trimTail := !options.functionContext && options.context = 0
  ignoreWs := options.ignoreWs
  ignoreWsChange := options.ignoreWsChange
  ignoreWsAtEol := options.ignoreWsAtEol
  ignoreCrAtEol := options.ignoreCrAtEol
  functionContext := options.functionContext
  ignoreBlankLines := options.ignoreBlankLines
  minimal := options.algorithm = .minimal
  patience := options.algorithm = .patience
  histogram := options.algorithm = .histogram

/-- `%06o` -/
def octalMode (mode : Nat) : Bytes :=
  let digits := (Nat.toDigits 8 mode).map fun c => UInt8.ofNat c.toNat
  List.replicate (6 - digits.length) 0x30 ++ digits

def DiffEntry.identical (entry : DiffEntry) : Bool :=
  (entry.status = .modified || entry.status = .renamed) && entry.oldSha = entry.newSha

def DiffEntry.mustShow (entry : DiffEntry) : Bool := entry.status ≠ .modified || entry.oldMode ≠ entry.newMode

section
variable (options : PatchOptions) (entry : DiffEntry)

def oldSide : Bytes :=
  quoteTwo options.quoteFully 8320 options.prefixOld (shownPath options.relativeTo (entry.renamedFrom.getD entry.path))

def newSide : Bytes := quoteTwo options.quoteFully 8320 options.prefixNew (shownPath options.relativeTo entry.path)

/-- `bgit_patch_header`, line by line -/
def patchHeader : List Bytes :=
  let name := quotePath options.quoteFully 8192 (shownPath options.relativeTo entry.path)
  let origin := (entry.renamedFrom.map fun path => quotePath options.quoteFully 8192
    (shownPath options.relativeTo path)).getD name
  let zeros : Bytes := List.replicate options.abbrevLength 0x30
  let oldId := if entry.status = .added then zeros else entry.oldSha.take options.abbrevLength
  let newId := if entry.status = .deleted then zeros else entry.newSha.take options.abbrevLength
  [ascii "diff --git " ++ oldSide options entry ++ 0x20 :: newSide options entry] ++
  (if entry.status = .renamed then
    [ascii "similarity index " ++ decimalText (entry.score * 100 / 60000) ++ [0x25], ascii "rename from " ++ origin,
      ascii "rename to " ++ name]
  else []) ++
  (if entry.status = .added then [ascii "new file mode " ++ octalMode entry.newMode]
  else if entry.status = .deleted then [ascii "deleted file mode " ++ octalMode entry.oldMode]
  else if entry.oldMode ≠ entry.newMode then [ascii "old mode " ++ octalMode entry.oldMode,
    ascii "new mode " ++ octalMode entry.newMode]
  else []) ++
  if entry.identical then []
  else
    [ascii "index " ++ oldId ++ ascii ".." ++ newId ++
      if (entry.status = .modified ∨ entry.status = .renamed) ∧ entry.oldMode = entry.newMode then 0x20 ::
        octalMode entry.newMode
      else []]

def patchSides : List Bytes :=
  let tab (name : Bytes) : Bytes := if 0x20 ∈ name then [0x09] else []
  [if entry.status = .added then ascii "--- /dev/null" else ascii "--- " ++ oldSide options entry ++
    tab (oldSide options entry),
    if entry.status = .deleted then ascii "+++ /dev/null" else ascii "+++ " ++ newSide options entry ++
      tab (newSide options entry)]

def binaryLine : Bytes :=
  let name := quotePath options.quoteFully 8192 entry.path
  ascii "Binary files " ++ (if entry.status = .added then ascii "/dev/null" else options.prefixOld ++ name) ++
    ascii " and " ++
    (if entry.status = .deleted then ascii "/dev/null" else options.prefixNew ++ name) ++ ascii " differ"

end

def patchRange (start count : Nat) : Bytes :=
  if count = 1 then decimalText (start + 1)
  else decimalText (if count ≠ 0 then start + 1 else start) ++ 0x2c :: decimalText count

def noNewline : Bytes := ascii "\\ No newline at end of file"

def patchLine (sign : UInt8) (file : XdiffFile) (index : Nat) : List Bytes :=
  (sign :: file.line index) :: if file.missingNewline ∧ index + 1 = file.lines.length then [noNewline] else []

section
variable (isspace isalpha : CharClass) (old new : XdiffFile)

def xdiffFunction (file : XdiffFile) (start limit : Int) : Option (Int × Bytes) :=
  let lines := ((List.range (start - limit).toNat).map fun (k : Nat) => start - (k : Int)).takeWhile
    fun (l : Int) => 0 ≤ l ∧ l < (file.lines.length : Int)
  (lines.find? (isFuncRec isalpha file)).map fun l => (l, ((file.line l.toNat).take 80).rdropWhile isspace)

def hunkLine (hunk : Hunk) : Bytes :=
  ascii "@@ -" ++ patchRange hunk.oldStart hunk.oldCount ++ ascii " +" ++
    patchRange hunk.newStart hunk.newCount ++ ascii " @@" ++
    match xdiffFunction isspace isalpha old (hunk.oldStart - 1) (-1) with
    | some (_, text) => if text ≠ [] then 0x20 :: text else []
    | none => []

def bodyFrom (marks : Marks) (endOld endNew : Nat) : Nat → Nat → Nat → List Bytes
  | 0, _, _ => []
  | turns + 1, i, j =>
    if i < endOld ∨ j < endNew then
      if i < endOld ∧ marks.old i ∨ j < endNew ∧ marks.new j then
        let i' := i + scan (fun k => marks.old (i + k)) (endOld - i)
        let j' := j + scan (fun k => marks.new (j + k)) (endNew - j)
        (upTo i i').flatMap (patchLine 0x2d old) ++ (upTo j j').flatMap (patchLine 0x2b new) ++
          bodyFrom marks endOld endNew turns i' j'
      -- the new side's copy: with whitespace overlooked the two can differ
      else patchLine 0x20 new j ++ bodyFrom marks endOld endNew turns (i + 1) (j + 1)
    else []

-- every turn gets past a line, so there are no more turns than lines
def hunkBody (marks : Marks) (hunk : Hunk) : List Bytes :=
  bodyFrom old new marks (hunk.oldStart + hunk.oldCount) (hunk.newStart + hunk.newCount) (hunk.oldCount + hunk.newCount)
    hunk.oldStart hunk.newStart

variable (options : PatchOptions) (entry : DiffEntry)

def patchLines (old new : XdiffFile) : Option (List Bytes) :=
  let header := patchHeader options entry
  -- a header that need not be shown waits for a line to go under it
  let held := if entry.mustShow then [] else header
  let shown := if entry.mustShow then header else []
  if entry.identical then some shown
  else if old.binary || new.binary then some (shown ++ held ++ [binaryLine options entry])
  else
    match xdiffFull isspace isalpha options.flags old new options.context options.interContext with
    | none => none
    | some result =>
      some (shown ++ (if result.hunks ≠ [] then held ++ patchSides options entry else []) ++
        result.hunks.flatMap fun hunk => hunkLine isspace isalpha old hunk :: hunkBody old new result.marks hunk)

end

def patchSingle (isspace isalpha : CharClass) (options : PatchOptions) (entry : DiffEntry)
    (oldText newText : Bytes) : Option Bytes :=
  (patchLines isspace isalpha options entry (load oldText) (load newText)).map fun lines =>
    lines.flatMap (· ++ [newline])

end BashOs.Git.Patch

import Mathlib.Data.List.ModifyLast
import BashOs.Git.Diff.Windows
import BashOs.Git.Patch.Print
import BashOs.Git.Store.Roots

/-!
A patch as it is read: `git_apply_parse` takes a text line by line, tells headers from hunks by how a line starts,
and gives a hunk lines for as long as its header says there are some. The lines of a printed hunk that is in step
are as many of each side as its header says, and none of them holds a newline, so a reader takes them apart as they
were put together.
-/

namespace BashOs.Git.Patch
open BashOs.Lib BashOs.Git.Diff List

/-- `struct git_apply_hunk` -/
structure ApplyHunk where
  oldStart : Int
  oldCount : Int
  newStart : Int
  newCount : Int
  lines : List Bytes
deriving DecidableEq, Repr

/-- `struct git_apply_file` -/
structure ApplyFile where
  oldPath : Option Bytes := none
  newPath : Option Bytes := none
  isNew : Bool := false
  isDelete : Bool := false
  isRename : Bool := false
  isBinary : Bool := false
  oldMode : Nat := 0
  newMode : Nat := 0
  hunks : List ApplyHunk := []
  added : Nat := 0
  removed : Nat := 0
deriving DecidableEq, Repr

def applyStrip (path : Bytes) (strip : Int) : Option Bytes :=
  if path = ascii "/dev/null" then none
  else some ((fun path => if 0x2f ∈ path then (path.dropWhile (· ≠ 0x2f)).drop 1 else path)^[strip.toNat] path)

/-- The files read so far, the one that is being read, whether it has a hunk that goes on, and how many lines of
each side that hunk still expects. -/
structure ApplyState where
  files : List ApplyFile
  file : Option ApplyFile
  inHunk : Bool
  oldLeft : Int
  newLeft : Int
deriving DecidableEq, Repr

def readRange (p : Bytes) : Int × Int × Bytes :=
  let (start, p) := strtol p
  match p with
  | 0x2c :: more => let (count, p) := strtol more; (start, count, p)
  | _ => (start, 1, p)

def skipByte (b : UInt8) (p : Bytes) : Bytes := if p.head? = some b then p.drop 1 else p

def readHunk (p : Bytes) : ApplyHunk :=
  let (oldStart, oldCount, p) := readRange (skipByte 0x2d p)
  let (newStart, newCount, _) := readRange (skipByte 0x2b (p.dropWhile (· = 0x20)))
  { oldStart, oldCount, newStart, newCount, lines := [] }

def addLine (line : Bytes) (file : ApplyFile) : ApplyFile :=
  { file with
    hunks := file.hunks.modifyLast fun hunk => { hunk with lines := hunk.lines ++ [line] }
    added := file.added + if line.head? = some 0x2b then 1 else 0
    removed := file.removed + if line.head? = some 0x2d then 1 else 0 }

def applyBody (held : Bytes) (file : ApplyFile) (state : ApplyState) : ApplyState :=
  if !state.inHunk then state
  else
    let first := held.headD 0
    if first ≠ 0x20 ∧ first ≠ 0x2b ∧ first ≠ 0x2d ∧ first ≠ 0x5c ∧ first ≠ 0 then state
    else if first ≠ 0x5c ∧ state.oldLeft ≤ 0 ∧ state.newLeft ≤ 0 then { state with inHunk := false }
    else
      { state with
        oldLeft := if first = 0x20 ∨ first = 0x2d ∨ first = 0 then state.oldLeft - 1 else state.oldLeft
        newLeft := if first = 0x20 ∨ first = 0x2b ∨ first = 0 then state.newLeft - 1 else state.newLeft
        file := some (addLine (if first ≠ 0 then held else [0x20]) file) }

def applyLine (strip : Int) (state : ApplyState) (line : Bytes) : ApplyState :=
  let held := cString line
  if (ascii "diff --git ").isPrefixOf held then
    { state with files := state.files ++ state.file.toList, file := some {}, inHunk := false }
  else
    match state.file with
    | none => state
    | some file =>
      let mode (n : Nat) : Nat := octalValue (held.drop n) % 2 ^ 32
      let less := if strip > 0 then strip - 1 else 0
      if (ascii "new file mode ").isPrefixOf held then { state with file := some { file with isNew := true, newMode := mode 14 } }
      else if (ascii "deleted file mode ").isPrefixOf held then
        { state with file := some { file with isDelete := true, oldMode := mode 18 } }
      else if (ascii "old mode ").isPrefixOf held then { state with file := some { file with oldMode := mode 9 } }
      else if (ascii "new mode ").isPrefixOf held then { state with file := some { file with newMode := mode 9 } }
      -- these two names are written without the part that `-p` counts first
      else if (ascii "rename from ").isPrefixOf held then
        { state with file := some { file with isRename := true, oldPath := applyStrip (held.drop 12) less } }
      else if (ascii "rename to ").isPrefixOf held then
        { state with file := some { file with isRename := true, newPath := applyStrip (held.drop 10) less } }
      else if (ascii "GIT binary patch").isPrefixOf held then { state with file := some { file with isBinary := true } }
      else if (ascii "--- ").isPrefixOf held then
        let path := applyStrip (held.drop 4) strip
        { state with file := some { file with oldPath := path, isNew := file.isNew || path.isNone } }
      else if (ascii "+++ ").isPrefixOf held then
        let path := applyStrip (held.drop 4) strip
        { state with file := some { file with newPath := path, isDelete := file.isDelete || path.isNone } }
      else if (ascii "@@ ").isPrefixOf held then
        let hunk := readHunk (held.drop 3)
        { state with file := some { file with hunks := file.hunks ++ [hunk] }, inHunk := true, oldLeft := hunk.oldCount,
                     newLeft := hunk.newCount }
      else applyBody held file state

def applyParse (strip : Int) (text : Bytes) : List ApplyFile :=
  let state := (linesFrom [] text).foldl (applyLine strip)
    { files := [], file := none, inHunk := false, oldLeft := 0, newLeft := 0 }
  state.files ++ state.file.toList

/-! ## The lines of a printed hunk -/

def onOld (line : Bytes) : Bool := line.head? = some 0x20 || line.head? = some 0x2d

def onNew (line : Bytes) : Bool := line.head? = some 0x20 || line.head? = some 0x2b

section
variable {old new file : XdiffFile} {marks : Marks} {endOld endNew turns i j k : Nat} {line : Bytes}
  {sign : UInt8} {test : Bytes → Bool}

theorem mem_patchLine (member : line ∈ patchLine sign file k) : line = noNewline ∨ line = sign :: file.line k := by
  obtain same | later := mem_cons.1 member
  · exact .inr same
  · split at later
    · exact .inl (mem_singleton.1 later)
    · cases later

theorem countP_patchLine (remark : test noNewline = false) (sign : UInt8) (file : XdiffFile) (k : Nat) :
    (patchLine sign file k).countP test = if test (sign :: file.line k) then 1 else 0 := by
  rw [patchLine, countP_cons]
  split
  · simp [remark]
  · simp

theorem countP_patchLines {answer : Bool} (remark : test noNewline = false)
    (same : ∀ line, test (sign :: line) = answer) (file : XdiffFile) (ks : List Nat) :
    (ks.flatMap (patchLine sign file)).countP test = if answer then ks.length else 0 := by
  rw [countP_flatMap]
  have one : countP test ∘ patchLine sign file = fun _ => if answer then 1 else 0 := by
    funext k
    rw [Function.comp_apply, countP_patchLine remark, same]
  rw [one]
  cases answer <;> simp

theorem remark_onOld : onOld noNewline = false := by decide +kernel

theorem remark_onNew : onNew noNewline = false := by decide +kernel

theorem length_upTo (first last : Nat) : (upTo first last).length = last - first := by simp [upTo]

theorem countP_bodyFrom (low : i ≤ endOld) (low' : j ≤ endNew) (enough : (endOld - i) + (endNew - j) ≤ turns)
    (even : (inPlace marks.old i endOld).length = (inPlace marks.new j endNew).length) :
    (bodyFrom old new marks endOld endNew turns i j).countP onOld = endOld - i ∧
      (bodyFrom old new marks endOld endNew turns i j).countP onNew = endNew - j := by
  induction turns generalizing i j with
  | zero =>
    rw [bodyFrom]
    exact ⟨by rw [countP_nil]; omega, by rw [countP_nil]; omega⟩
  | succ turns ih =>
    rw [bodyFrom]
    by_cases more : i < endOld ∨ j < endNew
    · rw [if_pos more]
      split
      next changed =>
        have run := runOf marks.old i endOld
        have run' := runOf marks.new j endNew
        generalize scan (fun k => marks.old (i + k)) (endOld - i) = count at *
        generalize scan (fun k => marks.new (j + k)) (endNew - j) = count' at *
        have within := run.short
        have within' := run'.short
        have progress : 0 < count ∨ 0 < count' := changed.imp run.some run'.some
        -- the lines of a run are not in place, so what follows it is in step as well
        rw [inPlace_append (Nat.le_add_right i count) (by omega), inPlace_append (Nat.le_add_right j count') (by omega),
          inPlace_marked run.marked, inPlace_marked run'.marked] at even
        obtain ⟨onOldRest, onNewRest⟩ := @ih (i + count) (j + count') (by omega) (by omega) (by omega) even
        constructor
        · rw [countP_append, countP_append, onOldRest, countP_patchLines remark_onOld (fun _ => rfl : ∀ line, _ = true),
            countP_patchLines remark_onOld (fun _ => rfl : ∀ line, _ = false), if_pos rfl,
              if_neg Bool.false_ne_true, length_upTo]
          omega
        · rw [countP_append, countP_append, countP_patchLines remark_onNew (fun _ => rfl : ∀ line, _ = false),
            countP_patchLines remark_onNew (fun _ => rfl : ∀ line, _ = true), if_pos rfl,
              if_neg Bool.false_ne_true, length_upTo]
          omega
      rename_i calm
      obtain ⟨both, stays, stays'⟩ := both_inside even more calm
      rw [inPlace, inPlace, kept_upTo_unmarked both.1 stays, kept_upTo_unmarked both.2 stays', length_cons, length_cons,
        Nat.add_right_cancel_iff] at even
      obtain ⟨onOldRest, onNewRest⟩ := @ih (i + 1) (j + 1) both.1 both.2 (by omega) even
      have shared : onOld (0x20 :: new.line j) = true := rfl
      have shared' : onNew (0x20 :: new.line j) = true := rfl
      constructor
      · rw [countP_append, countP_patchLine remark_onOld, if_pos shared]
        omega
      · rw [countP_append, countP_patchLine remark_onNew, if_pos shared']
        omega
    · rw [if_neg more]
      exact ⟨by rw [countP_nil]; omega, by rw [countP_nil]; omega⟩

theorem mem_bodyFrom (member : line ∈ bodyFrom old new marks endOld endNew turns i j) :
    line = noNewline ∨ (∃ k, k < endOld ∧ marks.old k = true ∧ line = 0x2d :: old.line k) ∨
      (∃ k, k < endNew ∧ marks.new k = true ∧ line = 0x2b :: new.line k) ∨ ∃ k, line = 0x20 :: new.line k := by
  induction turns generalizing i j with
  | zero => cases member
  | succ turns ih =>
    rw [bodyFrom] at member
    split at member
    · split at member
      · have run := runOf marks.old i endOld
        have run' := runOf marks.new j endNew
        have within := run.short
        have within' := run'.short
        rw [mem_append, mem_append, mem_flatMap, mem_flatMap] at member
        obtain (⟨k, inRun, here⟩ | ⟨k, inRun, here⟩) | later := member
        · obtain ⟨low, high⟩ := mem_upTo.1 inRun
          refine (mem_patchLine here).imp_right fun same => .inl ⟨k, by omega, run.marked k low high, same⟩
        · obtain ⟨low, high⟩ := mem_upTo.1 inRun
          refine (mem_patchLine here).imp_right fun same => .inr (.inl ⟨k, by omega, run'.marked k low high, same⟩)
        · exact ih later
      · obtain here | later := mem_append.1 member
        · exact (mem_patchLine here).imp_right fun same => .inr (.inr ⟨j, same⟩)
        · exact ih later
    · cases member

theorem marked_mem_bodyFrom (enough : (endOld - i) + (endNew - j) ≤ turns) :
    (∀ k, i ≤ k → k < endOld → marks.old k = true → 0x2d ::
      old.line k ∈ bodyFrom old new marks endOld endNew turns i j) ∧
      ∀ k, j ≤ k → k < endNew → marks.new k = true → 0x2b ::
        new.line k ∈ bodyFrom old new marks endOld endNew turns i j := by
  induction turns generalizing i j with
  | zero => exact ⟨fun k low high => by omega, fun k low high => by omega⟩
  | succ turns ih =>
    rw [bodyFrom]
    by_cases more : i < endOld ∨ j < endNew
    · rw [if_pos more]
      split
      next changed =>
        have run := runOf marks.old i endOld
        have run' := runOf marks.new j endNew
        generalize scan (fun k => marks.old (i + k)) (endOld - i) = count at *
        generalize scan (fun k => marks.new (j + k)) (endNew - j) = count' at *
        have within := run.short
        have within' := run'.short
        have progress : 0 < count ∨ 0 < count' := changed.imp run.some run'.some
        obtain ⟨ihOld, ihNew⟩ := @ih (i + count) (j + count') (by omega)
        refine ⟨fun k low high marked => ?_, fun k low high marked => ?_⟩
        · by_cases here : k < i + count
          · exact mem_append_left _ (mem_append_left _ (mem_flatMap.2 ⟨k, mem_upTo.2 ⟨low, here⟩, .head _⟩))
          · exact mem_append_right _ (ihOld k (by omega) high marked)
        · by_cases here : k < j + count'
          · exact mem_append_left _ (mem_append_right _ (mem_flatMap.2 ⟨k, mem_upTo.2 ⟨low, here⟩, .head _⟩))
          · exact mem_append_right _ (ihNew k (by omega) high marked)
      next calm =>
        rw [not_or] at calm
        obtain ⟨ihOld, ihNew⟩ := @ih (i + 1) (j + 1) (by omega)
        refine ⟨fun k low high marked => ?_, fun k low high marked => ?_⟩
        · have other : k ≠ i := by
            rintro rfl
            exact calm.1 ⟨high, marked⟩
          exact mem_append_right _ (ihOld k (by omega) high marked)
        · have other : k ≠ j := by
            rintro rfl
            exact calm.2 ⟨high, marked⟩
          exact mem_append_right _ (ihNew k (by omega) high marked)
    · exact ⟨fun k low high => by omega, fun k low high => by omega⟩

theorem countP_hunkBody {hunk : Hunk} (inStep : hunk.InStep old new marks) :
    (hunkBody old new marks hunk).countP onOld = hunk.oldCount ∧
      (hunkBody old new marks hunk).countP onNew = hunk.newCount := by
  have counts := @countP_bodyFrom old new marks (hunk.oldStart + hunk.oldCount) (hunk.newStart + hunk.newCount)
    (hunk.oldCount + hunk.newCount) hunk.oldStart hunk.newStart (Nat.le_add_right _ _) (Nat.le_add_right _ _)
      (by omega) inStep.even
  rwa [Nat.add_sub_cancel_left, Nat.add_sub_cancel_left] at counts

end

/-! ## Names and numbers -/

section
variable {fully : Bool} {size : Nat} {path first second : Bytes} {b : UInt8} (control : b < 0x20)
include control

theorem control_not_mem_of_plain (plain : quoteNeeded fully false path = false) : b ∉ path := by
  intro member
  have fine := any_eq_false.1 plain b member
  exact fine (by simp [control])

theorem control_not_mem_quoteByte (fully : Bool) (c : UInt8) : b ∉ quoteByte fully c := by
  have all : ([false, true].all fun fully => (range 256).all fun n =>
      (quoteByte fully (UInt8.ofNat n)).all fun b => Nat.ble 0x20 b.toNat) = true := by decide +kernel
  simp only [all_eq_true, mem_range] at all
  intro member
  have large := all fully (by cases fully <;> simp) c.toNat c.toNat_lt b (by rwa [UInt8.ofNat_toNat])
  exact not_le.2 (UInt8.lt_iff_toNat_lt.1 control) (Nat.le_of_ble_eq_true large)

theorem control_not_mem_quoteBody {buf : Bytes} (clean : b ∉ buf) : b ∉ quoteBody fully size path buf := by
  induction path generalizing buf with
  | nil => exact clean
  | cons c path ih =>
    rw [quoteBody]
    split
    · refine ih ?_
      rw [mem_append, not_or]
      exact ⟨clean, control_not_mem_quoteByte control fully c⟩
    · exact clean

theorem control_not_mem_quoted (parts : List Bytes) : b ∉ quoted fully size parts := by
  have mark : b ∉ ([0x22] : Bytes) := by
    rw [mem_singleton]
    rintro rfl
    exact absurd control (by decide)
  have start : b ∉ (if 1 < size then [0x22] else [] : Bytes) := by
    split
    · exact mark
    · exact not_mem_nil
  have body : b ∉ parts.foldl (fun buf part => quoteBody fully size part buf) (if 1 < size then [0x22] else []) :=
    foldl_invariant (fun _ buf => b ∉ buf) start fun _ _ _ _ _ clean => control_not_mem_quoteBody control clean
  unfold quoted
  dsimp only
  generalize parts.foldl (fun buf part => quoteBody fully size part buf) (if 1 < size then [0x22] else []) = buf at body
  split
  · rw [mem_append, not_or]
    exact ⟨body, mark⟩
  · exact body

theorem control_not_mem_quotePath (fully : Bool) (size : Nat) (path : Bytes) : b ∉ quotePath fully size path := by
  unfold quotePath
  split
  next plain => exact control_not_mem_of_plain control (by simpa using plain)
  · exact control_not_mem_quoted control _

theorem control_not_mem_quoteTwo (fully : Bool) (size : Nat) (first second : Bytes) :
    b ∉ quoteTwo fully size first second := by
  unfold quoteTwo
  split
  next plain =>
    rw [Bool.and_eq_true_iff, Bool.not_eq_true', Bool.not_eq_true'] at plain
    intro member
    obtain here | here := mem_append.1 (mem_of_mem_take member)
    · exact control_not_mem_of_plain control plain.1 here
    · exact control_not_mem_of_plain control plain.2 here
  · exact control_not_mem_quoted control _

end

theorem newline_not_mem_decimalText (n : Nat) : newline ∉ decimalText n := fun member =>
  absurd (isDigit_of_mem_decimalText n newline member) (by decide)

theorem newline_not_mem_octalMode (mode : Nat) : newline ∉ octalMode mode := by
  have digits : newline ∉ (Nat.toDigits 8 mode).map fun c => UInt8.ofNat c.toNat := by
    intro member
    obtain ⟨c, digit, same⟩ := mem_map.1 member
    obtain ⟨low, high⟩ := Char.isDigit_iff_toNat.1 (Nat.isDigit_of_mem_toDigits (by decide) (by decide) digit)
    have value := congrArg UInt8.toNat same
    rw [UInt8.toNat_ofNat', show newline.toNat = 10 from rfl] at value
    rw [show '0'.toNat = 48 from rfl] at low
    rw [show '9'.toNat = 57 from rfl] at high
    omega
  unfold octalMode
  rw [mem_append, not_or]
  exact ⟨fun member => absurd (eq_of_mem_replicate member) (by decide), digits⟩

/-! ## Headers -/

def headerWords : List Bytes :=
  [ascii "similarity index ", ascii "rename from ", ascii "rename to ", ascii "new file mode ",
    ascii "deleted file mode ",
    ascii "old mode ", ascii "new mode ", ascii "index ", ascii "--- ", ascii "+++ "]

def HeaderLine (line : Bytes) : Prop := newline ∉ line ∧ ∃ word ∈ headerWords, ∃ more, line = word ++ more

theorem headerLine {word more : Bytes} (known : word ∈ headerWords) (clean : newline ∉ more) :
    HeaderLine (word ++ more) := by
  have words : ∀ word ∈ headerWords, newline ∉ word := by decide +kernel
  refine ⟨?_, word, known, more, rfl⟩
  rw [mem_append, not_or]
  exact ⟨words word known, clean⟩

section
variable (options : PatchOptions) (entry : DiffEntry)

theorem newline_not_mem_oldSide : newline ∉ oldSide options entry := control_not_mem_quoteTwo (by decide) _ _ _ _

theorem newline_not_mem_newSide : newline ∉ newSide options entry := control_not_mem_quoteTwo (by decide) _ _ _ _

theorem newline_not_mem_append {a b : Bytes} (clean : newline ∉ a) (clean' : newline ∉ b) : newline ∉ a ++ b := by
  rw [mem_append, not_or]
  exact ⟨clean, clean'⟩

theorem patchHeader_eq : ∃ names rest, patchHeader options entry = (ascii "diff --git " ++ names) :: rest ∧
    newline ∉ names ∧
    ∀ line ∈ rest, HeaderLine line := by
  refine ⟨_, _, by simp only [patchHeader, append_assoc, cons_append, nil_append]; rfl, ?_, ?_⟩
  · refine newline_not_mem_append (newline_not_mem_oldSide options entry) ?_
    rw [mem_cons, not_or]
    exact ⟨by decide, newline_not_mem_newSide options entry⟩
  · have path := fun path => @control_not_mem_quotePath newline (by decide) options.quoteFully 8192
      (shownPath options.relativeTo path)
    have ids : ∀ (status : PathStatus) (sha : Bytes), (∀ b ∈ sha, (hexValue b).isSome) →
        newline ∉ (if entry.status = status then replicate options.abbrevLength 0x30 else sha.take
          options.abbrevLength : Bytes) := by
      intro status sha spelled
      split
      · exact fun member => absurd (eq_of_mem_replicate member) (by decide)
      · exact fun member => absurd (spelled newline (mem_of_mem_take member)) (by decide)
    have spelled := entry.spelled
    have mode := newline_not_mem_octalMode
    rw [forall_mem_append, forall_mem_append]
    refine ⟨?_, ?_, ?_⟩
    · split
      · rw [forall_mem_cons, forall_mem_cons, forall_mem_singleton]
        refine ⟨?_, headerLine (by decide +kernel) ?_, headerLine (by decide +kernel) (path entry.path)⟩
        · exact headerLine (by decide +kernel) (newline_not_mem_append (newline_not_mem_decimalText _) (by decide))
        · cases entry.renamedFrom with
          | none => exact path entry.path
          | some origin => exact path origin
      · exact nofun
    · split
      · rw [forall_mem_singleton]
        exact headerLine (by decide +kernel) (mode _)
      · split
        · rw [forall_mem_singleton]
          exact headerLine (by decide +kernel) (mode _)
        split
        · rw [forall_mem_cons, forall_mem_singleton]
          exact ⟨headerLine (by decide +kernel) (mode _), headerLine (by decide +kernel) (mode _)⟩
        · exact nofun
    · split
      · exact nofun
      · rw [forall_mem_singleton]
        refine headerLine (by decide +kernel)
          (newline_not_mem_append (ids _ _ fun b member => spelled b (mem_append_left _ member))
          (newline_not_mem_append (by decide +kernel)
            (newline_not_mem_append (ids _ _ fun b member => spelled b (mem_append_right _ member)) ?_)))
        split
        · rw [mem_cons, not_or]
          exact ⟨by decide, mode _⟩
        · exact not_mem_nil

theorem patchSides_header : ∀ line ∈ patchSides options entry, HeaderLine line := by
  have side : ∀ word ∈ headerWords, ∀ name : Bytes, newline ∉ name →
      HeaderLine (word ++ name ++ if 0x20 ∈ name then [0x09] else []) := by
    intro word known name clean
    rw [append_assoc]
    refine headerLine known (newline_not_mem_append clean ?_)
    split
    · decide
    · exact not_mem_nil
  rw [patchSides, forall_mem_cons, forall_mem_singleton]
  constructor
  · split
    · exact ⟨by decide +kernel, ascii "--- ", by decide +kernel, ascii "/dev/null", by decide +kernel⟩
    · exact side (ascii "--- ") (by decide +kernel) _ (newline_not_mem_oldSide options entry)
  · split
    · exact ⟨by decide +kernel, ascii "+++ ", by decide +kernel, ascii "/dev/null", by decide +kernel⟩
    · exact side (ascii "+++ ") (by decide +kernel) _ (newline_not_mem_newSide options entry)

end

/-! ## Hunks -/

theorem mem_of_mem_linesFrom {line part text : Bytes} {b : UInt8} (inPart : b ∈ part)
    (member : part ∈ linesFrom line text) :
    b ∈ line ∨ b ∈ text := by
  induction text generalizing line with
  | nil =>
    rw [linesFrom] at member
    split at member
    · cases member
    · exact .inl (mem_singleton.1 member ▸ inPart)
  | cons byte rest ih =>
    rw [linesFrom] at member
    split at member
    · obtain rfl | later := mem_cons.1 member
      · exact .inl inPart
      · exact (ih later).elim (absurd · not_mem_nil) fun here => .inr (.tail _ here)
    obtain here | here := ih member
    · rw [mem_append, mem_singleton] at here
      obtain here | rfl := here
      · exact .inl here
      · exact .inr (.head _)
    · exact .inr (.tail _ here)

theorem not_mem_line {text : Bytes} {b : UInt8} (clean : b ∉ text) (i : Nat) : b ∉ (load text).line i := by
  intro member
  rw [XdiffFile.line, getD_eq_getElem?_getD] at member
  cases found : (load text).lines[i]? with
  | none =>
    rw [found] at member
    cases member
  | some line =>
    rw [found] at member
    have listed := mem_of_getElem? found
    rw [load] at listed
    split at listed
    · cases listed
    · exact (mem_of_mem_linesFrom member listed).elim not_mem_nil clean

section
variable {isspace isalpha : CharClass} {old : Bytes} {b : UInt8}

theorem not_mem_xdiffFunction {file : XdiffFile} {start limit l : Int} {text : Bytes} (clean : ∀ i, b ∉ file.line i)
    (found : xdiffFunction isspace isalpha file start limit = some (l, text)) : b ∉ text := by
  obtain ⟨line, -, same⟩ := Option.map_eq_some_iff.1 found
  cases same
  intro member
  have front := rdropWhile_prefix isspace (take 80 (file.line l.toNat))
  exact clean _ (mem_of_mem_take (front.subset member))

theorem not_mem_patchRange {start count : Nat} (plain : isDigit b = false) (comma : b ≠ 0x2c) :
    b ∉ patchRange start count := by
  have digits : ∀ n, b ∉ decimalText n := by
    intro n member
    rw [isDigit_of_mem_decimalText n b member] at plain
    cases plain
  unfold patchRange
  split
  · exact digits _
  · rw [mem_append, mem_cons, not_or, not_or]
    exact ⟨digits _, comma, digits _⟩

theorem not_mem_hunkLine {file : XdiffFile} {hunk : Hunk} (clean : ∀ i, b ∉ file.line i) (plain : isDigit b = false)
    (format : b ∉ ascii "@@ -, +") : b ∉ hunkLine isspace isalpha file hunk := by
  have known : ∀ text : Bytes, text ⊆ ascii "@@ -, +" → b ∉ text := fun text within member => format (within member)
  have range := fun start count => @not_mem_patchRange b start count plain fun comma =>
    format (comma ▸ by decide +kernel)
  unfold hunkLine
  simp only [mem_append, not_or]
  refine ⟨⟨⟨⟨⟨known _ (by decide +kernel), range _ _⟩, known _ (by decide +kernel)⟩, range _ _⟩,
    known _ (by decide +kernel)⟩, ?_⟩
  split
  next text found =>
    split
    · rw [mem_cons, not_or]
      exact ⟨fun space => format (space ▸ by decide +kernel), not_mem_xdiffFunction clean found⟩
    · exact not_mem_nil
  · exact not_mem_nil

theorem not_mem_hunkBody {old new : XdiffFile} {marks : Marks} {hunk : Hunk} (clean : ∀ i, b ∉ old.line i)
    (clean' : ∀ i, b ∉ new.line i)
    (remark : b ∉ noNewline) (signs : b ∉ ascii "+- ") {line : Bytes}
      (member : line ∈ hunkBody old new marks hunk) : b ∉ line := by
  obtain rfl | ⟨k, -, -, rfl⟩ | ⟨k, -, -, rfl⟩ | ⟨k, rfl⟩ := mem_bodyFrom member
  · exact remark
  · rw [mem_cons, not_or]
    exact ⟨fun sign => signs (sign ▸ by decide +kernel), clean k⟩
  · rw [mem_cons, not_or]
    exact ⟨fun sign => signs (sign ▸ by decide +kernel), clean' k⟩
  · rw [mem_cons, not_or]
    exact ⟨fun sign => signs (sign ▸ by decide +kernel), clean' k⟩

end

end BashOs.Git.Patch

import BashOs.Git.Patch.Reader

/-!
A printed patch that is read again. The reader looks at how a line starts before it looks at the hunk it stands in, so a
removed line that starts with two dashes and a space is taken for a file's header, and an added one with two plus signs
likewise. Where no marked line starts so, the hunks are read as they were printed.
-/

namespace BashOs.Git.Patch
open BashOs.Lib BashOs.Git.Diff List

/-! ## Hunks -/

def printedStart (start count : Nat) : Nat := if count ≠ 0 then start + 1 else start

def openedHunk (hunk : Hunk) : ApplyHunk where
  oldStart := printedStart hunk.oldStart hunk.oldCount
  oldCount := hunk.oldCount
  newStart := printedStart hunk.newStart hunk.newCount
  newCount := hunk.newCount
  lines := []

def printedHunk (old new : XdiffFile) (marks : Marks) (hunk : Hunk) : ApplyHunk :=
  { openedHunk hunk with lines := hunkBody old new marks hunk }

theorem skipByte_cons (b : UInt8) (p : Bytes) : skipByte b (b :: p) = p := if_pos rfl

theorem readRange_patchRange {start count : Nat} (fits : start + 1 < 2 ^ 63) (fits' : count < 2 ^ 63) (rest : Bytes) :
    readRange (patchRange start count ++ 0x20 :: rest) =
      ((printedStart start count : Int), (count : Int), 0x20 :: rest) := by
  have space : ∀ b ∈ (0x20 :: rest : Bytes).head?, isDigit b = false := by
    intro b here
    cases here
    rfl
  unfold patchRange printedStart
  split
  next one =>
    rw [readRange, strtol_decimalText fits space, one]
    rfl
  have small : (if count ≠ 0 then start + 1 else start) < 2 ^ 63 := by
    split <;> omega
  have comma : ∀ b ∈ (0x2c :: (decimalText count ++ 0x20 :: rest) : Bytes).head?, isDigit b = false := by
    intro b here
    cases here
    rfl
  rw [append_assoc, cons_append, readRange, strtol_decimalText small comma]
  exact congrArg (Prod.mk _) (strtol_decimalText fits' space)

section
variable {isspace isalpha : CharClass} {old new : XdiffFile} {marks : Marks} {hunk : Hunk} {strip : Int}
  {state : ApplyState}
  {file : ApplyFile}

theorem readHunk_hunkLine (small : hunk.oldStart + hunk.oldCount < 2 ^ 60)
    (small' : hunk.newStart + hunk.newCount < 2 ^ 60) :
    readHunk ((hunkLine isspace isalpha old hunk).drop 3) = openedHunk hunk := by
  have shape : ∃ tail, (hunkLine isspace isalpha old hunk).drop 3 = 0x2d ::
    (patchRange hunk.oldStart hunk.oldCount ++ 0x20 ::
      (0x2b :: (patchRange hunk.newStart hunk.newCount ++ 0x20 :: tail))) := by
    rw [hunkLine]
    simp only [append_assoc]
    exact ⟨_, rfl⟩
  obtain ⟨tail, shape⟩ := shape
  rw [shape, readHunk, skipByte_cons, readRange_patchRange (by omega) (by omega)]
  dsimp only
  rw [dropWhile_cons_of_pos (by decide), dropWhile_cons_of_neg (by decide), skipByte_cons,
    readRange_patchRange (by omega) (by omega)]
  rfl

theorem foldl_hunk (inStep : hunk.InStep old new marks) (small : old.lines.length < 2 ^ 60)
    (small' : new.lines.length < 2 ^ 60)
    (clean : ∀ i, 0 ∉ old.line i) (body : ∀ line ∈ hunkBody old new marks hunk, BodyLine line)
      (here : state.file = some file) :
    ∃ after left left', (hunkLine isspace isalpha old hunk :: hunkBody old new marks hunk).foldl
      (applyLine strip) state =
        { state with file := some after, inHunk := true, oldLeft := left, newLeft := left' } ∧
      after.hunks = file.hunks ++ [printedHunk old new marks hunk] := by
  have fits := inStep.oldFits
  have fits' := inStep.newFits
  have noNul : 0 ∉ hunkLine isspace isalpha old hunk := not_mem_hunkLine clean (by decide) (by decide +kernel)
  have opens : (ascii "@@ ").isPrefixOf (cString (hunkLine isspace isalpha old hunk)) :=
    isPrefixOf_iff_prefix.2 ⟨_, rfl⟩
  rw [foldl_cons, applyLine_opens opens here, cString_eq noNul,
    @readHunk_hunkLine isspace isalpha old hunk (by omega) (by omega)]
  obtain ⟨onOldSide, onNewSide⟩ := countP_hunkBody inStep
  obtain ⟨after, left, left', ran, same⟩ := @foldl_body strip { state with
      file := some { file with hunks := file.hunks ++ [openedHunk hunk] }
      inHunk := true
      oldLeft := (openedHunk hunk).oldCount
      newLeft := (openedHunk hunk).newCount }
    { file with hunks := file.hunks ++ [openedHunk hunk] } (hunkBody old new marks hunk) body file.hunks
      (openedHunk hunk) rfl rfl rfl
    (congrArg Nat.cast onOldSide.symm) (congrArg Nat.cast onNewSide.symm)
  exact ⟨after, left, left', ran, same⟩

theorem foldl_hunks {hunks : List Hunk} (inStep : ∀ hunk ∈ hunks, hunk.InStep old new marks)
    (small : old.lines.length < 2 ^ 60)
    (small' : new.lines.length < 2 ^ 60) (clean : ∀ i, 0 ∉ old.line i)
    (body : ∀ hunk ∈ hunks, ∀ line ∈ hunkBody old new marks hunk, BodyLine line) (here : state.file = some file) :
    ∃ after, ((hunks.flatMap fun hunk => hunkLine isspace isalpha old hunk :: hunkBody old new marks hunk).foldl
          (applyLine strip) state).files = state.files ∧
        ((hunks.flatMap fun hunk => hunkLine isspace isalpha old hunk :: hunkBody old new marks hunk).foldl
          (applyLine strip) state).file = some after ∧
      after.hunks = file.hunks ++ hunks.map (printedHunk old new marks) := by
  induction hunks generalizing state file with
  | nil => exact ⟨file, rfl, here, (append_nil _).symm⟩
  | cons hunk hunks ih =>
    obtain ⟨middle, left, left', ran, same⟩ := @foldl_hunk isspace isalpha old new marks hunk strip state file
      (inStep hunk (.head _)) small small' clean (body hunk (.head _)) here
    obtain ⟨after, files, last, same'⟩ :=
      @ih { state with file := some middle, inHunk := true, oldLeft := left, newLeft := left' } middle
      (fun hunk member => inStep hunk (.tail _ member)) (fun hunk member => body hunk (.tail _ member)) rfl
    rw [flatMap_cons, foldl_append, ran]
    refine ⟨after, files, last, ?_⟩
    rw [same', same, append_assoc, map_cons, singleton_append]

end

/-! ## The round trip -/

def shownHunks (entry : DiffEntry) (result : XdiffResult) : List Hunk := if entry.identical then [] else result.hunks

def shownLines (isspace isalpha : CharClass) (options : PatchOptions) (entry : DiffEntry) (old new : XdiffFile)
    (result : XdiffResult) :
    List Bytes :=
  if entry.mustShow = true ∨ shownHunks entry result ≠ [] then
    patchHeader options entry ++ (if shownHunks entry result ≠ [] then patchSides options entry else []) ++
      (shownHunks entry result).flatMap fun hunk => hunkLine isspace isalpha old hunk ::
        hunkBody old new result.marks hunk
  else []

def ReadsBack (isspace isalpha : CharClass) (options : PatchOptions) (entry : DiffEntry) (old new : LineFile)
    (strip : Int) : Prop :=
  ∃ text result file, patchSingle isspace isalpha options entry old.text new.text = some text ∧
    xdiffFull isspace isalpha options.flags old.file new.file options.context options.interContext = some result ∧
    applyParse strip text = [file] ∧
    file.hunks = (shownHunks entry result).map (printedHunk old.file new.file result.marks)

/-- No removed line looks like the name of an old file once its sign is in front of it, and no added line like a new
one's. -/
def NoneMistaken (old new : XdiffFile) (marks : Marks) : Prop :=
  (∀ i < old.lines.length, marks.old i = true → ¬ (ascii "-- ").isPrefixOf (old.line i)) ∧
    ∀ j < new.lines.length, marks.new j = true → ¬ (ascii "++ ").isPrefixOf (new.line j)

section
variable {isspace isalpha : CharClass} {options : PatchOptions} {entry : DiffEntry} {old new : LineFile}
  {strip : Int} {marks : Marks}
  {word : Bytes} {result : XdiffResult}

theorem cString_append {more : Bytes} (clean : 0 ∉ word) : cString (word ++ more) = word ++ cString more := by
  refine takeWhile_append_of_pos fun b member => ?_
  exact decide_eq_true fun zero => clean (zero ▸ member)

theorem headerLine_not_inBody {line : Bytes} (header : HeaderLine line) : inBody line = false := by
  have words : ∀ word ∈ headerWords, word ≠ [] ∧ 0 ∉ word ∧ ((word.headD 0 ∉ ([0x20, 0x2b, 0x2d, 0x5c, 0] : Bytes)) ∨
      word = ascii "--- " ∨ word = ascii "+++ ") := by decide +kernel
  obtain ⟨-, word, known, more, rfl⟩ := header
  obtain ⟨some, clean, kind⟩ := words word known
  rw [← Bool.not_eq_true]
  intro own
  simp only [inBody, cString_append clean, Bool.and_eq_true, Bool.or_eq_true, decide_eq_true_eq, Bool.not_eq_true',
    ← Bool.not_eq_true] at own
  obtain ⟨⟨sign, dashes⟩, pluses⟩ := own
  obtain other | rfl | rfl := kind
  · cases word with
    | nil => exact some rfl
    | cons first word =>
      rw [cons_append, headD_cons] at sign
      simp only [headD_cons, mem_cons, not_or] at other
      obtain ⟨space, plus, dash, slash, nul⟩ := other
      simp only [space, plus, dash, slash, nul, or_self] at sign
  · exact dashes <| isPrefixOf_iff_prefix.2 (prefix_append _ _)
  · exact pluses <| isPrefixOf_iff_prefix.2 (prefix_append _ _)

theorem not_inBody_of_head {first : UInt8} {line : Bytes} (other : first ∉ ([0x20, 0x2b, 0x2d, 0x5c, 0] : Bytes)) :
    inBody (first :: line) = false := by
  simp only [mem_cons, not_mem_nil, or_false, not_or] at other
  obtain ⟨space, plus, dash, slash, nul⟩ := other
  have held : cString (first :: line) = first :: cString line := takeWhile_cons_of_pos (decide_eq_true nul)
  simp [inBody, held, space, plus, dash, slash, nul]

theorem patchLines_eq
    (full : xdiffFull isspace isalpha options.flags old.file new.file options.context options.interContext =
      some result) :
    patchLines isspace isalpha options entry old.file new.file =
      some (shownLines isspace isalpha options entry old.file new.file result) := by
  have plain : (old.file.binary || new.file.binary) = false := by rw [old.binary_file, new.binary_file]; rfl
  unfold patchLines shownLines shownHunks
  rw [full, plain]
  cases entry.identical with
  | true => cases entry.mustShow <;> simp
  | false =>
    cases entry.mustShow with
    | true => simp
    | false => by_cases none : result.hunks = [] <;> simp [none]

theorem hunks_ne_nil_iff (all : options.ignoreBlankLines = false)
    (full : xdiffFull isspace isalpha options.flags old.file new.file options.context options.interContext =
      some result) :
    result.hunks ≠ [] ↔ Shows result.marks old.file.lines.length new.file.lines.length := by
  obtain ⟨-, onOldSide, onNewSide⟩ := xdiffFull_hunks isspace isalpha options.flags old new options.context
    options.interContext all full
  constructor
  · exact fun some => by_contra fun none => some (xdiffFull_calm full none)
  · rintro (⟨i, inside, marked⟩ | ⟨j, inside, marked⟩) none
    · obtain ⟨hunk, member, -⟩ := onOldSide i inside marked
      rw [none] at member
      cases member
    · obtain ⟨hunk, member, -⟩ := onNewSide j inside marked
      rw [none] at member
      cases member

theorem newline_not_mem_shownLines :
    ∀ line ∈ shownLines isspace isalpha options entry old.file new.file result, newline ∉ line := by
  have clean := fun i => @newline_not_mem_line old.text i
  have clean' := fun i => @newline_not_mem_line new.text i
  obtain ⟨names, rest, header, fine, headers⟩ := patchHeader_eq options entry
  intro line member
  rw [shownLines] at member
  split at member
  · rw [header] at member
    obtain front | hunks := mem_append.1 member
    · obtain front | sides := mem_append.1 front
      · obtain rfl | header := mem_cons.1 front
        · exact newline_not_mem_append (by decide +kernel) fine
        · exact (headers line header).1
      · split at sides
        · exact (patchSides_header options entry line sides).1
        · cases sides
    · obtain ⟨hunk, -, here⟩ := mem_flatMap.1 hunks
      obtain rfl | body := mem_cons.1 here
      · exact not_mem_hunkLine clean (by decide) (by decide +kernel)
      · exact not_mem_hunkBody clean clean' (by decide +kernel) (by decide +kernel) body
  · cases member

theorem countP_shownLines :
    (shownLines isspace isalpha options entry old.file new.file result).countP inBody ≤
      ((shownHunks entry result).flatMap (hunkBody old.file new.file result.marks)).countP inBody := by
  obtain ⟨names, rest, header, -, headers⟩ := patchHeader_eq options entry
  have front : (patchHeader options entry).countP inBody = 0 := by
    rw [countP_eq_zero, header, forall_mem_cons]
    refine ⟨?_, fun line member own => ?_⟩
    · rw [show ascii "diff --git " ++ names = 0x64 :: (ascii "iff --git " ++ names) from rfl]
      exact Bool.false_ne_true
    · rw [headerLine_not_inBody (headers line member)] at own
      cases own
  have sides : (if shownHunks entry result ≠ [] then patchSides options entry else []).countP inBody = 0 := by
    rw [countP_eq_zero]
    intro line member own
    split at member
    · rw [headerLine_not_inBody (patchSides_header options entry line member)] at own
      cases own
    · cases member
  have hunks : ∀ shown : List Hunk, (shown.flatMap fun hunk =>
      hunkLine isspace isalpha old.file hunk :: hunkBody old.file new.file result.marks hunk).countP inBody =
        (shown.flatMap (hunkBody old.file new.file result.marks)).countP inBody := by
    intro shown
    induction shown with
    | nil => rfl
    | cons hunk shown ih =>
      rw [flatMap_cons, flatMap_cons, countP_append, countP_append, ih, countP_cons,
        show inBody (hunkLine isspace isalpha old.file hunk) = false from not_inBody_of_head (by decide),
          if_neg Bool.false_ne_true, Nat.add_zero]
  rw [shownLines]
  split
  · rw [countP_append, countP_append, front, sides, hunks, Nat.zero_add]
  · exact Nat.zero_le _

theorem not_mistaken_of_inBody {sign : UInt8} {line : Bytes} (clean : 0 ∉ sign :: line)
    (own : inBody (sign :: line) = true) (kind : sign :: word = ascii "--- " ∨ sign :: word = ascii "+++ ") :
      ¬ word.isPrefixOf line := by
  intro starts
  have whole : (sign :: word).isPrefixOf (sign :: line) = true := by
    rw [isPrefixOf, starts, beq_self_eq_true]
    rfl
  simp only [inBody, cString_eq clean, Bool.and_eq_true, Bool.not_eq_true', ← Bool.not_eq_true] at own
  obtain ⟨⟨-, dashes⟩, pluses⟩ := own
  obtain same | same := kind
  · exact dashes (same ▸ whole)
  · exact pluses (same ▸ whole)

theorem bodyLine_of_mem {old new : XdiffFile} {hunk : Hunk} (clean : ∀ i, 0 ∉ old.line i) (clean' : ∀ i, 0 ∉ new.line i)
    (inStep : hunk.InStep old new marks) (none : NoneMistaken old new marks) :
    ∀ line ∈ hunkBody old new marks hunk, BodyLine line := by
  intro line member
  have noNul := not_mem_hunkBody clean clean' (by decide +kernel) (by decide +kernel) member
  have fits := inStep.oldFits
  have fits' := inStep.newFits
  obtain rfl | ⟨k, inside, marked, rfl⟩ | ⟨k, inside, marked, rfl⟩ | ⟨k, rfl⟩ := mem_bodyFrom member
  · exact ⟨by decide +kernel, by decide +kernel, by decide +kernel, noNul⟩
  · refine ⟨.inr (.inr (.inl rfl)), fun starts => none.1 k (by omega) marked ?_, fun starts => ?_, noNul⟩
    · exact (Bool.and_eq_true_iff.1 starts).2
    · exact absurd (Bool.and_eq_true_iff.1 starts).1 (by decide)
  · refine ⟨.inr (.inl rfl), fun starts => ?_, fun starts => none.2 k (by omega) marked ?_, noNul⟩
    · exact absurd (Bool.and_eq_true_iff.1 starts).1 (by decide)
    · exact (Bool.and_eq_true_iff.1 starts).2
  · refine ⟨.inl rfl, fun starts => ?_, fun starts => ?_, noNul⟩
    · exact absurd (Bool.and_eq_true_iff.1 starts).1 (by decide)
    · exact absurd (Bool.and_eq_true_iff.1 starts).1 (by decide)

/-- A patch of two texts without a NUL is read as one file with the hunks that were printed, just if something is
printed and no marked line is mistaken for a name. -/
theorem reads_back_iff (plain : 0 ∉ old.text) (plain' : 0 ∉ new.text) (all : options.ignoreBlankLines = false)
    (diff : xdiffMarks isspace options.flags old.file new.file = some marks) :
    ReadsBack isspace isalpha options entry old new strip ↔
      (entry.mustShow = true ∨ entry.identical = false ∧ Shows marks old.file.lines.length new.file.lines.length) ∧
        (entry.identical = false → NoneMistaken old.file new.file marks) := by
  have clean := fun i => @not_mem_line old.text 0 plain i
  have clean' := fun i => @not_mem_line new.text 0 plain' i
  obtain ⟨result, full, rfl⟩ : ∃ result, xdiffFull isspace isalpha options.flags old.file new.file options.context
      options.interContext = some result ∧ result.marks = marks := by
    obtain ⟨other, ran, aligned⟩ := xdiffMarks_sound isspace options.flags old new
    cases diff.symm.trans ran
    obtain ⟨runs, found, -⟩ :=
      changes_spec (fun line => show SameLine isspace options.flags line line from .inl rfl) aligned
    exact xdiffFull_marks isalpha options.context options.interContext ran found
  obtain ⟨inStep, coversOld, coversNew⟩ := xdiffFull_hunks isspace isalpha options.flags old new options.context
    options.interContext all full
  have shows : shownHunks entry result ≠ [] ↔
      entry.identical = false ∧ Shows result.marks old.file.lines.length new.file.lines.length := by
    rw [← hunks_ne_nil_iff all full, shownHunks]
    cases entry.identical <;> simp
  have printed : patchSingle isspace isalpha options entry old.text new.text =
      some ((shownLines isspace isalpha options entry old.file new.file result).flatMap (· ++ [newline])) := by
    rw [patchSingle, show load old.text = old.file from rfl, show load new.text = new.file from rfl, patchLines_eq full]
    rfl
  have lines := linesFrom_flatMap (@newline_not_mem_shownLines isspace isalpha options entry old new result)
  rw [← shows]
  constructor
  · rintro ⟨text, again, file, print, same, parsed, hunks⟩
    cases print.symm.trans printed
    cases same.symm.trans full
    refine ⟨?_, fun other => ?_⟩
    · by_contra silent
      rw [shownLines, if_neg silent] at parsed
      cases parsed
    · -- every line of a hunk was taken, so each can be
      have taken := @linesTaken_applyParse strip
        ((shownLines isspace isalpha options entry old.file new.file result).flatMap (· ++ [newline]))
      rw [parsed, lines] at taken
      have bodies : ((shownHunks entry result).flatMap (hunkBody old.file new.file result.marks)).length =
          linesTaken [file] := by
        rw [linesTaken, map_singleton, sum_singleton, hunks, map_map, length_flatMap]
        rfl
      have every := countP_eq_length.1 (le_antisymm countP_le_length (bodies ▸ le_trans taken countP_shownLines))
      have shown : shownHunks entry result = result.hunks := by rw [shownHunks, other]; rfl
      rw [shown] at every
      refine ⟨fun i inside marked => ?_, fun j inside marked => ?_⟩
      · obtain ⟨hunk, member, low, high⟩ := coversOld i inside marked
        have line : _ ∈ hunkBody old.file new.file result.marks hunk :=
          (marked_mem_bodyFrom (by omega)).1 i low high marked
        have here := every _ (mem_flatMap.2 ⟨hunk, member, line⟩)
        exact not_mistaken_of_inBody (by rw [mem_cons, not_or]; exact ⟨by decide, clean i⟩) here (.inl rfl)
      · obtain ⟨hunk, member, low, high⟩ := coversNew j inside marked
        have line : _ ∈ hunkBody old.file new.file result.marks hunk :=
          (marked_mem_bodyFrom (by omega)).2 j low high marked
        have here := every _ (mem_flatMap.2 ⟨hunk, member, line⟩)
        exact not_mistaken_of_inBody (by rw [mem_cons, not_or]; exact ⟨by decide, clean' j⟩) here (.inr rfl)
  · rintro ⟨shown, fine⟩
    have ours : ∀ hunk ∈ shownHunks entry result, entry.identical = false ∧ hunk ∈ result.hunks := by
      intro hunk member
      rw [shownHunks] at member
      split at member
      · cases member
      next other => exact ⟨by simpa using other, member⟩
    obtain ⟨names, rest, header, -, headers⟩ := patchHeader_eq options entry
    have starts : applyLine strip { files := [], file := none, inHunk := false, oldLeft := 0, newLeft := 0 }
      (ascii "diff --git " ++ names) =
        { files := [], file := some {}, inHunk := false, oldLeft := 0, newLeft := 0 } := by
      rfl
    have front : ∀ line ∈ rest ++ (if shownHunks entry result ≠ [] then patchSides options entry else []),
        HeaderLine line := by
      rw [forall_mem_append]
      refine ⟨headers, ?_⟩
      split
      · exact patchSides_header options entry
      · exact forall_mem_nil _
    obtain ⟨file, ran, bare⟩ :=
      @foldl_header strip { files := [], file := some {}, inHunk := false, oldLeft := 0, newLeft := 0 }
      {} _ front rfl rfl
    obtain ⟨after, files, last, hunks⟩ := @foldl_hunks isspace isalpha old.file new.file result.marks strip
      { files := [], file := some file, inHunk := false, oldLeft := 0, newLeft := 0 } file (shownHunks entry result)
      (fun hunk member => inStep hunk (ours hunk member).2) old.fits_file new.fits_file clean
      (fun hunk member => bodyLine_of_mem clean clean' (inStep hunk (ours hunk member).2)
        (fine (ours hunk member).1)) rfl
    refine ⟨_, result, after, printed, full, ?_, by rw [hunks, bare]; rfl⟩
    rw [applyParse, lines, shownLines, if_pos shown, header, cons_append, cons_append, foldl_cons, starts,
      foldl_append, ran]
    rw [files, last]
    rfl

end

/-! ## Two patches -/

/-- What `git diff` starts from. -/
def plainOptions : PatchOptions where
  context := 3
  interContext := 0
  abbrevLength := 7
  prefixOld := ascii "a/"
  prefixNew := ascii "b/"
  ignoreWs := false
  ignoreWsChange := false
  ignoreWsAtEol := false
  ignoreCrAtEol := false
  functionContext := false
  ignoreBlankLines := false
  algorithm := .standard
  quoteFully := true
  relativeTo := []

def changedEntry : DiffEntry where
  path := ascii "f"
  status := .modified
  oldMode := 0o100644
  newMode := 0o100644
  oldSha := List.replicate 40 0x61
  newSha := List.replicate 40 0x62
  renamedFrom := none
  score := 0
  spelled := by decide +kernel

def changedFrom : LineFile where
  text := ascii "a\n" ++ ascii "b\n"
  plain := by decide +kernel
  fits := by decide +kernel

def changedTo : LineFile where
  text := ascii "a\nc\n"
  plain := by decide +kernel
  fits := by decide +kernel

theorem reads_back_sample :
    ReadsBack (fun _ => false) (fun _ => false) plainOptions changedEntry changedFrom changedTo 1 := by
  have diff : ((xdiffMarks (fun _ => false) plainOptions.flags changedFrom.file changedTo.file).map fun marks =>
      marks.old 1) = some true := by
    decide +kernel
  obtain ⟨marks, diff, marked⟩ := Option.map_eq_some_iff.1 diff
  refine (reads_back_iff (by decide +kernel) (by decide +kernel) rfl diff).2
    ⟨.inr ⟨by decide +kernel, .inl ⟨1, by decide +kernel, marked⟩⟩, ?_⟩
  have removed : ∀ i < changedFrom.file.lines.length, ¬ (ascii "-- ").isPrefixOf (changedFrom.file.line i) := by
    decide +kernel
  have added : ∀ j < changedTo.file.lines.length, ¬ (ascii "++ ").isPrefixOf (changedTo.file.line j) := by
    decide +kernel
  exact fun _ => ⟨fun i inside _ => removed i inside, fun j inside _ => added j inside⟩

def dashedFrom : LineFile where
  text := ascii "a\n-- b\n"
  plain := by decide +kernel
  fits := by decide +kernel

def dashedTo : LineFile where
  text := ascii "a\n"
  plain := by decide +kernel
  fits := by decide +kernel

/-- A line that starts with two dashes and a space is removed: the hunk is read without it, and the file gets its
name. -/
theorem dashed_line_lost :
    ((patchSingle (fun _ => false) (fun _ => false) plainOptions changedEntry dashedFrom.text dashedTo.text).map
      fun text =>
      (applyParse 1 text).map fun file => (file.oldPath, file.hunks.map fun hunk => hunk.lines)) =
        some [(some (ascii "b"), [[ascii " a"]])] ∧
    ¬ ReadsBack (fun _ => false) (fun _ => false) plainOptions changedEntry dashedFrom dashedTo 1 := by
  have read : ((patchSingle (fun _ => false) (fun _ => false) plainOptions changedEntry dashedFrom.text
      dashedTo.text).map fun text =>
      (applyParse 1 text).map fun file => (file.oldPath, file.hunks.map fun hunk => hunk.lines)) =
        some [(some (ascii "b"), [[ascii " a"]])] := by decide +kernel
  have shown : ((xdiffFull (fun _ => false) (fun _ => false) plainOptions.flags dashedFrom.file dashedTo.file 3
      0).map fun result =>
      (shownHunks changedEntry result).map fun hunk =>
        (printedHunk dashedFrom.file dashedTo.file result.marks hunk).lines) =
        some [[ascii " a", ascii "--- b"]] := by decide +kernel
  refine ⟨read, ?_⟩
  rintro ⟨text, result, file, printed, full, parsed, hunks⟩
  rw [show xdiffFull _ _ _ _ _ 3 0 = _ from full] at shown
  rw [printed, Option.map_some, parsed, map_singleton, hunks, map_map] at read
  have same := (Prod.mk.inj (cons.inj (Option.some.inj read)).1).2.symm.trans (Option.some.inj shown)
  exact absurd same (by decide +kernel)

end BashOs.Git.Patch

import BashOs.Git.Patch.Lines

/-!
What the reader of a patch makes of a line. It looks at how the line starts before it looks at the hunk it stands
in; a hunk takes the lines it counts, header lines leave the hunks alone, and no line adds more than one.
-/

namespace BashOs.Git.Patch
open BashOs.Lib BashOs.Git.Diff List

/-! ## How lines start -/

section
variable {word line rest : Bytes}

theorem take_eq_of_isPrefixOf {n : Nat} (starts : word.isPrefixOf line) (short : n ≤ word.length) :
    line.take n = word.take n := by
  obtain ⟨more, rfl⟩ := isPrefixOf_iff_prefix.1 starts
  exact take_append_of_le_length short

theorem isPrefixOf_of_cString (starts : word.isPrefixOf (cString line)) : word.isPrefixOf line := by
  have begins := isPrefixOf_iff_prefix.1 starts
  exact isPrefixOf_iff_prefix.2 (begins.trans <| takeWhile_prefix _)

theorem not_isPrefixOf {n : Nat} {start : Bytes} (own : line.take n = start) (short : n ≤ word.length)
    (other : word.take n ≠ start) :
    ¬ word.isPrefixOf (cString line) := fun starts =>
  other ((take_eq_of_isPrefixOf (isPrefixOf_of_cString starts) short).symm.trans own)

theorem take_of_head {b : UInt8} (head : line.head? = some b) : line.take 1 = [b] := by
  cases line with
  | nil => cases head
  | cons first line =>
    cases head
    rfl

end

/-! ## Lines of a hunk -/

structure BodyLine (line : Bytes) : Prop where
  sign : line.head? = some 0x20 ∨ line.head? = some 0x2b ∨ line.head? = some 0x2d ∨ line.head? = some 0x5c
  old : ¬ (ascii "--- ").isPrefixOf line
  new : ¬ (ascii "+++ ").isPrefixOf line
  clean : 0 ∉ line

section
variable {strip : Int} {state : ApplyState} {file : ApplyFile} {line : Bytes}

theorem ite_eq_cases {α : Type} {c : Prop} [Decidable c] {a b x : α} (same : (if c then a else b) = x) :
    c ∧ a = x ∨ ¬ c ∧ b = x := by
  by_cases holds : c
  · exact .inl ⟨holds, by rwa [if_pos holds] at same⟩
  · exact .inr ⟨holds, by rwa [if_neg holds] at same⟩

/-- How the lines start that only say something about the file. -/
def fileWords : List Bytes :=
  [ascii "new file mode ", ascii "deleted file mode ", ascii "old mode ", ascii "new mode ",
    ascii "rename from ", ascii "rename to ",
    ascii "GIT binary patch", ascii "--- ", ascii "+++ "]

/-- What one line does to the file that is read: it starts another, it says something about it, it starts a hunk, or
it is left to the hunk. -/
theorem applyLine_cases (here : state.file = some file) :
    ((ascii "diff --git ").isPrefixOf (cString line) ∧
      applyLine strip state line = { state with files := state.files ++ [file], file := some {}, inHunk := false }) ∨
    (∃ word ∈ fileWords, word.isPrefixOf (cString line) ∧
      ∃ after, applyLine strip state line = { state with file := some after } ∧
      after.hunks = file.hunks) ∨
    (∃ hunk, (ascii "@@ ").isPrefixOf (cString line) ∧ hunk = readHunk ((cString line).drop 3) ∧
      applyLine strip state line =
      { state with file := some { file with hunks := file.hunks ++ [hunk] }, inHunk := true, oldLeft := hunk.oldCount,
                   newLeft := hunk.newCount }) ∨
    ((∀ word ∈ ascii "@@ " :: fileWords, ¬ word.isPrefixOf (cString line)) ∧
      applyLine strip state line = applyBody (cString line) file state) := by
  generalize result : applyLine strip state line = next
  rw [applyLine, here] at result
  obtain ⟨starts, ran⟩ | ⟨-, result⟩ := ite_eq_cases result
  · exact .inl ⟨starts, ran.symm⟩
  refine .inr ?_
  -- the tests for the words, in their order
  iterate 9
    obtain ⟨starts, ran⟩ | ⟨apart, result⟩ := ite_eq_cases result
    · exact .inl ⟨_, by simp [fileWords], starts, _, ran.symm, rfl⟩
  obtain ⟨opens, ran⟩ | ⟨closed, result⟩ := ite_eq_cases result
  · exact .inr (.inl ⟨_, opens, rfl, ran.symm⟩)
  · refine .inr (.inr ⟨?_, result.symm⟩)
    simp only [fileWords, forall_mem_cons]
    and_intros <;> first | with_reducible assumption | exact nofun

theorem applyLine_body (body : BodyLine line) (here : state.file = some file) :
    applyLine strip state line = applyBody line file state := by
  obtain ⟨sign, old, new, clean⟩ := body
  have words : ∀ word ∈ [ascii "diff --git ", ascii "@@ "] ++ fileWords, 1 ≤ word.length ∧
      (word.take 1 ∈ ([[0x20], [0x2b], [0x2d], [0x5c]] : List Bytes) → word = ascii "--- " ∨ word = ascii "+++ ") := by
    decide +kernel
  have other : ∀ word ∈ [ascii "diff --git ", ascii "@@ "] ++ fileWords, ¬ word.isPrefixOf line := by
    intro word known starts
    obtain ⟨short, signs⟩ := words word known
    rw [← take_eq_of_isPrefixOf starts short] at signs
    obtain rfl | rfl := signs (by rcases sign with head | head | head | head <;> rw [take_of_head head] <;> decide)
    · exact old starts
    · exact new starts
  have cases := @applyLine_cases strip state file line here
  rw [cString_eq clean] at cases
  obtain ⟨starts, -⟩ | ⟨word, known, starts, -⟩ | ⟨hunk, starts, -⟩ | ⟨-, ran⟩ := cases
  · exact absurd starts (other _ (by simp))
  · exact absurd starts (other _ (by simp [known]))
  · exact absurd starts (other _ (by simp))
  · exact ran

theorem applyBody_eq (sign : line.head? = some 0x20 ∨ line.head? = some 0x2b ∨ line.head? = some 0x2d ∨
    line.head? = some 0x5c)
    (inHunk : state.inHunk = true) (expects : line.head? = some 0x5c ∨ 0 < state.oldLeft ∨ 0 < state.newLeft) :
    applyBody line file state = { state with
        oldLeft := state.oldLeft - if onOld line then 1 else 0
        newLeft := state.newLeft - if onNew line then 1 else 0
        file := some (addLine line file) } := by
  cases line with
  | nil => simp at sign
  | cons first line =>
    rw [applyBody]
    simp only [head?_cons, Option.some.injEq] at sign expects
    have left : ¬(first ≠ 0x5c ∧ state.oldLeft ≤ 0 ∧ state.newLeft ≤ 0) := by
      rintro ⟨line, none, none'⟩
      obtain remark | some | some := expects
      · exact line remark
      · omega
      · omega
    rw [if_neg (by simp [inHunk])]
    dsimp only [headD_cons]
    rw [if_neg left]
    rcases sign with rfl | rfl | rfl | rfl <;> simp [onOld, onNew]

theorem foldl_body {lines : List Bytes} (body : ∀ line ∈ lines, BodyLine line) {earlier : List ApplyHunk}
    {hunk : ApplyHunk}
    (here : state.file = some file) (inHunk : state.inHunk = true) (last : file.hunks = earlier ++ [hunk])
    (oldLeft : state.oldLeft = lines.countP onOld) (newLeft : state.newLeft = lines.countP onNew) :
    ∃ after left left', lines.foldl (applyLine strip) state =
        { state with file := some after, oldLeft := left, newLeft := left' } ∧
      after.hunks = earlier ++ [{ hunk with lines := hunk.lines ++ lines }] := by
  induction lines generalizing state file hunk with
  | nil =>
    refine ⟨file, state.oldLeft, state.newLeft, ?_, by rw [append_nil]; exact last⟩
    rw [← here]
    rfl
  | cons line lines ih =>
    have own := body line (.head _)
    rw [countP_cons] at oldLeft newLeft
    have expects : line.head? = some 0x5c ∨ 0 < state.oldLeft ∨ 0 < state.newLeft := by
      obtain head | head | head | head := own.sign
      · exact .inr (.inl (by rw [oldLeft, onOld, head]; simp))
      · exact .inr (.inr (by rw [newLeft, onNew, head]; simp))
      · exact .inr (.inl (by rw [oldLeft, onOld, head]; simp))
      · exact .inl head
    rw [foldl_cons, applyLine_body own here, applyBody_eq own.sign inHunk expects]
    have added : (addLine line file).hunks = earlier ++ [{ hunk with lines := hunk.lines ++ [line] }] := by
      rw [addLine, last]
      exact modifyLast_concat _ _ _
    obtain ⟨after, left, left', run, hunks⟩ := @ih { state with
        oldLeft := state.oldLeft - if onOld line then 1 else 0
        newLeft := state.newLeft - if onNew line then 1 else 0
        file := some (addLine line file) }
      (addLine line file) (fun other member => body other (.tail _ member))
        { hunk with lines := hunk.lines ++ [line] } rfl
      inHunk added (by rw [oldLeft]; dsimp only; split <;> simp) (by rw [newLeft]; dsimp only; split <;> simp)
    refine ⟨after, left, left', run, ?_⟩
    rw [hunks, append_assoc, singleton_append]

/-! ## Headers -/

theorem applyLine_quiet (here : state.file = some file) (outside : state.inHunk = false)
    (sameFile : ¬ (ascii "diff --git ").isPrefixOf (cString line))
      (noHunk : ¬ (ascii "@@ ").isPrefixOf (cString line)) :
    ∃ after, applyLine strip state line = { state with file := some after } ∧ after.hunks = file.hunks := by
  obtain ⟨starts, -⟩ | ⟨-, -, -, quiet⟩ | ⟨hunk, starts, -⟩ | ⟨-, ran⟩ := @applyLine_cases strip state file line here
  · exact absurd starts sameFile
  · exact quiet
  · exact absurd starts noHunk
  · rw [applyBody, outside] at ran
    exact ⟨file, by rw [ran, ← here]; rfl, rfl⟩

theorem applyLine_opens (opens : (ascii "@@ ").isPrefixOf (cString line)) (here : state.file = some file) :
    applyLine strip state line = { state with
        file := some { file with hunks := file.hunks ++ [readHunk ((cString line).drop 3)] }
        inHunk := true
        oldLeft := (readHunk ((cString line).drop 3)).oldCount
        newLeft := (readHunk ((cString line).drop 3)).newCount } := by
  have words : ∀ word ∈ ascii "diff --git " :: fileWords, 1 ≤ word.length ∧ word.take 1 ≠ (ascii "@@ ").take 1 := by
    decide +kernel
  have other : ∀ word ∈ ascii "diff --git " :: fileWords, ¬ word.isPrefixOf (cString line) := by
    intro word known starts
    obtain ⟨short, apart⟩ := words word known
    rw [← take_eq_of_isPrefixOf starts short, take_eq_of_isPrefixOf opens (by decide +kernel)] at apart
    exact apart rfl
  obtain ⟨starts, -⟩ | ⟨word, known, starts, -⟩ | ⟨hunk, -, rfl, ran⟩ | ⟨apart, -⟩ :=
    @applyLine_cases strip state file line here
  · exact absurd starts (other _ (.head _))
  · exact absurd starts (other _ (.tail _ known))
  · exact ran
  · exact absurd opens (apart _ (.head _))

theorem foldl_header {lines : List Bytes} (all : ∀ line ∈ lines, HeaderLine line) (here : state.file = some file)
    (outside : state.inHunk = false) :
    ∃ after, lines.foldl (applyLine strip) state = { state with file := some after } ∧ after.hunks = file.hunks := by
  have words : ∀ word ∈ headerWords, 2 ≤ word.length ∧ word.take 2 ≠ (ascii "diff --git ").take 2 ∧
      word.take 2 ≠ (ascii "@@ ").take 2 := by
    decide +kernel
  induction lines generalizing state file with
  | nil => exact ⟨file, by rw [← here]; rfl, rfl⟩
  | cons line lines ih =>
    obtain ⟨-, word, known, more, rfl⟩ := all line (.head _)
    obtain ⟨two, notFile, notHunk⟩ := words word known
    have start : (word ++ more).take 2 = word.take 2 := take_append_of_le_length two
    obtain ⟨middle, ran, same⟩ := @applyLine_quiet strip state file (word ++ more) here outside
      (not_isPrefixOf start (by decide +kernel) notFile.symm) (not_isPrefixOf start (by decide +kernel) notHunk.symm)
    rw [foldl_cons, ran]
    obtain ⟨after, ran', same'⟩ := @ih { state with file := some middle } middle
      (fun line member => all line (.tail _ member)) rfl outside
    exact ⟨after, ran', same'.trans same⟩

end

/-! ## Lines that are lost -/

def inBody (line : Bytes) : Bool :=
  let held := cString line
  let first := held.headD 0
  (first = 0x20 || first = 0x2b || first = 0x2d || first = 0x5c || first = 0) && !(ascii "--- ").isPrefixOf held &&
    !(ascii "+++ ").isPrefixOf held

def linesTaken (files : List ApplyFile) :
    Nat := (files.map fun file => (file.hunks.map fun hunk => hunk.lines.length).sum).sum

section
variable {strip : Int} {state : ApplyState} {file : ApplyFile} {line : Bytes}

theorem linesTaken_append (files more : List ApplyFile) :
    linesTaken (files ++ more) = linesTaken files + linesTaken more := by
  rw [linesTaken, map_append, sum_append]
  rfl

theorem linesTaken_addLine : linesTaken [addLine line file] ≤ linesTaken [file] + 1 := by
  simp only [linesTaken, addLine, map_cons]
  obtain none | ⟨earlier, last, whole⟩ := eq_nil_or_concat file.hunks
  · rw [none]
    exact Nat.zero_le _
  · rw [whole, concat_eq_append, modifyLast_concat, map_append, map_append, sum_append, sum_append]
    simp
    omega

theorem linesTaken_applyLine :
    linesTaken ((applyLine strip state line).files ++ (applyLine strip state line).file.toList) ≤
      linesTaken (state.files ++ state.file.toList) + if inBody line then 1 else 0 := by
  cases here : state.file with
  | none =>
    rw [applyLine, here]
    dsimp only
    split
    · rw [linesTaken_append]
      exact Nat.le_add_right _ _
    · rw [here]
      exact Nat.le_add_right _ _
  | some file =>
    obtain ⟨-, ran⟩ | ⟨-, -, -, after, ran, same⟩ | ⟨hunk, -, rfl, ran⟩ | ⟨apart, ran⟩ :=
      @applyLine_cases strip state file line here
    · rw [ran]
      exact le_trans (le_of_eq (linesTaken_append _ _)) (Nat.le_add_right _ _)
    · rw [ran]
      exact le_trans (le_of_eq (by simp [linesTaken, same])) (Nat.le_add_right _ _)
    · rw [ran]
      exact le_trans (le_of_eq (by simp [linesTaken, readHunk])) (Nat.le_add_right _ _)
    · rw [ran, applyBody]
      split
      · rw [here]
        exact Nat.le_add_right _ _
      dsimp only
      split
      · rw [here]
        exact Nat.le_add_right _ _
      rename_i signed
      split
      · rw [here]
        exact Nat.le_add_right _ _
      have own : inBody line = true := by
        simp only [inBody, Bool.and_eq_true, Bool.or_eq_true, decide_eq_true_eq, Bool.not_eq_true', ← Bool.not_eq_true]
        refine ⟨⟨?_, apart _ (by simp [fileWords])⟩, apart _ (by simp [fileWords])⟩
        by_contra none
        simp only [not_or] at none
        obtain ⟨⟨⟨⟨space, plus⟩, dash⟩, slash⟩, nul⟩ := none
        exact signed ⟨space, plus, dash, slash, nul⟩
      rw [own, linesTaken_append, linesTaken_append]
      exact Nat.add_le_add_left linesTaken_addLine _

theorem linesTaken_applyParse (text : Bytes) :
    linesTaken (applyParse strip text) ≤ (linesFrom [] text).countP inBody := by
  have run : ∀ (lines : List Bytes) (state : ApplyState),
      linesTaken ((lines.foldl (applyLine strip) state).files ++ (lines.foldl (applyLine strip) state).file.toList) ≤
        linesTaken (state.files ++ state.file.toList) + lines.countP inBody := by
    intro lines
    induction lines with
    | nil => exact fun state => le_rfl
    | cons line lines ih =>
      intro state
      rw [foldl_cons, countP_cons]
      have rest := ih (applyLine strip state line)
      have one := @linesTaken_applyLine strip state line
      omega
  have whole := run (linesFrom [] text) { files := [], file := none, inHunk := false, oldLeft := 0, newLeft := 0 }
  rwa [show linesTaken ([] ++ Option.toList none) = 0 from rfl, zero_add] at whole

end

end BashOs.Git.Patch

import BashOs.Git.Diff.Xdiff
import BashOs.Git.Merge.Regions
import BashOs.Git.Merge.Text

/-!
Merging the lines of two texts against a third: the base is compared with each side, and what is written is the base
with the regions that a side has changed in place of its own lines. Where both have, and not alike, the region is
written between markers.
-/

namespace BashOs.Git.Merge
open BashOs.Lib BashOs.Git.Diff List

def view (file : XdiffFile) (first last : Nat) : XdiffFile :=
  { text := [], lines := (file.lines.drop first).take (last - first),
    missingNewline := if last = file.lines.length then file.missingNewline else false, binary := false }

def joinFrom (last : Change) : List Change → List Change
  | [] => [last]
  | change :: rest =>
    if change.oldStart - last.oldStop ≤ 3 then
      joinFrom { last with oldCount := change.oldStop - last.oldStart, newCount := change.newStop - last.newStart } rest
    else last :: joinFrom change rest

def joinDisputes : List Change → List Change
  | [] => []
  | change :: rest => joinFrom change rest

section
-- what is whitespace or a letter depends on the locale
variable (isspace isalpha : CharClass) (ourLabel theirLabel : Bytes)

def betweenMarkers (ours theirs : Bytes) : Bytes :=
  ascii "<<<<<<< " ++ ourLabel ++ [newline] ++ ours ++ ascii "=======\n" ++ theirs ++ ascii ">>>>>>> " ++
    theirLabel ++ [newline]

def writeDisputes (ours theirs : XdiffFile) : Nat → List Change → Bytes
  | place, [] => textLines ours place ours.lines.length
  | place, change :: rest =>
    textLines ours place change.oldStart ++
      betweenMarkers ourLabel theirLabel (textLines ours change.oldStart change.oldStop)
        (textLines theirs change.newStart change.newStop) ++
      writeDisputes ours theirs change.oldStop rest

def refine (ours theirs : XdiffFile) : List Change :=
  if ours.lines ≠ [] ∧ theirs.lines ≠ [] then
    match xdiffFull isspace isalpha plainFlags ours theirs 0 0 with
    | some refined => (changes refined.marks ours.lines.length theirs.lines.length).getD []
    | none => []
  else []

/-- `bgit_write_conflict`: the text and how many conflicts it shows -/
def writeConflict (ourFile theirFile : XdiffFile) (region : Region) : Bytes × Nat :=
  let ours := view ourFile region.ourStart region.ourEnd
  let theirs := view theirFile region.theirStart region.theirEnd
  match joinDisputes (refine isspace isalpha ours theirs) with
  | [] =>
    (betweenMarkers ourLabel theirLabel (textLines ourFile region.ourStart region.ourEnd)
      (textLines theirFile region.theirStart region.theirEnd), 1)
  | change :: rest => (writeDisputes ourLabel theirLabel ours theirs 0 (change :: rest), rest.length + 1)

/-- The last loop of `bgit_merge_content`, from a line of the base on -/
def writeRegions (base our their : XdiffFile) : Nat → List Region → Bytes × Nat
  | place, [] => (textLines base place base.lines.length, 0)
  | place, region :: rest =>
    let (text, conflicts) : Bytes × Nat :=
      match region.kind with
      | .takeOurs => (textLines our region.ourStart region.ourEnd, 0)
      | .takeTheirs => (textLines their region.theirStart region.theirEnd, 0)
      | .takeEither => (textLines our region.ourStart region.ourEnd, 0)
      | .conflict => writeConflict isspace isalpha ourLabel theirLabel our their region
    let (more, others) := writeRegions base our their region.baseEnd rest
    (textLines base place region.baseStart ++ text ++ more, conflicts + others)

def changesTo (base file : XdiffFile) : Option (List Change) := do
  let diff ← xdiffFull isspace isalpha plainFlags base file 0 0
  changes diff.marks base.lines.length file.lines.length

def mergeContent (base ours theirs : Bytes) : Option (Bytes × Nat) := do
  let base := load base
  let our := load ours
  let their := load theirs
  let ourChanges ← changesTo isspace isalpha base our
  let theirChanges ← changesTo isspace isalpha base their
  some (writeRegions isspace isalpha ourLabel theirLabel base our their 0
    (simplifyConflicts (regions our their ourChanges theirChanges)))

end

/-! ## Comparing with the base -/

section
variable {isspace isalpha : CharClass} {old new file : XdiffFile}

structure Compared (isspace : CharClass) (old new : XdiffFile) (marks : Marks) (runs : List Change) : Prop where
  ran : xdiffMarks isspace plainFlags old new = some marks
  held : RunsFrom old.lines.length new.lines.length 0 0 runs
  inStep : ∀ related : Nat → Nat → Prop, List.Forall₂ related (inPlace marks.old 0 old.lines.length)
    (inPlace marks.new 0 new.lines.length) ↔ InStep old.lines.length related 0 0 runs
  inOld : ∀ p < old.lines.length, (marks.old p = true ↔ InOld runs p)
  inNew : ∀ q < new.lines.length, (marks.new q = true ↔ InNew runs q)
  same : InStep old.lines.length (fun p q => old.line p = new.line q) 0 0 runs

theorem changesTo_spec (isspace isalpha : CharClass) (fits : old.lines.length < 2 ^ 60)
    (fits' : new.lines.length < 2 ^ 60) :
    ∃ marks runs, changesTo isspace isalpha old new = some runs ∧ Compared isspace old new marks runs := by
  obtain ⟨marks, ran, same, -⟩ := xdiffMarks_spec isspace plainFlags old new (by
    show ((old.lines.length : Nat) + (new.lines.length : Nat) : Int) < longMax
    unfold longMax
    omega)
  have same : kept old.line marks.old (List.range old.lines.length) =
    kept new.line marks.new (List.range new.lines.length) := same
  have aligned : List.Forall₂ Eq (kept old.line marks.old (range old.lines.length))
      (kept new.line marks.new (range new.lines.length)) := by rwa [forall₂_eq_eq_eq]
  obtain ⟨runs, found, held, inStep, inOld, inNew, -⟩ := changes_spec (fun _ => rfl) aligned
  obtain ⟨diff, full, own⟩ := xdiffFull_marks isalpha 0 0 ran found
  rw [kept_range, kept_range] at same
  refine ⟨marks, runs, ?_, ran, held, inStep, fun p => inOld p (Nat.zero_le p), fun q => inNew q (Nat.zero_le q), ?_⟩
  · simp [changesTo, full, own, found]
  · rwa [← inStep, forall₂_keys_iff]

theorem unmarked_of_length {line : Nat → Bytes} {changed : Nat → Bool} {n : Nat}
    (all : kept line changed (List.range n) = (List.range n).map line) : ∀ i < n, changed i = false := by
  intro i inside
  have length := congrArg length all
  rw [kept, length_map, length_map, length_filter_eq_length_iff] at length
  simpa using length i (mem_range.2 inside)

theorem xdiffMarks_self (isspace : CharClass) (file : XdiffFile) :
    ∃ marks, xdiffMarks isspace plainFlags file file = some marks ∧
      (∀ i < file.lines.length, marks.old i = false) ∧ ∀ j < file.lines.length, marks.new j = false := by
  let r := reduce isspace plainFlags file file
  have whole : r.dstart = file.lines.length :=
    scan_eq (by simp) (fun k _ => lineSame_iff.2 rfl) (by simp)
  have short := (show r.Shares from reduce_shares ..).short.1
  have same : r.nOld = file.lines.length := rfl
  have same' : r.nNew = file.lines.length := rfl
  -- nothing is left between the lines that are shared at the top and the end
  have none : upTo file.lines.length (file.lines.length - r.tail) = [] := by
    rw [show r.tail = 0 by omega, Nat.sub_zero, upTo_self]
  obtain ⟨marks, searched, settled⟩ := searchLines_solves file file plainFlags.algorithm nodup_nil nodup_nil (by decide)
    (compareAll_below 1) (by decide) plainFlags.minimal
    (show (({ old := fun _ => false, new := fun _ => false } : Marks).markOld []).markNew [] |>.Fresh [] [] from
      ⟨fun _ _ => rfl, fun _ _ => rfl⟩)
  have search : r.search plainFlags = some marks := by
    unfold Reduced.search
    rwa [whole, same, same', none]
  obtain ⟨oldChanged, compacted, kept1, -⟩ := compact_spec isspace file file marks.new file.lines.length true
    fun i (_ : file.lines.length ≤ i) => settled.old i not_mem_nil
  obtain ⟨newChanged, compacted', kept2, -⟩ := compact_spec isspace file file oldChanged file.lines.length true
    fun j (_ : file.lines.length ≤ j) => settled.new j not_mem_nil
  rw [kept_unmarked fun i _ => settled.old i not_mem_nil] at kept1
  rw [kept_unmarked fun j _ => settled.new j not_mem_nil] at kept2
  refine ⟨{ old := oldChanged, new := newChanged }, ?_, unmarked_of_length kept1, unmarked_of_length kept2⟩
  have first : compact isspace r.keyOld file r.nOld marks.new r.nNew plainFlags.indentHeuristic marks.old =
    some oldChanged := compacted
  have second : compact isspace r.keyNew file r.nNew oldChanged r.nOld plainFlags.indentHeuristic marks.new =
    some newChanged := compacted'
  simp [xdiffMarks, show reduce isspace plainFlags file file = r from rfl, search, first, second]

theorem changesTo_self (isspace isalpha : CharClass) (fits : file.lines.length < 2 ^ 60) :
    changesTo isspace isalpha file file = some [] := by
  obtain ⟨marks, runs, found, compared⟩ := changesTo_spec isspace isalpha fits fits
  obtain ⟨marks', ran, old, new⟩ := xdiffMarks_self isspace file
  rw [compared.ran] at ran
  cases ran
  have none : ¬ Shows marks file.lines.length file.lines.length := by
    rintro (⟨i, below, marked⟩ | ⟨j, below, marked⟩)
    · rw [old i below] at marked
      cases marked
    · rw [new j below] at marked
      cases marked
  rw [found, compared.held.eq_nil compared.inOld compared.inNew none]

end

/-! ## Writing -/

section
variable {isspace isalpha : CharClass} {ourLabel theirLabel : Bytes} {base our their : XdiffFile}

def regionLines (our their : XdiffFile) (region : Region) : List (Bytes × Bool) :=
  match region.kind with
  | .takeOurs => copied our region.ourStart region.ourEnd
  | .takeTheirs => copied their region.theirStart region.theirEnd
  | .takeEither => copied our region.ourStart region.ourEnd
  | .conflict => []

structure Takes (our their new : XdiffFile) (change : Change) (region : Region) : Prop where
  start : region.baseStart = change.oldStart
  stop : region.baseEnd = change.oldStop
  clean : region.kind ≠ .conflict
  lines : regionLines our their region = copied new change.newStart change.newStop

theorem takes_ours (our their : XdiffFile) (change : Change) : Takes our their our change (oursRegion change) :=
  ⟨rfl, rfl, nofun, rfl⟩

theorem takes_theirs (our their : XdiffFile) (change : Change) : Takes our their their change (theirsRegion change) :=
  ⟨rfl, rfl, nofun, rfl⟩

def written (base our their : XdiffFile) : Nat → List Region → List (Bytes × Bool)
  | place, [] => copied base place base.lines.length
  | place, region :: rest =>
    copied base place region.baseStart ++ regionLines our their region ++ written base our their region.baseEnd rest

theorem writeConflict_pos (region : Region) :
    0 < (writeConflict isspace isalpha ourLabel theirLabel our their region).2 := by
  unfold writeConflict
  dsimp only
  split
  · exact Nat.one_pos
  · exact Nat.succ_pos _

theorem writeRegions_spec (place : Nat) (regions : List Region) :
    ((writeRegions isspace isalpha ourLabel theirLabel base our their place regions).2 = 0 ↔
      ∀ region ∈ regions, region.kind ≠ .conflict) ∧
    ((∀ region ∈ regions, region.kind ≠ .conflict) →
      (writeRegions isspace isalpha ourLabel theirLabel base our their place regions).1 =
        render (written base our their place regions)) := by
  induction regions generalizing place with
  | nil => exact ⟨by simp [writeRegions], fun _ => rfl⟩
  | cons region rest ih =>
    obtain ⟨count, text⟩ := ih region.baseEnd
    have some := @writeConflict_pos isspace isalpha ourLabel theirLabel our their region
    rw [forall_mem_cons]
    cases kind : region.kind with
    | conflict =>
      simp [writeRegions, kind]
      omega
    | takeOurs | takeTheirs | takeEither =>
      simp only [writeRegions, kind, written, regionLines, render_append, textLines, zero_add, count]
      refine ⟨by simp, fun clean => ?_⟩
      rw [text clean.2]

theorem simplifyFrom_clean {regions : List Region} (last : Region)
    (clean : ∀ region ∈ simplifyFrom last regions, region.kind ≠ .conflict) :
    simplifyFrom last regions = last :: regions := by
  induction regions generalizing last with
  | nil => rfl
  | cons region rest ih =>
    rw [simplifyFrom] at clean ⊢
    split at clean
    next joined =>
      simp only [Bool.and_eq_true, decide_eq_true_eq] at joined
      rw [ih _ clean] at clean
      have first := clean _ (.head _)
      exact absurd joined.1.1 first
    next apart =>
      rw [if_neg apart, ih region fun other member => clean other (.tail _ member)]

theorem simplifyConflicts_of_clean {regions : List Region} (clean : ∀ region ∈ regions, region.kind ≠ .conflict) :
    simplifyConflicts regions = regions := by
  have from_last (last : Region) (rest : List Region) (first : last.kind ≠ .conflict)
    (others : ∀ region ∈ rest, region.kind ≠ .conflict) :
      simplifyFrom last rest = last :: rest := by
    induction rest generalizing last with
    | nil => rfl
    | cons region rest ih =>
      rw [forall_mem_cons] at others
      rw [simplifyFrom, if_neg (by simp [first]), ih region others.1 others.2]
  cases regions with
  | nil => rfl
  | cons region rest =>
    rw [forall_mem_cons] at clean
    exact from_last region rest clean.1 clean.2

theorem mergeContent_spec (isspace isalpha : CharClass) (ourLabel theirLabel : Bytes)
    {baseText ourText theirText : Bytes}
    {ourChanges theirChanges : List Change}
      (ours : changesTo isspace isalpha (load baseText) (load ourText) = some ourChanges)
    (theirs : changesTo isspace isalpha (load baseText) (load theirText) = some theirChanges) :
    ((∀ region ∈ regions (load ourText) (load theirText) ourChanges theirChanges, region.kind ≠ .conflict) →
      mergeContent isspace isalpha ourLabel theirLabel baseText ourText theirText = some
        (render (written (load baseText) (load ourText) (load theirText) 0
          (regions (load ourText) (load theirText) ourChanges theirChanges)), 0)) ∧
    ∀ text, mergeContent isspace isalpha ourLabel theirLabel baseText ourText theirText = some (text, 0) →
      ∀ region ∈ regions (load ourText) (load theirText) ourChanges theirChanges, region.kind ≠ .conflict := by
  have merged : mergeContent isspace isalpha ourLabel theirLabel baseText ourText theirText =
      some (writeRegions isspace isalpha ourLabel theirLabel (load baseText) (load ourText) (load theirText) 0
        (simplifyConflicts (regions (load ourText) (load theirText) ourChanges theirChanges))) := by
    simp [mergeContent, ours, theirs]
  obtain ⟨count, text⟩ := @writeRegions_spec isspace isalpha ourLabel theirLabel (load baseText) (load ourText)
    (load theirText) 0
    (simplifyConflicts (regions (load ourText) (load theirText) ourChanges theirChanges))
  rw [merged]
  constructor
  · intro clean
    rw [simplifyConflicts_of_clean clean] at count text ⊢
    rw [Option.some_inj, Prod.ext_iff]
    exact ⟨text clean, count.2 clean⟩
  · intro text' same
    rw [Option.some_inj] at same
    have clean := count.1 (congrArg Prod.snd same)
    generalize regions (load ourText) (load theirText) ourChanges theirChanges = list at clean ⊢
    cases list with
    | nil => exact nofun
    | cons first rest => rwa [simplifyConflicts, simplifyFrom_clean first clean] at clean

end

end BashOs.Git.Merge

import BashOs.Git.Diff.Compact
import BashOs.Git.Diff.Hunks
import BashOs.Git.Diff.Settle

/-!
The line diff as a whole: `bgit_xdiff_full` sets the shared lines aside, leaves out those that are not worth a search,
searches the rest and moves the runs of change to where they read best. The lines it leaves unmarked on the two sides
match one by one under the whitespace rule, so the runs of change lead from the old file to the new one.
-/

namespace BashOs.Git.Diff
open BashOs.Lib List

def Flags.algorithm (flags : Flags) : Algorithm :=
  { minimal := flags.minimal, patience := flags.patience, histogram := flags.histogram }

def Flags.alternate (flags : Flags) : Bool := flags.patience || flags.histogram

/-- The lines that are compared: the first so many of each file, the keys they are compared by, and how many of them the
files share at the top and at the bottom. -/
structure Reduced where
  nOld : Nat
  nNew : Nat
  keyOld : XdiffFile
  keyNew : XdiffFile
  dstart : Nat
  tail : Nat

section
variable (isspace isalpha : CharClass) (flags : Flags) (old new : XdiffFile)

def reduce : Reduced :=
  let (nOld, nNew) := comparedLines flags old new
  let (keyOld, keyNew) := keyFiles isspace flags old new
  let dstart := if flags.alternate then 0 else scan (fun i => lineSame keyOld i keyNew i) (min nOld nNew)
  let tail := if flags.alternate then 0
    else scan (fun k => lineSame keyOld (nOld - 1 - k) keyNew (nNew - 1 - k)) (min nOld nNew - dstart)
  { nOld, nNew, keyOld, keyNew, dstart, tail }

def Reduced.chooseOld (r : Reduced) (i : Nat) : Bool :=
  flags.alternate || worthSearching (fun i => ((List.range r.nNew).map r.keyNew.line).count (r.keyOld.line i))
    (eqLimit r.nOld) r.dstart (r.nOld - r.tail - 1) i

def Reduced.chooseNew (r : Reduced) (j : Nat) : Bool :=
  flags.alternate || worthSearching (fun j => ((List.range r.nOld).map r.keyOld.line).count (r.keyNew.line j))
    (eqLimit r.nNew) r.dstart (r.nNew - r.tail - 1) j

def Reduced.search (r : Reduced) : Option Marks :=
  let between := upTo r.dstart (r.nOld - r.tail)
  let between' := upTo r.dstart (r.nNew - r.tail)
  let marks : Marks := { old := fun _ => false, new := fun _ => false }
  let marks := (marks.markOld (between.filter (!r.chooseOld flags ·))).markNew (between'.filter (!r.chooseNew flags ·))
  searchLines compareAll r.keyOld r.keyNew flags.algorithm (between.filter (r.chooseOld flags))
    (between'.filter (r.chooseNew flags))
    flags.minimal marks

def xdiffMarks : Option Marks := do
  let r := reduce isspace flags old new
  let marks ← r.search flags
  let oldChanged ← compact isspace r.keyOld old r.nOld marks.new r.nNew flags.indentHeuristic marks.old
  let newChanged ← compact isspace r.keyNew new r.nNew oldChanged r.nOld flags.indentHeuristic marks.new
  some { old := oldChanged, new := newChanged }

structure XdiffResult where
  marks : Marks
  hunks : List Hunk
  added : Nat
  removed : Nat

def xdiffFull (context interContext : Int) : Option XdiffResult := do
  let context := max context 0
  let marks ← xdiffMarks isspace flags old new
  let removed := (List.range old.lines.length).countP marks.old
  let added := (List.range new.lines.length).countP marks.new
  if added = 0 ∧ removed = 0 then some { marks, hunks := [], added, removed }
  else
    let runs ← changes marks old.lines.length new.lines.length
    let gathered ← gatherHunks isspace isalpha old new context (2 * context + max interContext 0) flags runs
    if flags.ignoreBlankLines then
      some { marks, hunks := gathered.hunks, added := gathered.keptAdded, removed := gathered.keptRemoved }
    else some { marks, hunks := gathered.hunks, added, removed }

def XdiffFile.unmarked (file : XdiffFile) (changed : Nat → Bool) : List (Bytes × Bool) :=
  kept file.entry changed (List.range file.lines.length)

end

/-! ## Soundness -/

section
variable {isspace : CharClass} {flags : Flags} {a b : Bytes}

def Reduced.whole (r : Reduced) (flags : Flags) : Xd where
  a := r.keyOld
  b := r.keyNew
  ia i := i
  ib j := j
  mxcost := 0
  algorithm := flags.algorithm

structure Reduced.Shares (r : Reduced) : Prop where
  short : r.dstart + r.tail ≤ r.nOld ∧ r.dstart + r.tail ≤ r.nNew
  top : ∀ k < r.dstart, lineSame r.keyOld k r.keyNew k = true
  bottom : ∀ k < r.tail, lineSame r.keyOld (r.nOld - 1 - k) r.keyNew (r.nNew - 1 - k) = true

theorem reduce_shares (isspace : CharClass) (flags : Flags) (old new : XdiffFile) :
    (reduce isspace flags old new).Shares := by
  unfold reduce
  dsimp only
  generalize (comparedLines flags old new).1 = nOld
  generalize (comparedLines flags old new).2 = nNew
  generalize (keyFiles isspace flags old new).1 = keyOld
  generalize (keyFiles isspace flags old new).2 = keyNew
  cases flags.alternate with
  | true =>
    exact ⟨by simp, nofun, nofun⟩
  | false =>
    simp only [Bool.false_eq_true, if_false]
    have top : scan (fun i => lineSame keyOld i keyNew i) (min nOld nNew) ≤ min nOld nNew := scan_le
    refine ⟨?_, fun k below => ?_, fun k below => ?_⟩
    · dsimp only
      generalize scan (fun i => lineSame keyOld i keyNew i) (min nOld nNew) = dstart at top
      have bottom : scan (fun k => lineSame keyOld (nOld - 1 - k) keyNew (nNew - 1 - k))
        (min nOld nNew - dstart) ≤ _ := scan_le
      omega
    · have same := scan_holds below
      exact same
    · have same := scan_holds below
      exact same

/-- The lines that are compared and left unmarked are the same on both sides, and no other line is marked. -/
structure Reduced.Solves (r : Reduced) (marks : Marks) : Prop where
  same : kept r.keyOld.line marks.old (List.range r.nOld) = kept r.keyNew.line marks.new (List.range r.nNew)
  old : ∀ i, r.nOld ≤ i → marks.old i = false
  new : ∀ j, r.nNew ≤ j → marks.new j = false

theorem Reduced.search_spec (r : Reduced) (flags : Flags) (shares : r.Shares)
    (fits : (r.nOld + r.nNew : Int) < longMax) :
    ∃ marks, r.search flags = some marks ∧ r.Solves marks := by
  obtain ⟨short, top, bottom⟩ := shares
  have nodup (first last : Nat) : ((upTo first last).map fun i => i).Nodup := by
    rw [map_id']
    exact nodup_range'
  have region : Region (r.whole flags) 0 r.nOld 0 r.nNew :=
    ⟨Nat.zero_le _, Nat.zero_le _, nodup 0 r.nOld, nodup 0 r.nNew, fits⟩
  have blank (lines lines' : List Nat) : ({ old := fun _ => false, new := fun _ => false } : Marks).Fresh lines
      lines' :=
    ⟨fun _ _ => rfl, fun _ _ => rfl⟩
  have fresh := Marks.Fresh.of_filter (r.chooseOld flags) (r.chooseNew flags) (nodup r.dstart (r.nOld - r.tail))
    (nodup r.dstart (r.nNew - r.tail)) (blank _ _)
  have chosen (choose : Nat → Bool) (first last : Nat) : ((upTo first last).filter choose).Nodup :=
    (nodup_range').sublist filter_sublist
  have few (choose : Nat → Bool) (first last : Nat) : ((upTo first last).filter choose).length ≤ last - first := by
    have bound := length_filter_le choose (upTo first last)
    rwa [upTo, length_range'] at bound
  have few1 := few (r.chooseOld flags) r.dstart (r.nOld - r.tail)
  have few2 := few (r.chooseNew flags) r.dstart (r.nNew - r.tail)
  simp only [map_id'] at fresh
  obtain ⟨marks, ran, settled⟩ := searchLines_solves r.keyOld r.keyNew flags.algorithm (chosen (r.chooseOld flags) _ _)
    (chosen (r.chooseNew flags) _ _) (by omega) (compareAll_below _) (Nat.lt_succ_self _) flags.minimal fresh
  refine ⟨marks, ran, ?_⟩
  have between : Settles (r.whole flags) r.dstart (r.nOld - r.tail) r.dstart (r.nNew - r.tail)
      { old := fun _ => false, new := fun _ => false } marks := by
    have same (lines : List Nat) : lines.map (r.whole flags).ia = lines := map_id' lines
    have same' (lines : List Nat) : lines.map (r.whole flags).ib = lines := map_id' lines
    refine Marks.Settled.of_filter (r.chooseOld flags) (r.chooseNew flags) (nodup _ _) (nodup _ _) ?_
    rwa [same, same, same', same']
  have whole : Settles (r.whole flags) 0 r.nOld 0 r.nNew { old := fun _ => false, new := fun _ => false } marks := by
    refine Settles.around r.dstart r.tail region (blank _ _) (by omega) (fun k below => ?_) bottom ?_
    · rw [zero_add]
      exact top k below
    · rwa [zero_add]
  have same := whole.same
  have old := whole.old
  have new := whole.new
  simp only [Xd.oldLines, Xd.newLines, Reduced.whole, map_id'] at same old new
  refine ⟨by rwa [range_eq_upTo, range_eq_upTo], fun i past => old i ?_, fun j past => new j ?_⟩
  · rw [mem_upTo]
    omega
  · rw [mem_upTo]
    omega

theorem forall₂_of_mem {α β : Type} {R S : α → β → Prop} {as : List α} {bs : List β} (related : List.Forall₂ R as bs)
    (rule : ∀ a ∈ as, ∀ b ∈ bs, R a b → S a b) : List.Forall₂ S as bs := by
  induction related with
  | nil => exact .nil
  | cons first _ ih =>
    refine .cons (rule _ mem_cons_self _ (.head _) first) (ih fun a member b member' => ?_)
    exact rule a (.tail _ member) b (.tail _ member')

theorem forall₂_keys_iff {α : Type} {f g : Nat → α} {a b : List Nat} :
    List.Forall₂ (fun p q => f p = g q) a b ↔ a.map f = b.map g := by
  rw [← forall₂_eq_eq_eq, forall₂_map_left_iff, forall₂_map_right_iff]

theorem forall₂_of_keys {α κ : Type} {Same : α → α → Prop} {lines lines' : List Nat} (key key' : Nat → κ)
    {entry entry' : Nat → α}
    (same : lines.map key = lines'.map key') (rule : ∀ i ∈ lines, ∀ j ∈ lines', key i = key' j →
      Same (entry i) (entry' j)) :
    List.Forall₂ Same (lines.map entry) (lines'.map entry') := by
  rw [forall₂_map_left_iff, forall₂_map_right_iff]
  exact forall₂_of_mem (forall₂_keys_iff.2 same) rule

theorem map_line_upTo (file : XdiffFile) (first : Nat) :
    (upTo first file.lines.length).map file.line = file.lines.drop first := by
  rw [← drop_map_range]
  congr 1
  apply ext_getElem
  · simp
  · intro i below inside
    simp [XdiffFile.line, getElem?_eq_getElem inside]

/-- Lines that are compared and left unmarked stand in a relation if those compared as the same do, and if the lines
that are left out of the comparison do. -/
theorem Reduced.Solves.aligned {Same : Bytes × Bool → Bytes × Bool → Prop} {marks : Marks} {r : Reduced}
    {old new : XdiffFile} (solved : r.Solves marks) (few : r.nOld ≤ old.lines.length ∧ r.nNew ≤ new.lines.length)
    (rule : ∀ i < r.nOld, ∀ j < r.nNew, r.keyOld.line i = r.keyNew.line j → Same (old.entry i) (new.entry j))
    (back : List.Forall₂ Same (old.entries.drop r.nOld) (new.entries.drop r.nNew)) :
    List.Forall₂ Same (old.unmarked marks.old) (new.unmarked marks.new) := by
  obtain ⟨same, old_tail, new_tail⟩ := solved
  have front : List.Forall₂ Same (kept old.entry marks.old (range r.nOld))
      (kept new.entry marks.new (range r.nNew)) := by
    refine forall₂_of_keys _ _ same fun i member j member' => rule i ?_ j ?_
    · exact mem_range.1 (mem_filter.1 member).1
    · exact mem_range.1 (mem_filter.1 member').1
  have split (n m : Nat) (le : n ≤ m) : range m = range n ++ upTo n m := by
    rw [range_eq_upTo, range_eq_upTo, upTo_append (Nat.zero_le n) le]
  unfold XdiffFile.unmarked
  rw [split _ _ few.1, split _ _ few.2, kept_append, kept_append]
  refine rel_append front ?_
  rw [kept_unmarked fun i member => old_tail i (mem_upTo.1 member).1,
    kept_unmarked fun j member => new_tail j (mem_upTo.1 member).1]
  rwa [XdiffFile.entries, XdiffFile.entries, drop_map_range, drop_map_range] at back

theorem keys_rule (plain : (load a).binary = false) (plain' : (load b).binary = false) {marks : Marks}
    (solved : (reduce isspace flags (load a) (load b)).Solves marks) :
    List.Forall₂ (SameLine isspace flags) ((load a).unmarked marks.old) ((load b).unmarked marks.new) := by
  obtain ⟨fewOld, fewNew, -⟩ := comparedLines_spec flags plain plain'
  refine solved.aligned ⟨fewOld, fewNew⟩ (fun i below j below' => keyFiles_same ?_ ?_) ?_
  · exact lt_of_lt_of_le below fewOld
  · exact lt_of_lt_of_le below' fewNew
  · show List.Forall₂ _ ((load a).entries.drop (comparedLines flags (load a) (load b)).1) _
    rw [comparedLines_entries flags plain plain']
    exact forall₂_same.2 fun entry _ => .inl rfl

theorem xdiffMarks_spec (isspace : CharClass) (flags : Flags) (old new : XdiffFile)
    (fits : ((reduce isspace flags old new).nOld + (reduce isspace flags old new).nNew : Int) < longMax) :
    ∃ marks, xdiffMarks isspace flags old new = some marks ∧ (reduce isspace flags old new).Solves marks := by
  obtain ⟨marks, searched, same, old_tail, new_tail⟩ := (reduce isspace flags old new).search_spec flags
    (reduce_shares _ _ _ _) fits
  obtain ⟨oldChanged, compacted, same1, old_tail⟩ := compact_spec isspace (reduce isspace flags old new).keyOld old
    marks.new (reduce isspace flags old new).nNew flags.indentHeuristic old_tail
  obtain ⟨newChanged, compacted', same2, new_tail⟩ := compact_spec isspace (reduce isspace flags old new).keyNew new
    oldChanged (reduce isspace flags old new).nOld flags.indentHeuristic new_tail
  refine ⟨{ old := oldChanged, new := newChanged }, ?_, same1.trans (same.trans same2.symm), old_tail, new_tail⟩
  simp [xdiffMarks, searched, compacted, compacted']

theorem xdiffMarks_solves (isspace : CharClass) (flags : Flags) (old new : LineFile) :
    ∃ marks, xdiffMarks isspace flags old.file new.file = some marks ∧
      (reduce isspace flags old.file new.file).Solves marks := by
  obtain ⟨fewOld, fewNew, -⟩ := comparedLines_spec flags old.binary_file new.binary_file
  have small := old.fits_file
  have small' := new.fits_file
  refine xdiffMarks_spec isspace flags old.file new.file ?_
  have bound : (reduce isspace flags old.file new.file).nOld ≤ old.file.lines.length := fewOld
  have bound' : (reduce isspace flags old.file new.file).nNew ≤ new.file.lines.length := fewNew
  unfold longMax
  omega

theorem xdiffMarks_sound (isspace : CharClass) (flags : Flags) (old new : LineFile) :
    ∃ marks, xdiffMarks isspace flags old.file new.file = some marks ∧
      List.Forall₂ (SameLine isspace flags) (old.file.unmarked marks.old) (new.file.unmarked marks.new) := by
  obtain ⟨marks, ran, solved⟩ := xdiffMarks_solves isspace flags old new
  exact ⟨marks, ran, keys_rule old.binary_file new.binary_file solved⟩

theorem xdiffFull_marks (isalpha : CharClass) {old new : XdiffFile} {marks : Marks} {runs : List Change}
    (context interContext : Int) (ran : xdiffMarks isspace flags old new = some marks)
    (found : changes marks old.lines.length new.lines.length = some runs) :
    ∃ result, xdiffFull isspace isalpha flags old new context interContext = some result ∧ result.marks = marks := by
  obtain ⟨gathered, gather⟩ := gatherHunks_ends isspace isalpha old new (max context 0)
    (2 * max context 0 + max interContext 0) flags runs
  simp only [xdiffFull, ran, found, gather, bind, Option.bind]
  split
  · exact ⟨_, rfl, rfl⟩
  · split
    · exact ⟨_, rfl, rfl⟩
    · exact ⟨_, rfl, rfl⟩

/-- For any two texts and any flags and context a diff comes back, the lines it leaves unmarked match one by one,
and its runs of change turn the old lines into lines that match the new ones. -/
theorem xdiffFull_sound (isspace isalpha : UInt8 → Bool) (flags : Flags) (old new : LineFile)
    (context interContext : Int) :
    ∃ result, xdiffFull isspace isalpha flags old.file new.file context interContext = some result ∧
      List.Forall₂ (SameLine isspace flags) (old.file.unmarked result.marks.old) (new.file.unmarked result.marks.new) ∧
      ∃ runs, changes result.marks old.file.lines.length new.file.lines.length = some runs ∧
        List.Forall₂ (SameLine isspace flags) (applyRuns old.file.entries new.file.entries runs) new.file.entries := by
  obtain ⟨marks, ran, aligned⟩ := xdiffMarks_sound isspace flags old new
  obtain ⟨runs, found, -, -, -, -, applied⟩ := changes_spec
    (fun line => show SameLine isspace flags line line from .inl rfl) aligned
  obtain ⟨result, full, own⟩ := xdiffFull_marks isalpha context interContext ran found
  rw [← own] at aligned found
  exact ⟨result, full, aligned, runs, found, applied⟩

end

end BashOs.Git.Diff

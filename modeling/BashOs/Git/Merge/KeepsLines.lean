import Mathlib.Data.List.Count
import BashOs.Git.Merge.Content

/-!
What a merge without conflicts keeps. Every line that a side has in a run of change is written, in order. What is
written is read again as the same lines, unless the last line of the base stays in place without a newline and a
side has lines behind it; and nothing is written only if a side is empty.
-/

namespace BashOs.Git.Merge
open BashOs.Lib BashOs.Git.Diff List Change

/-! ## The lines in the runs -/

def newPlaces (runs : List Change) : List Nat := runs.flatMap fun change => upTo change.newStart change.newStop

section
variable {nOld nNew i j first last : Nat} {runs rest : List Change} {isspace : CharClass} {old new : XdiffFile}
  {marks : Marks}

theorem newPlaces_sublist (held : RunsFrom nOld nNew i j (runs ++ rest))
    (within : ∀ change ∈ runs, first ≤ change.newStart ∧ change.newStop ≤ last) :
    (newPlaces runs).Sublist (upTo first last) := by
  induction runs generalizing i j first with
  | nil => exact nil_sublist _
  | cons change runs ih =>
    obtain ⟨-, -, -, -, held⟩ := held
    rw [forall_mem_cons] at within
    obtain ⟨⟨starts, stops⟩, others⟩ := within
    have long : change.newStart ≤ change.newStop := Nat.le_add_right _ _
    rw [upTo_append starts (le_trans long stops), upTo_append long stops]
    refine List.Sublist.trans ?_ (sublist_append_right _ _)
    refine List.Sublist.append (List.Sublist.refl _) (ih held fun other member => ?_)
    exact ⟨(held.bounds (mem_append_left rest member)).2.1, (others other member).2⟩

theorem Compared.perm_newPlaces (compared : Compared isspace old new marks runs) :
    ((List.range new.lines.length).filter marks.new).Perm (newPlaces runs) := by
  have sublist : (newPlaces runs).Sublist (upTo 0 new.lines.length) := by
    have held : RunsFrom old.lines.length new.lines.length 0 0 (runs ++ []) := by
      rw [append_nil]
      exact compared.held
    exact newPlaces_sublist held fun change member => ⟨Nat.zero_le _, (compared.held.bounds member).2.2.2⟩
  refine (perm_ext_iff_of_nodup (nodup_range.filter _) (sublist.nodup nodup_range')).2 fun q => ?_
  rw [mem_filter, mem_range, newPlaces, mem_flatMap]
  constructor
  · rintro ⟨inside, marked⟩
    obtain ⟨change, member, low, high⟩ := (compared.inNew q inside).1 marked
    exact ⟨change, member, mem_upTo.2 ⟨low, high⟩⟩
  · rintro ⟨change, member, range⟩
    have range := mem_upTo.1 range
    have inside : q < new.lines.length := lt_of_lt_of_le range.2 (compared.held.bounds member).2.2.2
    exact ⟨inside, (compared.inNew q inside).2 ⟨change, member, range⟩⟩

theorem Compared.count_le (compared : Compared isspace old new marks runs) (line : Bytes) :
    new.lines.count line ≤ ((newPlaces runs).map new.line).count line + old.lines.count line := by
  have whole (file : XdiffFile) : (range file.lines.length).map file.line = file.lines := by
    rw [range_eq_upTo, map_line_upTo, drop_zero]
  have inPlace_same : kept new.line marks.new (range new.lines.length) =
      kept old.line marks.old (range old.lines.length) := by
    rw [kept_range, kept_range, ← forall₂_keys_iff.1 ((compared.inStep _).2 compared.same)]
  have parts := (filter_append_perm marks.new (range new.lines.length)).map new.line
  rw [map_append, whole] at parts
  have left : ((range new.lines.length).filter fun q => !marks.new q).map new.line =
      kept old.line marks.old (range old.lines.length) := inPlace_same
  have fewer : (kept old.line marks.old (range old.lines.length)).Sublist old.lines := by
    have sublist := (filter_sublist (p := (!marks.old ·)) (l := range old.lines.length)).map old.line
    rwa [whole] at sublist
  calc new.lines.count line = (((range new.lines.length).filter marks.new).map new.line).count line +
        (kept old.line marks.old (range old.lines.length)).count line := by
        rw [← parts.count_eq, count_append, left]
    _ ≤ ((newPlaces runs).map new.line).count line + old.lines.count line := by
        rw [(compared.perm_newPlaces.map new.line).count_eq]
        exact Nat.add_le_add_left (fewer.count_le line) _

end

/-! ## What is written -/

variable {region : Region} {marks : Marks} {runs : List Change} {base : Bytes}

section
variable {nBase nOurs nTheirs low i j i' j' place : Nat} {base our their : XdiffFile} {as bs : List Change}
  {list : List Region}

theorem copied_contents {file : XdiffFile} {first last : Nat} (inside : last ≤ file.lines.length) :
    (copied file first last).map Prod.fst = (upTo first last).map file.line := by
  rw [copied, min_eq_left inside, map_map]
  rfl

theorem linesEqual_contents {a b : XdiffFile} {a0 a1 b0 b1 : Nat} (same : linesEqual a a0 a1 b b0 b1 = true) :
    (upTo a0 a1).map a.line = (upTo b0 b1).map b.line := by
  simp only [linesEqual, Bool.and_eq_true, decide_eq_true_eq, all_eq_true, mem_range] at same
  obtain ⟨length, same⟩ := same
  rw [upTo, upTo, ← length, range'_eq_map_range, range'_eq_map_range, map_map, map_map, map_inj_left]
  exact fun k inside => same k (mem_range.1 inside)

theorem Cut.keeps (cut : Cut nBase our.lines.length their.lines.length our their low i j i' j' as bs list)
    (clean : ∀ region ∈ list, region.kind ≠ .conflict) (place : Nat) :
    ((newPlaces as).map our.line).Sublist ((written base our their place list).map Prod.fst) ∧
      ((newPlaces bs).map their.line).Sublist ((written base our their place list).map Prod.fst) := by
  induction cut generalizing place with
  | done => exact ⟨nil_sublist _, nil_sublist _⟩
  | @ours low i j i' j' a as bs list low_le held rest ih =>
    obtain ⟨kept, kept'⟩ := ih (forall_mem_cons.1 clean).2 a.oldStop
    have own : (regionLines our their (oursRegion a)).map Prod.fst = (upTo a.newStart a.newStop).map our.line :=
      copied_contents (held.bounds (.head _)).2.2.2
    rw [written, map_append, map_append, own]
    constructor
    · rw [newPlaces, flatMap_cons, map_append]
      exact (sublist_append_right _ _).append kept
    · exact kept'.trans (sublist_append_right _ _)
  | @theirs low i j i' j' b as bs list low_le held rest ih =>
    obtain ⟨kept, kept'⟩ := ih (forall_mem_cons.1 clean).2 b.oldStop
    have own : (regionLines our their (theirsRegion b)).map Prod.fst = (upTo b.newStart b.newStop).map their.line :=
      copied_contents (held.bounds (.head _)).2.2.2
    rw [written, map_append, map_append, own]
    constructor
    · exact kept.trans (sublist_append_right _ _)
    · rw [newPlaces, flatMap_cons, map_append]
      exact (sublist_append_right _ _).append kept'
  | @both _ _ _ _ _ _ _ _ _ taken taken' _ _ region _ _ _ _ _ held held' _ _ _ _ _ _ _ _ inside _ within within' kind _ ih =>
    obtain ⟨kept, kept'⟩ := ih (forall_mem_cons.1 clean).2 region.baseEnd
    obtain ⟨either, same⟩ | conflict := kind
    · have own : (regionLines our their region).map Prod.fst = (upTo region.ourStart region.ourEnd).map our.line := by
        rw [regionLines, either]
        exact copied_contents inside
      have taken_kept := (newPlaces_sublist held fun change member => (within change member).2.2).map our.line
      have taken_kept' := (newPlaces_sublist held' fun change member => (within' change member).2.2).map their.line
      rw [← linesEqual_contents same] at taken_kept'
      rw [written, map_append, map_append, own, newPlaces, newPlaces, flatMap_append, flatMap_append,
        map_append, map_append]
      exact ⟨(taken_kept.trans (sublist_append_right _ _)).append kept,
        (taken_kept'.trans (sublist_append_right _ _)).append kept'⟩
    · exact absurd conflict (clean region (.head _))

theorem tidy_region (start_le : region.baseStart ≤ region.baseEnd) (lines : Tidy (regionLines our their region))
    (more : region.baseEnd < base.lines.length → (∀ line ∈ regionLines our their region, line.2 = true) ∧ Tidy
      (written base our their region.baseEnd list)) (none : ¬ region.baseEnd < base.lines.length → list = [])
    (flush : base.missingNewline = true → base.lines.length ≤ region.baseStart → base.lines.length ≤ place) :
    Tidy (written base our their place (region :: list)) := by
  have front (inside : region.baseStart < base.lines.length ∨ base.missingNewline = false ∨ base.lines.length ≤ place) :
      ∀ line ∈ copied base place region.baseStart, line.2 = true := by
    obtain early | complete | late := inside
    · exact complete_copied (.inl early)
    · exact complete_copied (.inr complete)
    · intro line member
      obtain ⟨i, range, -⟩ := mem_map.1 member
      have range := mem_upTo.1 range
      omega
  rw [written, append_assoc]
  by_cases inside : region.baseEnd < base.lines.length
  · obtain ⟨complete, tidy⟩ := more inside
    exact tidy_append (front (.inl (by omega))) (tidy_append complete tidy)
  rw [none inside]
  have nothing : written base our their region.baseEnd [] = [] := by
    rw [written, copied, upTo, Nat.sub_eq_zero_of_le (by omega)]
    rfl
  rw [nothing, append_nil]
  refine tidy_append (front ?_) lines
  by_cases start : region.baseStart < base.lines.length
  · exact .inl start
  · cases missing : base.missingNewline with
    | true => exact .inr (.inr (flush missing (by omega)))
    | false => exact .inr (.inl rfl)

def Flush (base : XdiffFile) (place : Nat) (runs : List Change) : Prop :=
  base.missingNewline = true → (∃ change ∈ runs, base.lines.length ≤ change.oldStart) →
    base.lines.length ≤ place ∨ ∃ change ∈ runs, change.oldStart < base.lines.length ∧
      base.lines.length ≤ change.oldStop

section
variable {runs done rest : List Change} {change : Change}

theorem Flush.later {stop : Nat} (flush : Flush base place runs)
    (split : ∀ change, change ∈ runs ↔ change ∈ done ∨ change ∈ rest)
    (place_le : place < base.lines.length) (before : ∀ change ∈ done, change.oldStop < base.lines.length) :
      Flush base stop rest := by
  rintro missing ⟨change, member, behind⟩
  obtain past | ⟨other, among, starts, stops⟩ := flush missing ⟨change, (split change).2 (.inr member), behind⟩
  · omega
  · refine .inr ⟨other, ((split other).1 among).resolve_left fun gone => ?_, starts, stops⟩
    have early := before other gone
    omega

theorem tidy_changes (start_le : region.baseStart ≤ region.baseEnd) (place_le : place ≤ region.baseStart)
    (lines : Tidy (regionLines our their region))
    (complete : region.baseEnd < base.lines.length → ∀ line ∈ regionLines our their region, line.2 = true)
    (split : ∀ change, change ∈ runs ↔ change ∈ done ∨ change ∈ rest) (some : done ≠ [])
    (within : ∀ change ∈ done, region.baseStart ≤ change.oldStart ∧ change.oldStop ≤ region.baseEnd)
    (past : base.lines.length < region.baseEnd + 1 → rest = [] ∧ list = []) (flush : Flush base place runs)
    (later : Flush base region.baseEnd rest → Tidy (written base our their region.baseEnd list)) :
    Tidy (written base our their place (region :: list)) := by
  refine tidy_region start_le lines (fun inside => ⟨complete inside, later ?_⟩)
    (fun outside => (past (Nat.lt_succ_of_le (Nat.le_of_not_lt outside))).2) fun missing behind => ?_
  · exact flush.later split (by omega) fun change member => lt_of_le_of_lt (within change member).2 inside
  · obtain ⟨first, member⟩ := exists_mem_of_ne_nil done some
    obtain beyond | ⟨other, among, starts, -⟩ := flush missing
      ⟨first, (split first).2 (.inl member), le_trans behind (within first member).1⟩
    · exact beyond
    rw [(past (by omega)).1] at split
    have taken := ((split other).1 among).resolve_right not_mem_nil
    exact absurd starts (not_lt.2 (le_trans behind (within other taken).1))

theorem tidy_alone {nNew : XdiffFile} {more : List Change} {k l : Nat} (takes : Takes our their nNew change region)
    (held : RunsFrom base.lines.length nNew.lines.length k l (change :: more)) (place_le : place ≤ change.oldStart)
    (split : ∀ other, other ∈ runs ↔ other ∈ [change] ∨ other ∈ as ++ bs)
    (cut : Cut base.lines.length nOurs nTheirs our their (region.baseEnd + 1) i j i' j' as bs list)
      (flush : Flush base place runs)
    (later : Flush base region.baseEnd (as ++ bs) → Tidy (written base our their region.baseEnd list)) :
    Tidy (written base our their place (region :: list)) := by
  obtain ⟨-, -, -, gap, onward⟩ := held
  have long : region.baseStart ≤ region.baseEnd := by
    rw [takes.start, takes.stop]
    exact Nat.le_add_right _ _
  refine tidy_changes long (takes.start ▸ place_le) (takes.lines ▸ tidy_copied _ _ _) (fun inside => ?_) split
    (cons_ne_nil _ _) (forall_mem_singleton.2 ⟨takes.start.le, takes.stop.ge⟩) (fun past => ?_) flush later
  · rw [takes.lines]
    have shift := RunsFrom_shift onward (takes.stop ▸ inside) gap
    exact complete_copied (.inl (by omega))
  · obtain ⟨rfl, rfl, rfl⟩ := cut.past_end past
    exact ⟨rfl, rfl⟩

end

theorem Cut.tidy (cut : Cut base.lines.length our.lines.length their.lines.length our their low i j i' j' as bs list)
    (clean : ∀ region ∈ list, region.kind ≠ .conflict) (place_le : place ≤ low) (flush : Flush base place (as ++ bs)) :
    Tidy (written base our their place list) := by
  induction cut generalizing place with
  | done => exact tidy_copied base place _
  | ours low_le held rest ih =>
    exact tidy_alone (takes_ours our their _) held (le_trans place_le low_le) (by simp) rest flush
      (ih (forall_mem_cons.1 clean).2 (Nat.le_succ _))
  | theirs low_le held rest ih =>
    refine tidy_alone (takes_theirs our their _) held (le_trans place_le low_le) (fun change => ?_) rest flush
      (ih (forall_mem_cons.1 clean).2 (Nat.le_succ _))
    simp only [mem_append, mem_cons, not_mem_nil, or_false]
    exact or_left_comm
  | @both _ _ _ _ _ _ _ _ _ taken taken' as bs region list low_le start_le _ some _ _ onward _ gap _ _ stops _ _ inside _ within
      within' kind rest ih =>
    have lines : regionLines our their region = copied our region.ourStart region.ourEnd := by
      obtain ⟨either, -⟩ | conflict := kind
      · rw [regionLines, either]
      · exact absurd conflict (clean region (.head _))
    have split : ∀ change, change ∈ taken ++ as ++ (taken' ++ bs) ↔ change ∈ taken ++ taken' ∨ change ∈ as ++ bs := by
      intro change
      simp only [mem_append]
      exact or_or_or_comm
    refine tidy_changes start_le (le_trans place_le low_le) (lines ▸ tidy_copied _ _ _) (fun early => ?_) split
      (by simp [some])
      ?_ (fun past => ?_) flush (ih (forall_mem_cons.1 clean).2 (Nat.le_succ _))
    · rw [lines]
      have shift := RunsFrom_shift onward early gap
      exact complete_copied (.inl (by omega))
    · intro change member
      obtain ours | theirs := mem_append.1 member
      · exact ⟨(within change ours).1, (within change ours).2.1⟩
      · exact ⟨(within' change theirs).1, (within' change theirs).2.1⟩
    · obtain ⟨rfl, rfl, rfl⟩ := rest.past_end past
      exact ⟨rfl, rfl⟩

theorem copied_eq_nil {file : XdiffFile} {first last : Nat} (none : copied file first last = []) :
    min last file.lines.length ≤ first := by
  have length := congrArg length none
  rw [copied, length_map, upTo, length_range', length_nil] at length
  omega

theorem Cut.written_ne_nil
    (cut : Cut base.lines.length our.lines.length their.lines.length our their (place + 1) i j i' j' as bs list)
    (inside : place < base.lines.length) : written base our their place list ≠ [] := by
  intro none
  have start (region : Region) (rest : List Region) (low : place + 1 ≤ region.baseStart)
      (none : written base our their place (region :: rest) = []) : False := by
    rw [written, append_eq_nil_iff, append_eq_nil_iff] at none
    have few := copied_eq_nil none.1.1
    omega
  cases cut with
  | done =>
    have few := copied_eq_nil none
    omega
  | ours low_le => exact start _ _ low_le none
  | theirs low_le => exact start _ _ low_le none
  | both low_le => exact start _ _ low_le none

theorem Cut.empty (cut : Cut base.lines.length our.lines.length their.lines.length our their 0 0 0 0 0 as bs list)
    (clean : ∀ region ∈ list, region.kind ≠ .conflict) (none : written base our their 0 list = []) :
    our.lines.length = 0 ∨ their.lines.length = 0 := by
  -- a region that is all there is covers the base
  have covers {region : Region} {rest : List Region} {i j i' j' : Nat} {as bs : List Change}
      (none : written base our their 0 (region :: rest) = []) (stop_le : region.baseEnd ≤ base.lines.length)
      (start_le : region.baseStart ≤ region.baseEnd)
      (onward : Cut base.lines.length our.lines.length their.lines.length our their
        (region.baseEnd + 1) i j i' j' as bs rest) :
      region.baseStart = 0 ∧ region.baseEnd = base.lines.length ∧ as = [] ∧ bs = [] ∧
        regionLines our their region = [] := by
    rw [written, append_eq_nil_iff, append_eq_nil_iff] at none
    have few := copied_eq_nil none.1.1
    have whole : region.baseEnd = base.lines.length := by
      by_contra short
      exact onward.written_ne_nil (by omega) none.2
    obtain ⟨noneA, noneB, -⟩ := onward.past_end (by omega)
    exact ⟨by omega, whole, noneA, noneB, none.1.2⟩
  cases cut with
  | done held =>
    obtain ⟨-, step⟩ := held
    have few := copied_eq_nil none
    omega
  | @ours _ _ _ _ _ a as bs list low_le held rest =>
    have high := (held.bounds (.head _)).2.2
    obtain ⟨start, stop, rfl, -, lines⟩ := covers none high.1 (Nat.le_add_right _ _) rest
    obtain ⟨-, step, -, -, -, onward⟩ := held
    have few : min a.newStop our.lines.length ≤ a.newStart := copied_eq_nil lines
    have begins : a.oldStart = 0 := start
    have ends : a.oldStop = base.lines.length := stop
    omega
  | @theirs _ _ _ _ _ b as bs list low_le held rest =>
    have high := (held.bounds (.head _)).2.2
    obtain ⟨start, stop, -, rfl, lines⟩ := covers none high.1 (Nat.le_add_right _ _) rest
    obtain ⟨-, step, -, -, -, onward⟩ := held
    have few : min b.newStop their.lines.length ≤ b.newStart := copied_eq_nil lines
    have begins : b.oldStart = 0 := start
    have ends : b.oldStop = base.lines.length := stop
    omega
  | @both _ _ _ _ _ _ _ _ _ taken taken' as bs region list _ start_le stop_le _ _ _ onward _ _ _ starts stops _ _ _ _ _ _ kind rest =>
    obtain ⟨start, stop, rfl, -, lines⟩ := covers none stop_le start_le rest
    obtain ⟨-, step⟩ := onward
    rw [regionLines, (kind.resolve_right (clean region (.head _))).1] at lines
    have few := copied_eq_nil lines
    omega

end

/-! ## Texts -/

def added (base side : Bytes) : List Bytes := (linesFrom [] side).diff (linesFrom [] base)

structure LosesNothing (base ours theirs merged : Bytes) : Prop where
  keepsOurs : (added base ours).Subperm (linesFrom [] merged)
  keepsTheirs : (added base theirs).Subperm (linesFrom [] merged)
  some : merged = [] → ours = [] ∨ theirs = []

def LastMarked (changed : Nat → Bool) (n : Nat) : Prop := 0 < n ∧ changed (n - 1) = true

/-- The sides are loaded as lines, and no line is put behind a last line of the base that has no newline. -/
structure Mergeable (isspace : CharClass) (base ours theirs : Bytes) : Prop where
  plainOurs : 0 ∉ ours.take 8000
  plainTheirs : 0 ∉ theirs.take 8000
  flush : ∀ marks marks', xdiffMarks isspace plainFlags (load base) (load ours) = some marks →
    xdiffMarks isspace plainFlags (load base) (load theirs) = some marks' → (load base).missingNewline = true →
    LastMarked marks.old (load base).lines.length ∨ LastMarked marks'.old (load base).lines.length ∨
      ¬ LastMarked marks.new (load ours).lines.length ∧ ¬ LastMarked marks'.new (load theirs).lines.length

section
variable {isspace isalpha : CharClass} {ourLabel theirLabel : Bytes}

theorem Compared.lastMarked {old new : XdiffFile} {change : Change} (compared : Compared isspace old new marks runs)
    (member : change ∈ runs) (behind : old.lines.length ≤ change.oldStart) : LastMarked marks.new new.lines.length := by
  obtain ⟨before, after, rfl⟩ := append_of_mem member
  obtain ⟨i, j, onward, -⟩ := RunsFrom_append compared.held
  have high := (compared.held.bounds member).2.2.1
  obtain ⟨-, -, some, gap, rest⟩ := onward
  have ends : new.lines.length = change.newStop := by
    cases after with
    | nil =>
      obtain ⟨-, step⟩ := rest
      unfold oldStop at high step
      omega
    | cons next after =>
      have later : change.oldStop < next.oldStart := gap next rfl
      have inside := (compared.held.bounds (by simp : next ∈ before ++ change :: next :: after)).2.2.1
      unfold oldStop at *
      omega
  unfold oldStop at high
  have stops : change.newStop = change.newStart + change.newCount := rfl
  refine ⟨by omega, (compared.inNew _ (by omega)).2 ⟨change, member, ?_⟩⟩
  omega

theorem Compared.covers {old new : XdiffFile} (compared : Compared isspace old new marks runs)
    (marked : LastMarked marks.old old.lines.length) :
    ∃ change ∈ runs, change.oldStart < old.lines.length ∧ old.lines.length ≤ change.oldStop := by
  obtain ⟨some, marked⟩ := marked
  obtain ⟨change, member, starts, stops⟩ := (compared.inOld _ (by omega)).1 marked
  exact ⟨change, member, by omega, by omega⟩

theorem Mergeable.flush_runs {ours theirs : Bytes} {marks' : Marks} {as bs : List Change}
    (mergeable : Mergeable isspace base ours theirs) (compared : Compared isspace (load base) (load ours) marks as)
    (compared' : Compared isspace (load base) (load theirs) marks' bs) : Flush (load base) 0 (as ++ bs) := by
  rintro missing ⟨change, member, behind⟩
  obtain gone | gone | apart := mergeable.flush marks marks' compared.ran compared'.ran missing
  · obtain ⟨other, among, covers⟩ := compared.covers gone
    exact .inr ⟨other, mem_append_left _ among, covers⟩
  · obtain ⟨other, among, covers⟩ := compared'.covers gone
    exact .inr ⟨other, mem_append_right _ among, covers⟩
  · obtain ours | theirs := mem_append.1 member
    · exact absurd (compared.lastMarked ours behind) apart.1
    · exact absurd (compared'.lastMarked theirs behind) apart.2

theorem wellEnded_written (base ours theirs : Bytes) (place : Nat) (list : List Region) :
    ∀ line ∈ written (load base) (load ours) (load theirs) place list, WellEnded line := by
  induction list generalizing place with
  | nil => exact wellEnded_copied base _ _
  | cons region rest ih =>
    intro line member
    rw [written, mem_append, mem_append] at member
    obtain (front | own) | later := member
    · exact wellEnded_copied base _ _ line front
    · unfold regionLines at own
      split at own
      · exact wellEnded_copied ours _ _ line own
      · exact wellEnded_copied theirs _ _ line own
      · exact wellEnded_copied ours _ _ line own
      · cases own
    · exact ih _ line later

theorem load_plain {text : Bytes} (plain : 0 ∉ text.take 8000) :
    (load text).binary = false ∧ (load text).lines = linesFrom [] text := by
  have binary : (load text).binary = false := by
    unfold load
    rw [if_neg plain]
  exact ⟨binary, load_lines binary⟩

theorem load_lines_sublist (text : Bytes) : (load text).lines.Sublist (linesFrom [] text) := by
  unfold load
  split
  · exact nil_sublist _
  · exact List.Sublist.refl _

theorem added_subperm {side : Bytes} {lines : List Bytes} (plain : 0 ∉ side.take 8000)
    (compared : Compared isspace (load base) (load side) marks runs)
    (keeps : ((newPlaces runs).map (load side).line).Sublist lines) : (added base side).Subperm lines := by
  rw [subperm_ext_iff]
  intro line _
  have count := compared.count_le line
  have few := (load_lines_sublist base).count_le line
  have kept := keeps.count_le line
  rw [(load_plain plain).2] at count
  rw [added, count_diff]
  omega

theorem mergeContent_loses_nothing {ours theirs text : Bytes} (fits : (linesFrom [] base).length < 2 ^ 60)
    (fits' : (linesFrom [] ours).length < 2 ^ 60) (fits'' : (linesFrom [] theirs).length < 2 ^ 60)
    (mergeable : Mergeable isspace base ours theirs)
    (merged : mergeContent isspace isalpha ourLabel theirLabel base ours theirs = some (text, 0)) :
    LosesNothing base ours theirs text := by
  obtain ⟨-, ourLines⟩ := load_plain mergeable.plainOurs
  obtain ⟨-, theirLines⟩ := load_plain mergeable.plainTheirs
  have baseFits : (load base).lines.length < 2 ^ 60 := lt_of_le_of_lt (load_lines_sublist base).length_le fits
  obtain ⟨marks, as, found, compared⟩ := changesTo_spec isspace isalpha baseFits (by rwa [ourLines])
  obtain ⟨marks', bs, found', compared'⟩ := changesTo_spec isspace isalpha baseFits (by rwa [theirLines])
  obtain ⟨comes, only⟩ := mergeContent_spec isspace isalpha ourLabel theirLabel found found'
  have clean := only text merged
  have cut : Cut _ _ _ (load ours) (load theirs) 0 0 0 0 0 as bs (regions (load ours) (load theirs) as bs) :=
    regionsFrom_cut (Side.of_runs compared.held) (Side.of_runs compared'.held) le_rfl
  have tidy := cut.tidy clean (le_refl 0) (mergeable.flush_runs compared compared')
  obtain ⟨keeps, keeps'⟩ := @Cut.keeps _ _ _ _ _ _ (load base) _ _ _ _ _ cut clean 0
  have lines := linesFrom_render tidy (wellEnded_written base ours theirs 0 _)
  rw [comes clean, Option.some_inj, Prod.ext_iff] at merged
  have text_eq : render _ = text := merged.1
  rw [text_eq] at lines
  rw [← lines] at keeps keeps'
  refine ⟨added_subperm mergeable.plainOurs compared keeps,
    added_subperm mergeable.plainTheirs compared' keeps', fun none => ?_⟩
  have nothing (side : Bytes) (lines : (linesFrom [] side).length = 0) : side = [] := by
    rw [← map_fst_entriesFrom, length_map, length_eq_zero_iff, entriesFrom_eq_nil] at lines
    exact lines.2
  rw [none, linesFrom, if_pos rfl, eq_comm, map_eq_nil_iff] at lines
  have sides := cut.empty clean lines
  rw [ourLines, theirLines] at sides
  exact sides.imp (nothing ours) (nothing theirs)

end

end BashOs.Git.Merge

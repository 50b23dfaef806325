import BashOs.Lib.Alignment
import BashOs.Lib.Loop

/-!
The runs of change that two change maps describe, and what applying them to the old file gives: when the lines left
unmarked on the two sides match one by one, it gives the new file. Between two runs lies at least one line that is
left in place, the runs of both files keep step, and a line is marked just if it lies in a run.
-/

namespace BashOs.Git.Diff
open BashOs.Lib List

structure Change where
  oldStart : Nat
  oldCount : Nat
  newStart : Nat
  newCount : Nat
deriving DecidableEq, Repr

section
variable (marks : Marks) (nOld nNew : Nat)

/-- The runs from line `i` of the old file and line `j` of the new one on, in so many turns. -/
def changesFrom : Nat → Nat → Nat → Option (List Change)
  | 0, _, _ => none
  | turns + 1, i, j =>
    if i < nOld ∨ j < nNew then
      if i < nOld ∧ marks.old i ∨ j < nNew ∧ marks.new j then
        let i' := i + scan (fun k => marks.old (i + k)) (nOld - i)
        let j' := j + scan (fun k => marks.new (j + k)) (nNew - j)
        (changesFrom turns i' j').map
          ({ oldStart := i, oldCount := i' - i, newStart := j, newCount := j' - j } :: ·)
      else changesFrom turns (i + 1) (j + 1)
    else some []

def changes : Option (List Change) := changesFrom marks nOld nNew (nOld + nNew + 1) 0 0

end

section
variable {first last i j : Nat} {changed : Nat → Bool}

section
variable {α : Type} {turns : Nat} {runs : List Change}

def applyFrom (old new : List α) : Nat → List Change → List α
  | place, [] => old.drop place
  | place, change :: rest =>
    (old.drop place).take (change.oldStart - place) ++ (new.drop change.newStart).take change.newCount ++
      applyFrom old new (change.oldStart + change.oldCount) rest

def applyRuns (old new : List α) (runs : List Change) : List α := applyFrom old new 0 runs

theorem map_applyFrom {β : Type} (f : α → β) (old new : List α) (place : Nat) (runs : List Change) :
    (applyFrom old new place runs).map f = applyFrom (old.map f) (new.map f) place runs := by
  induction runs generalizing place with
  | nil => simp [applyFrom]
  | cons change rest ih => simp [applyFrom, ih]

variable {old new : Nat → α} {marks : Marks} {nOld nNew : Nat}

variable {key : Nat → α}

theorem kept_upTo_unmarked (low : first < last) (unmarked : changed first = false) :
    kept key changed (upTo first last) = key first :: kept key changed (upTo (first + 1) last) := by
  rw [upTo_append (Nat.le_succ first) low, upTo_singleton]
  simp [kept, unmarked]

theorem kept_past (past : ¬ first < last) : kept key changed (upTo first last) = [] := by
  rw [upTo, Nat.sub_eq_zero_of_le (by omega)]
  rfl

structure RunOf (changed : Nat → Bool) (first last count : Nat) : Prop where
  short : count ≤ last - first
  some : first < last ∧ changed first = true → 0 < count
  marked : ∀ p, first ≤ p → p < first + count → changed p = true
  stops : ¬ (first + count < last ∧ changed (first + count) = true)

theorem runOf (changed : Nat → Bool) (first last : Nat) :
    RunOf changed first last (scan (fun k => changed (first + k)) (last - first)) where
  short := scan_le
  some here := scan_pos (by omega) here.2
  marked p low below := by
    have here := @scan_holds (fun k => changed (first + k)) (last - first) (p - first) (by omega)
    rwa [Nat.add_sub_cancel' low] at here
  stops := fun ⟨inside, here⟩ => by
    rw [@scan_stops (fun k => changed (first + k)) (last - first) (by omega)] at here
    cases here

theorem RunOf.passed {count : Nat} (run : RunOf changed first last count) (key : Nat → α) :
    kept key changed (upTo (first + count) last) = kept key changed (upTo first last) := by
  have short := run.short
  by_cases le : first ≤ last
  · have none : kept key changed (upTo first (first + count)) = [] :=
      kept_marked fun i member => run.marked i (mem_upTo.1 member).1 (mem_upTo.1 member).2
    rw [upTo_append (Nat.le_add_right first count) (by omega), kept_append, none, nil_append]
  · rw [show count = 0 by omega, Nat.add_zero]

/-- Where nothing is marked, a line left in place on one side has its match on the other. -/
theorem both_inside {β : Type} {key' : Nat → β}
    (even : (kept key marks.old (upTo i nOld)).length = (kept key' marks.new (upTo j nNew)).length)
    (more : i < nOld ∨ j < nNew) (calm : ¬ (i < nOld ∧ marks.old i = true ∨ j < nNew ∧ marks.new j = true)) :
    (i < nOld ∧ j < nNew) ∧ marks.old i = false ∧ marks.new j = false := by
  rw [not_or] at calm
  have unmarked (inside : i < nOld) : marks.old i = false := Bool.eq_false_iff.2 fun marked => calm.1 ⟨inside, marked⟩
  have unmarked' (inside : j < nNew) : marks.new j = false := Bool.eq_false_iff.2 fun marked => calm.2 ⟨inside, marked⟩
  have left : i < nOld := by
    by_contra past
    have inside := more.resolve_left past
    rw [kept_past past, kept_upTo_unmarked inside (unmarked' inside)] at even
    cases even
  have right : j < nNew := by
    by_contra past
    rw [kept_past past, kept_upTo_unmarked left (unmarked left)] at even
    cases even
  exact ⟨⟨left, right⟩, unmarked left, unmarked' right⟩

theorem drop_map_range (f : Nat → α) (n place : Nat) : ((List.range n).map f).drop place = (upTo place n).map f := by
  rw [← map_drop, upTo, range_eq_range', drop_range', Nat.mul_one, Nat.zero_add]

theorem changesFrom_starts
    (found : changesFrom marks nOld nNew turns i j = some runs) : ∀ change ∈ runs.head?, i ≤ change.oldStart := by
  induction turns generalizing i j with
  | zero => cases found
  | succ turns ih =>
    rw [changesFrom] at found
    split at found
    · split at found
      · obtain ⟨rest, -, rfl⟩ := Option.map_eq_some_iff.1 found
        intro change member
        cases member
        exact Nat.le_refl _
      · intro change member
        exact Nat.le_of_succ_le (ih found change member)
    · cases found
      exact nofun

end

end

open Change

/-! ## The runs and the marks -/

def Change.oldStop (change : Change) : Nat := change.oldStart + change.oldCount
def Change.newStop (change : Change) : Nat := change.newStart + change.newCount

/-- Runs of change that follow line `i` of one file and line `j` of the other. -/
def RunsFrom (nOld nNew : Nat) : Nat → Nat → List Change → Prop
  | i, j, [] => i ≤ nOld ∧ i + nNew = j + nOld
  | i, j, change :: rest =>
    i ≤ change.oldStart ∧ change.newStart + i = change.oldStart + j ∧ 0 < change.oldCount + change.newCount ∧
      (∀ next ∈ rest.head?, change.oldStop < next.oldStart) ∧ RunsFrom nOld nNew change.oldStop change.newStop rest

def InStep (nOld : Nat) (related : Nat → Nat → Prop) : Nat → Nat → List Change → Prop
  | i, j, [] => ∀ k, i + k < nOld → related (i + k) (j + k)
  | i, j, change :: rest =>
    (∀ k, i + k < change.oldStart → related (i + k) (j + k)) ∧ InStep nOld related change.oldStop change.newStop rest

def InOld (runs : List Change) (p : Nat) : Prop := ∃ change ∈ runs, change.oldStart ≤ p ∧ p < change.oldStop

def InNew (runs : List Change) (q : Nat) : Prop := ∃ change ∈ runs, change.newStart ≤ q ∧ q < change.newStop

section
variable {nOld nNew i j turns : Nat} {runs : List Change} {change : Change} {related : Nat → Nat → Prop} {marks : Marks}
  {α : Type} {old new : Nat → α} {Same : α → α → Prop}

theorem RunsFrom.le (held : RunsFrom nOld nNew i j runs) : i ≤ nOld := by
  induction runs generalizing i j with
  | nil => exact held.1
  | cons change rest ih =>
    obtain ⟨low, -, -, -, held⟩ := held
    have high := ih held
    unfold oldStop at high
    omega

theorem RunsFrom.le_new (held : RunsFrom nOld nNew i j runs) : j ≤ nNew := by
  induction runs generalizing i j with
  | nil =>
    obtain ⟨low, step⟩ := held
    omega
  | cons change rest ih =>
    obtain ⟨low, step, -, -, held⟩ := held
    have high := ih held
    unfold newStop at high
    omega

theorem RunsFrom.back (held : RunsFrom nOld nNew (i + 1) (j + 1) runs) : RunsFrom nOld nNew i j runs := by
  cases runs with
  | nil =>
    obtain ⟨low, step⟩ := held
    exact ⟨by omega, by omega⟩
  | cons change rest =>
    obtain ⟨low, step, some, gap, held⟩ := held
    exact ⟨by omega, by omega, some, gap, held⟩

theorem InStep.back_iff (inside : i < nOld) (starts : ∀ change ∈ runs.head?, i + 1 ≤ change.oldStart) :
    InStep nOld related i j runs ↔ related i j ∧ InStep nOld related (i + 1) (j + 1) runs := by
  have shift : ∀ last, i < last → ((∀ k, i + k < last → related (i + k) (j + k)) ↔
      related i j ∧ ∀ k, i + 1 + k < last → related (i + 1 + k) (j + 1 + k)) := by
    intro last more
    constructor
    · intro all
      refine ⟨all 0 more, fun k below => ?_⟩
      rw [Nat.add_right_comm, Nat.add_right_comm j]
      exact all (k + 1) (by omega)
    · rintro ⟨first, others⟩ k below
      cases k with
      | zero => exact first
      | succ k =>
        have later := others k (by omega)
        rwa [Nat.add_right_comm, Nat.add_right_comm j] at later
  cases runs with
  | nil => exact shift nOld inside
  | cons change rest =>
    have later : i + 1 ≤ change.oldStart := starts change rfl
    rw [InStep, InStep, shift _ (by omega), and_assoc]

theorem RunsFrom.bounds (held : RunsFrom nOld nNew i j runs) (member : change ∈ runs) :
    i ≤ change.oldStart ∧ j ≤ change.newStart ∧ change.oldStop ≤ nOld ∧ change.newStop ≤ nNew := by
  induction runs generalizing i j with
  | nil => cases member
  | cons first rest ih =>
    obtain ⟨low, step, -, -, held⟩ := held
    obtain rfl | later := mem_cons.1 member
    · exact ⟨low, by omega, held.le, held.le_new⟩
    · obtain ⟨after, after', ends⟩ := ih held later
      unfold oldStop at after
      unfold newStop at after'
      exact ⟨by omega, by omega, ends⟩

/-! ## The runs that are read from marks -/

def inPlace (changed : Nat → Bool) (first last : Nat) : List Nat := kept (fun i => i) changed (upTo first last)

theorem inPlace_nil {changed : Nat → Bool} {first last : Nat} (past : ¬ first < last) :
    inPlace changed first last = [] := by
  rw [inPlace, upTo, Nat.sub_eq_zero_of_le (by omega)]
  rfl

theorem kept_range {α : Type} (key : Nat → α) (changed : Nat → Bool) (n : Nat) :
    kept key changed (List.range n) = (inPlace changed 0 n).map key := by
  rw [range_eq_upTo, inPlace, kept, kept, map_map]
  rfl

theorem changesFrom_calm (found : changesFrom marks nOld nNew turns i j = some runs)
    (calm : ¬ (i < nOld ∧ marks.old i = true ∨ j < nNew ∧ marks.new j = true)) :
    ∀ change ∈ runs.head?, i < change.oldStart := by
  cases turns with
  | zero => cases found
  | succ turns =>
    rw [changesFrom] at found
    split at found
    · exact fun change member => changesFrom_starts found change member
    cases found
    rintro _ ⟨⟩

theorem changesFrom_runs (low : i ≤ nOld) (low' : j ≤ nNew) (enough : (nOld - i) + (nNew - j) < turns)
    (even : (inPlace marks.old i nOld).length = (inPlace marks.new j nNew).length) :
    ∃ runs, changesFrom marks nOld nNew turns i j = some runs ∧ RunsFrom nOld nNew i j runs ∧
      (∀ related : Nat → Nat → Prop, List.Forall₂ related (inPlace marks.old i nOld) (inPlace marks.new j nNew) ↔
        InStep nOld related i j runs) ∧
      (∀ p, i ≤ p → p < nOld → (marks.old p = true ↔ InOld runs p)) ∧
      ∀ q, j ≤ q → q < nNew → (marks.new q = true ↔ InNew runs q) := by
  induction turns generalizing i j with
  | zero => exact absurd enough (Nat.not_lt_zero _)
  | succ turns ih =>
    rw [changesFrom]
    by_cases more : i < nOld ∨ j < nNew
    · rw [if_pos more]
      by_cases changed : i < nOld ∧ marks.old i = true ∨ j < nNew ∧ marks.new j = true
      · rw [if_pos changed]
        dsimp only
        have run := runOf marks.old i nOld
        have run' := runOf marks.new j nNew
        generalize scan (fun k => marks.old (i + k)) (nOld - i) = gone at *
        generalize scan (fun k => marks.new (j + k)) (nNew - j) = come at *
        have short := run.short
        have short' := run'.short
        have progress : 0 < gone ∨ 0 < come := changed.imp run.some run'.some
        have passed : inPlace marks.old (i + gone) nOld = inPlace marks.old i nOld := run.passed _
        have passed' : inPlace marks.new (j + come) nNew = inPlace marks.new j nNew := run'.passed _
        rw [← passed, ← passed'] at even
        obtain ⟨rest, onward, held, related, old, new⟩ := ih (by omega) (by omega) (by omega) even
        have gap := changesFrom_calm onward (not_or.2 ⟨run.stops, run'.stops⟩)
        have oldStop : oldStop { oldStart := i, oldCount := i + gone - i, newStart := j, newCount := j + come - j } = i + gone := by
          unfold oldStop
          dsimp only
          omega
        have newStop : newStop { oldStart := i, oldCount := i + gone - i, newStart := j, newCount := j + come - j } = j + come := by
          unfold newStop
          dsimp only
          omega
        rw [onward]
        refine ⟨_ :: rest, rfl, ⟨Nat.le_refl _, Nat.add_comm _ _, by dsimp only; omega, ?_, ?_⟩, fun rel => ?_,
          fun p low inside => ?_, fun q low inside => ?_⟩
        · rwa [oldStop]
        · rwa [oldStop, newStop]
        · rw [← passed, ← passed', related rel, InStep, oldStop, newStop]
          exact ⟨fun rest => ⟨fun k below => absurd below (by dsimp only; omega), rest⟩, fun both => both.2⟩
        · unfold InOld
          rw [exists_mem_cons_iff, oldStop]
          by_cases here : p < i + gone
          · exact iff_of_true (run.marked p low here) (.inl ⟨low, here⟩)
          · rw [old p (by omega) inside]
            exact (or_iff_right fun first => here first.2).symm
        · unfold InNew
          rw [exists_mem_cons_iff, newStop]
          by_cases here : q < j + come
          · exact iff_of_true (run'.marked q low here) (.inl ⟨low, here⟩)
          · rw [new q (by omega) inside]
            exact (or_iff_right fun first => here first.2).symm
      · rw [if_neg changed]
        obtain ⟨both, unmarked, unmarked'⟩ := both_inside even more changed
        have first : inPlace marks.old i nOld = i :: inPlace marks.old (i + 1) nOld :=
          kept_upTo_unmarked both.1 unmarked
        have first' : inPlace marks.new j nNew = j :: inPlace marks.new (j + 1) nNew :=
          kept_upTo_unmarked both.2 unmarked'
        rw [first, first', length_cons, length_cons, Nat.succ_inj] at even
        obtain ⟨runs, found, held, related, old, new⟩ := ih both.1 both.2 (by omega) even
        refine ⟨runs, found, held.back, fun rel => ?_, fun p low inside => ?_, fun q low inside => ?_⟩
        · rw [first, first', List.forall₂_cons, related rel, InStep.back_iff both.1 (changesFrom_starts found)]
        · obtain rfl | later := Nat.eq_or_lt_of_le low
          · refine iff_of_false (by simp [unmarked]) ?_
            rintro ⟨change, member, start, -⟩
            have after := (held.bounds member).1
            omega
          · exact old p later inside
        · obtain rfl | later := Nat.eq_or_lt_of_le low
          · refine iff_of_false (by simp [unmarked']) ?_
            rintro ⟨change, member, start, -⟩
            have after := (held.bounds member).2.1
            omega
          · exact new q later inside
    · rw [if_neg more]
      rw [inPlace_nil (by omega), inPlace_nil (by omega)]
      refine ⟨[], rfl, ⟨low, by omega⟩, fun rel => ⟨fun _ k below => absurd below (by omega), fun _ => .nil⟩,
        fun p low inside => ?_,
        fun q low inside => ?_⟩
      · omega
      · omega

/-! ## Applying the runs -/

theorem forall₂_append_iff {a a' b b' : List α} (even : a.length = b.length) :
    List.Forall₂ Same (a ++ a') (b ++ b') ↔ List.Forall₂ Same a b ∧ List.Forall₂ Same a' b' := by
  constructor
  · intro both
    have first := forall₂_take_append _ b b' both
    have second := forall₂_drop_append _ b b' both
    rw [← even, take_left] at first
    rw [← even, drop_left] at second
    exact ⟨first, second⟩
  · exact fun both => rel_append both.1 both.2

theorem forall₂_map_upTo_iff {length : Nat} :
    List.Forall₂ Same ((upTo i (i + length)).map old) ((upTo j (j + length)).map new) ↔
      ∀ k < length, Same (old (i + k)) (new (j + k)) := by
  rw [upTo, upTo, range'_eq_map_range, range'_eq_map_range]
  simp [forall₂_same]

theorem applyFrom_iff (refl : ∀ a, Same a a) (held : RunsFrom nOld nNew i j runs) :
    List.Forall₂ Same (applyFrom ((range nOld).map old) ((range nNew).map new) i runs) (((range nNew).map new).drop j) ↔
      InStep nOld (fun p q => Same (old p) (new q)) i j runs := by
  induction runs generalizing i j with
  | nil =>
    obtain ⟨low, step⟩ := held
    obtain ⟨length, rfl⟩ := Nat.exists_eq_add_of_le low
    obtain rfl : nNew = j + length := by omega
    rw [applyFrom, drop_map_range, drop_map_range, forall₂_map_upTo_iff, InStep]
    exact ⟨fun all k below => all k (by omega), fun all k below => all k (by omega)⟩
  | cons change rest ih =>
    obtain ⟨low, step, -, -, held⟩ := held
    obtain ⟨length, starts⟩ := Nat.exists_eq_add_of_le low
    have starts' : change.newStart = j + length := by omega
    have high := held.le
    have high' := held.le_new
    unfold oldStop at high
    unfold newStop at high'
    have split : ((range nNew).map new).drop j = (upTo j (j + length)).map new ++
        (((range nNew).map new).drop change.newStart).take change.newCount ++
          ((range nNew).map new).drop change.newStop := by
      rw [append_assoc, newStop, ← drop_drop, take_append_drop, starts', drop_map_range, drop_map_range,
        ← map_append, ← upTo_append (Nat.le_add_right j length) (by omega)]
    have front : (((range nOld).map old).drop i).take (change.oldStart - i) = (upTo i (i + length)).map old := by
      rw [drop_map_range, upTo_append (Nat.le_add_right i length) (by omega), map_append, starts]
      exact take_left' (by simp [upTo])
    have inserted := forall₂_same.2 fun line
        (_ : line ∈ (((range nNew).map new).drop change.newStart).take change.newCount) =>
      refl line
    rw [applyFrom, split, front, InStep, ← ih held, append_assoc, append_assoc, forall₂_append_iff (by simp [upTo]),
      forall₂_append_iff rfl, and_iff_right inserted, forall₂_map_upTo_iff]
    refine and_congr_left fun _ => ?_
    exact ⟨fun all k below => all k (by omega), fun all k below => all k (by omega)⟩

theorem applyFrom_eq_iff (held : RunsFrom nOld nNew i j runs) :
    applyFrom ((range nOld).map old) ((range nNew).map new) i runs = ((range nNew).map new).drop j ↔
      InStep nOld (fun p q => old p = new q) i j runs := by
  rw [← applyFrom_iff (fun _ => rfl) held, forall₂_eq_eq_eq]

theorem changes_spec (refl : ∀ a, Same a a)
    (aligned : List.Forall₂ Same (kept old marks.old (range nOld)) (kept new marks.new (range nNew))) :
    ∃ runs, changes marks nOld nNew = some runs ∧ RunsFrom nOld nNew 0 0 runs ∧
      (∀ related : Nat → Nat → Prop, List.Forall₂ related (inPlace marks.old 0 nOld) (inPlace marks.new 0 nNew) ↔
        InStep nOld related 0 0 runs) ∧
      (∀ p, 0 ≤ p → p < nOld → (marks.old p = true ↔ InOld runs p)) ∧
      (∀ q, 0 ≤ q → q < nNew → (marks.new q = true ↔ InNew runs q)) ∧
      List.Forall₂ Same (applyRuns ((range nOld).map old) ((range nNew).map new) runs) ((range nNew).map new) := by
  rw [kept_range, kept_range, forall₂_map_left_iff, forall₂_map_right_iff] at aligned
  obtain ⟨runs, found, held, related, inOld, inNew⟩ :=
    changesFrom_runs (Nat.zero_le nOld) (Nat.zero_le nNew) (Nat.lt_succ_self _) aligned.length_eq
  exact ⟨runs, found, held, related, inOld, inNew, (applyFrom_iff refl held).2 ((related _).1 aligned)⟩

end

def Shows (marks : Marks) (nOld nNew : Nat) : Prop := (∃ i < nOld, marks.old i = true) ∨ ∃ j < nNew, marks.new j = true

theorem RunsFrom.eq_nil {marks : Marks} {nOld nNew : Nat} {runs : List Change} (held : RunsFrom nOld nNew 0 0 runs)
    (inOld : ∀ p < nOld, (marks.old p = true ↔ InOld runs p)) (inNew : ∀ q < nNew, (marks.new q = true ↔ InNew runs q))
    (none : ¬ Shows marks nOld nNew) : runs = [] := by
  cases runs with
  | nil => rfl
  | cons change rest =>
    have bounds := held.bounds mem_cons_self
    obtain ⟨-, -, some, -⟩ := held
    unfold oldStop newStop at bounds
    refine (none ?_).elim
    by_cases gone : 0 < change.oldCount
    · have inside : InOld (change :: rest) change.oldStart :=
        ⟨change, mem_cons_self, Nat.le_refl _, Nat.lt_add_of_pos_right gone⟩
      exact .inl ⟨_, by omega, (inOld _ (by omega)).2 inside⟩
    · have inside : InNew (change :: rest) change.newStart :=
        ⟨change, mem_cons_self, Nat.le_refl _, Nat.lt_add_of_pos_right (by omega)⟩
      exact .inr ⟨_, by omega, (inNew _ (by omega)).2 inside⟩

end BashOs.Git.Diff

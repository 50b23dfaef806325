import BashOs.Git.Diff.Runs
import BashOs.Git.Diff.Lines

/-!
How the runs of change are gathered into hunks: the second half of `bgit_xdiff_full`. Each hunk takes its context, runs
that are close together share one, and a run of blank lines that stands alone can be passed over. The lines between the
runs are in place on both sides, as many on the one as on the other.
-/

namespace BashOs.Git.Diff
open BashOs.Lib List

structure Hunk where
  oldStart : Nat
  oldCount : Nat
  newStart : Nat
  newCount : Nat
deriving DecidableEq, Repr

/-- A number as `size_t` holds it. -/
def sizeT (value : Int) : Nat := (value % 2 ^ 64).toNat

namespace Change

def oldEnd (change : Change) : Int := change.oldStart + change.oldCount
def newEnd (change : Change) : Int := change.newStart + change.newCount

end Change

section
variable (isspace isalpha : CharClass)

def isFuncRec (file : XdiffFile) (i : Int) : Bool :=
  if i < 0 ∨ i ≥ file.lines.length then false
  else
    match file.line i.toNat with
    | [] => false
    | first :: _ => isalpha first || first == 95 || first == 36

def blankLine (flags : Flags) (file : XdiffFile) (i : Nat) : Bool :=
  if i ≥ file.lines.length then true else if !flags.whitespace then file.line i == [] else (file.line i).all isspace

def isEmptyRec (file : XdiffFile) (i : Int) : Bool :=
  if i < 0 ∨ i ≥ file.lines.length then true else (file.line i.toNat).all isspace

/-- `bgit_func_line`; -1 when there is none. -/
def funcLine (file : XdiffFile) (start limit : Int) : Int :=
  let step : Int := if start > limit then -1 else 1
  let lines := ((List.range (start - limit).natAbs).map fun (k : Nat) => start + step * (k : Int)).takeWhile
    fun (l : Int) => 0 ≤ l ∧ l < (file.lines.length : Int)
  (lines.find? (isFuncRec isalpha file)).getD (-1)

variable (old new : XdiffFile) (context maxCommon : Int) (flags : Flags) (runs : List Change)

def runAt (k : Nat) : Change := runs.getD k { oldStart := 0, oldCount := 0, newStart := 0, newCount := 0 }

def skippable (k : Nat) : Bool :=
  flags.ignoreBlankLines &&
    (List.range (runAt runs k).oldCount).all (fun i => blankLine isspace flags old ((runAt runs k).oldStart + i)) &&
    (List.range (runAt runs k).newCount).all (fun j => blankLine isspace flags new ((runAt runs k).newStart + j))

def distance (first second : Nat) : Int := (runAt runs second).oldStart - (runAt runs first).oldEnd

/-- The first run of the next hunk: blank ones far enough in front of the next change are passed over. -/
def firstRun (r : Nat) : Nat :=
  let blank := scan (fun k => skippable isspace old new flags runs (r + k)) (runs.length - r)
  (upTo r (r + blank)).foldl (fun r k =>
    if k + 1 ≥ runs.length ∨ distance runs k (k + 1) ≥ context then k + 1 else r) r

def lastRunFrom : List Nat → Nat → Int → Nat
  | [], last, _ => last
  | k :: rest, last, ignored =>
    let prev := k - 1
    let blank := skippable isspace old new flags runs k
    if distance runs prev k > maxCommon then last
    else if distance runs prev k < context ∧ (!blank ∨ last = prev) then lastRunFrom rest k 0
    else if distance runs prev k < context ∧ blank then lastRunFrom rest last (ignored + (runAt runs k).newCount)
    else if last ≠ prev ∧ distance runs last k + ignored > maxCommon then last
    else if !blank then lastRunFrom rest k 0
    else lastRunFrom rest last (ignored + (runAt runs k).newCount)

def hunkStart (r : Nat) : Int × Int :=
  let s1 := max ((runAt runs r).oldStart - context) 0
  let s2 := max ((runAt runs r).newStart - context) 0
  if flags.functionContext then
    let past : Bool := (runAt runs r).oldStart ≥ old.lines.length
    let appended := past && (upTo (runAt runs r).newStart new.lines.length).any fun i2 => isFuncRec isalpha new i2
    if appended then (s1, s2)
    else
      let i1 : Int := if past then old.lines.length - 1 else (runAt runs r).oldStart
      let found := funcLine isalpha old i1 (-1)
      let up := scan (fun (k : Nat) => !isEmptyRec isspace old (found - k - 1) && !isFuncRec isalpha old
        (found - k - 1)) found.toNat
      let fs1 := max (found - up) 0
      if fs1 < s1 then (fs1, max (s2 - (s1 - fs1)) 0) else (s1, s2)
  else (s1, s2)

def hunkReach (last : Nat) : Int × Int :=
  let end1 := (runAt runs last).oldEnd
  let end2 := (runAt runs last).newEnd
  let lctx := min (min context (old.lines.length - end1)) (new.lines.length - end2)
  let e1 := end1 + lctx
  let e2 := end2 + lctx
  if flags.functionContext then
    let found := funcLine isalpha old end1 old.lines.length
    let up := scan (fun (k : Nat) => isEmptyRec isspace old (found - k - 1)) found.toNat
    let fe1 : Int := if found < 0 then old.lines.length else found - up
    if fe1 > e1 then (fe1, min (e2 + (fe1 - e1)) new.lines.length) else (e1, e2)
  else (e1, e2)

/-- The last run of a hunk that shows whole definitions, and where it ends: the next run can fall inside it. -/
def hunkEnd : Nat → Nat → Nat × Int × Int
  | 0, last => (last, hunkReach isspace isalpha old new context flags runs last)
  | turns + 1, last =>
    let (e1, e2) := hunkReach isspace isalpha old new context flags runs last
    if !flags.functionContext ∨ last + 1 ≥ runs.length then (last, e1, e2)
    else
      let next := min ((runAt runs (last + 1)).oldStart : Int) (old.lines.length - 1)
      if next - context ≤ e1 ∨ funcLine isalpha old next e1 < 0 then hunkEnd turns (last + 1) else (last, e1, e2)

structure Gathered where
  r : Nat
  hunks : List Hunk
  keptAdded : Nat
  keptRemoved : Nat

def gatherStep (state : Gathered) : ForInStep Gathered :=
  let r := firstRun isspace old new context flags runs state.r
  if r ≥ runs.length then .done { state with r }
  else
    let last := lastRunFrom isspace old new context maxCommon flags runs (upTo (r + 1) runs.length) r 0
    let (s1, s2) := hunkStart isspace isalpha old new context flags runs r
    let (last, e1, e2) := hunkEnd isspace isalpha old new context flags runs runs.length last
    let hunk := { oldStart := sizeT s1, oldCount := sizeT (e1 - s1), newStart := sizeT s2, newCount := sizeT (e2 - s2) }
    let shown := (upTo r (last + 1)).map (runAt runs)
    .yield { r := last + 1, hunks := state.hunks ++ [hunk], keptAdded := state.keptAdded + (shown.map (·.newCount)).sum,
             keptRemoved := state.keptRemoved + (shown.map (·.oldCount)).sum }

def gatherHunks : Option Gathered :=
  repeatUntil (fun state => some (if state.r < runs.length then
    gatherStep isspace isalpha old new context maxCommon flags runs state else .done state))
    (runs.length + 1) { r := 0, hunks := [], keptAdded := 0, keptRemoved := 0 }

end

/-! ## The gathering ends -/

section
variable {isspace isalpha : CharClass} {old new : XdiffFile} {context maxCommon : Int} {flags : Flags}
  {runs : List Change}

theorem le_firstRun (r : Nat) : r ≤ firstRun isspace old new context flags runs r := by
  refine foldl_invariant (fun _ current => r ≤ current) (le_refl r) ?_
  intro done k rest current whole held
  have member : k ∈ upTo r (r + scan (fun k => skippable isspace old new flags runs (r + k)) (runs.length - r)) := by
    rw [whole]
    exact mem_append_right _ (.head _)
  split
  · exact Nat.le_succ_of_le (mem_upTo.1 member).1
  · exact held

theorem le_lastRunFrom {ks : List Nat} {r last : Nat} {ignored : Int} (after : ∀ k ∈ ks, r ≤ k) (le : r ≤ last) :
    r ≤ lastRunFrom isspace old new context maxCommon flags runs ks last ignored := by
  fun_induction lastRunFrom isspace old new context maxCommon flags runs ks last ignored with
  | case1 => exact le
  | case2 => exact le
  | case3 k rest _ _ _ _ _ _ ih => exact ih (fun i member => after i (.tail _ member)) (after k (.head _))
  | case4 k rest _ _ _ _ _ _ _ ih | case7 k rest _ _ _ _ _ _ _ _ _ ih =>
    exact ih (fun i member => after i (.tail _ member)) le
  | case5 => exact le
  | case6 k rest _ _ _ _ _ _ _ _ _ ih =>
    exact ih (fun i member => after i (.tail _ member)) (after k (.head _))

theorem le_hunkEnd (turns last : Nat) : last ≤ (hunkEnd isspace isalpha old new context flags runs turns last).1 := by
  induction turns generalizing last with
  | zero => exact le_rfl
  | succ turns ih =>
    rw [hunkEnd]
    dsimp only
    split
    · exact le_rfl
    · split
      · exact Nat.le_of_succ_le (ih (last + 1))
      · exact le_rfl

theorem gatherHunks_ends (isspace isalpha : CharClass) (old new : XdiffFile) (context maxCommon : Int) (flags : Flags)
    (runs : List Change) : ∃ gathered, gatherHunks isspace isalpha old new context maxCommon flags runs =
      some gathered := by
  have run : ∃ gathered, gatherHunks isspace isalpha old new context maxCommon flags runs = some gathered ∧ True := by
    refine repeatUntil_spec (fun _ => True) (fun _ => True) (fun state => runs.length - state.r)
      (fun state _ => ⟨_, rfl, ?_⟩)
      trivial (Nat.lt_succ_self _)
    split
    next inside =>
      unfold gatherStep
      dsimp only
      split
      · trivial
      rename_i more
      refine ⟨trivial, ?_⟩
      have first : state.r ≤ firstRun isspace old new context flags runs state.r := le_firstRun _
      generalize firstRun isspace old new context flags runs state.r = r at first more
      have second : r ≤ lastRunFrom isspace old new context maxCommon flags runs (upTo (r + 1) runs.length) r 0 :=
        le_lastRunFrom (fun k member => Nat.le_of_succ_le (mem_upTo.1 member).1) (le_refl r)
      generalize lastRunFrom isspace old new context maxCommon flags runs (upTo (r + 1) runs.length) r 0 =
        last at second
      have third : last ≤ (hunkEnd isspace isalpha old new context flags runs runs.length last).1 := le_hunkEnd _ _
      exact Nat.sub_lt_sub_left inside (show state.r < _ + 1 by omega)
    · trivial
  obtain ⟨gathered, ran, -⟩ := run
  exact ⟨gathered, ran⟩

end

open Change

/-! ## Places in step -/

def Level (marks : Marks) (p q : Nat) : Prop := (inPlace marks.old 0 p).length = (inPlace marks.new 0 q).length

section
variable {marks : Marks} {changed : Nat → Bool} {first last p q p' q' : Nat} (nOld nNew : Nat) (start : Nat × Nat)
  (runs : List Change)

theorem inPlace_append {middle : Nat} (low : first ≤ middle) (high : middle ≤ last) :
    inPlace changed first last = inPlace changed first middle ++ inPlace changed middle last := by
  rw [inPlace, upTo_append low high, kept_append]
  rfl

theorem inPlace_unmarked (calm : ∀ p, first ≤ p → p < last → changed p = false) :
    (inPlace changed first last).length = last - first := by
  rw [inPlace, kept_unmarked fun p member => calm p (mem_upTo.1 member).1 (mem_upTo.1 member).2, upTo]
  simp

theorem inPlace_marked (all : ∀ p, first ≤ p → p < last → changed p = true) : inPlace changed first last = [] :=
  kept_marked fun p member => all p (mem_upTo.1 member).1 (mem_upTo.1 member).2

theorem Level.advance_iff (level : Level marks p q) (le : p ≤ p') (le' : q ≤ q') :
    Level marks p' q' ↔ (inPlace marks.old p p').length = (inPlace marks.new q q').length := by
  unfold Level at *
  rw [inPlace_append (Nat.zero_le p) le, inPlace_append (Nat.zero_le q) le', length_append, length_append, level,
    Nat.add_left_cancel_iff]

/-! ## The gaps between the runs -/

def gapStart : Nat → Nat × Nat
  | 0 => start
  | k + 1 => ((runAt runs k).oldStop, (runAt runs k).newStop)

def gapEnd (k : Nat) : Nat × Nat :=
  if k < runs.length then ((runAt runs k).oldStart, (runAt runs k).newStart) else (nOld, nNew)

structure Gap (marks : Marks) (k : Nat) : Prop where
  le : (gapStart start runs k).1 ≤ (gapEnd nOld nNew runs k).1
  step : (gapEnd nOld nNew runs k).2 + (gapStart start runs k).1 =
    (gapEnd nOld nNew runs k).1 + (gapStart start runs k).2
  level : ∀ d, (gapStart start runs k).1 + d ≤ (gapEnd nOld nNew runs k).1 →
    Level marks ((gapStart start runs k).1 + d) ((gapStart start runs k).2 + d)

end

section
variable {marks : Marks} {nOld nNew i j k : Nat} {runs : List Change} {change : Change}

@[simp] theorem runAt_zero : runAt (change :: runs) 0 = change := rfl

@[simp] theorem runAt_succ : runAt (change :: runs) (k + 1) = runAt runs k := rfl

theorem gapStart_cons (start : Nat × Nat) :
    gapStart start (change :: runs) (k + 1) = gapStart (change.oldStop, change.newStop) runs k := by
  cases k with
  | zero => rfl
  | succ k => rfl

theorem gapEnd_first : gapEnd nOld nNew (change :: runs) 0 = (change.oldStart, change.newStart) :=
  if_pos (Nat.succ_pos runs.length)

theorem gapEnd_cons : gapEnd nOld nNew (change :: runs) (k + 1) = gapEnd nOld nNew runs k := by
  unfold gapEnd
  rw [length_cons]
  simp [runAt_succ]

section
variable (held : RunsFrom nOld nNew i j runs) (level : Level marks i j)
  (inOld : ∀ p, i ≤ p → p < nOld → (marks.old p = true ↔ InOld runs p))
  (inNew : ∀ q, j ≤ q → q < nNew → (marks.new q = true ↔ InNew runs q))
include held level inOld inNew

theorem RunsFrom.first_gap : Gap nOld nNew (i, j) runs marks 0 := by
  have shape : i ≤ (gapEnd nOld nNew runs 0).1 ∧ (gapEnd nOld nNew runs 0).2 + i = (gapEnd nOld nNew runs 0).1 + j ∧
      (gapEnd nOld nNew runs 0).1 ≤ nOld ∧ (gapEnd nOld nNew runs 0).2 ≤ nNew ∧
      ∀ change ∈ runs, (gapEnd nOld nNew runs 0).1 ≤ change.oldStart ∧
        (gapEnd nOld nNew runs 0).2 ≤ change.newStart := by
    cases runs with
    | nil =>
      obtain ⟨low, step⟩ := held
      exact ⟨low, by simp only [gapEnd, length_nil, lt_irrefl, if_false]; omega, le_rfl, le_rfl, nofun⟩
    | cons first rest =>
      obtain ⟨-, -, fits, fits'⟩ := held.bounds ((.head _) : first ∈ first :: rest)
      obtain ⟨low, step, -, -, more⟩ := held
      refine ⟨low, step, ?_, ?_, fun change member => ?_⟩
      · exact le_trans (Nat.le_add_right _ _) fits
      · exact le_trans (Nat.le_add_right _ _) fits'
      · obtain rfl | later := mem_cons.1 member
        · exact ⟨le_rfl, le_rfl⟩
        · obtain ⟨after, after', -⟩ := more.bounds later
          exact ⟨le_trans (Nat.le_add_right _ _) after, le_trans (Nat.le_add_right _ _) after'⟩
  obtain ⟨low, step, fits, fits', later⟩ := shape
  refine ⟨low, step, fun d inside => ?_⟩
  dsimp only [gapStart] at inside ⊢
  refine (level.advance_iff (Nat.le_add_right _ _) (Nat.le_add_right _ _)).2 ?_
  rw [inPlace_unmarked fun p above below => ?_, inPlace_unmarked fun q above below => ?_]
  · omega
  · rw [← Bool.not_eq_true, inNew q above (by omega)]
    rintro ⟨change, member, started, -⟩
    have := (later change member).2
    omega
  · rw [← Bool.not_eq_true, inOld p above (by omega)]
    rintro ⟨change, member, started, -⟩
    have := (later change member).1
    omega

theorem RunsFrom.gaps (inside : k ≤ runs.length) : Gap nOld nNew (i, j) runs marks k := by
  induction runs generalizing i j k with
  | nil =>
    cases Nat.le_zero.1 inside
    exact held.first_gap level inOld inNew
  | cons change rest ih =>
    cases k with
    | zero => exact held.first_gap level inOld inNew
    | succ k =>
      obtain ⟨low, step, upTo⟩ := held.first_gap level inOld inNew
      obtain ⟨-, -, fits, fits'⟩ := held.bounds ((.head _) : change ∈ change :: rest)
      dsimp only [gapStart] at low step upTo
      rw [gapEnd_first] at low step upTo
      have started : Level marks change.oldStart change.newStart := by
        have here := upTo (change.oldStart - i) (by omega)
        rwa [show i + (change.oldStart - i) = change.oldStart by omega,
          show j + (change.oldStart - i) = change.newStart by omega] at here
      -- the lines of the run are marked on both sides
      have stopped : Level marks change.oldStop change.newStop := by
        refine Iff.mpr (started.advance_iff (Nat.le_add_right _ _) (Nat.le_add_right _ _)) ?_
        rw [inPlace_marked fun p above below => (inOld p (by omega) (by omega)).2 ⟨change, .head _, above, below⟩,
          inPlace_marked fun q above below => (inNew q (by omega) (by omega)).2 ⟨change, .head _, above, below⟩]
      obtain ⟨-, -, -, -, more⟩ := held
      have gap := ih (k := k) more stopped (fun p above below => ?_) (fun q above below => ?_)
        (Nat.le_of_succ_le_succ inside)
      · refine ⟨?_, ?_, ?_⟩ <;> rw [gapStart_cons, gapEnd_cons]
        exacts [gap.le, gap.step, gap.level]
      · unfold oldStop at above
        rw [inOld p (by omega) below, InOld, exists_mem_cons_iff]
        refine or_iff_right fun lies => ?_
        unfold oldStop at lies
        omega
      · unfold newStop at above
        rw [inNew q (by omega) below, InNew, exists_mem_cons_iff]
        refine or_iff_right fun lies => ?_
        unfold newStop at lies
        omega

end

end

end BashOs.Git.Diff

import BashOs.Git.Diff.Xdiff

/-!
What a hunk shows. The runs of change keep step, so a hunk that starts and ends between runs has as many lines in
place on one side as on the other; and where no run is passed over, every line that is marked is in some hunk.
-/

namespace BashOs.Git.Diff
open BashOs.Lib List Option

/-! ## Looking for a definition -/

section
variable {isalpha : CharClass} {file : XdiffFile} (nOld nNew : Nat) (runs : List Change)

theorem isFuncRec_inside {l : Int} (opens : isFuncRec isalpha file l = true) : 0 ≤ l ∧ l < file.lines.length := by
  rw [isFuncRec] at opens
  split at opens
  · cases opens
  next inside => omega

def OnWay (start limit l : Int) : Prop := limit < l ∧ l ≤ start ∨ start ≤ l ∧ l < limit

theorem funcLine_spec {start limit found : Int} (inside : ∀ l, OnWay start limit l → 0 ≤ l ∧ l < file.lines.length)
    (ran : funcLine isalpha file start limit = found) :
    (found = -1 ∧ ∀ l, OnWay start limit l → isFuncRec isalpha file l = false) ∨
    OnWay start limit found ∧ isFuncRec isalpha file found = true ∧
      ∀ l, OnWay start found l → isFuncRec isalpha file l = false := by
  unfold funcLine at ran
  dsimp only at ran
  generalize toward : (if start > limit then (-1 : Int) else 1) = step at ran
  have sign : step = -1 ∧ limit < start ∨ step = 1 ∧ start ≤ limit := by
    split at toward <;> omega
  have whole : ((range (start - limit).natAbs).map fun (k : Nat) => start + step * (k : Int)).takeWhile
      (fun l => decide (0 ≤ l ∧ l < (file.lines.length : Int))) =
      (range (start - limit).natAbs).map fun (k : Nat) => start + step * (k : Int) := by
    rw [takeWhile_eq_self_iff]
    intro l member
    obtain ⟨k, below, rfl⟩ := mem_map.1 member
    have below := mem_range.1 below
    refine decide_eq_true (inside _ ?_)
    unfold OnWay
    obtain ⟨rfl, _⟩ | ⟨rfl, _⟩ := sign <;> omega
  rw [whole, find?_map] at ran
  -- the line is as many steps away as it is lines
  have back {l stop : Int} (way : OnWay start stop l) (same : step = -1 ∧ stop ≤ start ∨ step = 1 ∧ start ≤ stop) :
      (l - start).natAbs < (start - stop).natAbs ∧ start + step * ((l - start).natAbs : Nat) = l := by
    unfold OnWay at way
    obtain ⟨rfl, _⟩ | ⟨rfl, _⟩ := same <;> omega
  cases search : (range (start - limit).natAbs).find?
      (isFuncRec isalpha file ∘ fun (k : Nat) => start + step * (k : Int)) with
  | none =>
    rw [search] at ran
    refine .inl ⟨ran.symm, fun l way => ?_⟩
    obtain ⟨below, here⟩ := back way (by omega)
    have none : ¬ isFuncRec isalpha file (start + step * ((l - start).natAbs : Nat)) = true :=
      find?_eq_none.1 search _ (mem_range.2 below)
    rwa [here, Bool.not_eq_true] at none
  | some k =>
    rw [search] at ran
    obtain ⟨opens, below, before⟩ := find?_range_eq_some.1 search
    have below := mem_range.1 below
    have at' : start + step * k = found := ran
    have reached : (start - found).natAbs = k ∧ OnWay start limit found ∧
        (step = -1 ∧ found ≤ start ∨ step = 1 ∧ start ≤ found) := by
      unfold OnWay
      obtain ⟨rfl, _⟩ | ⟨rfl, _⟩ := sign <;> omega
    refine .inr ⟨reached.2.1, at' ▸ opens, fun l way => ?_⟩
    obtain ⟨less, here⟩ := back way reached.2.2
    have other : (!isFuncRec isalpha file (start + step * ((l - start).natAbs : Nat))) = true :=
      before _ (reached.1 ▸ less)
    rwa [here, Bool.not_eq_true'] at other

/-! ## Where a hunk starts and ends -/

theorem Change.oldEnd_eq (change : Change) : change.oldEnd = (change.oldStop : Int) := (Int.natCast_add _ _).symm

theorem Change.newEnd_eq (change : Change) : change.newEnd = (change.newStop : Int) := (Int.natCast_add _ _).symm

section
variable (isspace isalpha : CharClass) (old new : XdiffFile) (context : Int) (flags : Flags) (runs : List Change)

/-- What lets a hunk start with a run: the hunk before it, if there is one, has ended well in front of it. -/
def Ready (r : Nat) : Prop :=
  r = 0 ∨ runs.length ≤ r ∨
    if flags.functionContext then
      (hunkReach isspace isalpha old new context flags runs (r - 1)).1 <
          min ((runAt runs r).oldStart : Int) (old.lines.length - 1) - context ∧
        0 ≤ funcLine isalpha old (min ((runAt runs r).oldStart : Int) (old.lines.length - 1))
          (hunkReach isspace isalpha old new context flags runs (r - 1)).1
    else context < distance runs (r - 1) r

end

section
variable {isspace isalpha : CharClass} {old new : XdiffFile} {context maxCommon : Int} {flags : Flags}
  {runs : List Change}
  {marks : Marks} {r last : Nat}

theorem gapEnd_inside {nOld nNew : Nat} (inside : r < runs.length) :
    gapEnd nOld nNew runs r = ((runAt runs r).oldStart, (runAt runs r).newStart) := if_pos inside

theorem gapEnd_past {nOld nNew : Nat} (past : runs.length ≤ r) : gapEnd nOld nNew runs r = (nOld, nNew) :=
  if_neg (not_lt.2 past)

def definitionEnd (isspace isalpha : CharClass) (old : XdiffFile) (line : Int) : Int :=
  let found := funcLine isalpha old line old.lines.length
  if found < 0 then old.lines.length
  else found - (scan (fun (k : Nat) => isEmptyRec isspace old (found - k - 1)) found.toNat : Nat)

theorem definitionEnd_le {line : Int} (low : 0 ≤ line) (high : line ≤ old.lines.length) :
    definitionEnd isspace isalpha old line ≤ old.lines.length := by
  unfold definitionEnd
  dsimp only
  obtain ⟨none, -⟩ | ⟨-, opens, -⟩ := @funcLine_spec isalpha old line old.lines.length _
    (fun l way => by unfold OnWay at way; omega) rfl
  · rw [if_pos (by omega)]
  · have inside := isFuncRec_inside opens
    omega

theorem hunkReach_cases {lctx fe1 : Int} (own : lctx = min (min context (old.lines.length - (runAt runs last).oldEnd))
      (new.lines.length - (runAt runs last).newEnd))
        (ends : fe1 = definitionEnd isspace isalpha old (runAt runs last).oldEnd) :
    (hunkReach isspace isalpha old new context flags runs last =
      ((runAt runs last).oldEnd + lctx, (runAt runs last).newEnd + lctx) ∧
      (flags.functionContext = true → fe1 ≤ (runAt runs last).oldEnd + lctx)) ∨
    (flags.functionContext = true ∧ (runAt runs last).oldEnd + lctx < fe1 ∧
      hunkReach isspace isalpha old new context flags runs last =
        (fe1, min ((runAt runs last).newEnd + (fe1 - (runAt runs last).oldEnd)) new.lines.length)) := by
  unfold hunkReach
  dsimp only
  rw [← own, ← definitionEnd, ← ends]
  split
  next whole =>
    split
    next further =>
      refine .inr ⟨whole, further, congrArg (fun e2 => (fe1, min e2 (new.lines.length : Int))) ?_⟩
      omega
    next short => exact .inl ⟨rfl, fun _ => not_lt.1 short⟩
  next lines => exact .inl ⟨rfl, fun whole => absurd whole lines⟩

theorem le_hunkReach (positive : 0 ≤ context) (fits : (runAt runs last).oldEnd ≤ old.lines.length)
    (fits' : (runAt runs last).newEnd ≤ new.lines.length) :
    (runAt runs last).oldEnd ≤ (hunkReach isspace isalpha old new context flags runs last).1 := by
  obtain ⟨reach, -⟩ | ⟨-, further, reach⟩ := hunkReach_cases rfl rfl
  · rw [reach]
    omega
  · rw [reach]
    omega

theorem funcLine_le_hunkReach (whole : flags.functionContext = true) {found : Int}
    (next : funcLine isalpha old (runAt runs last).oldEnd old.lines.length = found) (some : 0 < found)
    (close : isEmptyRec isspace old (found - 1) = false) :
      found ≤ (hunkReach isspace isalpha old new context flags runs last).1 := by
  have none : scan (fun (k : Nat) => isEmptyRec isspace old (found - k - 1)) found.toNat = 0 :=
    scan_eq (Nat.zero_le _) nofun fun _ => by simpa using close
  have ends : definitionEnd isspace isalpha old (runAt runs last).oldEnd = found := by
    unfold definitionEnd
    dsimp only
    rw [next, none, if_neg (by omega)]
    exact Int.sub_zero found
  obtain ⟨reach, short⟩ | ⟨-, -, reach⟩ := hunkReach_cases rfl rfl
  · rw [reach, ← ends]
    exact short whole
  · rw [reach, ends]

/-- The way up from a definition's line over the lines that belong to it does not pass the end of the run before. -/
theorem opening_after {found limit : Int} (whole : flags.functionContext = true) (low : 0 ≤ (runAt runs last).oldEnd)
    (high : (runAt runs last).oldEnd ≤ old.lines.length)
    (reach : (hunkReach isspace isalpha old new context flags runs last).1 = limit)
      (beyond : (runAt runs last).oldEnd ≤ limit)
    (after : limit < found) (opens : isFuncRec isalpha old found = true) :
    (runAt runs last).oldEnd ≤ found - (scan (fun (k : Nat) =>
      !isEmptyRec isspace old (found - k - 1) && !isFuncRec isalpha old (found - k - 1)) found.toNat : Nat) := by
  by_contra passed
  -- then all lines between are full and open nothing, so the hunk before would have reached on to this definition
  have between : ∀ l : Int, (runAt runs last).oldEnd ≤ l → l < found →
      isEmptyRec isspace old l = false ∧ isFuncRec isalpha old l = false := by
    intro l above below
    have here := @scan_holds (fun (k : Nat) => !isEmptyRec isspace old (found - k - 1) && !isFuncRec isalpha old
      (found - k - 1))
      found.toNat (found - 1 - l).toNat (by omega)
    rw [show found - ((found - 1 - l).toNat : Int) - 1 = l by omega] at here
    simpa using here
  have next : funcLine isalpha old (runAt runs last).oldEnd old.lines.length = found := by
    obtain ⟨-, all⟩ | ⟨above, opens', before⟩ := @funcLine_spec isalpha old (runAt runs last).oldEnd old.lines.length _
      (fun l way => by unfold OnWay at way; omega) rfl
    · have here := all found (.inr ⟨by omega, (isFuncRec_inside opens).2⟩)
      rw [opens] at here
      cases here
    obtain less | same | more :=
      Int.lt_trichotomy (funcLine isalpha old (runAt runs last).oldEnd old.lines.length) found
    · unfold OnWay at above
      have here := (between _ (by omega) less).2
      rw [opens'] at here
      cases here
    · exact same
    · have here := before found (.inr ⟨by omega, more⟩)
      rw [opens] at here
      cases here
  have reaches := @funcLine_le_hunkReach isspace isalpha old new context flags runs last whole found next (by omega)
    (between (found - 1) (by omega) (by omega)).1
  omega

def definitionStart (isspace isalpha : CharClass) (old : XdiffFile) (line : Int) : Int :=
  let found := funcLine isalpha old line (-1)
  max (found - (scan (fun (k : Nat) =>
    !isEmptyRec isspace old (found - k - 1) && !isFuncRec isalpha old (found - k - 1)) found.toNat : Nat)) 0

theorem hunkStart_cases {s1 s2 fs1 : Int} (own : s1 = max ((runAt runs r).oldStart - context) 0)
    (own' : s2 = max ((runAt runs r).newStart - context) 0)
    (starts : fs1 = definitionStart isspace isalpha old (min ((runAt runs r).oldStart : Int) (old.lines.length - 1))) :
    hunkStart isspace isalpha old new context flags runs r = (s1, s2) ∨
    (flags.functionContext = true ∧ fs1 < s1 ∧
      hunkStart isspace isalpha old new context flags runs r = (fs1, max (s2 - (s1 - fs1)) 0)) := by
  have line : (if decide ((runAt runs r).oldStart ≥ old.lines.length) = true then (old.lines.length : Int) - 1
      else ((runAt runs r).oldStart : Int)) = min ((runAt runs r).oldStart : Int) (old.lines.length - 1) := by
    split
    next past =>
      have := of_decide_eq_true past
      omega
    next before =>
      have : ¬ old.lines.length ≤ (runAt runs r).oldStart := fun past => before (decide_eq_true past)
      omega
  rw [hunkStart]
  dsimp only
  rw [line, ← own, ← own']
  rw [definitionStart] at starts
  rw [← starts]
  split
  next whole =>
    split
    · exact .inl rfl
    split
    next further => exact .inr ⟨whole, further, rfl⟩
    · exact .inl rfl
  · exact .inl rfl

section
variable (positive : 0 ≤ context) (fits : (runAt runs (r - 1)).oldEnd ≤ old.lines.length)
  (fits' : (runAt runs (r - 1)).newEnd ≤ new.lines.length) (inside : r < runs.length) (later : 0 < r)
  (ready : Ready isspace isalpha old new context flags runs r)
include positive fits fits' inside later ready

theorem Ready.context_le : context < (runAt runs r).oldStart - (runAt runs (r - 1)).oldEnd := by
  obtain first | past | apart := ready
  · omega
  · omega
  · split at apart
    · have reach := @le_hunkReach isspace isalpha old new context flags runs (r - 1) positive fits fits'
      omega
    · exact apart

theorem Ready.definitionStart_ge (whole : flags.functionContext = true) :
    (runAt runs (r - 1)).oldEnd ≤ definitionStart isspace isalpha old
      (min ((runAt runs r).oldStart : Int) (old.lines.length - 1)) := by
  obtain first | past | apart := ready
  · omega
  · omega
  · rw [if_pos whole] at apart
    obtain ⟨short, some⟩ := apart
    have reach := @le_hunkReach isspace isalpha old new context flags runs (r - 1) positive fits fits'
    have low : 0 ≤ (runAt runs (r - 1)).oldEnd := by
      unfold Change.oldEnd
      omega
    generalize reached : (hunkReach isspace isalpha old new context flags runs (r - 1)).1 = limit at *
    obtain ⟨none, -⟩ | ⟨way, opens, -⟩ := @funcLine_spec isalpha old
      (min ((runAt runs r).oldStart : Int) (old.lines.length - 1))
      limit _ (fun l way => by unfold OnWay at way; omega) rfl
    · omega
    unfold OnWay at way
    -- the definition that ended the hunk before is the first one above this run as well
    have same := @funcLine_spec isalpha old (min ((runAt runs r).oldStart : Int) (old.lines.length - 1)) (-1) _
      (fun l way => by unfold OnWay at way; omega) rfl
    unfold definitionStart
    dsimp only
    obtain ⟨-, all⟩ | ⟨-, opens', after⟩ := same
    · rw [all _ (.inl ⟨by omega, by omega⟩)] at opens
      cases opens
    have beyond : limit < funcLine isalpha old (min ((runAt runs r).oldStart : Int) (old.lines.length - 1)) (-1) := by
      by_contra no
      rw [after _ (.inl ⟨by omega, by omega⟩)] at opens
      cases opens
    have start := opening_after whole low fits reached reach beyond opens'
    omega

end

section
variable (positive : 0 ≤ context) (gaps : ∀ k ≤ runs.length, Gap old.lines.length new.lines.length (0, 0) runs marks k)
include gaps

theorem run_le (le : r ≤ last) (inside : last < runs.length) :
    ((runAt runs r).oldStart ≤ (runAt runs last).oldStart ∧ (runAt runs r).newStart ≤ (runAt runs last).newStart) ∧
      (runAt runs r).oldStop ≤ (runAt runs last).oldStop ∧ (runAt runs r).newStop ≤ (runAt runs last).newStop := by
  induction le with
  | refl => exact ⟨⟨le_rfl, le_rfl⟩, le_rfl, le_rfl⟩
  | @step last le ih =>
    have before := ih (Nat.lt_of_succ_lt inside)
    have gap := gaps (last + 1) (le_of_lt inside)
    have le := gap.le
    have step := gap.step
    rw [gapEnd_inside inside] at le step
    dsimp only [gapStart, Change.oldStop, Change.newStop] at le step before ⊢
    omega

theorem run_fits (inside : r < runs.length) :
    (runAt runs r).oldEnd ≤ old.lines.length ∧ (runAt runs r).newEnd ≤ new.lines.length := by
  obtain ⟨last, many⟩ : ∃ last, runs.length = last + 1 := ⟨runs.length - 1, by omega⟩
  have gap := gaps (last + 1) many.ge
  have le := gap.le
  have step := gap.step
  rw [gapEnd_past many.le] at le step
  have after := (run_le gaps (show r ≤ last by omega) (by omega)).2
  rw [Change.oldEnd_eq, Change.newEnd_eq]
  dsimp only [gapStart, Change.oldStop, Change.newStop] at le step after ⊢
  omega

include positive

theorem hunkStart_spec (inside : r < runs.length) (ready : Ready isspace isalpha old new context flags runs r) :
    ∃ d : Nat, (gapStart (0, 0) runs r).1 + d ≤ (runAt runs r).oldStart ∧
      hunkStart isspace isalpha old new context flags runs r =
        (((runAt runs r).oldStart : Int) - d, ((runAt runs r).newStart : Int) - d) := by
  have le := (gaps r (le_of_lt inside)).le
  have step := (gaps r (le_of_lt inside)).step
  rw [gapEnd_inside inside] at le step
  have low : 0 ≤ definitionStart isspace isalpha old (min ((runAt runs r).oldStart : Int) (old.lines.length - 1)) :=
    le_max_right _ _
  have bounds : gapStart (0, 0) runs r = (0, 0) ∨ context <
    (runAt runs r).oldStart - ((gapStart (0, 0) runs r).1 : Int) ∧
      (flags.functionContext = true → ((gapStart (0, 0) runs r).1 : Int) ≤
        definitionStart isspace isalpha old (min ((runAt runs r).oldStart : Int) (old.lines.length - 1))) := by
    cases r with
    | zero => exact .inl rfl
    | succ r =>
      obtain ⟨fits, fits'⟩ := run_fits gaps (show r + 1 - 1 < runs.length by omega)
      have near := Ready.context_le positive fits fits' inside (Nat.succ_pos r) ready
      have far := Ready.definitionStart_ge positive fits fits' inside (Nat.succ_pos r) ready
      exact .inr ⟨near, far⟩
  obtain starts | ⟨whole, further, starts⟩ := hunkStart_cases rfl rfl rfl
  · rw [starts]
    generalize gapStart (0, 0) runs r = start at *
    generalize runAt runs r = run at *
    refine ⟨(min context (run.oldStart : Int)).toNat, ?_, Prod.ext ?_ ?_⟩
    all_goals
      obtain rfl | ⟨near, -⟩ := bounds
      · dsimp only at *
        omega
      · dsimp only at *
        omega
  rw [starts]
  generalize definitionStart isspace isalpha old (min ((runAt runs r).oldStart : Int) (old.lines.length - 1)) = fs1 at *
  generalize gapStart (0, 0) runs r = start at *
  generalize runAt runs r = run at *
  refine ⟨(run.oldStart - fs1).toNat, ?_, Prod.ext ?_ ?_⟩
  all_goals
    obtain rfl | ⟨near, far⟩ := bounds
    · dsimp only at *
      omega
    · have := far whole
      omega

theorem hunkReach_spec (inside : last < runs.length)
    (ready : Ready isspace isalpha old new context flags runs (last + 1)) :
    ∃ d : Nat, (runAt runs last).oldStop + d ≤ (gapEnd old.lines.length new.lines.length runs (last + 1)).1 ∧
      hunkReach isspace isalpha old new context flags runs last =
        (((runAt runs last).oldStop : Int) + d, ((runAt runs last).newStop : Int) + d) := by
  have le : (runAt runs last).oldStop ≤ _ := (gaps (last + 1) inside).le
  have step : _ + (runAt runs last).oldStop = _ + (runAt runs last).newStop := (gaps (last + 1) inside).step
  obtain ⟨fits, fits'⟩ := run_fits gaps inside
  -- whatever the hunk reaches on to, it is in front of the next run and in the file
  have bounds : gapEnd old.lines.length new.lines.length runs (last + 1) = (old.lines.length, new.lines.length) ∨
      (gapEnd old.lines.length new.lines.length runs (last + 1)).1 ≤ old.lines.length ∧
      (gapEnd old.lines.length new.lines.length runs (last + 1)).2 ≤ new.lines.length ∧
      (flags.functionContext = true → (hunkReach isspace isalpha old new context flags runs last).1 ≤
        ((gapEnd old.lines.length new.lines.length runs (last + 1)).1 : Int)) ∧
      (flags.functionContext ≠ true →
        context ≤ (gapEnd old.lines.length new.lines.length runs (last + 1)).1 - (runAt runs last).oldEnd) := by
    obtain first | past | apart := ready
    · omega
    · exact .inl (gapEnd_past past)
    · by_cases more : last + 1 < runs.length
      · obtain ⟨stop, stop'⟩ := run_fits gaps more
        unfold Change.oldEnd at stop
        unfold Change.newEnd at stop'
        rw [gapEnd_inside more]
        refine .inr ⟨by dsimp only; omega, by dsimp only; omega, fun whole => ?_, fun lines => ?_⟩
        · rw [if_pos whole, Nat.add_sub_cancel] at apart
          dsimp only
          omega
        · rw [if_neg lines, Nat.add_sub_cancel, distance] at apart
          exact le_of_lt apart
      · exact .inl (gapEnd_past (not_lt.1 more))
  have low : 0 ≤ (runAt runs last).oldEnd := by
    rw [Change.oldEnd_eq]
    omega
  have definition := @definitionEnd_le isspace isalpha old _ low fits
  have stop := (runAt runs last).oldEnd_eq
  have stop' := (runAt runs last).newEnd_eq
  generalize own : min (min context (old.lines.length - (runAt runs last).oldEnd))
    (new.lines.length - (runAt runs last).newEnd) = lctx
  generalize ends : definitionEnd isspace isalpha old (runAt runs last).oldEnd = fe1 at definition
  have reached := @hunkReach_cases isspace isalpha old new context flags runs last lctx fe1 own.symm ends.symm
  generalize hunkReach isspace isalpha old new context flags runs last = reach at *
  generalize gapEnd old.lines.length new.lines.length runs (last + 1) = ending at *
  generalize runAt runs last = run at *
  obtain ⟨rfl, -⟩ | ⟨whole, further, rfl⟩ := reached
  · refine ⟨lctx.toNat, ?_, Prod.ext ?_ ?_⟩
    · obtain rfl | ⟨-, -, function, lines⟩ := bounds
      · dsimp only at *
        omega
      · by_cases whole : flags.functionContext = true
        · have := function whole
          omega
        · have := lines whole
          omega
    · dsimp only
      omega
    · dsimp only
      omega
  refine ⟨(fe1 - run.oldEnd).toNat, ?_, Prod.ext ?_ ?_⟩
  · obtain rfl | ⟨-, -, function, -⟩ := bounds
    · dsimp only at *
      omega
    · have := function whole
      omega
  · dsimp only
    omega
  · obtain rfl | ⟨-, fits, function, -⟩ := bounds
    · dsimp only at *
      omega
    · have := function whole
      omega

end

theorem hunkEnd_spec {turns : Nat} (inside : last < runs.length) (enough : runs.length ≤ last + 1 + turns)
    (lines : flags.functionContext ≠ true → Ready isspace isalpha old new context flags runs (last + 1)) :
    ∃ stop, last ≤ stop ∧ stop < runs.length ∧ Ready isspace isalpha old new context flags runs (stop + 1) ∧
      hunkEnd isspace isalpha old new context flags runs turns last =
        (stop, hunkReach isspace isalpha old new context flags runs stop) := by
  induction turns generalizing last with
  | zero => exact ⟨last, le_rfl, inside, .inr (.inl enough), rfl⟩
  | succ turns ih =>
    rw [hunkEnd]
    dsimp only
    by_cases whole : flags.functionContext = true
    · by_cases more : last + 1 < runs.length
      · rw [if_neg (by simp [whole, more])]
        split
        · obtain ⟨stop, after, found⟩ := ih more (by omega) fun lines => absurd whole lines
          exact ⟨stop, Nat.le_of_succ_le after, found⟩
        next apart =>
          refine ⟨last, le_rfl, inside, .inr (.inr ?_), rfl⟩
          rw [if_pos whole]
          rw [not_or] at apart
          exact ⟨not_le.1 apart.1, not_lt.1 apart.2⟩
      · rw [if_pos (.inr (not_lt.1 more))]
        exact ⟨last, le_rfl, inside, .inr (.inl (not_lt.1 more)), rfl⟩
    · rw [if_pos (.inl (by simpa using whole))]
      exact ⟨last, le_rfl, inside, lines whole, rfl⟩

section
variable (all : flags.ignoreBlankLines = false)
include all

theorem skippable_eq (k : Nat) : skippable isspace old new flags runs k = false := by
  rw [skippable, all]
  rfl

theorem firstRun_eq : firstRun isspace old new context flags runs r = r := by
  have none : scan (fun k => skippable isspace old new flags runs (r + k)) (runs.length - r) = 0 :=
    scan_eq (Nat.zero_le _) nofun fun _ => skippable_eq all _
  unfold firstRun
  dsimp only
  rw [none, add_zero, upTo_self]
  rfl

theorem lastRunFrom_spec {count : Nat} (whole : last + 1 + count = runs.length) :
    ∃ stop, last ≤ stop ∧ stop < runs.length ∧ (stop + 1 < runs.length → maxCommon < distance runs stop (stop + 1)) ∧
      lastRunFrom isspace old new context maxCommon flags runs (List.range' (last + 1) count) last 0 = stop := by
  induction count generalizing last with
  | zero => exact ⟨last, le_rfl, by omega, fun more => by omega, rfl⟩
  | succ count ih =>
    obtain ⟨stop, after, found⟩ := @ih (last + 1) (by omega)
    rw [range'_succ, lastRunFrom]
    rw [skippable_eq all, Nat.add_sub_cancel]
    split
    next far => exact ⟨last, le_rfl, by omega, fun _ => far, rfl⟩
    refine ⟨stop, Nat.le_of_succ_le after, ?_⟩
    simp only [Bool.not_false, Bool.false_eq_true, and_false, if_false, ne_eq, not_true_eq_false, false_and,
      if_true, ite_self]
    exact found

end

end

/-! ## What the hunks show -/

/-- A hunk shows the runs from one on up to another, and as many lines of the gaps around them on one side as on the
other. -/
structure Hunk.Spans (hunk : Hunk) (first last : Nat) : Prop where
  le : first ≤ last
  inside : last < runs.length
  start : ∃ d, (gapStart (0, 0) runs first).1 + d ≤ (runAt runs first).oldStart ∧
    hunk.oldStart + d = (runAt runs first).oldStart ∧ hunk.newStart + d = (runAt runs first).newStart
  stop : ∃ d, (runAt runs last).oldStop + d ≤ (gapEnd nOld nNew runs (last + 1)).1 ∧
    hunk.oldStart + hunk.oldCount = (runAt runs last).oldStop + d ∧
      hunk.newStart + hunk.newCount = (runAt runs last).newStop + d

structure Gathering (state : Gathered) : Prop where
  le : state.r ≤ runs.length
  spans : ∀ hunk ∈ state.hunks, ∃ first last, hunk.Spans nOld nNew runs first last
  shown : ∀ k < state.r, ∃ hunk ∈ state.hunks, ∃ first last, hunk.Spans nOld nNew runs first last ∧ first ≤ k ∧ k ≤ last

end

section
variable {isspace isalpha : CharClass} {old new : XdiffFile} {context maxCommon : Int} {flags : Flags}
  {runs : List Change}
  {marks : Marks} {r last : Nat}

theorem sizeT_eq {value : Int} (low : 0 ≤ value) (high : value < 2 ^ 64) : (sizeT value : Int) = value := by
  rw [sizeT, Int.emod_eq_of_lt low high, Int.toNat_of_nonneg low]

variable (positive : 0 ≤ context) (gaps : ∀ k ≤ runs.length, Gap old.lines.length new.lines.length (0, 0) runs marks k)
include gaps

theorem gapEnd_le (k : Nat) : (gapEnd old.lines.length new.lines.length runs k).1 ≤ old.lines.length ∧
    (gapEnd old.lines.length new.lines.length runs k).2 ≤ new.lines.length := by
  unfold gapEnd
  split
  next inside =>
    have bound := run_fits gaps inside
    unfold Change.oldEnd Change.newEnd at bound
    omega
  · exact ⟨le_rfl, le_rfl⟩

include positive

section
variable (all : flags.ignoreBlankLines = false) (wide : context ≤ maxCommon) (small : old.lines.length < 2 ^ 60)
  (small' : new.lines.length < 2 ^ 60)
include all wide small small'

theorem gatherStep_spec {state : Gathered} (more : state.r < runs.length)
    (ready : Ready isspace isalpha old new context flags runs state.r) :
    ∃ hunk stop added removed, gatherStep isspace isalpha old new context maxCommon flags runs state =
        .yield { r := stop + 1, hunks := state.hunks ++ [hunk], keptAdded := added, keptRemoved := removed } ∧
      hunk.Spans old.lines.length new.lines.length runs state.r stop ∧
        Ready isspace isalpha old new context flags runs (stop + 1) := by
  obtain ⟨last, after, inside, far, found⟩ := @lastRunFrom_spec isspace old new context maxCommon flags runs state.r all
    (runs.length - (state.r + 1)) (by omega)
  have lines : flags.functionContext ≠ true → Ready isspace isalpha old new context flags runs (last + 1) := by
    intro lines
    by_cases next : last + 1 < runs.length
    · refine .inr (.inr ?_)
      rw [if_neg lines]
      exact lt_of_le_of_lt wide (far next)
    · exact .inr (.inl (not_lt.1 next))
  obtain ⟨stop, after', inside', ready', ended⟩ := @hunkEnd_spec isspace isalpha old new context flags runs last
    runs.length inside
    (by omega) lines
  obtain ⟨d, up, starts⟩ := hunkStart_spec positive gaps more ready
  obtain ⟨e, down, reaches⟩ := hunkReach_spec positive gaps inside' ready'
  obtain ⟨⟨order, order'⟩, -⟩ := run_le gaps (le_trans after after') inside'
  have step := (gaps state.r (le_of_lt more)).step
  rw [gapEnd_inside more] at step
  have step' : _ + (runAt runs stop).oldStop = _ + (runAt runs stop).newStop := (gaps (stop + 1) inside').step
  have inFile := gapEnd_le gaps (stop + 1)
  unfold gatherStep
  dsimp only
  rw [firstRun_eq all, if_neg (not_le.2 more), upTo, found, ended, starts, reaches]
  have grows : (runAt runs stop).oldStart ≤ (runAt runs stop).oldStop := Nat.le_add_right _ _
  have grows' : (runAt runs stop).newStart ≤ (runAt runs stop).newStop := Nat.le_add_right _ _
  have oldStart : (sizeT ((runAt runs state.r).oldStart - d : Int) : Int) = _ := sizeT_eq (by omega) (by omega)
  have newStart : (sizeT ((runAt runs state.r).newStart - d : Int) : Int) = _ := sizeT_eq (by omega) (by omega)
  have oldCount : (sizeT ((runAt runs stop).oldStop + e - ((runAt runs state.r).oldStart - d) : Int) : Int) = _ :=
    sizeT_eq (by omega) (by omega)
  have newCount : (sizeT ((runAt runs stop).newStop + e - ((runAt runs state.r).newStart - d) : Int) : Int) = _ :=
    sizeT_eq (by omega) (by omega)
  refine ⟨_, stop, _, _, rfl, ⟨le_trans after after', inside', ⟨d, up, ?_, ?_⟩, ⟨e, down, ?_, ?_⟩⟩, ready'⟩
  · dsimp only
    omega
  · dsimp only
    omega
  · dsimp only
    omega
  · dsimp only
    omega

theorem gatherHunks_spec {gathered : Gathered}
    (found : gatherHunks isspace isalpha old new context maxCommon flags runs = some gathered) :
    Gathering old.lines.length new.lines.length runs gathered ∧ gathered.r = runs.length := by
  have run : ∃ state, gatherHunks isspace isalpha old new context maxCommon flags runs = some state ∧
      (Gathering old.lines.length new.lines.length runs state ∧ state.r = runs.length) := by
    refine repeatUntil_spec (fun state => Gathering old.lines.length new.lines.length runs state ∧
      Ready isspace isalpha old new context flags runs state.r) _ (fun state => runs.length - state.r)
        (fun state holds => ⟨_, rfl, ?_⟩)
      ⟨⟨Nat.zero_le _, nofun, nofun⟩, .inl rfl⟩ (Nat.lt_succ_self _)
    obtain ⟨⟨le, spans, shown⟩, ready⟩ := holds
    split
    next more =>
      obtain ⟨hunk, stop, added, removed, turn, own, ready'⟩ :=
        @gatherStep_spec isspace isalpha old new context maxCommon flags runs marks positive gaps all wide small
          small' state more ready
      rw [turn]
      have order := own.le
      refine ⟨⟨⟨own.inside, fun other member => ?_, fun k below => ?_⟩, ready'⟩,
        Nat.sub_lt_sub_left more (by dsimp only; omega)⟩
      · obtain early | late := mem_append.1 member
        · exact spans other early
        · cases mem_singleton.1 late
          exact ⟨state.r, stop, own⟩
      · by_cases early : k < state.r
        · obtain ⟨other, member, held⟩ := shown k early
          exact ⟨other, mem_append_left _ member, held⟩
        · dsimp only at below
          exact ⟨hunk, mem_append_right _ (.head _), state.r, stop, own, by omega, by omega⟩
    next ended => exact ⟨⟨le, spans, shown⟩, by omega⟩
  obtain ⟨state, ran, held⟩ := run
  cases found.symm.trans ran
  exact held

end

end

structure Hunk.InStep (old new : XdiffFile) (marks : Marks) (hunk : Hunk) : Prop where
  oldFits : hunk.oldStart + hunk.oldCount ≤ old.lines.length
  newFits : hunk.newStart + hunk.newCount ≤ new.lines.length
  even : (inPlace marks.old hunk.oldStart (hunk.oldStart + hunk.oldCount)).length =
    (inPlace marks.new hunk.newStart (hunk.newStart + hunk.newCount)).length

section
variable {old new : XdiffFile} {runs : List Change} {marks : Marks} {hunk : Hunk} {first last k : Nat}

section
variable (gaps : ∀ k ≤ runs.length, Gap old.lines.length new.lines.length (0, 0) runs marks k)
  (spans : hunk.Spans old.lines.length new.lines.length runs first last)
include gaps spans

theorem Hunk.Spans.inStep : hunk.InStep old new marks := by
  obtain ⟨le, inside, ⟨d, up, oldStart, newStart⟩, e, down, oldStop, newStop⟩ := spans
  have before := gaps first (by omega)
  have after := gaps (last + 1) inside
  have step := before.step
  rw [gapEnd_inside (by omega)] at step
  have step' : _ + (runAt runs last).oldStop = _ + (runAt runs last).newStop := after.step
  have inFile := gapEnd_le gaps (last + 1)
  have starts : Level marks hunk.oldStart hunk.newStart := by
    have level := before.level (hunk.oldStart - (gapStart (0, 0) runs first).1)
    rw [gapEnd_inside (by omega)] at level
    have here := level (by omega)
    rwa [show (gapStart (0, 0) runs first).1 + (hunk.oldStart - (gapStart (0, 0) runs first).1) =
      hunk.oldStart by omega,
      show (gapStart (0, 0) runs first).2 + (hunk.oldStart - (gapStart (0, 0) runs first).1) =
        hunk.newStart by omega] at here
  have stops : Level marks (hunk.oldStart + hunk.oldCount) (hunk.newStart + hunk.newCount) := by
    rw [oldStop, newStop]
    exact after.level e down
  exact ⟨by omega, by omega, (starts.advance_iff (Nat.le_add_right _ _) (Nat.le_add_right _ _)).1 stops⟩

theorem Hunk.Spans.covers (low : first ≤ k) (high : k ≤ last) :
    hunk.oldStart ≤ (runAt runs k).oldStart ∧ (runAt runs k).oldStop ≤ hunk.oldStart + hunk.oldCount ∧
      hunk.newStart ≤ (runAt runs k).newStart ∧ (runAt runs k).newStop ≤ hunk.newStart + hunk.newCount := by
  obtain ⟨-, inside, ⟨d, up, oldStart, newStart⟩, e, down, oldStop, newStop⟩ := spans
  have before := (run_le gaps low (by omega)).1
  have after := (run_le gaps high inside).2
  omega

end

end

/-- The hunks of a diff that passes no run over: each is in step, and every line that is marked is in one of them. -/
theorem xdiffFull_hunks (isspace isalpha : CharClass) (flags : Flags) (old new : LineFile) (context interContext : Int)
    (all : flags.ignoreBlankLines = false) {result : XdiffResult}
    (full : xdiffFull isspace isalpha flags old.file new.file context interContext = some result) :
    (∀ hunk ∈ result.hunks, hunk.InStep old.file new.file result.marks) ∧
      (∀ i < old.file.lines.length, result.marks.old i = true →
        ∃ hunk ∈ result.hunks, hunk.oldStart ≤ i ∧ i < hunk.oldStart + hunk.oldCount) ∧
      ∀ j < new.file.lines.length, result.marks.new j = true →
        ∃ hunk ∈ result.hunks, hunk.newStart ≤ j ∧ j < hunk.newStart + hunk.newCount := by
  obtain ⟨marks, ran, aligned⟩ := xdiffMarks_sound isspace flags old new
  obtain ⟨runs, found, held, -, inOld, inNew, -⟩ := changes_spec
    (fun line => show SameLine isspace flags line line from .inl rfl) aligned
  have gaps : ∀ k ≤ runs.length, Gap old.file.lines.length new.file.lines.length (0, 0) runs marks k :=
    fun k inside => held.gaps rfl inOld inNew inside
  simp only [xdiffFull, ran, found, bind, Option.bind] at full
  split at full
  next none =>
    cases full
    refine ⟨forall_mem_nil _, fun i inside marked => ?_, fun j inside marked => ?_⟩
    · exact absurd marked (countP_eq_zero.1 none.2 i (mem_range.2 inside))
    · exact absurd marked (countP_eq_zero.1 none.1 j (mem_range.2 inside))
  obtain ⟨gathered, gather⟩ := gatherHunks_ends isspace isalpha old.file new.file (max context 0)
    (2 * max context 0 + max interContext 0) flags runs
  rw [gather] at full
  dsimp only at full
  rw [if_neg (by simp [all])] at full
  cases full
  obtain ⟨⟨-, spans, shown⟩, whole⟩ := gatherHunks_spec (le_max_right context 0) gaps all
    (by omega) old.fits_file new.fits_file
    gather
  have hunkOf : ∀ change ∈ runs, ∃ hunk ∈ gathered.hunks, hunk.oldStart ≤ change.oldStart ∧
      change.oldStop ≤ hunk.oldStart + hunk.oldCount ∧ hunk.newStart ≤ change.newStart ∧
      change.newStop ≤ hunk.newStart + hunk.newCount := by
    intro change member
    obtain ⟨k, inside, rfl⟩ := mem_iff_getElem.1 member
    obtain ⟨hunk, here, first, last, own, low, high⟩ := shown k (whole ▸ inside)
    have covers := own.covers gaps low high
    rw [runAt, getD_eq_getElem?_getD, getElem?_eq_getElem inside] at covers
    exact ⟨hunk, here, covers⟩
  refine ⟨fun hunk member => ?_, fun i inside marked => ?_, fun j inside marked => ?_⟩
  · obtain ⟨first, last, own⟩ := spans hunk member
    exact own.inStep gaps
  · obtain ⟨change, member, above, below⟩ := (inOld i (Nat.zero_le i) inside).1 marked
    obtain ⟨hunk, here, start, stop, -⟩ := hunkOf change member
    exact ⟨hunk, here, by omega, by omega⟩
  · obtain ⟨change, member, above, below⟩ := (inNew j (Nat.zero_le j) inside).1 marked
    obtain ⟨hunk, here, -, -, start, stop⟩ := hunkOf change member
    exact ⟨hunk, here, by omega, by omega⟩

theorem xdiffFull_calm {isspace isalpha : CharClass} {flags : Flags} {old new : XdiffFile} {context interContext : Int}
    {result : XdiffResult} (full : xdiffFull isspace isalpha flags old new context interContext = some result)
    (none : ¬ Shows result.marks old.lines.length new.lines.length) : result.hunks = [] := by
  obtain ⟨marks, -, full⟩ := bind_eq_some_iff.1 full
  dsimp only at full
  split at full
  · cases full
    rfl
  rename_i some
  obtain ⟨runs, -, full⟩ := bind_eq_some_iff.1 full
  obtain ⟨gathered, -, full⟩ := bind_eq_some_iff.1 full
  have own : result.marks = marks := by
    split at full
    · cases full
      rfl
    · cases full
      rfl
  rw [own] at none
  refine absurd ⟨?_, ?_⟩ some
  · exact countP_eq_zero.2 fun j inside marked => none (.inr ⟨j, mem_range.1 inside, marked⟩)
  · exact countP_eq_zero.2 fun i inside marked => none (.inl ⟨i, mem_range.1 inside, marked⟩)

end BashOs.Git.Diff

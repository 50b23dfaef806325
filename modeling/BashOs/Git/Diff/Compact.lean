import BashOs.Git.Diff.Lines
import BashOs.Lib.Alignment

/-!
How runs of changed lines are moved to where they read best: `bgit_compact`. A run slides over a line that is the
same as the one at its other end, so the lines that stay unmarked keep their contents and their order; wherever a
run ends up, what it leaves unmarked is the same.
-/

namespace BashOs.Git.Diff
open BashOs.Lib List
open Function (update update_of_ne update_self)

/-! ## Where a run reads best -/

section Score
variable (isspace : CharClass)

def indentFrom (indent : Nat) : Bytes → Int
  | [] => -1
  | byte :: rest =>
    if !isspace byte then indent
    else
      let indent := if byte = 32 then indent + 1 else if byte = 9 then indent + (8 - indent % 8) else indent
      if indent ≥ 200 then 200 else indentFrom indent rest

def indentOf (line : Bytes) : Int := indentFrom isspace 0 line

def blanksAlong (text : XdiffFile) (blank : Nat) : List Nat → Nat × Int
  | [] => (blank, -1)
  | i :: rest =>
    let indent := indentOf isspace (text.line i)
    if indent ≠ -1 then (blank, indent) else if blank + 1 = 20 then (20, 0) else blanksAlong text (blank + 1) rest

structure SplitMeasure where
  endOfFile : Bool
  indent : Int
  preBlank : Nat
  preIndent : Int
  postBlank : Nat
  postIndent : Int

def measureSplit (text : XdiffFile) (n split : Nat) : SplitMeasure :=
  let pre := blanksAlong isspace text 0 (List.range split).reverse
  let post := blanksAlong isspace text 0 (upTo (split + 1) n)
  { endOfFile := split ≥ n, indent := if split ≥ n then -1 else indentOf isspace (text.line split),
    preBlank := pre.1, preIndent := pre.2, postBlank := post.1, postIndent := post.2 }

structure SplitScore where
  effectiveIndent : Int
  penalty : Int
deriving DecidableEq, Repr

def scoreAddSplit (m : SplitMeasure) (s : SplitScore) : SplitScore :=
  let postBlank : Int := if m.indent = -1 then 1 + m.postBlank else 0
  let totalBlank : Int := m.preBlank + postBlank
  let indent := if m.indent ≠ -1 then m.indent else m.postIndent
  let anyBlanks : Bool := totalBlank ≠ 0
  let relative : Int :=
    if indent = -1 ∨ m.preIndent = -1 ∨ indent = m.preIndent then 0
    else if indent > m.preIndent then if anyBlanks then 10 else -4
    else if m.postIndent ≠ -1 ∧ m.postIndent > m.indent then if anyBlanks then 17 else 24
    else if anyBlanks then 17 else 23
  { effectiveIndent := s.effectiveIndent + indent,
    penalty := s.penalty + (if m.preIndent = -1 ∧ m.preBlank = 0 then 1 else 0) + (if m.endOfFile then 21 else 0) +
      -30 * totalBlank + 6 * postBlank + relative }

def scoreCmp (a b : SplitScore) : Int :=
  let indents := (if a.effectiveIndent > b.effectiveIndent then 1 else 0) -
    (if a.effectiveIndent < b.effectiveIndent then 1 else 0)
  60 * indents + (a.penalty - b.penalty)

/-- The place with the best score for the end of a run of `size` lines that ends at `stop` now. -/
def bestShift (text : XdiffFile) (n size earliestEnd stop : Nat) : Option Nat :=
  let first := max (max earliestEnd (stop - size - 1)) (stop - 100)
  let best := (upTo first (stop + 1)).foldl (fun (best : Option (Nat × SplitScore)) shift =>
    let score := scoreAddSplit (measureSplit isspace text n shift) { effectiveIndent := 0, penalty := 0 }
    let score := scoreAddSplit (measureSplit isspace text n (shift - size)) score
    match best with
    | none => some (shift, score)
    | some (_, known) => if scoreCmp score known ≤ 0 then some (shift, score) else best) none
  best.map (·.1)

end Score

/-! ## Runs -/

/-- `bgit_group`: a run of changed lines, which can be empty. -/
structure Group where
  start : Nat
  stop : Nat
deriving DecidableEq, Repr

/-- `bgit_group_init`. Past the end of a file nothing is marked. -/
def groupInit (changed : Nat → Bool) (n : Nat) : Group := { start := 0, stop := scan changed n }

def groupNext (changed : Nat → Bool) (n : Nat) (g : Group) : Option Group :=
  if g.stop = n then none
  else
    let start := g.stop + 1
    some { start, stop := start + scan (fun k => changed (start + k)) (n - start) }

def groupPrevious (changed : Nat → Bool) (g : Group) : Option Group :=
  if g.start = 0 then none
  else
    let stop := g.start - 1
    some { start := stop - scan (fun k => changed (stop - k - 1)) stop, stop }

def slideUp (file : XdiffFile) (changed : Nat → Bool) (g : Group) : Option ((Nat → Bool) × Group) :=
  if 0 < g.start ∧ lineSame file (g.start - 1) file (g.stop - 1) then
    let start := g.start - 1
    let stop := g.stop - 1
    let changed := update (update changed start true) stop false
    some (changed, { start := start - scan (fun k => changed (start - k - 1)) start, stop })
  else none

def slideDown (file : XdiffFile) (n : Nat) (changed : Nat → Bool) (g : Group) : Option ((Nat → Bool) × Group) :=
  if g.stop < n ∧ lineSame file g.start file g.stop then
    let changed := update (update changed g.start false) g.stop true
    let stop := g.stop + 1
    some (changed, { start := g.start + 1, stop := stop + scan (fun k => changed (stop + k)) (n - stop) })
  else none

structure Sliding where
  changed : Nat → Bool
  g : Group
  go : Group

section Compact
variable (isspace : CharClass) (file text : XdiffFile) (n : Nat) (other : Nat → Bool) (otherN : Nat)

def climbStep (s : Sliding) : ForInStep Sliding :=
  match slideUp file s.changed s.g with
  | none => .done s
  | some (changed, g) =>
    match groupPrevious other s.go with
    | none => .done { s with changed, g }
    | some go => .yield { changed, g, go }

def climbWhile (test : Sliding → Bool) (s : Sliding) : Option Sliding :=
  repeatUntil (fun s => some (if test s then climbStep file other s else .done s)) (s.g.stop + 1) s

def descendStep (state : Sliding × Option Nat) : ForInStep (Sliding × Option Nat) :=
  match slideDown file n state.1.changed state.1.g with
  | none => .done state
  | some (changed, g) =>
    match groupNext other otherN state.1.go with
    | none => .done ({ state.1 with changed, g }, state.2)
    | some go => .yield ({ changed, g, go }, if go.stop > go.start then some g.stop else state.2)

def descend (state : Sliding × Option Nat) : Option (Sliding × Option Nat) :=
  repeatUntil (fun state => some (descendStep file n other otherN state)) (n + 1) state

structure Round where
  sliding : Sliding
  size : Nat
  earliestEnd : Nat
  matchingOther : Option Nat

def slideRound (round : Round) : Option (ForInStep Round) := do
  let size := round.sliding.g.stop - round.sliding.g.start
  let high ← climbWhile file other (fun _ => true) round.sliding
  let matching := if high.go.stop > high.go.start then some high.g.stop else none
  let (low, matchingOther) ← descend file n other otherN (high, matching)
  let round := { sliding := low, size, earliestEnd := high.g.stop, matchingOther }
  some (if size ≠ low.g.stop - low.g.start then .yield round else .done round)

def placeGroup (indentHeuristic : Bool) (s : Sliding) : Option Sliding := do
  let round ← repeatUntil (slideRound file n other otherN) (n + 1)
    { sliding := s, size := 0, earliestEnd := 0, matchingOther := none }
  let s := round.sliding
  if s.g.stop = round.earliestEnd then some s
  else if round.matchingOther.isSome then climbWhile file other (fun s => s.go.stop = s.go.start) s
  else if indentHeuristic then
    match bestShift isspace text n round.size round.earliestEnd s.g.stop with
    | none => climbWhile file other (fun _ => true) s
    | some shift => climbWhile file other (fun s => s.g.stop > shift) s
  else some s

def compactStep (indentHeuristic : Bool) (s : Sliding) : Option (ForInStep Sliding) := do
  let s ← if s.g.stop = s.g.start then some s else placeGroup isspace file text n other otherN indentHeuristic s
  match groupNext s.changed n s.g with
  | none => some (.done s)
  | some g =>
    match groupNext other otherN s.go with
    | none => some (.done { s with g })
    | some go => some (.yield { s with g, go })

def compact (indentHeuristic : Bool) (changed : Nat → Bool) : Option (Nat → Bool) :=
  (repeatUntil (compactStep isspace file text n other otherN indentHeuristic) ((n + 1) * (n + 1))
    { changed, g := groupInit changed n, go := groupInit other otherN }).map (·.changed)

end Compact

/-! ## What moving a run keeps -/

structure Grouped (n : Nat) (changed : Nat → Bool) (g : Group) : Prop where
  le : g.start ≤ g.stop
  inside : g.stop ≤ n
  marked : ∀ i, g.start ≤ i → i < g.stop → changed i = true
  before : 0 < g.start → changed (g.start - 1) = false
  after : changed g.stop = false
  beyond : ∀ i, n ≤ i → changed i = false

def markedFrom (n : Nat) (changed : Nat → Bool) (place : Nat) : Nat := (upTo place n).countP changed

/-- What moves of a run do: the lines left unmarked are the same, the run grows if anything, and no more is left to
do. -/
structure Moves (file : XdiffFile) (n : Nat) (changed : Nat → Bool) (g : Group) (changed' : Nat → Bool)
    (g' : Group) : Prop where
  grouped : Grouped n changed' g'
  same : kept file.line changed' (List.range n) = kept file.line changed (List.range n)
  size : g.stop - g.start ≤ g'.stop - g'.start
  ahead : markedFrom n changed' g'.stop ≤ markedFrom n changed g.stop

section
variable {file : XdiffFile} {n : Nat} {changed changed' changed'' : Nat → Bool} {g g' g'' : Group}

theorem scanUp_spec (changed : Nat → Bool) (place : Nat) :
    ∃ first ≤ place, place - scan (fun k => changed (place - k - 1)) place = first ∧
      (∀ i, first ≤ i → i < place → changed i = true) ∧ (0 < first → changed (first - 1) = false) := by
  refine ⟨_, Nat.sub_le _ _, rfl, fun i low high => ?_, fun positive => ?_⟩
  · have here := @scan_holds (fun k => changed (place - k - 1)) place (place - 1 - i) (by omega)
    rwa [show place - (place - 1 - i) - 1 = i by omega] at here
  · exact @scan_stops (fun k => changed (place - k - 1)) place (by omega)

theorem scanDown_spec (changed : Nat → Bool) {place n : Nat} (inside : place ≤ n) (beyond : changed n = false) :
    ∃ last, place + scan (fun k => changed (place + k)) (n - place) = last ∧ place ≤ last ∧ last ≤ n ∧
      (∀ i, place ≤ i → i < last → changed i = true) ∧ changed last = false := by
  have within : scan (fun k => changed (place + k)) (n - place) ≤ n - place := scan_le
  refine ⟨_, rfl, Nat.le_add_right _ _, by omega, fun i low high => ?_, ?_⟩
  · have here := @scan_holds (fun k => changed (place + k)) (n - place) (i - place) (by omega)
    rwa [Nat.add_sub_cancel' low] at here
  · obtain less | all := Nat.lt_or_eq_of_le within
    · exact @scan_stops (fun k => changed (place + k)) (n - place) less
    · rwa [all, Nat.add_sub_cancel' inside]

theorem Moves.refl (grouped : Grouped n changed g) : Moves file n changed g changed g := ⟨grouped, rfl, le_rfl, le_rfl⟩

theorem Moves.trans (first : Moves file n changed g changed' g') (second : Moves file n changed' g' changed'' g'') :
    Moves file n changed g changed'' g'' :=
  ⟨second.grouped, second.same.trans first.same, first.size.trans second.size, second.ahead.trans first.ahead⟩

theorem markedFrom_congr {place : Nat} (agree : ∀ i, place ≤ i → changed i = changed' i) :
    markedFrom n changed place = markedFrom n changed' place := by
  apply countP_congr
  intro i member
  rw [agree i (mem_upTo.1 member).1]

theorem markedFrom_anti {place place' : Nat} (later : place ≤ place') :
    markedFrom n changed place' ≤ markedFrom n changed place := by
  unfold markedFrom
  by_cases inside : place' ≤ n
  · rw [upTo_append later inside, countP_append]
    exact Nat.le_add_left _ _
  · rw [upTo, Nat.sub_eq_zero_of_le (by omega)]
    exact Nat.zero_le _

theorem markedFrom_unmarked {place : Nat} (inside : place < n) (unmarked : changed place = false) :
    markedFrom n changed place = markedFrom n changed (place + 1) := by
  unfold markedFrom
  rw [upTo_append (Nat.le_succ place) inside, upTo_singleton, countP_append, countP_singleton, unmarked]
  simp

theorem swapped_spec {p q : Nat} {b c : Bool} (apart : p ≠ q) (marks : update (update changed p b) q c = changed') :
    changed' p = b ∧ changed' q = c ∧ ∀ i, i ≠ p → i ≠ q → changed' i = changed i := by
  subst marks
  exact ⟨by rw [update_of_ne apart, update_self], update_self .., fun i first last => by rw [update_of_ne last, update_of_ne first]⟩

section
variable (grouped : Grouped n changed g) (some : g.start < g.stop)
include grouped some

theorem slideUp_moves (slid : slideUp file changed g = Option.some (changed', g')) :
    Moves file n changed g changed' g' ∧ g'.stop + 1 = g.stop := by
  unfold slideUp at slid
  split at slid
  next can =>
    obtain ⟨room, same⟩ := can
    have inside := grouped.inside
    simp only [Option.some.injEq, Prod.mk.injEq] at slid
    obtain ⟨marks, group⟩ := slid
    rw [marks] at group
    obtain ⟨at_start, at_stop, elsewhere⟩ := swapped_spec (by omega) marks
    -- the run takes in what stands right above it
    obtain ⟨first, low, reached, taken, top⟩ := scanUp_spec changed' (g.start - 1)
    rw [reached] at group
    subst group
    refine ⟨⟨⟨?_, ?_, fun i low high => ?_, top, at_stop, fun i past => ?_⟩, ?_, ?_, ?_⟩, Nat.sub_add_cancel (by omega)⟩
    · exact le_trans low (Nat.sub_le_sub_right grouped.le 1)
    · exact le_trans (Nat.sub_le _ _) inside
    · have low : first ≤ i := low
      have high : i < g.stop - 1 := high
      by_cases above : i < g.start - 1
      · exact taken i low above
      · by_cases edge : i = g.start - 1
        · rw [edge, at_start]
        · rw [elsewhere i edge (by omega)]
          exact grouped.marked i (by omega) (by omega)
    · rw [elsewhere i (by omega) (by omega), grouped.beyond i past]
    · refine (kept_slide (p := g.start - 1) (q := g.stop - 1) (by omega) (by omega)
        (lineSame_iff.1 same) ?_ ?_ ?_ ?_).symm
      · intro i low high
        rw [elsewhere i (by omega) (by omega)]
        exact ⟨grouped.marked i (by omega) (by omega), grouped.marked i (by omega) (by omega)⟩
      · intro i out
        rw [elsewhere i (by omega) (by omega)]
      · exact ⟨grouped.before room, at_start⟩
      · exact ⟨grouped.marked _ (by omega) (by omega), at_stop⟩
    · dsimp only
      omega
    · dsimp only
      rw [markedFrom_unmarked (by omega) at_stop, Nat.sub_add_cancel (by omega)]
      refine le_of_eq (markedFrom_congr fun i low => ?_)
      rw [elsewhere i (by omega) (by omega)]
  · cases slid

theorem slideDown_moves (slid : slideDown file n changed g = Option.some (changed', g')) :
    Moves file n changed g changed' g' ∧ g.stop < g'.stop := by
  unfold slideDown at slid
  split at slid
  next can =>
    obtain ⟨room, same⟩ := can
    simp only [Option.some.injEq, Prod.mk.injEq] at slid
    obtain ⟨marks, group⟩ := slid
    rw [marks] at group
    obtain ⟨at_start, at_stop, elsewhere⟩ := swapped_spec (by omega) marks
    have beyond : ∀ i, n ≤ i → changed' i = false := by
      intro i past
      rw [elsewhere i (by omega) (by omega), grouped.beyond i past]
    -- the run takes in what stands right below it
    obtain ⟨last, reached, low, high, taken, bottom⟩ := scanDown_spec changed' room (beyond n (le_refl n))
    rw [reached] at group
    subst group
    refine ⟨⟨⟨?_, high, fun i low high => ?_, fun _ => at_start, bottom, beyond⟩, ?_, ?_, ?_⟩, low⟩
    · exact le_trans (Nat.succ_le_succ grouped.le) low
    · have low : g.start + 1 ≤ i := low
      by_cases below : g.stop + 1 ≤ i
      · exact taken i below high
      · by_cases edge : i = g.stop
        · rw [edge, at_stop]
        · rw [elsewhere i (by omega) edge]
          exact grouped.marked i (by omega) (by omega)
    · refine kept_slide (p := g.start) (q := g.stop) some room (lineSame_iff.1 same) ?_ ?_ ?_ ?_
      · intro i low high
        rw [elsewhere i (by omega) (by omega)]
        exact ⟨grouped.marked i (by omega) high, grouped.marked i (by omega) high⟩
      · intro i out
        rw [elsewhere i (by omega) (by omega)]
      · exact ⟨at_start, grouped.marked _ (by omega) some⟩
      · exact ⟨at_stop, grouped.after⟩
    · dsimp only
      omega
    · have later : markedFrom n changed' last = markedFrom n changed last := by
        refine markedFrom_congr fun i low => ?_
        rw [elsewhere i (by omega) (by omega)]
      rw [later]
      exact markedFrom_anti (by omega)
  · cases slid

end

theorem groupInit_grouped (beyond : ∀ i, n ≤ i → changed i = false) : Grouped n changed (groupInit changed n) := by
  obtain ⟨last, reached, low, high, taken, bottom⟩ := scanDown_spec changed (Nat.zero_le n) (beyond n (le_refl n))
  have stop : (groupInit changed n).stop = last := by
    rw [← reached]
    simp [groupInit]
  refine ⟨Nat.zero_le _, ?_, ?_, fun positive => absurd positive (lt_irrefl 0), ?_, beyond⟩
  · rwa [stop]
  · rwa [stop]
  · rwa [stop]

theorem groupNext_grouped (grouped : Grouped n changed g) (next : groupNext changed n g = some g') :
    Grouped n changed g' ∧ g'.start = g.stop + 1 ∧ g.stop < n := by
  unfold groupNext at next
  split at next
  · cases next
  rename_i more
  have room : g.stop < n := Nat.lt_of_le_of_ne grouped.inside more
  obtain ⟨last, reached, low, high, taken, bottom⟩ := scanDown_spec changed room (grouped.beyond n (le_refl n))
  dsimp only at next
  rw [reached] at next
  cases next
  exact ⟨⟨low, high, taken, fun _ => grouped.after, bottom, grouped.beyond⟩, rfl, room⟩

/-! ## The loops -/

abbrev SlidesTo (file : XdiffFile) (n : Nat) (s t : Sliding) : Prop := Moves file n s.changed s.g t.changed t.g

variable {s t : Sliding} {other : Nat → Bool} {otherN : Nat}

theorem SlidesTo.some (slides : SlidesTo file n s t) (some : s.g.start < s.g.stop) : t.g.start < t.g.stop := by
  have size := slides.size
  omega

theorem climbWhile_slides (file : XdiffFile) (other : Nat → Bool) (test : Sliding → Bool)
    (grouped : Grouped n s.changed s.g)
    (some : s.g.start < s.g.stop) : ∃ t, climbWhile file other test s = Option.some t ∧ SlidesTo file n s t := by
  refine repeatUntil_spec (SlidesTo file n s) _ (fun t => t.g.stop) (fun t slides => ⟨_, rfl, ?_⟩) (Moves.refl grouped)
    (Nat.lt_succ_self _)
  split
  · unfold climbStep
    split
    · exact slides
    rename_i changed g slid
    obtain ⟨moves, shorter⟩ := slideUp_moves slides.grouped (slides.some some) slid
    split
    · exact slides.trans moves
    next go _ => exact ⟨slides.trans moves, Nat.lt_of_succ_le (le_of_eq shorter)⟩
  · exact slides

theorem descend_slides (file : XdiffFile) (other : Nat → Bool) (otherN : Nat) (matching : Option Nat)
    (grouped : Grouped n s.changed s.g)
    (some : s.g.start < s.g.stop) :
    ∃ t matching', descend file n other otherN (s, matching) = Option.some (t, matching') ∧ SlidesTo file n s t := by
  have run : ∃ final, descend file n other otherN (s, matching) = Option.some final ∧ SlidesTo file n s final.1 := by
    refine repeatUntil_spec (fun state => SlidesTo file n s state.1) _ (fun state => n - state.1.g.stop)
      (fun state slides => ⟨_, rfl, ?_⟩) (Moves.refl grouped) (Nat.lt_succ_of_le (Nat.sub_le _ _))
    unfold descendStep
    split
    · exact slides
    rename_i changed g slid
    obtain ⟨moves, longer⟩ := slideDown_moves slides.grouped (slides.some some) slid
    have inside := moves.grouped.inside
    split
    · exact slides.trans moves
    next go _ => exact ⟨slides.trans moves, Nat.sub_lt_sub_left (lt_of_lt_of_le longer inside) longer⟩
  obtain ⟨⟨t, matching'⟩, ran, slides⟩ := run
  exact ⟨t, matching', ran, slides⟩

theorem slideRound_slides (round : Round) (grouped : Grouped n round.sliding.changed round.sliding.g)
    (some : round.sliding.g.start < round.sliding.g.stop) :
    ∃ turn, slideRound file n other otherN round = Option.some turn ∧
      Turns (fun after => SlidesTo file n round.sliding after.sliding)
        (fun after => SlidesTo file n round.sliding after.sliding)
        (fun round => n - (round.sliding.g.stop - round.sliding.g.start)) round turn := by
  obtain ⟨high, climbed, up⟩ := climbWhile_slides file other (fun _ => true) grouped some
  obtain ⟨low, matching, descended, down⟩ := descend_slides file other otherN
    (if high.go.stop > high.go.start then Option.some high.g.stop else none) up.grouped (up.some some)
  have moves := up.trans down
  have inside := moves.grouped.inside
  have size := moves.size
  unfold slideRound
  simp only [climbed, descended, bind, Option.bind]
  refine ⟨_, rfl, ?_⟩
  split
  next grown =>
    refine ⟨moves, ?_⟩
    dsimp only
    omega
  · exact moves

theorem placeGroup_slides (isspace : CharClass) (text : XdiffFile) (other : Nat → Bool) (otherN : Nat)
    (indentHeuristic : Bool)
    (grouped : Grouped n s.changed s.g) (some : s.g.start < s.g.stop) :
    ∃ t, placeGroup isspace file text n other otherN indentHeuristic s = Option.some t ∧ SlidesTo file n s t := by
  have rounds : ∃ round, repeatUntil (slideRound file n other otherN) (n + 1)
      { sliding := s, size := 0, earliestEnd := 0, matchingOther := none } = Option.some round ∧
        SlidesTo file n s round.sliding := by
    refine repeatUntil_spec (fun round => SlidesTo file n s round.sliding) _
      (fun round => n - (round.sliding.g.stop - round.sliding.g.start)) (fun round slides => ?_) (Moves.refl grouped)
      (Nat.lt_succ_of_le (Nat.sub_le _ _))
    obtain ⟨turn, ran, turned⟩ := slideRound_slides round slides.grouped (slides.some some)
    refine ⟨turn, ran, ?_⟩
    cases turn with
    | done after => exact slides.trans turned
    | yield after => exact ⟨slides.trans turned.1, turned.2⟩
  obtain ⟨round, ran, slides⟩ := rounds
  have climb (test : Sliding → Bool) : ∃ t, climbWhile file other test round.sliding = Option.some t ∧
      SlidesTo file n s t := by
    obtain ⟨t, climbed, up⟩ := climbWhile_slides file other test slides.grouped (slides.some some)
    exact ⟨t, climbed, slides.trans up⟩
  unfold placeGroup
  simp only [ran, bind, Option.bind]
  split
  · exact ⟨_, rfl, slides⟩
  split
  · exact climb _
  split
  · split
    · exact climb _
    · exact climb _
  · exact ⟨_, rfl, slides⟩

theorem Grouped.markedFrom_start (grouped : Grouped n changed g) :
    markedFrom n changed g.start = (g.stop - g.start) + markedFrom n changed g.stop := by
  unfold markedFrom
  rw [upTo_append grouped.le grouped.inside, countP_append, countP_eq_length.2]
  · simp [upTo]
  · intro i member
    exact grouped.marked i (mem_upTo.1 member).1 (mem_upTo.1 member).2

/-- What is left to do from a run on: the marked lines from its start, and among those without any the lines. -/
def workLeft (n : Nat) (s : Sliding) : Nat := markedFrom n s.changed s.g.start * (n + 1) + (n - s.g.start)

theorem workLeft_next (grouped : Grouped n s.changed s.g) (slides : SlidesTo file n s t)
    (fixed : s.g.stop = s.g.start → t = s)
    (next : groupNext t.changed n t.g = some g') (go : Group) : workLeft n { t with g := g', go } < workLeft n s := by
  obtain ⟨-, start, inside⟩ := groupNext_grouped slides.grouped next
  have ahead := slides.ahead
  have whole := grouped.markedFrom_start
  have skipped := markedFrom_unmarked inside slides.grouped.after
  have le := grouped.le
  unfold workLeft
  rw [start, ← skipped]
  by_cases empty : s.g.stop = s.g.start
  · rw [fixed empty] at inside ⊢
    rw [empty] at whole inside ⊢
    omega
  · have fewer : markedFrom n t.changed t.g.stop + 1 ≤ markedFrom n s.changed s.g.start := by omega
    have scaled := Nat.mul_le_mul_right (n + 1) fewer
    rw [Nat.add_mul] at scaled
    omega

theorem compactStep_spec (isspace : CharClass) (text : XdiffFile) (other : Nat → Bool) (otherN : Nat)
    (indentHeuristic : Bool)
    (grouped : Grouped n s.changed s.g) :
    ∃ t, SlidesTo file n s t ∧ (s.g.stop = s.g.start → t = s) ∧
      compactStep isspace file text n other otherN indentHeuristic s = match groupNext t.changed n t.g with
        | none => some (.done t)
        | some g =>
          match groupNext other otherN t.go with
          | none => some (.done { t with g })
          | some go => some (.yield { t with g, go }) := by
  unfold compactStep
  by_cases empty : s.g.stop = s.g.start
  · rw [if_pos empty]
    exact ⟨s, Moves.refl grouped, fun _ => rfl, rfl⟩
  have le := grouped.le
  obtain ⟨t, placed, slides⟩ := placeGroup_slides isspace text other otherN indentHeuristic grouped
    (show s.g.start < s.g.stop by omega)
  rw [if_neg empty, placed]
  exact ⟨t, slides, fun same => absurd same empty, rfl⟩

theorem compact_spec (isspace : CharClass) (file text : XdiffFile) (other : Nat → Bool) (otherN : Nat)
    (indentHeuristic : Bool)
    (beyond : ∀ i, n ≤ i → changed i = false) :
    ∃ after, compact isspace file text n other otherN indentHeuristic changed = some after ∧
      kept file.line after (List.range n) = kept file.line changed (List.range n) ∧ ∀ i, n ≤ i → after i = false := by
  have run : ∃ final, repeatUntil (compactStep isspace file text n other otherN indentHeuristic) ((n + 1) * (n + 1))
      { changed, g := groupInit changed n, go := groupInit other otherN } = some final ∧
        kept file.line final.changed (range n) = kept file.line changed (range n) ∧
        ∀ i, n ≤ i → final.changed i = false := by
    refine repeatUntil_spec (fun s => Grouped n s.changed s.g ∧
      kept file.line s.changed (range n) = kept file.line changed (range n)) _ (workLeft n)
      (fun s held => ?_) ⟨groupInit_grouped beyond, rfl⟩ ?_
    · obtain ⟨t, slides, fixed, stepped⟩ := compactStep_spec isspace text other otherN indentHeuristic held.1
      have same := slides.same.trans held.2
      rw [stepped]
      split
      · exact ⟨_, rfl, same, slides.grouped.beyond⟩
      rename_i g next
      split
      · exact ⟨_, rfl, same, slides.grouped.beyond⟩
      rename_i go _
      refine ⟨_, rfl, ⟨(groupNext_grouped slides.grouped next).1, same⟩, ?_⟩
      exact workLeft_next held.1 slides fixed next go
    · have few : markedFrom n changed 0 ≤ n := by
        have bound := countP_le_length (p := changed) (l := upTo 0 n)
        simpa [upTo, markedFrom] using bound
      have scaled := Nat.mul_le_mul_right (n + 1) few
      have square : (n + 1) * (n + 1) = n * (n + 1) + (n + 1) := Nat.succ_mul n (n + 1)
      unfold workLeft
      simp only [groupInit]
      omega
  obtain ⟨final, ran, same, tail⟩ := run
  exact ⟨final.changed, by rw [compact, ran]; rfl, same, tail⟩

end

end BashOs.Git.Diff

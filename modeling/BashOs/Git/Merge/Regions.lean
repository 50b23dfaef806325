import BashOs.Git.Diff.Runs
import BashOs.Git.Diff.Lines

/-!
Which stretches of a base two sides have changed, each alone or both, and where those stretches lie in the sides. The
stretches come in order with a line of the base between any two, and all that a side changed lies in one of them.
-/

namespace BashOs.Git.Merge
open BashOs.Lib BashOs.Git.Diff List Change

inductive RegionKind where
  | takeOurs
  | takeTheirs
  | takeEither
  | conflict
deriving DecidableEq, Repr

structure Region where
  baseStart : Nat
  baseEnd : Nat
  ourStart : Nat
  ourEnd : Nat
  theirStart : Nat
  theirEnd : Nat
  kind : RegionKind
deriving DecidableEq, Repr

def grows (change : Change) : Int := change.newCount - change.oldCount

/-- The loop of `bgit_map_before` -/
def offsetBefore : List Change → Nat → Int
  | [], _ => 0
  | change :: rest, line =>
    if line ≤ change.oldStart then 0
    else (if change.oldStop ≤ line then grows change else 0) + offsetBefore rest line

def mapBefore (changes : List Change) (line : Nat) : Nat := (line + offsetBefore changes line).toNat

/-- `bgit_delta_over` of the changes themselves -/
def deltaOver (changes : List Change) : Int := (changes.map grows).sum

def linesEqual (a : XdiffFile) (a0 a1 : Nat) (b : XdiffFile) (b0 b1 : Nat) : Bool :=
  a1 - a0 = b1 - b0 && (List.range (a1 - a0)).all fun i => a.line (a0 + i) = b.line (b0 + i)

/-- The changes of both sides that reach into each other, with the last of each, and those that are left. -/
structure Overlap where
  ourTaken : List Change
  ourLast : Change
  ourRest : List Change
  theirTaken : List Change
  theirLast : Change
  theirRest : List Change

namespace Overlap

def takeOurs (o : Overlap) : Option Overlap :=
  match o.ourRest with
  | next :: rest =>
    if next.oldStart ≤ o.theirLast.oldStop then
      some { o with ourTaken := o.ourTaken ++ [next], ourLast := next, ourRest := rest }
    else none
  | [] => none

def takeTheirs (o : Overlap) : Option Overlap :=
  match o.theirRest with
  | next :: rest =>
    if next.oldStart ≤ o.ourLast.oldStop then
      some { o with theirTaken := o.theirTaken ++ [next], theirLast := next, theirRest := rest }
    else none
  | [] => none

def absorb : Nat → Overlap → Overlap
  | 0, o => o
  | turns + 1, o =>
    match o.takeOurs with
    | some o => absorb turns o
    | none =>
      match o.takeTheirs with
      | some o => absorb turns o
      | none => o

end Overlap

section
variable (our their : XdiffFile) (allOurs allTheirs : List Change)

def overlapRegion (a b : Change) (o : Overlap) : Region :=
  let start := min a.oldStart b.oldStart
  let stop := max o.ourLast.oldStop o.theirLast.oldStop
  let ourStart := mapBefore allOurs start
  let theirStart := mapBefore allTheirs start
  let ourEnd := ((ourStart + (stop - start) : Nat) + deltaOver o.ourTaken).toNat
  let theirEnd := ((theirStart + (stop - start) : Nat) + deltaOver o.theirTaken).toNat
  { baseStart := start, baseEnd := stop, ourStart, ourEnd, theirStart, theirEnd,
    kind := if linesEqual our ourStart ourEnd their theirStart theirEnd then .takeEither else .conflict }

def oursRegion (a : Change) : Region :=
  { baseStart := a.oldStart, baseEnd := a.oldStop, ourStart := a.newStart, ourEnd := a.newStop, theirStart := 0,
    theirEnd := 0,
    kind := .takeOurs }

def theirsRegion (b : Change) : Region :=
  { baseStart := b.oldStart, baseEnd := b.oldStop, ourStart := 0, ourEnd := 0, theirStart := b.newStart,
    theirEnd := b.newStop,
    kind := .takeTheirs }

/-- The loop of `bgit_merge_content` over the changes. Every turn takes one, so as many turns as there are changes are
enough. -/
def regionsFrom : Nat → List Change → List Change → List Region
  | 0, _, _ => []
  | _ + 1, [], [] => []
  | turns + 1, a :: as, [] => oursRegion a :: regionsFrom turns as []
  | turns + 1, [], b :: bs => theirsRegion b :: regionsFrom turns [] bs
  | turns + 1, a :: as, b :: bs =>
    if a.oldStop < b.oldStart then oursRegion a :: regionsFrom turns as (b :: bs)
    else if b.oldStop < a.oldStart then theirsRegion b :: regionsFrom turns (a :: as) bs
    else
      let o := Overlap.absorb (as.length + bs.length) ⟨[a], a, as, [b], b, bs⟩
      overlapRegion our their allOurs allTheirs a b o :: regionsFrom turns o.ourRest o.theirRest

def regions : List Region := regionsFrom our their allOurs allTheirs
    (allOurs.length + allTheirs.length) allOurs allTheirs

end

/-- The loop of `bgit_simplify_conflicts`, from the region that was kept last. -/
def simplifyFrom (last : Region) : List Region → List Region
  | [] => [last]
  | region :: rest =>
    if last.kind = .conflict && region.kind = .conflict && region.baseStart - last.baseEnd ≤ 3 then
      simplifyFrom { last with baseEnd := region.baseEnd, ourEnd := region.ourEnd, theirEnd := region.theirEnd } rest
    else last :: simplifyFrom region rest

def simplifyConflicts : List Region → List Region
  | [] => []
  | region :: rest => simplifyFrom region rest

/-! ## Positions -/

section
variable {nOld nNew i j line : Nat} {runs done rest : List Change} {change : Change}

theorem deltaOver_append (a b : List Change) : deltaOver (a ++ b) = deltaOver a + deltaOver b := by
  simp [deltaOver]

theorem deltaOver_cons (change : Change) (rest : List Change) :
    deltaOver (change :: rest) = grows change + deltaOver rest := by
  simp [deltaOver]

theorem offsetBefore_eq (before : ∀ change ∈ done, change.oldStart < line ∧ change.oldStop ≤ line)
    (after : ∀ change ∈ rest.head?, line ≤ change.oldStart) : offsetBefore (done ++ rest) line = deltaOver done := by
  induction done with
  | nil =>
    cases rest with
    | nil => rfl
    | cons change rest =>
      rw [nil_append, offsetBefore, if_pos (after change rfl)]
      rfl
  | cons change done ih =>
    obtain ⟨⟨starts, ends⟩, others⟩ := forall_mem_cons.1 before
    rw [cons_append, offsetBefore, if_neg (by omega), if_pos ends, ih others, deltaOver_cons]

theorem RunsFrom_append (held : RunsFrom nOld nNew i j (done ++ rest)) :
    ∃ i' j', RunsFrom nOld nNew i' j' rest ∧ i ≤ i' ∧ j ≤ j' ∧ (j' : Int) - i' = j - i + deltaOver done ∧
      (∀ change ∈ done, i ≤ change.oldStart ∧ change.oldStop ≤ i' ∧ j ≤ change.newStart ∧ change.newStop ≤ j') ∧
      (∀ last ∈ done.getLast?, last.oldStop = i' ∧ last.newStop = j' ∧
        ∀ next ∈ rest.head?, last.oldStop < next.oldStart) ∧
      (done = [] → i' = i ∧ j' = j) := by
  induction done generalizing i j with
  | nil =>
    exact ⟨i, j, held, le_refl i, le_refl j, by simp [deltaOver], by simp, by simp, fun _ => ⟨rfl, rfl⟩⟩
  | cons change done ih =>
    obtain ⟨low, step, -, gap, held⟩ := held
    obtain ⟨i', j', onward, le, le', offset, inside, last, none⟩ := ih held
    simp only [oldStop, newStop] at le le' offset inside none
    refine ⟨i', j', onward, by omega, by omega, ?_, ?_, ?_, by simp⟩
    · rw [deltaOver_cons, grows]
      omega
    · refine forall_mem_cons.2 ⟨⟨low, ?_, by omega, ?_⟩, fun other member => ?_⟩
      · unfold oldStop
        omega
      · unfold newStop
        omega
      · have bounds := inside other member
        unfold oldStop newStop
        omega
    · cases done with
      | nil =>
        obtain ⟨rfl, rfl⟩ := none rfl
        rintro _ ⟨⟩
        exact ⟨rfl, rfl, gap⟩
      | cons next more =>
        exact last

theorem RunsFrom_shift {p : Nat} (held : RunsFrom nOld nNew i j rest) (inside : p ≤ nOld)
    (before : ∀ next ∈ rest.head?, p ≤ next.oldStart) : p + j ≤ nNew + i := by
  cases rest with
  | nil =>
    obtain ⟨low, step⟩ := held
    omega
  | cons change rest =>
    have past : p ≤ change.oldStart := before change rfl
    obtain ⟨low, step, -, -, held⟩ := held
    have high := held.le_new
    unfold newStop at high
    omega

theorem RunsFrom_shift_le {p : Nat} (held : RunsFrom nOld nNew i j runs)
    (before : ∀ next ∈ runs.head?, p ≤ next.oldStart)
    (member : change ∈ runs) : p ≤ change.oldStart ∧ p + j ≤ change.newStart + i := by
  cases runs with
  | nil => cases member
  | cons first rest =>
    have past : p ≤ first.oldStart := before first rfl
    obtain ⟨low, step, -, -, held⟩ := held
    obtain rfl | later := mem_cons.1 member
    · omega
    · have after := held.bounds later
      unfold oldStop newStop at after
      omega

end

/-! ## Overlaps -/

structure Overlap.Of (ours theirs : List Change) (o : Overlap) : Prop where
  ours : o.ourTaken ++ o.ourRest = ours
  theirs : o.theirTaken ++ o.theirRest = theirs
  ourLast : o.ourTaken.getLast? = some o.ourLast
  theirLast : o.theirTaken.getLast? = some o.theirLast

section
variable {ours theirs : List Change} {o next : Overlap}

section
variable (held : Overlap.Of ours theirs o)
include held

theorem Overlap.Of.takeOurs :
    (∃ next, o.takeOurs = some next ∧ Overlap.Of ours theirs next ∧ next.ourRest.length + 1 = o.ourRest.length ∧
      next.theirRest = o.theirRest) ∨ o.takeOurs = none ∧
        ∀ next ∈ o.ourRest.head?, o.theirLast.oldStop < next.oldStart := by
  unfold Overlap.takeOurs
  split
  next first rest split =>
    rw [split]
    split
    · refine .inl ⟨_, rfl, ⟨?_, held.theirs, by simp, held.theirLast⟩, rfl, rfl⟩
      rw [← held.ours, split, append_assoc, singleton_append]
    · refine .inr ⟨rfl, ?_⟩
      rintro _ ⟨⟩
      omega
  next split => exact .inr ⟨rfl, split ▸ nofun⟩

theorem Overlap.Of.takeTheirs :
    (∃ next, o.takeTheirs = some next ∧ Overlap.Of ours theirs next ∧ next.theirRest.length + 1 = o.theirRest.length ∧
      next.ourRest = o.ourRest) ∨ o.takeTheirs = none ∧ ∀ next ∈ o.theirRest.head?,
        o.ourLast.oldStop < next.oldStart := by
  unfold Overlap.takeTheirs
  split
  next first rest split =>
    rw [split]
    split
    · refine .inl ⟨_, rfl, ⟨held.ours, ?_, held.ourLast, by simp⟩, rfl, rfl⟩
      rw [← held.theirs, split, append_assoc, singleton_append]
    · refine .inr ⟨rfl, ?_⟩
      rintro _ ⟨⟩
      omega
  next split => exact .inr ⟨rfl, split ▸ nofun⟩

theorem Overlap.Of.shorter : o.ourRest.length + o.theirRest.length + 2 ≤ ours.length + theirs.length := by
  have some := length_pos_of_mem (mem_of_getLast? held.ourLast)
  have some' := length_pos_of_mem (mem_of_getLast? held.theirLast)
  rw [← held.ours, ← held.theirs, length_append, length_append]
  omega

end

theorem Overlap.absorb_spec {turns : Nat} (held : Overlap.Of ours theirs o)
    (enough : o.ourRest.length + o.theirRest.length ≤ turns) :
    Overlap.Of ours theirs (o.absorb turns) ∧
      (∀ next ∈ (o.absorb turns).ourRest.head?, (o.absorb turns).theirLast.oldStop < next.oldStart) ∧
      ∀ next ∈ (o.absorb turns).theirRest.head?, (o.absorb turns).ourLast.oldStop < next.oldStart := by
  induction turns generalizing o with
  | zero =>
    have none : o.ourRest = [] := length_eq_zero_iff.1 (by omega)
    have none' : o.theirRest = [] := length_eq_zero_iff.1 (by omega)
    rw [Overlap.absorb, none, none']
    exact ⟨held, nofun, nofun⟩
  | succ turns ih =>
    rw [Overlap.absorb]
    obtain ⟨next, taken, kept, shorter, same⟩ | ⟨none, apart⟩ := held.takeOurs
    · rw [taken]
      exact ih kept (by rw [same]; omega)
    obtain ⟨next, taken, kept, shorter, same⟩ | ⟨none', apart'⟩ := held.takeTheirs
    · rw [none, taken]
      exact ih kept (by rw [same]; omega)
    · rw [none, none']
      exact ⟨held, apart, apart'⟩

end

/-! ## How the base is cut -/

/-- The regions from a place on: `low` is the first line of the base where one may start, and the changes of ours
that are left follow line `i` of the base and line `j` of ours, those of theirs `i'` and `j'`. -/
inductive Cut (nBase nOurs nTheirs : Nat) (our their : XdiffFile) :
    Nat → Nat → Nat → Nat → Nat → List Change → List Change → List Region → Prop where
  | done {low i j i' j' : Nat} : RunsFrom nBase nOurs i j [] → RunsFrom nBase nTheirs i' j' [] →
      Cut nBase nOurs nTheirs our their low i j i' j' [] [] []
  | ours {low i j i' j' : Nat} {a : Change} {as bs : List Change} {regions : List Region} : low ≤ a.oldStart →
      RunsFrom nBase nOurs i j (a :: as) →
      Cut nBase nOurs nTheirs our their (a.oldStop + 1) a.oldStop a.newStop i' j' as bs regions →
      Cut nBase nOurs nTheirs our their low i j i' j' (a :: as) bs (oursRegion a :: regions)
  | theirs {low i j i' j' : Nat} {b : Change} {as bs : List Change} {regions : List Region} : low ≤ b.oldStart →
      RunsFrom nBase nTheirs i' j' (b :: bs) →
      Cut nBase nOurs nTheirs our their (b.oldStop + 1) i j b.oldStop b.newStop as bs regions →
      Cut nBase nOurs nTheirs our their low i j i' j' as (b :: bs) (theirsRegion b :: regions)
  | both {low i j i' j' iNext jNext iNext' jNext' : Nat} {taken taken' as bs : List Change} {region : Region}
      {regions : List Region} : low ≤ region.baseStart → region.baseStart ≤ region.baseEnd → region.baseEnd ≤ nBase →
      taken ≠ [] → RunsFrom nBase nOurs i j (taken ++ as) → RunsFrom nBase nTheirs i' j' (taken' ++ bs) →
      RunsFrom nBase nOurs iNext jNext as → RunsFrom nBase nTheirs iNext' jNext' bs →
      (∀ next ∈ as.head?, region.baseEnd < next.oldStart) → (∀ next ∈ bs.head?, region.baseEnd < next.oldStart) →
      region.ourStart + i = region.baseStart + j → region.ourEnd + iNext = region.baseEnd + jNext →
      region.theirStart + i' = region.baseStart + j' → region.theirEnd + iNext' = region.baseEnd + jNext' →
      region.ourEnd ≤ nOurs → region.theirEnd ≤ nTheirs →
      (∀ change ∈ taken, region.baseStart ≤ change.oldStart ∧ change.oldStop ≤ region.baseEnd ∧
        region.ourStart ≤ change.newStart ∧ change.newStop ≤ region.ourEnd) →
      (∀ change ∈ taken', region.baseStart ≤ change.oldStart ∧ change.oldStop ≤ region.baseEnd ∧
        region.theirStart ≤ change.newStart ∧ change.newStop ≤ region.theirEnd) →
      (region.kind = .takeEither ∧
        linesEqual our region.ourStart region.ourEnd their region.theirStart region.theirEnd = true ∨
        region.kind = .conflict) →
      Cut nBase nOurs nTheirs our their (region.baseEnd + 1) iNext jNext iNext' jNext' as bs regions →
      Cut nBase nOurs nTheirs our their low i j i' j' (taken ++ as) (taken' ++ bs) (region :: regions)

/-- How far one side has come: its changes are those done and those left, which follow line `i` of the base and line `j`
of the side and leave room for a region from line `low` on. -/
structure Side (nBase n low i j : Nat) (all done rest : List Change) : Prop where
  whole : all = done ++ rest
  held : RunsFrom nBase n i j rest
  offset : (j : Int) - i = deltaOver done
  past : ∀ change ∈ done, change.oldStop < low
  le : i ≤ low
  first : ∀ change ∈ rest.head?, low ≤ change.oldStart

section
variable {nBase n low i j start stop nOurs nTheirs i' j' : Nat}
  {all done taken rest allOurs allTheirs doneOurs doneTheirs as bs : List Change} {a last : Change}
    {our their : XdiffFile}

theorem Side.of_runs (held : RunsFrom nBase n 0 0 all) : Side nBase n 0 0 0 all [] all :=
  ⟨rfl, held, rfl, nofun, le_refl 0, fun _ _ => Nat.zero_le _⟩

theorem Side.mono {high : Nat} (side : Side nBase n low i j all done rest) (le : low ≤ high)
    (first : ∀ change ∈ rest.head?, high ≤ change.oldStart) : Side nBase n high i j all done rest :=
  { side with past := fun change member => lt_of_lt_of_le (side.past change member) le,
              le := le_trans side.le le, first := first }

theorem Side.mapBefore_eq (side : Side nBase n low i j all done rest) (low_le : low ≤ start)
    (first : ∀ change ∈ rest.head?, start ≤ change.oldStart) : mapBefore all start + i = start + j := by
  have offset : offsetBefore all start = deltaOver done := by
    rw [side.whole]
    refine offsetBefore_eq (fun change member => ?_) first
    have stops := side.past change member
    unfold oldStop at *
    omega
  have below := side.le
  unfold mapBefore
  rw [offset, ← side.offset]
  omega

section
variable (side : Side nBase n low i j all done (taken ++ rest))
include side

theorem Side.overlap (low_le : low ≤ start)
    (first : ∀ change ∈ (taken ++ rest).head?, start ≤ change.oldStart) (ended : taken.getLast? = some last)
    (reaches : last.oldStop ≤ stop) (inside : stop ≤ nBase) (start_le : start ≤ stop)
    (apart : ∀ next ∈ rest.head?, stop < next.oldStart) :
    ∃ iNext jNext, Side nBase n (stop + 1) iNext jNext all (done ++ taken) rest ∧ mapBefore all start + i = start + j ∧
      ((mapBefore all start + (stop - start) : Nat) + deltaOver taken).toNat + iNext = stop + jNext ∧
      ((mapBefore all start + (stop - start) : Nat) + deltaOver taken).toNat ≤ n ∧
      ∀ change ∈ taken, start ≤ change.oldStart ∧ change.oldStop ≤ stop ∧ mapBefore all start ≤ change.newStart ∧
        change.newStop ≤ ((mapBefore all start + (stop - start) : Nat) + deltaOver taken).toNat := by
  have start_eq := side.mapBefore_eq low_le first
  obtain ⟨whole, held, offset, past, le, -⟩ := side
  obtain ⟨iNext, jNext, onward, le_next, le_next', step, within, at_last, -⟩ := RunsFrom_append held
  obtain ⟨same, same', gap⟩ := at_last last ended
  have stop_eq : ((mapBefore all start + (stop - start) : Nat) + deltaOver taken).toNat + iNext = stop + jNext := by
    omega
  have shift := RunsFrom_shift onward inside fun next member => le_of_lt (apart next member)
  refine ⟨iNext, jNext, ⟨?_, onward, ?_, fun change member => ?_, by omega, apart⟩, start_eq, stop_eq, by omega,
    fun change member => ?_⟩
  · rw [whole, append_assoc]
  · rw [deltaOver_append]
    omega
  · obtain before | within' := mem_append.1 member
    · have stops := past change before
      omega
    · have bounds := within change within'
      omega
  · have bounds := within change member
    obtain ⟨later, later'⟩ := RunsFrom_shift_le held first (mem_append_left rest member)
    exact ⟨later, by omega, by omega, by omega⟩

theorem Side.reach (first : ∀ change ∈ (taken ++ rest).head?, start ≤ change.oldStart)
    (ended : taken.getLast? = some last) :
    start ≤ last.oldStop ∧ last.oldStop ≤ nBase ∧ ∀ next ∈ rest.head?, last.oldStop < next.oldStart := by
  obtain ⟨iNext, jNext, -, -, -, -, -, at_last, -⟩ := RunsFrom_append side.held
  have member : last ∈ taken ++ rest := mem_append_left rest (mem_of_getLast? ended)
  obtain ⟨later, -⟩ := RunsFrom_shift_le side.held first member
  exact ⟨le_trans later (Nat.le_add_right _ _), (side.held.bounds member).2.2.1, (at_last last ended).2.2⟩

end

theorem Side.alone (side : Side nBase n low i j all done (a :: rest)) :
    low ≤ a.oldStart ∧ Side nBase n (a.oldStop + 1) a.oldStop a.newStop all (done ++ [a]) rest := by
  obtain ⟨whole, held, offset, past, le, first⟩ := side
  have low_le : low ≤ a.oldStart := first a rfl
  obtain ⟨le_a, step, -, gap, onward⟩ := held
  refine ⟨low_le, ⟨by rw [whole, append_assoc, singleton_append], onward, ?_, fun change member => ?_, Nat.le_succ _, gap⟩⟩
  · rw [deltaOver_append, deltaOver_cons, ← offset, grows]
    simp [oldStop, newStop, deltaOver]
    omega
  · rw [mem_append, mem_singleton] at member
    obtain before | rfl := member
    · have stops := past change before
      unfold oldStop at *
      omega
    · exact Nat.lt_succ_self _

theorem overlapRegion_cut {a b : Change} {o : Overlap} (ours : Side nBase nOurs low i j allOurs doneOurs (a :: as))
    (theirs : Side nBase nTheirs low i' j' allTheirs doneTheirs (b :: bs)) (of : Overlap.Of (a :: as) (b :: bs) o)
    (apart : ∀ next ∈ o.ourRest.head?, o.theirLast.oldStop < next.oldStart)
    (apart' : ∀ next ∈ o.theirRest.head?, o.ourLast.oldStop < next.oldStart)  :
    ∃ iNext jNext iNext' jNext' doneOurs' doneTheirs', let region := overlapRegion our their allOurs allTheirs a b o
      Side nBase nOurs (region.baseEnd + 1) iNext jNext allOurs doneOurs' o.ourRest ∧
      Side nBase nTheirs (region.baseEnd + 1) iNext' jNext' allTheirs doneTheirs' o.theirRest ∧
      ∀ regions, Cut nBase nOurs nTheirs our their (region.baseEnd + 1) iNext jNext iNext' jNext' o.ourRest
        o.theirRest regions →
        Cut nBase nOurs nTheirs our their low i j i' j' (a :: as) (b :: bs) (region :: regions) := by
  have low_a : low ≤ a.oldStart := ours.first a rfl
  have low_b : low ≤ b.oldStart := theirs.first b rfl
  rw [← of.ours] at ours
  rw [← of.theirs] at theirs
  have first : ∀ change ∈ (o.ourTaken ++ o.ourRest).head?, min a.oldStart b.oldStart ≤ change.oldStart := by
    rw [of.ours]
    rintro _ ⟨⟩
    exact min_le_left _ _
  have first' : ∀ change ∈ (o.theirTaken ++ o.theirRest).head?, min a.oldStart b.oldStart ≤ change.oldStart := by
    rw [of.theirs]
    rintro _ ⟨⟩
    exact min_le_right _ _
  obtain ⟨starts, stops, gap⟩ := ours.reach first of.ourLast
  obtain ⟨starts', stops', gap'⟩ := theirs.reach first' of.theirLast
  obtain ⟨iNext, jNext, onward, start_eq, stop_eq, inside, within⟩ := ours.overlap (by omega) first of.ourLast
    (le_max_left _ o.theirLast.oldStop) (by omega) (by omega)
    fun next member => Nat.max_lt.2 ⟨gap next member, apart next member⟩
  obtain ⟨iNext', jNext', onward', start_eq', stop_eq', inside', within'⟩ := theirs.overlap (by omega) first'
    of.theirLast (le_max_right o.ourLast.oldStop _) (by omega) (by omega)
    fun next member => Nat.max_lt.2 ⟨apart' next member, gap' next member⟩
  refine ⟨iNext, jNext, iNext', jNext', _, _, onward, onward', fun regions cut => ?_⟩
  rw [← of.ours, ← of.theirs]
  refine .both (show low ≤ min a.oldStart b.oldStart by omega)
    (show min a.oldStart b.oldStart ≤ max o.ourLast.oldStop o.theirLast.oldStop by omega)
    (show max o.ourLast.oldStop o.theirLast.oldStop ≤ nBase by omega) ?_ ours.held theirs.held onward.held onward'.held
    onward.first onward'.first start_eq stop_eq start_eq' stop_eq' inside inside' within within' ?_ cut
  · intro none
    have ended := of.ourLast
    rw [none] at ended
    cases ended
  · rw [overlapRegion]
    split
    next same => exact .inl ⟨rfl, same⟩
    · exact .inr rfl

theorem regionsFrom_cut {turns : Nat} (ours : Side nBase nOurs low i j allOurs doneOurs as)
    (theirs : Side nBase nTheirs low i' j' allTheirs doneTheirs bs) (enough : as.length + bs.length ≤ turns) :
    Cut nBase nOurs nTheirs our their low i j i' j' as bs (regionsFrom our their allOurs allTheirs turns as bs) := by
  induction turns generalizing low i j i' j' as bs doneOurs doneTheirs with
  | zero =>
    obtain rfl : as = [] := length_eq_zero_iff.1 (by omega)
    obtain rfl : bs = [] := length_eq_zero_iff.1 (by omega)
    exact .done ours.held theirs.held
  | succ turns ih =>
    -- a change of one side that the other does not reach
    have alone (a : Change) (rest : List Change) (same : as = a :: rest)
      (apart : ∀ b ∈ bs.head?, a.oldStop < b.oldStart) :
        Cut nBase nOurs nTheirs our their low i j i' j' (a :: rest) bs
          (oursRegion a :: regionsFrom our their allOurs allTheirs turns rest bs) := by
      subst same
      obtain ⟨low_le, onward⟩ := ours.alone
      have high : a.oldStart ≤ a.oldStop := Nat.le_add_right _ _
      rw [length_cons] at enough
      exact .ours low_le ours.held (ih onward (theirs.mono (by omega) apart) (by omega))
    have alone' (b : Change) (rest : List Change) (same : bs = b :: rest)
      (apart : ∀ a ∈ as.head?, b.oldStop < a.oldStart) :
        Cut nBase nOurs nTheirs our their low i j i' j' as (b :: rest)
          (theirsRegion b :: regionsFrom our their allOurs allTheirs turns as rest) := by
      subst same
      obtain ⟨low_le, onward⟩ := theirs.alone
      have high : b.oldStart ≤ b.oldStop := Nat.le_add_right _ _
      rw [length_cons] at enough
      exact .theirs low_le theirs.held (ih (ours.mono (by omega) apart) onward (by omega))
    cases as with
    | nil =>
      cases bs with
      | nil => exact .done ours.held theirs.held
      | cons b bs => exact alone' b bs rfl nofun
    | cons a as =>
      cases bs with
      | nil => exact alone a as rfl nofun
      | cons b bs =>
        rw [regionsFrom]
        split
        next apart =>
          refine alone a as rfl ?_
          rintro _ ⟨⟩
          exact apart
        split
        next apart =>
          refine alone' b bs rfl ?_
          rintro _ ⟨⟩
          exact apart
        have of : Overlap.Of (a :: as) (b :: bs) ⟨[a], a, as, [b], b, bs⟩ := ⟨rfl, rfl, rfl, rfl⟩
        obtain ⟨of, apart, apart'⟩ := Overlap.absorb_spec of le_rfl
        obtain ⟨iNext, jNext, iNext', jNext', doneOurs', doneTheirs', onward, onward', cut⟩ :=
          overlapRegion_cut ours theirs of apart apart'
        have shorter := of.shorter
        exact cut _ (ih onward onward' (by dsimp only at *; omega))

end

theorem Cut.past_end {nBase nOurs nTheirs low i j i' j' : Nat} {our their : XdiffFile} {as bs : List Change}
    {list : List Region}
    (cut : Cut nBase nOurs nTheirs our their low i j i' j' as bs list) (past : nBase < low) : as = [] ∧
      bs = [] ∧ list = [] := by
  cases cut with
  | done => exact ⟨rfl, rfl, rfl⟩
  | ours low_le held | theirs low_le held =>
    have bounds := (held.bounds (.head _)).2.2.1
    unfold oldStop at bounds
    omega
  | both low_le start_le stop_le => omega

end BashOs.Git.Merge

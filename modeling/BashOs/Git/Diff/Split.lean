import Mathlib.Algebra.Group.Int.Defs
import BashOs.Lib.EditGrid
import BashOs.Lib.Loop

/-!
Where a box of two files' lines is split: the search from the front and the search from the back are carried one edit
further in turn until they meet, unless one of two heuristics cuts them short. The split lies in the box, and there
is one: some path leads through the box, and the searches meet on it at the latest.
-/

namespace BashOs.Git.Diff
open BashOs.Lib List

def snakeCnt : Int := 20
def heurMinCost : Int := 256
def kHeur : Int := 4
def longMax : Int := 2 ^ 63 - 1

structure Split where
  i1 : Int
  i2 : Int
  minLo : Bool
  minHi : Bool
deriving DecidableEq, Repr

structure Bands where
  fmin : Int
  fmax : Int
  bmin : Int
  bmax : Int
  vf : Int → Int
  vb : Int → Int

def put (values : Int → Int) (d value : Int) : Int → Int := fun e => if e = d then value else values e

def diagonals (lo hi : Int) : List Int := (List.range ((hi - lo + 2) / 2).toNat).map fun (k : Nat) => hi - 2 * (k : Int)

section
variable (grid : Grid)

def followBack (d : Int) : Nat → Int → Int
  | 0, i => i
  | left + 1, i =>
    if grid.off1 < i ∧ grid.off2 < i - d ∧ grid.same (i - 1) (i - d - 1) then followBack d left (i - 1) else i

def slideBack (d i : Int) : Int := followBack grid d (i - grid.off1).toNat i

def forwardStart (vf : Int → Int) (d : Int) : Int := if vf (d - 1) ≥ vf (d + 1) then vf (d - 1) + 1 else vf (d + 1)

def backwardStart (vb : Int → Int) (d : Int) : Int := if vb (d - 1) < vb (d + 1) then vb (d - 1) else vb (d + 1) - 1

/-- A pass over a band: each diagonal is carried on by one edit, until one of them has met the other search. -/
def bandPass (step : (Int → Int) → Int → Int) (long : (Int → Int) → Int → Int → Bool) (met : Int → Int → Bool) :
    List Int → (Int → Int) → Bool → Except Split ((Int → Int) × Bool)
  | [], values, snake => .ok (values, snake)
  | d :: rest, values, snake =>
    let i1 := step values d
    if met d i1 then .error { i1, i2 := i1 - d, minLo := true, minHi := true }
    else bandPass step long met rest (put values d i1) (snake || long values d i1)

def forwardStep (vf : Int → Int) (d : Int) : Int := grid.slide d (forwardStart vf d)

def backwardStep (vb : Int → Int) (d : Int) : Int := slideBack grid d (backwardStart vb d)

def forwardPass (odd : Bool) (bmin bmax : Int) (vb : Int → Int) :
    List Int → (Int → Int) → Bool → Except Split ((Int → Int) × Bool) :=
  bandPass (forwardStep grid) (fun vf d i1 => i1 - forwardStart vf d > snakeCnt)
    fun d i1 => odd && bmin ≤ d && d ≤ bmax && vb d ≤ i1

def backwardPass (odd : Bool) (fmin fmax : Int) (vf : Int → Int) :
    List Int → (Int → Int) → Bool → Except Split ((Int → Int) × Bool) :=
  bandPass (backwardStep grid) (fun vb d i1 => backwardStart vb d - i1 > snakeCnt)
    fun d i1 => !odd && fmin ≤ d && d ≤ fmax && i1 ≤ vf d

/-- A band one edit wider, or narrower where it would leave the box, with a value that always loses just outside it. -/
def widen (edge lo hi : Int) (values : Int → Int) : Int × Int × (Int → Int) :=
  let low := if grid.least < lo then (lo - 1, put values (lo - 2) edge) else (lo + 1, values)
  let high := if hi < grid.most then (hi + 1, put low.2 (hi + 2) edge) else (hi - 1, low.2)
  (low.1, high.1, high.2)

def widenForward (bands : Bands) : Bands :=
  let wider := widen grid (-1) bands.fmin bands.fmax bands.vf
  { bands with fmin := wider.1, fmax := wider.2.1, vf := wider.2.2 }

def widenBackward (bands : Bands) : Bands :=
  let wider := widen grid longMax bands.bmin bands.bmax bands.vb
  { bands with bmin := wider.1, bmax := wider.2.1, vb := wider.2.2 }

/-! ### The heuristics -/

def forwardSnake (ec : Int) (bands : Bands) : Option Split :=
  let fmid := grid.off1 - grid.off2
  let found := (diagonals bands.fmin bands.fmax).foldl (fun ((best, split) : Int × Option Split) d =>
    let i1 := bands.vf d
    let i2 := i1 - d
    let dd := if d > fmid then d - fmid else fmid - d
    let v := (i1 - grid.off1) + (i2 - grid.off2) - dd
    if v > kHeur * ec ∧ v > best ∧ grid.off1 + snakeCnt ≤ i1 ∧ i1 < grid.lim1 ∧ grid.off2 + snakeCnt ≤ i2 ∧
      i2 < grid.lim2 ∧
        (List.range 20).all (fun (k : Nat) => grid.same (i1 - 1 - k) (i2 - 1 - k)) then
      (v, some { i1, i2, minLo := true, minHi := false })
    else (best, split)) (0, none)
  found.2

def backwardSnake (ec : Int) (bands : Bands) : Option Split :=
  let bmid := grid.lim1 - grid.lim2
  let found := (diagonals bands.bmin bands.bmax).foldl (fun ((best, split) : Int × Option Split) d =>
    let i1 := bands.vb d
    let i2 := i1 - d
    let dd := if d > bmid then d - bmid else bmid - d
    let v := (grid.lim1 - i1) + (grid.lim2 - i2) - dd
    if v > kHeur * ec ∧ v > best ∧ grid.off1 < i1 ∧ i1 ≤ grid.lim1 - snakeCnt ∧ grid.off2 < i2 ∧
      i2 ≤ grid.lim2 - snakeCnt ∧
        (List.range 20).all (fun (k : Nat) => grid.same (i1 + k) (i2 + k)) then
      (v, some { i1, i2, minLo := false, minHi := true })
    else (best, split)) (0, none)
  found.2

/-- The furthest point of the forward search, cut back to the box: the sum of its coordinates, and the first. -/
def forwardBest (bands : Bands) : Int × Int :=
  (diagonals bands.fmin bands.fmax).foldl (fun (best : Int × Int) d =>
    let i1 := if bands.vf d < grid.lim1 then bands.vf d else grid.lim1
    let i1 := if grid.lim2 < i1 - d then grid.lim2 + d else i1
    if best.1 < i1 + (i1 - d) then (i1 + (i1 - d), i1) else best) (-1, -1)

def backwardBest (bands : Bands) : Int × Int :=
  (diagonals bands.bmin bands.bmax).foldl (fun (best : Int × Int) d =>
    let i1 := if bands.vb d > grid.off1 then bands.vb d else grid.off1
    let i1 := if i1 - d < grid.off2 then grid.off2 + d else i1
    if i1 + (i1 - d) < best.1 then (i1 + (i1 - d), i1) else best) (longMax, longMax)

def giveUp (bands : Bands) : Split :=
  let (fbest, fbest1) := forwardBest grid bands
  let (bbest, bbest1) := backwardBest grid bands
  if (grid.lim1 + grid.lim2) - bbest < fbest - (grid.off1 + grid.off2) then
    { i1 := fbest1, i2 := fbest - fbest1, minLo := true, minHi := false }
  else { i1 := bbest1, i2 := bbest - bbest1, minLo := false, minHi := true }

/-! ### The search -/

def oddBox : Bool := ((grid.off1 - grid.off2) - (grid.lim1 - grid.lim2)) % 2 ≠ 0

variable (mxcost : Int) (needMin : Bool)

/-- One turn of the loop in `bgit_xd_find_split`, the `ec`th. -/
def searchRound (ec : Nat) (bands : Bands) : Except Split Bands := do
  let bands := widenForward grid bands
  let (vf, snake) ← forwardPass grid (oddBox grid) bands.bmin bands.bmax bands.vb
    (diagonals bands.fmin bands.fmax) bands.vf false
  let bands := widenBackward grid { bands with vf }
  let (vb, snake) ← backwardPass grid (oddBox grid) bands.fmin bands.fmax bands.vf
    (diagonals bands.bmin bands.bmax) bands.vb snake
  let bands := { bands with vb }
  if needMin then .ok bands
  else
    let guessed := if snake ∧ (ec : Int) > heurMinCost then (forwardSnake grid ec bands).or
      (backwardSnake grid ec bands) else none
    match guessed with
    | some split => .error split
    | none => if (ec : Int) ≥ mxcost then .error (giveUp grid bands) else .ok bands

def findSplitFrom : Nat → Nat → Bands → Option Split
  | 0, _, _ => none
  | rounds + 1, ec, bands =>
    match searchRound grid mxcost needMin ec bands with
    | .error split => some split
    | .ok bands => findSplitFrom rounds (ec + 1) bands

/-- `bgit_xd_find_split`. The searches have met when their edits make up a path, so as many rounds as the box has lines
are enough. -/
def findSplit : Option Split :=
  let fmid := grid.off1 - grid.off2
  let bmid := grid.lim1 - grid.lim2
  findSplitFrom grid mxcost needMin ((grid.lim1 - grid.off1) + (grid.lim2 - grid.off2)).toNat 1
    { fmin := fmid, fmax := fmid, bmin := bmid, bmax := bmid,
      vf := put (fun _ => 0) fmid grid.off1, vb := put (fun _ => 0) bmid grid.lim1 }

end

/-! ## What the passes do -/

variable {ds : List Int} {snake snaked : Bool} {after : Int → Int} {split : Split}

section
variable {grid : Grid} {values : Int → Int} {d lo hi : Int}

@[simp] theorem put_same (values : Int → Int) (d value : Int) : put values d value d = value := if_pos rfl

theorem put_other {e : Int} (value : Int) (other : e ≠ d) : put values d value e = values e := if_neg other

theorem mem_diagonals : d ∈ diagonals lo hi ↔ lo ≤ d ∧ d ≤ hi ∧ (hi - d) % 2 = 0 := by
  unfold diagonals
  rw [mem_map]
  constructor
  · rintro ⟨k, member, rfl⟩
    have below := mem_range.1 member
    omega
  · rintro ⟨low, high, even⟩
    exact ⟨((hi - d) / 2).toNat, mem_range.2 (by omega), by omega⟩

section
variable {step : (Int → Int) → Int → Int} {long : (Int → Int) → Int → Int → Bool} {met : Int → Int → Bool}
  {before : Int → Int} {parity : Int}

-- a step looks at the two neighbouring diagonals only, which have the other parity
variable (near : ∀ (v w : Int → Int) (d : Int), v (d - 1) = w (d - 1) → v (d + 1) = w (d + 1) → step v d = step w d)

include near in
theorem bandPass_spec (even : ∀ d ∈ ds, (d - parity) % 2 = 0)
    (agree : ∀ e, (e - parity) % 2 ≠ 0 → values e = before e) :
    (∀ after snaked, bandPass step long met ds values snake = .ok (after, snaked) →
      (∀ d ∈ ds, after d = step before d) ∧ (∀ d ∉ ds, after d = values d) ∧ ∀ d ∈ ds, met d (step before d) = false) ∧
    ∀ split, bandPass step long met ds values snake = .error split →
      ∃ d ∈ ds, met d (step before d) = true ∧ split.i1 = step before d ∧ split.i2 = step before d - d := by
  induction ds generalizing values snake with
  | nil =>
    refine ⟨fun after snaked ran => ?_, nofun⟩
    cases ran
    exact ⟨nofun, fun _ _ => rfl, nofun⟩
  | cons d rest ih =>
    have own := even d (.head _)
    have start : step values d = step before d := near _ _ d (agree _ (by omega)) (agree _ (by omega))
    rw [bandPass, start]
    split
    next found =>
      refine ⟨nofun, fun split ran => ?_⟩
      cases ran
      exact ⟨d, .head _, found, rfl, rfl⟩
    rename_i unmet
    have others : ∀ e, (e - parity) % 2 ≠ 0 → put values d (step before d) e = before e := by
      intro e off
      rw [put_other _ (by rintro rfl; exact off own), agree e off]
    have tail := @ih (snake || long values d (step before d)) _
      (fun e member => even e (mem_cons_of_mem d member)) others
    refine ⟨fun after snaked ran => ?_, fun split ran => ?_⟩
    · obtain ⟨moved, kept, apart⟩ := tail.1 after snaked ran
      refine ⟨fun e member => ?_, fun e off => ?_, fun e member => ?_⟩
      · by_cases later : e ∈ rest
        · exact moved e later
        · obtain rfl := (mem_cons.1 member).resolve_right later
          rw [kept e later, put_same]
      · rw [mem_cons, not_or] at off
        rw [kept e off.2, put_other _ off.1]
      · obtain rfl | later := mem_cons.1 member
        · simpa using unmet
        · exact apart e later
    · obtain ⟨e, member, found⟩ := tail.2 split ran
      exact ⟨e, mem_cons_of_mem d member, found⟩

end

theorem forwardStep_near (v w : Int → Int) (d : Int) (below : v (d - 1) = w (d - 1)) (above : v (d + 1) = w (d + 1)) :
    forwardStep grid v d = forwardStep grid w d := by
  simp only [forwardStep, forwardStart, below, above]

theorem backwardStep_near (v w : Int → Int) (d : Int) (below : v (d - 1) = w (d - 1)) (above : v (d + 1) = w (d + 1)) :
    backwardStep grid v d = backwardStep grid w d := by
  simp only [backwardStep, backwardStart, below, above]

/-! The search from the back is a search from the front, seen from the far corner. -/

theorem followBack_mirror (d : Int) (left : Nat) (i : Int) :
    -followBack grid d left i = grid.mirror.follow (-d) left (-i) := by
  induction left generalizing i with
  | zero => rfl
  | succ left ih =>
    have turned : (-i < grid.mirror.lim1 ∧ -i - -d < grid.mirror.lim2 ∧ grid.mirror.same (-i) (-i - -d) = true) ↔
        (grid.off1 < i ∧ grid.off2 < i - d ∧ grid.same (i - 1) (i - d - 1) = true) := by
      simp only [Grid.mirror]
      rw [show - -i - 1 = i - 1 by omega, show -(-i - -d) - 1 = i - d - 1 by omega]
      constructor
      · rintro ⟨left, up, same⟩
        exact ⟨by omega, by omega, same⟩
      · rintro ⟨left, up, same⟩
        exact ⟨by omega, by omega, same⟩
    rw [followBack, Grid.follow]
    by_cases here : grid.off1 < i ∧ grid.off2 < i - d ∧ grid.same (i - 1) (i - d - 1) = true
    · rw [if_pos here, if_pos (turned.2 here), ih, show -(i - 1) = -i + 1 by omega]
    · rw [if_neg here, if_neg fun there => here (turned.1 there)]

theorem backwardStep_mirror (vb : Int → Int) (d : Int) :
    -backwardStep grid vb d = forwardStep grid.mirror (fun e => -vb (-e)) (-d) := by
  have below : -(-d - 1) = d + 1 := by omega
  have above : -(-d + 1) = d - 1 := by omega
  have start : -backwardStart vb d = forwardStart (fun e => -vb (-e)) (-d) := by
    simp only [backwardStart, forwardStart, below, above]
    split <;> split <;> omega
  rw [backwardStep, slideBack, followBack_mirror]
  congr 1
  simp only [Grid.mirror]
  omega

end

/-! ## One round -/

/-- A box that is worth a search: it has lines on both sides, the first two differ and so do the last two. -/
structure Box (grid : Grid) : Prop where
  wide : grid.off1 < grid.lim1 ∧ grid.off2 < grid.lim2
  nonneg : 0 ≤ grid.off1 ∧ 0 ≤ grid.off2
  fits : grid.lim1 + grid.lim2 < longMax
  first : grid.same grid.off1 grid.off2 = false
  last : grid.same (grid.lim1 - 1) (grid.lim2 - 1) = false

theorem Box.mirror {grid : Grid} (box : Box grid) :
    (grid.mirror.off1 < grid.mirror.lim1 ∧ grid.mirror.off2 < grid.mirror.lim2) ∧
      grid.mirror.same grid.mirror.off1 grid.mirror.off2 = false ∧
      grid.mirror.same (grid.mirror.lim1 - 1) (grid.mirror.lim2 - 1) = false := by
  have wide := box.wide
  simp only [Grid.mirror, Int.neg_neg]
  refine ⟨by omega, box.last, ?_⟩
  rw [show -(-grid.off1 - 1) - 1 = grid.off1 by omega, show -(-grid.off2 - 1) - 1 = grid.off2 by omega]
  exact box.first

def Inside (grid : Grid) (split : Split) : Prop :=
  (grid.off1 ≤ split.i1 ∧ split.i1 ≤ grid.lim1) ∧ grid.off2 ≤ split.i2 ∧ split.i2 ≤ grid.lim2

/-- A split inside the box that leaves something on either side of it. -/
def Parts (grid : Grid) (split : Split) : Prop :=
  Inside grid split ∧ grid.off1 + grid.off2 < split.i1 + split.i2 ∧ split.i1 + split.i2 < grid.lim1 + grid.lim2

abbrev Crosses (grid : Grid) (edits : Nat) : Prop :=
  EditPath (fun p q => grid.same p q = true) edits grid.off1 grid.off2 grid.lim1 grid.lim2

structure Searching (grid : Grid) (ec : Nat) (bands : Bands) : Prop where
  forward : Furthest grid ec bands.vf bands.fmin bands.fmax
  backward : Furthest grid.mirror ec (fun d => -bands.vb (-d)) (-bands.bmax) (-bands.bmin)
  unmet : ∀ count, Crosses grid count → 2 * ec < count

section
variable {grid : Grid} {bands wider : Bands} {ec : Nat}

theorem widen_spec (grid : Grid) (edge : Int) {lo hi : Int} (values : Int → Int) (some : lo ≤ hi) :
    (widen grid edge lo hi values).1 = (if grid.least < lo then lo - 1 else lo + 1) ∧
    (widen grid edge lo hi values).2.1 = (if hi < grid.most then hi + 1 else hi - 1) ∧
    (∀ d, lo ≤ d → d ≤ hi → (widen grid edge lo hi values).2.2 d = values d) ∧
    (grid.least < lo → (widen grid edge lo hi values).2.2 (lo - 2) = edge) ∧
    (hi < grid.most → (widen grid edge lo hi values).2.2 (hi + 2) = edge) := by
  unfold widen
  by_cases below : grid.least < lo <;> by_cases above : hi < grid.most <;>
    simp only [below, above, if_true, if_false, put, true_and, false_implies, and_true]
  · refine ⟨fun d low high => ?_, fun _ => ?_, fun _ => ?_⟩
    · rw [if_neg (by omega), if_neg (by omega)]
    · rw [if_neg (by omega)]
    · trivial
  · refine ⟨fun d low high => ?_, fun _ => trivial⟩
    rw [if_neg (by omega)]
  · refine ⟨fun d low high => ?_, fun _ => trivial⟩
    rw [if_neg (by omega)]
  · intro d _ _
    trivial

theorem Searching.next_forward (box : Box grid) (searching : Searching grid ec bands) :
    Furthest grid (ec + 1) (forwardStep grid (widenForward grid bands).vf) (widenForward grid bands).fmin
      (widenForward grid bands).fmax := by
  have around := searching.forward.around
  obtain ⟨low, high, kept, below, above⟩ := widen_spec grid (-1) bands.vf (Int.le_trans around.1 around.2)
  have edge : (-1 : Int) < grid.off1 := Int.lt_of_lt_of_le (by decide) box.nonneg.1
  refine searching.forward.next box.wide low high (widenForward grid bands).vf kept (fun room => ?_) (fun room => ?_)
    fun d _ _ _ => rfl
  · exact Int.lt_of_le_of_lt (Int.le_of_eq (below room)) edge
  · exact Int.lt_of_le_of_lt (Int.le_of_eq (above room)) edge

theorem next_backward (box : Box grid)
    (back : Furthest grid.mirror ec (fun d => -bands.vb (-d)) (-bands.bmax) (-bands.bmin)) :
    Furthest grid.mirror (ec + 1) (fun d => -backwardStep grid (widenBackward grid bands).vb (-d))
      (-(widenBackward grid bands).bmax) (-(widenBackward grid bands).bmin) := by
  have around := back.around
  have fits := box.fits
  have nonneg := box.nonneg
  have wide := box.wide
  have least : grid.mirror.least = -grid.most := by simp only [Grid.least, Grid.most, Grid.mirror]; omega
  have most : grid.mirror.most = -grid.least := by simp only [Grid.least, Grid.most, Grid.mirror]; omega
  obtain ⟨low, high, kept, below, above⟩ := widen_spec grid longMax bands.vb (show bands.bmin ≤ bands.bmax by omega)
  have low : (widenBackward grid bands).bmin = _ := low
  have high : (widenBackward grid bands).bmax = _ := high
  have kept : ∀ d, bands.bmin ≤ d → d ≤ bands.bmax → (widenBackward grid bands).vb d = bands.vb d := kept
  have below : grid.least < bands.bmin → (widenBackward grid bands).vb (bands.bmin - 2) = longMax := below
  have above : bands.bmax < grid.most → (widenBackward grid bands).vb (bands.bmax + 2) = longMax := above
  generalize widenBackward grid bands = after at low high kept below above ⊢
  have turned : ∀ d, -backwardStep grid after.vb (-d) = forwardStep grid.mirror (fun e => -after.vb (-e)) d := by
    intro d
    rw [backwardStep_mirror, Int.neg_neg]
  refine back.next ?_ ?_ ?_ (fun e => -after.vb (-e)) ?_ ?_ ?_ fun d _ _ _ => turned d
  · simp only [Grid.mirror]
    omega
  · rw [high]
    split <;> split <;> omega
  · rw [low]
    split <;> split <;> omega
  · intro d first last
    rw [kept (-d) (by omega) (by omega)]
  · intro room
    rw [show -(-bands.bmax - 2) = bands.bmax + 2 by omega]
    simp only [Grid.mirror]
    omega
  · intro room
    rw [show -(-bands.bmin + 2) = bands.bmin - 2 by omega]
    simp only [Grid.mirror]
    omega

theorem diagonals_even {lo hi : Int} : ∀ d ∈ diagonals lo hi, (d - hi) % 2 = 0 := by
  intro d member
  have shape := mem_diagonals.1 member
  omega

section
variable (box : Box grid) (searching : Searching grid ec bands) (widened : wider = widenForward grid bands)
include box searching widened

theorem Searching.forwardPass_error {odd : Bool} (ran : forwardPass grid odd wider.bmin wider.bmax wider.vb
      (diagonals wider.fmin wider.fmax) wider.vf snake = .error split) : Parts grid split := by
  subst widened
  obtain ⟨d, member, met, first, second⟩ := (bandPass_spec forwardStep_near diagonals_even fun _ _ => rfl).2 _ ran
  have band := mem_diagonals.1 member
  have next := searching.next_forward box
  have parity := next.parity
  have path := next.reached d band.1 band.2.1 (by omega)
  have ahead := path.forward
  -- the diagonal is one of the other search's band
  simp only [Bool.and_eq_true, decide_eq_true_eq] at met
  have low : bands.bmin ≤ d := met.1.1.2
  have high : d ≤ bands.bmax := met.1.2
  have near := searching.backward.near
  simp only [Grid.mid, Grid.mirror] at near
  have within := Furthest.inside box.wide ec path (by omega) fun count crosses => by
    have := searching.unmet count crosses
    omega
  have between := Furthest.between box.wide box.first box.last path ⟨Int.le_refl _, Int.le_refl _⟩ (by omega)
    (.inl ⟨rfl, rfl⟩)
    searching.unmet
  unfold Parts Inside
  omega

theorem Searching.forwardPass_ok (ran : forwardPass grid (oddBox grid) wider.bmin wider.bmax wider.vb
      (diagonals wider.fmin wider.fmax) wider.vf snake = .ok (after, snaked)) :
    Furthest grid (ec + 1) after wider.fmin wider.fmax ∧ ¬ Crosses grid (2 * ec + 1) := by
  subst widened
  obtain ⟨moved, -, apart⟩ := (bandPass_spec forwardStep_near diagonals_even fun _ _ => rfl).1 _ _ ran
  have next := searching.next_forward box
  have parity := next.parity
  refine ⟨next.congr fun d low high even => moved d (mem_diagonals.2 ⟨low, high, by omega⟩), fun crosses => ?_⟩
  have odd : oddBox grid = true := by
    have shape := crosses.diagonal
    unfold oddBox
    rw [decide_eq_true_eq]
    omega
  rw [show 2 * ec + 1 = ec + 1 + ec by omega] at crosses
  obtain ⟨d, low, high, even, left, right, met⟩ := next.meet searching.backward crosses
  have unmet := apart d (mem_diagonals.2 ⟨low, high, by omega⟩)
  simp only [Int.neg_neg] at left right met
  simp only [odd, Bool.true_and, Bool.and_eq_false_iff, decide_eq_false_iff_not] at unmet
  obtain (off | off) | off := unmet
  · exact off left
  · exact off right
  · exact off met

/-! The search from the back goes on once the one from the front has done so. -/

end

section
variable (box : Box grid) (front : Furthest grid (ec + 1) bands.vf bands.fmin bands.fmax)
  (back : Furthest grid.mirror ec (fun d => -bands.vb (-d)) (-bands.bmax) (-bands.bmin))
  (widened : wider = widenBackward grid bands)
include box front back widened

theorem backwardPass_error (unmet : ∀ count, Crosses grid count → 2 * ec < count) {odd : Bool}
    (ran : backwardPass grid odd
      wider.fmin wider.fmax wider.vf (diagonals wider.bmin wider.bmax) wider.vb snake = .error split) :
        Parts grid split := by
  subst widened
  obtain ⟨d, member, met, first, second⟩ := (bandPass_spec backwardStep_near diagonals_even fun _ _ => rfl).2 _ ran
  have band := mem_diagonals.1 member
  have next := next_backward box back
  have parity := next.parity
  have path := next.reached (-d) (by omega) (by omega) (by omega)
  simp only [Int.neg_neg] at path
  have ahead := path.forward
  simp only [Bool.and_eq_true, decide_eq_true_eq] at met
  have low : bands.fmin ≤ d := met.1.1.2
  have high : d ≤ bands.fmax := met.1.2
  have near := front.near
  have wide := box.wide
  have within := Furthest.inside (by simp only [Grid.mirror]; omega) (ec + 1) path
    (by simp only [Grid.mid, Grid.mirror] at near ⊢; omega) fun count crosses => by
      have := unmet count (Grid.mirror_path crosses)
      omega
  have between := Furthest.between box.mirror.1 box.mirror.2.1 box.mirror.2.2 path ⟨Int.le_refl _, Int.le_refl _⟩
    ⟨⟨ahead.1, within.1⟩, ahead.2, within.2⟩ (.inl ⟨rfl, rfl⟩) fun count crosses =>
      unmet count (Grid.mirror_path crosses)
  simp only [Grid.mirror] at ahead within between
  unfold Parts Inside
  omega

theorem backwardPass_ok (ran : backwardPass grid (oddBox grid) wider.fmin wider.fmax wider.vf
      (diagonals wider.bmin wider.bmax) wider.vb snake = .ok (after, snaked)) :
    Furthest grid.mirror (ec + 1) (fun d => -after (-d)) (-wider.bmax) (-wider.bmin) ∧ ¬ Crosses grid (2 * ec + 2) := by
  subst widened
  obtain ⟨moved, -, apart⟩ := (bandPass_spec backwardStep_near diagonals_even fun _ _ => rfl).1 _ _ ran
  have next := next_backward box back
  have parity := next.parity
  refine ⟨next.congr fun d low high even => ?_, fun crosses => ?_⟩
  · rw [moved (-d) (mem_diagonals.2 ⟨by omega, by omega, by omega⟩)]
  · have shape := crosses.diagonal
    push_cast at shape
    have even : oddBox grid = false := by
      unfold oddBox
      rw [decide_eq_false_iff_not]
      omega
    rw [show 2 * ec + 2 = ec + 1 + (ec + 1) by omega] at crosses
    obtain ⟨d, low, high, aligned, left, right, met⟩ := front.meet next crosses
    simp only [Int.neg_neg] at left right met
    simp only [Grid.mid, Grid.mirror] at parity aligned
    have unmet := apart d (mem_diagonals.2 ⟨left, right, by omega⟩)
    simp only [even, Bool.not_false, Bool.true_and, Bool.and_eq_false_iff, decide_eq_false_iff_not] at unmet
    obtain (off | off) | off := unmet
    · exact off low
    · exact off high
    · exact off met

end

/-! ## The heuristics -/

theorem found_parts {step : Int × Option Split → Int → Int × Option Split}
    (steps : ∀ state d, step state d = state ∨ ∃ v split, step state d = (v, some split) ∧ Parts grid split)
    (found : (ds.foldl step (0, none)).2 = some split) : Parts grid split := by
  refine foldl_invariant (fun _ (state : Int × Option Split) => ∀ split, state.2 = some split →
    Parts grid split) ?_ ?_ split found
  · intro split none
    cases none
  · intro _ d _ state _ holds
    obtain same | ⟨v, chosen, set, inside⟩ := steps state d
    · rwa [same]
    · rw [set]
      intro split found
      cases found
      exact inside

theorem snake_parts {cost : Int} (found : forwardSnake grid cost bands = some split ∨
    backwardSnake grid cost bands = some split) :
    Parts grid split := by
  obtain found | found := found
  all_goals
    refine found_parts (fun state d => ?_) found
    dsimp only
    -- whichever side of the middle the diagonal lies on
    split
    all_goals
      split
      next test =>
        simp only [snakeCnt] at test
        refine .inr ⟨_, _, rfl, ?_⟩
        unfold Parts Inside
        dsimp only
        omega
      · exact .inl rfl

/-- The split at the best of some points, all inside the box and in none of its corners. -/
theorem best_parts (better : Int → Int → Prop) [DecidableRel better] (point : Int → Int) (start : Int)
    {minLo minHi : Bool}
    (some : ds ≠ []) (beats : ∀ sum, grid.off1 + grid.off2 < sum → sum < grid.lim1 + grid.lim2 → better start sum)
    (inside : ∀ d ∈ ds, Parts grid ⟨point d, point d - d, minLo, minHi⟩) {best : Int × Int}
    (found : best = ds.foldl (fun (best : Int × Int) d =>
      if better best.1 (point d + (point d - d)) then (point d + (point d - d), point d) else best) (start, start)) :
    Parts grid ⟨best.2, best.1 - best.2, minLo, minHi⟩ := by
  obtain ⟨d, member, chosen⟩ : ∃ d ∈ ds, best = (point d + (point d - d), point d) := by
    rw [found]
    refine (foldl_invariant (fun done (best : Int × Int) =>
      done = [] ∧ best = (start, start) ∨ ∃ d ∈ done, best = (point d + (point d - d), point d)) (.inl ⟨rfl, rfl⟩)
        ?_).resolve_left fun none => some none.1
    intro done d rest best whole held
    split
    · exact .inr ⟨d, by simp, rfl⟩
    rename_i worse
    obtain ⟨-, rfl⟩ | ⟨e, member, rfl⟩ := held
    · have parts := inside d (by simp [whole])
      exact absurd (beats _ parts.2.1 parts.2.2) worse
    · exact .inr ⟨e, mem_append_left _ member, rfl⟩
  have back : point d + (point d - d) - point d = point d - d := by omega
  rw [chosen]
  dsimp only
  rw [back]
  exact inside d member

section
variable (box : Box grid)
include box

theorem forwardBest_parts (front : Furthest grid (ec + 1) bands.vf bands.fmin bands.fmax)
    (unmet : ∀ count, Crosses grid count → 2 * ec < count) :
    Parts grid { i1 := (forwardBest grid bands).2, i2 := (forwardBest grid bands).1 - (forwardBest grid bands).2,
                  minLo := true, minHi := false } := by
  have least := front.least
  have most := front.most
  have around := front.around
  have parity := front.parity
  have wide := box.wide
  have nonneg := box.nonneg
  simp only [Grid.least, Grid.most] at least most
  let point (d : Int) : Int :=
    if grid.lim2 < (if bands.vf d < grid.lim1 then bands.vf d else grid.lim1) - d then grid.lim2 + d
    else if bands.vf d < grid.lim1 then bands.vf d else grid.lim1
  have some : diagonals bands.fmin bands.fmax ≠ [] :=
    List.ne_nil_of_mem (mem_diagonals.2 ⟨Int.le_trans around.1 around.2, Int.le_refl _, by omega⟩)
  refine best_parts (fun best sum => best < sum) point (-1) some (fun sum _ _ => by omega) (fun d member => ?_) rfl
  have band := mem_diagonals.1 member
  have path := front.reached d band.1 band.2.1 (by omega)
  have ahead := path.forward
  have spot : Inside grid ⟨point d, point d - d, true, false⟩ ∧ point d ≤ bands.vf d ∧
      (point d = bands.vf d ∨ point d = grid.lim1 ∨ point d - d = grid.lim2) := by
    simp only [Inside, point]
    split <;> split <;> omega
  have within := spot.1
  simp only [Inside] at within
  refine ⟨spot.1, ?_⟩
  dsimp only
  exact Furthest.between box.wide box.first box.last path ⟨spot.2.1, by omega⟩ within (by omega) unmet

theorem backwardBest_parts (back : Furthest grid.mirror (ec + 1) (fun d => -bands.vb (-d)) (-bands.bmax) (-bands.bmin))
    (unmet : ∀ count, Crosses grid count → 2 * ec < count) :
    Parts grid { i1 := (backwardBest grid bands).2, i2 := (backwardBest grid bands).1 - (backwardBest grid bands).2,
                  minLo := false, minHi := true } := by
  have least := back.least
  have most := back.most
  have around := back.around
  have parity := back.parity
  have wide := box.wide
  have fits := box.fits
  simp only [Grid.least, Grid.most, Grid.mirror] at least most
  let point (d : Int) : Int :=
    if (if bands.vb d > grid.off1 then bands.vb d else grid.off1) - d < grid.off2 then grid.off2 + d
    else if bands.vb d > grid.off1 then bands.vb d else grid.off1
  have some : diagonals bands.bmin bands.bmax ≠ [] :=
    List.ne_nil_of_mem (mem_diagonals.2 ⟨by omega, Int.le_refl _, by omega⟩)
  refine best_parts (fun best sum => sum < best) point longMax some (fun sum _ _ => by omega) (fun d member => ?_) rfl
  have band := mem_diagonals.1 member
  have path := back.reached (-d) (by omega) (by omega) (by omega)
  have ahead := path.forward
  simp only [Int.neg_neg] at path ahead
  simp only [Grid.mirror] at ahead
  have spot : Inside grid ⟨point d, point d - d, false, true⟩ ∧ bands.vb d ≤ point d ∧
      (point d = bands.vb d ∨ point d = grid.off1 ∨ point d - d = grid.off2) := by
    simp only [Inside, point]
    split <;> split <;> omega
  have within := spot.1
  simp only [Inside] at within
  have between := @Furthest.between grid.mirror ec box.mirror.1 box.mirror.2.1 box.mirror.2.2 _ _ (-point d)
    (-(point d - d)) path
    (by omega) (by simp only [Grid.mirror]; omega) (by simp only [Grid.mirror]; omega)
    fun count crosses => unmet count (Grid.mirror_path crosses)
  simp only [Grid.mirror] at between
  refine ⟨spot.1, ?_⟩
  dsimp only
  omega

theorem giveUp_parts (searching : Searching grid (ec + 1) bands) : Parts grid (giveUp grid bands) := by
  have unmet : ∀ count, Crosses grid count → 2 * ec < count := fun count crosses => by
    have := searching.unmet count crosses
    omega
  unfold giveUp
  dsimp only
  split
  · exact forwardBest_parts box searching.forward unmet
  · exact backwardBest_parts box searching.backward unmet

/-! ## The search -/

/-- A round ends with a split in the box, or with both searches one edit further and no path that short. -/
theorem searchRound_spec (searching : Searching grid ec bands) (mxcost : Int) (needMin : Bool) (cost : Nat) :
    (∃ split, searchRound grid mxcost needMin cost bands = .error split ∧ Parts grid split) ∨
    ∃ after, searchRound grid mxcost needMin cost bands = .ok after ∧ Searching grid (ec + 1) after := by
  unfold searchRound
  dsimp only
  generalize wide : widenForward grid bands = wider
  cases front : forwardPass grid (oddBox grid) wider.bmin wider.bmax wider.vb
      (diagonals wider.fmin wider.fmax) wider.vf false with
  | error split => exact .inl ⟨split, rfl, searching.forwardPass_error box wide.symm front⟩
  | ok passed =>
    obtain ⟨vf, snake⟩ := passed
    obtain ⟨forward, longer⟩ := searching.forwardPass_ok box wide.symm front
    simp only [bind, Except.bind]
    generalize widened : ({ wider with vf } : Bands) = half
    have forward : Furthest grid (ec + 1) half.vf half.fmin half.fmax := widened ▸ forward
    have backward : Furthest grid.mirror ec (fun d => -half.vb (-d)) (-half.bmax) (-half.bmin) :=
      widened ▸ wide ▸ searching.backward
    generalize wide' : widenBackward grid half = last
    cases back : backwardPass grid (oddBox grid) last.fmin last.fmax last.vf
        (diagonals last.bmin last.bmax) last.vb snake with
    | error split => exact .inl ⟨split, rfl, backwardPass_error box forward backward wide'.symm searching.unmet back⟩
    | ok passed =>
      obtain ⟨vb, snake⟩ := passed
      obtain ⟨backward, further⟩ := backwardPass_ok box forward backward wide'.symm back
      have after : Searching grid (ec + 1) { last with vb } := by
        refine ⟨wide' ▸ forward, backward, fun count crosses => ?_⟩
        have least := searching.unmet count crosses
        have odd : count ≠ 2 * ec + 1 := fun same => longer (same ▸ crosses)
        have even : count ≠ 2 * ec + 2 := fun same => further (same ▸ crosses)
        omega
      dsimp only
      split
      · exact .inr ⟨_, rfl, after⟩
      · split
        next split guessed =>
          refine .inl ⟨split, rfl, ?_⟩
          split at guessed
          · exact snake_parts ((Option.or_eq_some_iff.1 guessed).imp_right And.right)
          · cases guessed
        · split
          · exact .inl ⟨_, rfl, giveUp_parts box after⟩
          · exact .inr ⟨_, rfl, after⟩

end

/-- The bands before the first turn, as `findSplit` starts. -/
def startBands (grid : Grid) : Bands :=
  { fmin := grid.off1 - grid.off2, fmax := grid.off1 - grid.off2, bmin := grid.lim1 - grid.lim2,
    bmax := grid.lim1 - grid.lim2,
    vf := put (fun _ => 0) (grid.off1 - grid.off2) grid.off1, vb := put (fun _ => 0) (grid.lim1 - grid.lim2) grid.lim1 }

theorem Searching.start (box : Box grid) : Searching grid 0 (startBands grid) := by
  have wide := box.wide
  refine ⟨Furthest.start wide box.first (if_pos rfl), ?_, fun count crosses => ?_⟩
  · have corner : grid.mirror.mid = -(grid.lim1 - grid.lim2) := by
      simp only [Grid.mid, Grid.mirror]
      omega
    dsimp only [startBands]
    rw [← corner]
    refine Furthest.start ?_ ?_ ?_
    · simp only [Grid.mirror]
      omega
    · simp only [Grid.mirror, Int.neg_neg]
      exact box.last
    · rw [corner, Int.neg_neg, put_same]
      rfl
  · cases count with
    | zero =>
      have stuck := crosses.of_zero (by simp [box.first])
      omega
    | succ count => omega

theorem findSplitFrom_spec (box : Box grid) (mxcost : Int) (needMin : Bool) (rounds cost : Nat)
    (searching : Searching grid ec bands)
    (enough : (grid.lim1 - grid.off1) + (grid.lim2 - grid.off2) ≤ 2 * (ec + rounds : Nat)) :
    ∃ split, findSplitFrom grid mxcost needMin rounds cost bands = some split ∧ Parts grid split := by
  induction rounds generalizing ec cost bands with
  | zero =>
    have wide := box.wide
    have path : Crosses grid ((grid.lim1 - grid.off1).toNat + (grid.lim2 - grid.off2).toNat) := by
      have straight : EditPath (fun p q => grid.same p q = true) _ grid.off1 grid.off2 _ _ :=
        EditPath.straight _ _ (grid.lim1 - grid.off1).toNat (grid.lim2 - grid.off2).toNat
      rwa [show grid.off1 + ((grid.lim1 - grid.off1).toNat : Int) = grid.lim1 by omega,
        show grid.off2 + ((grid.lim2 - grid.off2).toNat : Int) = grid.lim2 by omega] at straight
    have longer := searching.unmet _ path
    omega
  | succ rounds ih =>
    rw [findSplitFrom]
    obtain ⟨split, ended, parts⟩ | ⟨after, went, searching⟩ := searchRound_spec box searching mxcost needMin cost
    · rw [ended]
      exact ⟨split, rfl, parts⟩
    · rw [went]
      exact ih (cost + 1) searching (by push_cast at enough ⊢; omega)

theorem findSplit_spec (box : Box grid) (mxcost : Int) (needMin : Bool) :
    ∃ split, findSplit grid mxcost needMin = some split ∧ Parts grid split := by
  exact findSplitFrom_spec box mxcost needMin _ 1 (Searching.start box) (by push_cast; omega)

end
end BashOs.Git.Diff

import BashOs.Git.Diff.Lines
import BashOs.Git.Diff.Split
import BashOs.Lib.Alignment

/-!
Which lines of two files a search marks as changed: `bgit_xd_compare` with its three algorithms. A search works on a
box, that is a range of positions among the lines chosen from each file.
-/

namespace BashOs.Git.Diff
open BashOs.Lib

/-! ## Reducing the problem -/

/-- What `dis` says of a line: it matches nothing, a few lines, or too many. -/
inductive Popularity where
  | unmatched
  | few
  | many
deriving DecidableEq, Repr

def bogosqrtFrom : Nat → Nat → Nat → Nat
  | 0, _, i => i
  | turns + 1, n, i => if n > 0 then bogosqrtFrom turns (n >>> 2) (i <<< 1) else i

def bogosqrt (n : Nat) : Nat := bogosqrtFrom n n 1

/-- How many of the lines next to a line match nothing and how many match too much, up to the first that does
neither. -/
def company (dis : Nat → Popularity) : List Nat → Nat × Nat
  | [] => (0, 1)
  | k :: rest =>
    match dis k with
    | .unmatched => ((company dis rest).1 + 1, (company dis rest).2)
    | .many => ((company dis rest).1, (company dis rest).2 + 1)
    | .few => (0, 1)

def cleanMmatch (dis : Nat → Popularity) (i s e : Nat) : Bool :=
  let s := if i - s > 100 then i - 100 else s
  let e := if e - i > 100 then i + 100 else e
  let above := company dis ((List.range (i - s)).map fun r => i - 1 - r)
  let below := company dis ((List.range (e - i)).map fun r => i + 1 + r)
  if above.1 = 0 then false
  else if below.1 = 0 then false
  else (below.2 + above.2) * 4 < (below.2 + above.2) + (below.1 + above.1)

/-- Which lines from `s` to `e` are worth searching for, when a line `i` matches `count i` lines of the other file. -/
def worthSearching (count : Nat → Nat) (limit s e : Nat) (i : Nat) : Bool :=
  let dis (i : Nat) : Popularity := if count i = 0 then .unmatched else if count i ≥ limit then .many else .few
  dis i = .few ∨ dis i = .many ∧ ¬ cleanMmatch dis i s e

def eqLimit (n : Nat) : Nat := min (bogosqrt n) 1024

def maxCost (na nb : Nat) : Int := max (bogosqrt (na + nb + 3)) 256

/-! ## The search -/

/-- The algorithm bits of the flags. Several can be set, and the other two algorithms are used only when they are
alone. -/
structure Algorithm where
  minimal : Bool
  patience : Bool
  histogram : Bool
deriving DecidableEq, Repr

structure Xd where
  a : XdiffFile
  b : XdiffFile
  ia : Nat → Nat
  ib : Nat → Nat
  mxcost : Int
  algorithm : Algorithm

namespace Xd

def ofLines (a b : XdiffFile) (algorithm : Algorithm) (ia ib : List Nat) : Xd where
  a := a
  b := b
  ia i := ia.getD i 0
  ib j := ib.getD j 0
  mxcost := maxCost ia.length ib.length
  algorithm := algorithm

variable (x : Xd)

def eq (i j : Nat) : Bool := lineSame x.a (x.ia i) x.b (x.ib j)

def oldLines (a0 a1 : Nat) : List Nat := (upTo a0 a1).map x.ia
def newLines (b0 b1 : Nat) : List Nat := (upTo b0 b1).map x.ib

def oldCount (a0 a1 : Nat) (line : Bytes) : Nat := ((x.oldLines a0 a1).map x.a.line).count line
def newCount (b0 b1 : Nat) (line : Bytes) : Nat := ((x.newLines b0 b1).map x.b.line).count line

def headRun (a0 a1 b0 b1 : Nat) : Nat := scan (fun k => x.eq (a0 + k) (b0 + k)) (min (a1 - a0) (b1 - b0))
def tailRun (a0 a1 b0 b1 : Nat) : Nat := scan (fun k => x.eq (a1 - 1 - k) (b1 - 1 - k)) (min (a1 - a0) (b1 - b0))

def grid (a0 a1 b0 b1 : Nat) : Grid where
  same i j := x.eq i.toNat j.toNat
  off1 := a0
  lim1 := a1
  off2 := b0
  lim2 := b1

end Xd

abbrev Search := Xd → Nat → Nat → Nat → Nat → Bool → Marks → Option Marks

-- the search of smaller boxes
variable (compare : Search) (x : Xd) (a0 a1 b0 b1 : Nat) (needMin : Bool) (marks : Marks)

def searchLines (a b : XdiffFile) (algorithm : Algorithm) (ia ib : List Nat) (needMin : Bool) (marks : Marks) :
    Option Marks :=
  compare (Xd.ofLines a b algorithm ia ib) 0 ia.length 0 ib.length needMin marks

def myersFallback : Option Marks :=
  let srcA (i : Nat) : Nat := x.ia (a0 + i)
  let srcB (j : Nat) : Nat := x.ib (b0 + j)
  let worthA := worthSearching (fun i => x.newCount b0 b1 (x.a.line (srcA i))) (eqLimit (a1 - a0)) 0 (a1 - a0 - 1)
  let worthB := worthSearching (fun j => x.oldCount a0 a1 (x.b.line (srcB j))) (eqLimit (b1 - b0)) 0 (b1 - b0 - 1)
  let ia := ((List.range (a1 - a0)).filter worthA).map srcA
  let ib := ((List.range (b1 - b0)).filter worthB).map srcB
  let marks := (marks.markOld (((List.range (a1 - a0)).filter (!worthA ·)).map srcA)).markNew
    (((List.range (b1 - b0)).filter (!worthB ·)).map srcB)
  searchLines compare x.a x.b { minimal := false, patience := false, histogram := false } ia ib needMin marks

/-! ### Patience -/

structure Anchor where
  a : Nat
  b : Nat
deriving DecidableEq, Repr

def anchors : List Anchor :=
  (upTo a0 a1).filterMap fun i =>
    if x.oldCount a0 a1 (x.a.line (x.ia i)) = 1 ∧ x.newCount b0 b1 (x.a.line (x.ia i)) = 1 then
      ((upTo b0 b1).find? (x.eq i)).map (⟨i, ·⟩)
    else none

def chainEnd (chain : List Anchor) : Nat := (chain.head?.map (·.b)).getD 0

/-- The first of the chains from `lo` to `hi` whose last anchor does not stand before `b`. -/
def tailSearch (tails : List (List Anchor)) (b : Nat) : Nat → Nat → Nat → Nat
  | 0, lo, _ => lo
  | turns + 1, lo, hi =>
    if lo < hi then
      let mid := lo + (hi - lo) / 2
      if chainEnd (tails.getD mid []) < b then tailSearch tails b turns
        (mid + 1) hi else tailSearch tails b turns lo mid
    else lo

def extendTails (tails : List (List Anchor)) (anchor : Anchor) : List (List Anchor) :=
  let lo := tailSearch tails anchor.b tails.length 0 tails.length
  let chain := anchor :: if lo = 0 then [] else tails.getD (lo - 1) []
  if lo = tails.length then tails ++ [chain] else tails.set lo chain

def longestChain (found : List Anchor) : List Anchor := ((found.foldl extendTails []).getLastD []).reverse

/-- The gaps between the anchors, from `oldAt` and `newAt` on. -/
def searchGaps : List Anchor → Nat → Nat → Marks → Option Marks
  | [], oldAt, newAt, marks =>
    let head := x.headRun oldAt a1 newAt b1
    compare x (oldAt + head) a1 (newAt + head) b1 false marks
  | anchor :: rest, oldAt, newAt, marks => do
    let tail := x.tailRun oldAt anchor.a newAt anchor.b
    let nextA := anchor.a - tail
    let nextB := anchor.b - tail
    let head := x.headRun oldAt nextA newAt nextB
    let marks ← compare x (oldAt + head) nextA (newAt + head) nextB false marks
    searchGaps rest (anchor.a + 1) (anchor.b + 1) marks

/-- `bgit_xd_patience`, with the fallback of its caller. -/
def patience : Option Marks :=
  match anchors x a0 a1 b0 b1 with
  | [] => myersFallback compare x a0 a1 b0 b1 needMin marks
  | found => searchGaps compare x a1 b1 (longestChain found) a0 b0 marks

/-! ### Histogram -/

structure Best where
  run : Option (Nat × Nat)
  len : Nat
  frequency : Nat
  hasCommon : Bool
deriving DecidableEq, Repr

def rarest (frequency : Nat) (counts : List Nat) : Nat :=
  counts.foldl (fun frequency count => if frequency > 1 ∧ count < frequency then count else frequency) frequency

/-- The runs through one line of the new file: the best so far, and how far the runs looked at have reached. -/
structure Runs where
  best : Best
  aNext : Nat
  bNext : Nat

/-- The run through the line at `bPtr` of the new file and a line of the old one that is the same. -/
def tryRun (bPtr acount : Nat) (runs : Runs) (a : Nat) : Runs :=
  if a < runs.aNext then runs
  else
    let count (i : Nat) : Nat := x.oldCount a0 a1 (x.a.line (x.ia i))
    let left := scan (fun k => x.eq (a - k - 1) (bPtr - k - 1)) (min (a - a0) (bPtr - b0))
    let right := scan (fun k => x.eq (a + (k + 1)) (bPtr + (k + 1))) (min (a1 - (a + 1)) (b1 - (bPtr + 1))) + 1
    let frequency := rarest acount ((List.range left).map fun k => count (a - (k + 1)))
    let frequency := rarest frequency ((List.range (right - 1)).map fun k => count (a + (k + 1)))
    let len := left + right
    let best :=
      if len > runs.best.len ∨ frequency < runs.best.frequency then
        { runs.best with run := some (a - left, bPtr - left), len, frequency }
      else runs.best
    { best, aNext := max runs.aNext (a + right), bNext := max runs.bNext (bPtr + right) }

/-- The line at `bPtr` of the new file. -/
def tryLine (bPtr : Nat) (best : Best) : Nat × Best :=
  let places := (upTo a0 a1).filter fun a => x.eq a bPtr
  let bcount := x.newCount b0 b1 (x.b.line (x.ib bPtr))
  if places.length ≠ 0 ∧ bcount ≠ 0 then
    let best := { best with hasCommon := true }
    if places.length ≤ best.frequency then
      let runs := places.foldl (tryRun x a0 a1 b0 b1 bPtr places.length) { best, aNext := a0, bNext := bPtr + 1 }
      (runs.bNext, runs.best)
    else (bPtr + 1, best)
  else (bPtr + 1, best)

def bestRun : Option Best :=
  (repeatUntil (fun (bPtr, best) =>
    some (if bPtr < b1 then .yield (tryLine x a0 a1 b0 b1 bPtr best) else .done (bPtr, best)))
    (b1 - b0 + 1) (b0, { run := none, len := 0, frequency := 65, hasCommon := false })).map (·.2)

def histogram : Option Marks := do
  let best ← bestRun x a0 a1 b0 b1
  match best.run with
  | none =>
    if best.hasCommon then myersFallback compare x a0 a1 b0 b1 needMin marks
    else some ((marks.markOld (x.oldLines a0 a1)).markNew (x.newLines b0 b1))
  | some (bestA, bestB) =>
    let marks ← compare x a0 bestA b0 bestB needMin marks
    compare x (bestA + best.len) a1 (bestB + best.len) b1 needMin marks

/-! ### Divide and conquer -/

def myersBox : Option Marks :=
  if a0 = a1 then some (marks.markNew (x.newLines b0 b1))
  else if b0 = b1 then some (marks.markOld (x.oldLines a0 a1))
  else do
    let spl ← findSplit (x.grid a0 a1 b0 b1) x.mxcost needMin
    let i1 := spl.i1.toNat
    let i2 := spl.i2.toNat
    if i1 = a0 ∧ i2 = b0 ∨ i1 = a1 ∧ i2 = b1 then some ((marks.markOld (x.oldLines a0 a1)).markNew (x.newLines b0 b1))
    else
      let marks ← compare x a0 i1 b0 i2 spl.minLo marks
      compare x i1 a1 i2 b1 spl.minHi marks

def myers : Option Marks :=
  let head := x.headRun a0 a1 b0 b1
  let tail := x.tailRun (a0 + head) a1 (b0 + head) b1
  myersBox compare x (a0 + head) (a1 - tail) (b0 + head) (b1 - tail) needMin marks

/-- One call of `bgit_xd_compare`. -/
def compareBox : Option Marks :=
  if a0 = a1 then some (marks.markNew (x.newLines b0 b1))
  else if b0 = b1 then some (marks.markOld (x.oldLines a0 a1))
  else if x.algorithm = { minimal := false, patience := true, histogram := false } then
    patience compare x a0 a1 b0 b1 needMin marks
  else if x.algorithm = { minimal := false, patience := false, histogram := true } then
    histogram compare x a0 a1 b0 b1 needMin marks
  else myers compare x a0 a1 b0 b1 needMin marks

/-- `bgit_xd_compare`, for so many calls within each other. -/
def compareWithin : Nat → Search
  | 0 => fun _ _ _ _ _ _ _ => none
  | depth + 1 => compareBox (compareWithin depth)

def compareAll : Search := fun x a0 a1 b0 b1 => compareWithin (2 * ((a1 - a0) + (b1 - b0)) + 2) x a0 a1 b0 b1

end BashOs.Git.Diff

import BashOs.Git.Diff.Compare

/-!
Every algorithm settles its box: it marks lines of the box only, and the lines it leaves unmarked match one by one.
A box is cut into runs of lines that are the same, which need no marks, and smaller boxes, so the calls come to an
end.
-/

namespace BashOs.Git.Diff
open BashOs.Lib List

/-! ## What a search does -/

structure Region (x : Xd) (a0 a1 b0 b1 : Nat) : Prop where
  old_le : a0 ≤ a1
  new_le : b0 ≤ b1
  old_nodup : (x.oldLines a0 a1).Nodup
  new_nodup : (x.newLines b0 b1).Nodup
  fits : (a1 + b1 : Int) < longMax

abbrev Unmarked (x : Xd) (a0 a1 b0 b1 : Nat) (marks : Marks) : Prop := marks.Fresh (x.oldLines a0 a1) (x.newLines b0 b1)

abbrev Settles (x : Xd) (a0 a1 b0 b1 : Nat) (before after : Marks) : Prop :=
  Marks.Settled x.a.line x.b.line (x.oldLines a0 a1) (x.newLines b0 b1) before after

def Solves (compare : Search) (x : Xd) (a0 a1 b0 b1 : Nat) : Prop :=
  ∀ needMin marks, Unmarked x a0 a1 b0 b1 marks → ∃ after, compare x a0 a1 b0 b1 needMin marks = some after ∧
    Settles x a0 a1 b0 b1 marks after

variable {marks before after : Marks} {anchor : Anchor}

section
variable {x : Xd} {a0 a1 b0 b1 : Nat} {middle c0 c1 d0 d1 : Nat}

theorem Xd.oldLines_append (x : Xd) (low : a0 ≤ middle) (high : middle ≤ a1) :
    x.oldLines a0 a1 = x.oldLines a0 middle ++ x.oldLines middle a1 := by
  simp only [Xd.oldLines]
  rw [upTo_append low high, map_append]

theorem Xd.newLines_append (x : Xd) (low : b0 ≤ middle) (high : middle ≤ b1) :
    x.newLines b0 b1 = x.newLines b0 middle ++ x.newLines middle b1 := by
  simp only [Xd.newLines]
  rw [upTo_append low high, map_append]

theorem upTo_sublist {first first' last' last : Nat} (low : first ≤ first') (middle : first' ≤ last')
    (high : last' ≤ last) :
    (upTo first' last').Sublist (upTo first last) := by
  rw [upTo_append low (le_trans middle high), upTo_append middle high]
  exact (sublist_append_left _ _).trans (sublist_append_right _ _)

theorem Region.sub (region : Region x a0 a1 b0 b1) (old : a0 ≤ c0 ∧ c0 ≤ c1 ∧ c1 ≤ a1)
    (new : b0 ≤ d0 ∧ d0 ≤ d1 ∧ d1 ≤ b1) : Region x c0 c1 d0 d1 where
  old_le := old.2.1
  new_le := new.2.1
  old_nodup := region.old_nodup.sublist ((upTo_sublist old.1 old.2.1 old.2.2).map x.ia)
  new_nodup := region.new_nodup.sublist ((upTo_sublist new.1 new.2.1 new.2.2).map x.ib)
  fits := by
    have := region.fits
    omega

theorem Unmarked.sub (unmarked : Unmarked x a0 a1 b0 b1 marks) (old : a0 ≤ c0 ∧ c0 ≤ c1 ∧ c1 ≤ a1)
    (new : b0 ≤ d0 ∧ d0 ≤ d1 ∧ d1 ≤ b1) : Unmarked x c0 c1 d0 d1 marks :=
  Marks.Fresh.mono unmarked ((upTo_sublist old.1 old.2.1 old.2.2).map x.ia).subset
    ((upTo_sublist new.1 new.2.1 new.2.2).map x.ib).subset

section Join
variable (region : Region x a0 a1 b0 b1) {i j : Nat} (old : a0 ≤ i ∧ i ≤ a1) (new : b0 ≤ j ∧ j ≤ b1)
include region old new

omit new in
theorem Region.old_disjoint : (x.oldLines a0 i).Disjoint (x.oldLines i a1) := by
  have nodup := region.old_nodup
  rw [x.oldLines_append old.1 old.2] at nodup
  exact disjoint_of_nodup_append nodup

omit old in
theorem Region.new_disjoint : (x.newLines b0 j).Disjoint (x.newLines j b1) := by
  have nodup := region.new_nodup
  rw [x.newLines_append new.1 new.2] at nodup
  exact disjoint_of_nodup_append nodup

theorem Settles.join {middle : Marks} (first : Settles x a0 i b0 j before middle)
    (second : Settles x i a1 j b1 middle after) : Settles x a0 a1 b0 b1 before after := by
  unfold Settles
  rw [x.oldLines_append old.1 old.2, x.newLines_append new.1 new.2]
  exact Marks.Settled.append first second (region.old_disjoint old) (region.new_disjoint new)

theorem Unmarked.rest (unmarked : Unmarked x a0 a1 b0 b1 before) (first : Settles x a0 i b0 j before after) :
    Unmarked x i a1 j b1 after :=
  have fresh := unmarked.sub ⟨old.1, old.2, le_rfl⟩ ⟨new.1, new.2, le_rfl⟩
  ⟨fun i member => by rw [first.old i fun other => region.old_disjoint old other member, fresh.old i member],
    fun j member => by rw [first.new j fun other => region.new_disjoint new other member, fresh.new j member]⟩

end Join

theorem Settles.of_run {len : Nat} (unmarked : Unmarked x a0 (a0 + len) b0 (b0 + len) marks)
    (same : ∀ k < len, x.eq (a0 + k) (b0 + k) = true) : Settles x a0 (a0 + len) b0 (b0 + len) marks marks := by
  apply Marks.Settled.of_same unmarked
  simp only [Xd.oldLines, Xd.newLines, upTo, Nat.add_sub_cancel_left, map_map]
  rw [range'_eq_map_range, range'_eq_map_range, map_map, map_map]
  apply map_congr_left
  intro k member
  exact lineSame_iff.1 (same k (mem_range.1 member))

theorem Settles.around (head tail : Nat) (region : Region x a0 a1 b0 b1) (unmarked : Unmarked x a0 a1 b0 b1 before)
    (short : head + tail ≤ a1 - a0 ∧ head + tail ≤ b1 - b0) (front : ∀ k < head, x.eq (a0 + k) (b0 + k) = true)
    (back : ∀ k < tail, x.eq (a1 - 1 - k) (b1 - 1 - k) = true)
    (middle : Settles x (a0 + head) (a1 - tail) (b0 + head) (b1 - tail) before after) :
    Settles x a0 a1 b0 b1 before after := by
  have old_le := region.old_le
  have new_le := region.new_le
  have first : Settles x a0 (a0 + head) b0 (b0 + head) before before :=
    Settles.of_run (unmarked.sub (by omega) (by omega)) front
  have inner : Region x a0 (a1 - tail) b0 (b1 - tail) := region.sub (by omega) (by omega)
  have most : Settles x a0 (a1 - tail) b0 (b1 - tail) before after :=
    Settles.join inner (by omega) (by omega) first middle
  have left := Unmarked.rest region (by omega) (by omega) unmarked most
  have last : Settles x (a1 - tail) (a1 - tail + tail) (b1 - tail) (b1 - tail + tail) after after := by
    apply Settles.of_run
    · rwa [Nat.sub_add_cancel (by omega), Nat.sub_add_cancel (by omega)]
    · intro k below
      have same := back (tail - 1 - k) (by omega)
      rwa [show a1 - 1 - (tail - 1 - k) = a1 - tail + k by omega,
        show b1 - 1 - (tail - 1 - k) = b1 - tail + k by omega] at same
  rw [Nat.sub_add_cancel (by omega), Nat.sub_add_cancel (by omega)] at last
  exact Settles.join region (by omega) (by omega) most last

theorem Settles.of_no_old (marks : Marks) : Settles x a0 a0 b0 b1 marks (marks.markNew (x.newLines b0 b1)) := by
  have none : x.oldLines a0 a0 = [] := by simp [Xd.oldLines]
  unfold Settles
  rw [none]
  refine ⟨fun _ _ => rfl, fun j other => by simp [Marks.markNew, other], ?_⟩
  rw [kept_nil, kept_marked]
  exact fun j member => by simp [Marks.markNew, member]

theorem Settles.of_no_new (marks : Marks) : Settles x a0 a1 b0 b0 marks (marks.markOld (x.oldLines a0 a1)) := by
  have none : x.newLines b0 b0 = [] := by simp [Xd.newLines]
  unfold Settles
  rw [none]
  refine ⟨fun i other => by simp [Marks.markOld, other], fun _ _ => rfl, ?_⟩
  rw [kept_nil, kept_marked]
  exact fun i member => by simp [Marks.markOld, member]

/-! ## Each algorithm -/

def Xd.cost (x : Xd) (a0 a1 b0 b1 : Nat) : Nat :=
  2 * ((a1 - a0) + (b1 - b0)) + if x.algorithm.patience || x.algorithm.histogram then 1 else 0

def Below (compare : Search) (cost : Nat) : Prop :=
  ∀ (x : Xd) (a0 a1 b0 b1 : Nat), Region x a0 a1 b0 b1 → x.cost a0 a1 b0 b1 < cost → Solves compare x a0 a1 b0 b1

theorem Xd.headRun_spec (x : Xd) (a0 a1 b0 b1 : Nat) : x.headRun a0 a1 b0 b1 ≤ min (a1 - a0) (b1 - b0) ∧
    (∀ k < x.headRun a0 a1 b0 b1, x.eq (a0 + k) (b0 + k) = true) ∧
    (x.headRun a0 a1 b0 b1 < min (a1 - a0) (b1 - b0) →
      x.eq (a0 + x.headRun a0 a1 b0 b1) (b0 + x.headRun a0 a1 b0 b1) = false) := by
  refine ⟨scan_le, fun k below => ?_, fun less => ?_⟩
  · have same := scan_holds below
    exact same
  · have differ := scan_stops less
    exact differ

theorem Xd.tailRun_spec (x : Xd) (a0 a1 b0 b1 : Nat) : x.tailRun a0 a1 b0 b1 ≤ min (a1 - a0) (b1 - b0) ∧
    (∀ k < x.tailRun a0 a1 b0 b1, x.eq (a1 - 1 - k) (b1 - 1 - k) = true) ∧
    (x.tailRun a0 a1 b0 b1 < min (a1 - a0) (b1 - b0) →
      x.eq (a1 - 1 - x.tailRun a0 a1 b0 b1) (b1 - 1 - x.tailRun a0 a1 b0 b1) = false) := by
  refine ⟨scan_le, fun k below => ?_, fun less => ?_⟩
  · have same := scan_holds below
    exact same
  · have differ := scan_stops less
    exact differ

variable {compare : Search}

section
variable (region : Region x a0 a1 b0 b1) (below : Below compare (x.cost a0 a1 b0 b1))
include region below

theorem myersBox_solves (first : a0 < a1 → b0 < b1 → x.eq a0 b0 = false)
    (last : a0 < a1 → b0 < b1 → x.eq (a1 - 1) (b1 - 1) = false) :
    Solves (myersBox compare) x a0 a1 b0 b1 := by
  have old_le := region.old_le
  have new_le := region.new_le
  have fits := region.fits
  intro needMin marks unmarked
  unfold myersBox
  split
  next same =>
    subst same
    exact ⟨_, rfl, Settles.of_no_old marks⟩
  split
  next same =>
    subst same
    exact ⟨_, rfl, Settles.of_no_new marks⟩
  have box : Box (x.grid a0 a1 b0 b1) := by
    refine ⟨?_, ?_, fits, first (by omega) (by omega), ?_⟩
    · simp only [Xd.grid]
      omega
    · simp only [Xd.grid]
      omega
    · simp only [Xd.grid]
      rw [show ((a1 : Int) - 1).toNat = a1 - 1 by omega, show ((b1 : Int) - 1).toNat = b1 - 1 by omega]
      exact last (by omega) (by omega)
  obtain ⟨spl, found, parts⟩ := findSplit_spec box x.mxcost needMin
  rw [found]
  simp only [Parts, Inside, Xd.grid] at parts
  dsimp only [bind, Option.bind]
  generalize place : spl.i1.toNat = i1
  generalize place' : spl.i2.toNat = i2
  split
  · exact ⟨_, rfl, Marks.Settled.of_all marks⟩
  have old : a0 ≤ i1 ∧ i1 ≤ a1 := by omega
  have new : b0 ≤ i2 ∧ i2 ≤ b1 := by omega
  obtain ⟨middle, ran, half⟩ := below x a0 i1 b0 i2 (region.sub (by omega) (by omega))
    (by unfold Xd.cost; omega) spl.minLo marks (unmarked.sub (by omega) (by omega))
  have left := Unmarked.rest region old new unmarked half
  obtain ⟨after, ran', rest⟩ := below x i1 a1 i2 b1 (region.sub (by omega) (by omega))
    (by unfold Xd.cost; omega) spl.minHi middle left
  rw [ran]
  exact ⟨after, ran', Settles.join region old new half rest⟩

theorem myers_solves : Solves (myers compare) x a0 a1 b0 b1 := by
  intro needMin marks unmarked
  have old_le := region.old_le
  have new_le := region.new_le
  obtain ⟨short, front, differ⟩ := x.headRun_spec a0 a1 b0 b1
  obtain ⟨short', back, differ'⟩ := x.tailRun_spec (a0 + x.headRun a0 a1 b0 b1) a1 (b0 + x.headRun a0 a1 b0 b1) b1
  unfold myers
  dsimp only
  generalize x.headRun a0 a1 b0 b1 = head at short front differ short' back differ' ⊢
  generalize x.tailRun (a0 + head) a1 (b0 + head) b1 = tail at short' back differ' ⊢
  have inner : Region x (a0 + head) (a1 - tail) (b0 + head) (b1 - tail) := region.sub (by omega) (by omega)
  have less : x.cost (a0 + head) (a1 - tail) (b0 + head) (b1 - tail) ≤ x.cost a0 a1 b0 b1 := by
    unfold Xd.cost
    omega
  have solved : Solves (myersBox compare) x (a0 + head) (a1 - tail) (b0 + head) (b1 - tail) := by
    refine myersBox_solves inner (fun x c0 c1 d0 d1 region small => below x c0 c1 d0 d1 region (by omega)) ?_ ?_
    · intro wide wide'
      exact differ (by omega)
    · intro wide wide'
      have apart := differ' (by omega)
      rwa [Nat.sub_right_comm, Nat.sub_right_comm b1] at apart
  obtain ⟨after, ran, middle⟩ := solved needMin marks (unmarked.sub (by omega) (by omega))
  exact ⟨after, ran, Settles.around _ _ region unmarked (by omega) front back middle⟩

/-! ### The fallback -/

end

theorem map_getD_upTo (list : List Nat) (none : Nat) : (upTo 0 list.length).map (list.getD · none) = list := by
  rw [← range_eq_upTo]
  apply ext_getElem
  · simp
  · intro i below inside
    simp [getElem?_eq_getElem inside]

theorem map_range_shift (first last : Nat) (place : Nat → Nat) :
    (List.range (last - first)).map (fun i => place (first + i)) = (upTo first last).map place := by
  unfold upTo
  rw [range'_eq_map_range, map_map]
  rfl

theorem searchLines_solves (a b : XdiffFile) (algorithm : Algorithm) {ia ib : List Nat} (nodup : ia.Nodup)
    (nodup' : ib.Nodup) (fits : (ia.length + ib.length : Int) < longMax) {cost : Nat} (below : Below compare cost)
    (less : 2 * (ia.length + ib.length) + (if algorithm.patience || algorithm.histogram then 1 else 0) < cost)
    (needMin : Bool) (fresh : marks.Fresh ia ib) :
    ∃ after, searchLines compare a b algorithm ia ib needMin marks = some after ∧
      Marks.Settled a.line b.line ia ib marks after := by
  have old : (Xd.ofLines a b algorithm ia ib).oldLines 0 ia.length = ia := map_getD_upTo ia 0
  have new : (Xd.ofLines a b algorithm ia ib).newLines 0 ib.length = ib := map_getD_upTo ib 0
  have region : Region (Xd.ofLines a b algorithm ia ib) 0 ia.length 0 ib.length := by
    refine ⟨Nat.zero_le _, Nat.zero_le _, ?_, ?_, fits⟩
    · rwa [old]
    · rwa [new]
  obtain ⟨after, ran, settled⟩ := below _ _ _ _ _ region less needMin marks (by unfold Unmarked; rwa [old, new])
  unfold Settles at settled
  rw [old, new] at settled
  exact ⟨after, ran, settled⟩

theorem myersFallback_solves (region : Region x a0 a1 b0 b1)
    (other : (x.algorithm.patience || x.algorithm.histogram) = true)
    (below : Below compare (x.cost a0 a1 b0 b1)) : Solves (myersFallback compare) x a0 a1 b0 b1 := by
  intro needMin marks unmarked
  have fits := region.fits
  have nodup := region.old_nodup
  have nodup' := region.new_nodup
  unfold Unmarked at unmarked
  unfold myersFallback Settles
  dsimp only
  generalize worthSearching (fun i => x.newCount b0 b1 (x.a.line (x.ia (a0 + i)))) (eqLimit (a1 - a0)) 0
    (a1 - a0 - 1) = worthA
  generalize worthSearching (fun j => x.oldCount a0 a1 (x.b.line (x.ib (b0 + j)))) (eqLimit (b1 - b0)) 0
    (b1 - b0 - 1) = worthB
  have old : x.oldLines a0 a1 = (range (a1 - a0)).map fun i => x.ia (a0 + i) := (map_range_shift a0 a1 x.ia).symm
  have new : x.newLines b0 b1 = (range (b1 - b0)).map fun j => x.ib (b0 + j) := (map_range_shift b0 b1 x.ib).symm
  rw [old] at nodup unmarked ⊢
  rw [new] at nodup' unmarked ⊢
  have fewer (worth : Nat → Bool) (count : Nat) : ((range count).filter worth).length ≤ count := by
    have few := length_filter_le worth (range count)
    rwa [length_range] at few
  have fewA := fewer worthA (a1 - a0)
  have fewB := fewer worthB (b1 - b0)
  have sub (worth : Nat → Bool) (count : Nat) (place : Nat → Nat) :
      (((range count).filter worth).map place).Sublist ((range count).map place) := filter_sublist.map place
  have cheap : 2 * (((range (a1 - a0)).filter worthA).length + ((range (b1 - b0)).filter worthB).length) + 0 <
      x.cost a0 a1 b0 b1 := by
    rw [Xd.cost, if_pos other]
    omega
  obtain ⟨after, ran, settled⟩ := searchLines_solves x.a x.b ⟨false, false, false⟩
    (nodup.sublist (sub worthA _ _)) (nodup'.sublist (sub worthB _ _))
    (by simp; omega) below (by rw [length_map, length_map]; exact cheap) needMin
    (Marks.Fresh.of_filter worthA worthB nodup nodup' unmarked)
  exact ⟨after, ran, Marks.Settled.of_filter worthA worthB nodup nodup' settled⟩

/-! ### Patience -/

def Anchor.Before (first second : Anchor) : Prop := first.a < second.a ∧ first.b < second.b

theorem mem_anchors (member : anchor ∈ anchors x a0 a1 b0 b1) :
    (a0 ≤ anchor.a ∧ anchor.a < a1) ∧ (b0 ≤ anchor.b ∧ anchor.b < b1) ∧ x.eq anchor.a anchor.b = true := by
  obtain ⟨i, inside, made⟩ := mem_filterMap.1 member
  split at made
  · obtain ⟨j, found, rfl⟩ := Option.map_eq_some_iff.1 made
    exact ⟨mem_upTo.1 inside, mem_upTo.1 (mem_of_find?_eq_some found), find?_some found⟩
  · cases made

theorem anchors_sorted (x : Xd) (a0 a1 b0 b1 : Nat) :
    (anchors x a0 a1 b0 b1).Pairwise fun first second => first.a < second.a := by
  refine List.Pairwise.filterMap _ (fun i j less first made second made' => ?_) pairwise_lt_range'
  have own {i : Nat} {anchor : Anchor} (made : (if x.oldCount a0 a1 (x.a.line (x.ia i)) = 1 ∧
      x.newCount b0 b1 (x.a.line (x.ia i)) = 1 then ((upTo b0 b1).find? (x.eq i)).map (⟨i, ·⟩) else none) =
        some anchor) :
      anchor.a = i := by
    split at made
    · obtain ⟨j, -, rfl⟩ := Option.map_eq_some_iff.1 made
      rfl
    · cases made
  rwa [own made, own made']

theorem tailSearch_spec (tails : List (List Anchor)) (b turns : Nat) {lo hi : Nat} (range : lo ≤ hi) :
    tailSearch tails b turns lo hi ≤ hi ∧ (tailSearch tails b turns lo hi = lo ∨
      0 < tailSearch tails b turns lo hi ∧ chainEnd (tails.getD (tailSearch tails b turns lo hi - 1) []) < b) := by
  induction turns generalizing lo hi with
  | zero => exact ⟨range, .inl rfl⟩
  | succ turns ih =>
    rw [tailSearch]
    split
    next less =>
      dsimp only
      split
      next before =>
        obtain ⟨within, same | later⟩ := @ih (lo + (hi - lo) / 2 + 1) hi (by omega)
        · rw [same]
          exact ⟨by omega, .inr ⟨by omega, before⟩⟩
        · exact ⟨within, .inr later⟩
      · obtain ⟨within, found⟩ := @ih lo (lo + (hi - lo) / 2) (by omega)
        exact ⟨by omega, found⟩
    · exact ⟨range, .inl rfl⟩

structure Chained (found chain : List Anchor) : Prop where
  some : chain ≠ []
  sub : chain ⊆ found
  sorted : chain.Pairwise fun later earlier => earlier.Before later

theorem Chained.end_ge {found chain : List Anchor} (chained : Chained found chain) (member : anchor ∈ chain) :
    anchor.b ≤ chainEnd chain := by
  cases chain with
  | nil => cases member
  | cons last rest =>
    obtain rfl | earlier := mem_cons.1 member
    · exact le_rfl
    · exact le_of_lt (rel_of_pairwise_cons chained.sorted earlier).2

theorem extendTails_chained {done : List Anchor} {tails : List (List Anchor)}
    (chained : ∀ chain ∈ tails, Chained done chain) (last : ∀ other ∈ done, other.a < anchor.a) :
    extendTails tails anchor ≠ [] ∧ ∀ chain ∈ extendTails tails anchor, Chained (done ++ [anchor]) chain := by
  obtain ⟨within, found⟩ := tailSearch_spec tails anchor.b tails.length (Nat.zero_le tails.length)
  unfold extendTails
  dsimp only
  generalize tailSearch tails anchor.b tails.length 0 tails.length = lo at within found ⊢
  have longer {chain : List Anchor} (member : chain ∈ tails) : Chained (done ++ [anchor]) chain :=
    ⟨(chained chain member).some, subset_append_of_subset_left _ (chained chain member).sub,
      (chained chain member).sorted⟩
  have new : Chained (done ++ [anchor]) (anchor :: if lo = 0 then [] else tails.getD (lo - 1) []) := by
    split
    · exact ⟨cons_ne_nil _ _, by simp, pairwise_singleton _ _⟩
    rename_i positive
    have before := (found.resolve_left positive).2
    have member : tails.getD (lo - 1) [] ∈ tails := by
      rw [getD_eq_getElem?_getD, getElem?_eq_getElem (by omega)]
      exact getElem_mem _
    generalize tails.getD (lo - 1) [] = chain at before member
    have old := chained chain member
    refine ⟨cons_ne_nil _ _, ?_, pairwise_cons.2 ⟨fun other inside => ?_, old.sorted⟩⟩
    · intro other inside
      obtain rfl | inside := mem_cons.1 inside
      · simp
      · exact mem_append_left _ (old.sub inside)
    · exact ⟨last other (old.sub inside), lt_of_le_of_lt (old.end_ge inside) before⟩
  split
  · refine ⟨by simp, fun chain member => ?_⟩
    obtain member | member := mem_append.1 member
    · exact longer member
    · rwa [mem_singleton.1 member]
  · refine ⟨?_, fun chain member => ?_⟩
    · intro empty
      have length := congrArg length empty
      rw [length_set, length_nil] at length
      omega
    · obtain member | rfl := mem_or_eq_of_mem_set member
      · exact longer member
      · exact new

theorem longestChain_spec {found : List Anchor} (some : found ≠ [])
    (sorted : found.Pairwise fun first second => first.a < second.a) :
    longestChain found ≠ [] ∧ longestChain found ⊆ found ∧ (longestChain found).Pairwise Anchor.Before := by
  have run : (found ≠ [] → found.foldl extendTails [] ≠ []) ∧
      ∀ chain ∈ found.foldl extendTails [], Chained found chain := by
    refine foldl_invariant (fun done tails => (done ≠ [] → tails ≠ []) ∧ ∀ chain ∈ tails, Chained done chain)
      ⟨fun none => absurd rfl none, nofun⟩ ?_
    intro done anchor rest tails whole held
    subst whole
    have last : ∀ other ∈ done, other.a < anchor.a := fun other member =>
      (pairwise_append.1 sorted).2.2 other member anchor (.head _)
    obtain ⟨some, chained⟩ := extendTails_chained held.2 last
    exact ⟨fun _ => some, chained⟩
  obtain ⟨many, chained⟩ := run
  have member : (found.foldl extendTails []).getLastD [] ∈ found.foldl extendTails [] := by
    rw [getLastD_eq_getLast?, getLast?_eq_some_getLast (many some)]
    exact getLast_mem _
  have longest := chained _ member
  unfold longestChain
  refine ⟨?_, ?_, ?_⟩
  · simpa using longest.some
  · intro anchor inside
    exact longest.sub (mem_reverse.1 inside)
  · exact pairwise_reverse.2 longest.sorted

theorem searchGaps_spec {cost : Nat} (below : Below compare cost) {sequence : List Anchor} {oldAt newAt : Nat}
    (region : Region x oldAt a1 newAt b1)
    (inside : ∀ anchor ∈ sequence, (oldAt ≤ anchor.a ∧ anchor.a < a1) ∧ (newAt ≤ anchor.b ∧ anchor.b < b1) ∧ x.eq
      anchor.a anchor.b = true) (sorted : sequence.Pairwise Anchor.Before)
    (unmarked : Unmarked x oldAt a1 newAt b1 marks) (less : x.cost oldAt a1 newAt b1 ≤ cost)
    (smaller : sequence = [] → x.cost oldAt a1 newAt b1 < cost) :
    ∃ after, searchGaps compare x a1 b1 sequence oldAt newAt marks = some after ∧
      Settles x oldAt a1 newAt b1 marks after := by
  induction sequence generalizing oldAt newAt marks with
  | nil =>
    have old_le := region.old_le
    have new_le := region.new_le
    have small := smaller rfl
    obtain ⟨short, front, -⟩ := x.headRun_spec oldAt a1 newAt b1
    rw [searchGaps]
    generalize x.headRun oldAt a1 newAt b1 = head at short front ⊢
    obtain ⟨after, ran, middle⟩ := below x (oldAt + head) a1 (newAt + head) b1 (region.sub (by omega) (by omega))
      (by unfold Xd.cost at small ⊢; omega) false marks (unmarked.sub (by omega) (by omega))
    exact ⟨after, ran, Settles.around _ _ region unmarked (by omega) front
      (fun _ none => absurd none (Nat.not_lt_zero _)) middle⟩
  | cons anchor rest ih =>
    obtain ⟨old, new, same⟩ := inside anchor (.head _)
    obtain ⟨short, back, -⟩ := x.tailRun_spec oldAt anchor.a newAt anchor.b
    rw [searchGaps]
    generalize x.tailRun oldAt anchor.a newAt anchor.b = tail at short back ⊢
    obtain ⟨short', front, -⟩ := x.headRun_spec oldAt (anchor.a - tail) newAt (anchor.b - tail)
    generalize x.headRun oldAt (anchor.a - tail) newAt (anchor.b - tail) = head at short' front ⊢
    have gap : Region x oldAt anchor.a newAt anchor.b := region.sub (by omega) (by omega)
    have fresh : Unmarked x oldAt anchor.a newAt anchor.b marks := unmarked.sub (by omega) (by omega)
    obtain ⟨middle, ran, inner⟩ := below x (oldAt + head) (anchor.a - tail) (newAt + head) (anchor.b - tail)
      (gap.sub (by omega) (by omega)) (by unfold Xd.cost at less ⊢; omega) false marks (fresh.sub (by omega) (by omega))
    have first := Settles.around _ _ gap fresh (by omega) front back inner
    -- the anchor itself, and what follows it
    have left := Unmarked.rest region (by omega) (by omega) unmarked first
    have own : Settles x anchor.a (anchor.a + 1) anchor.b (anchor.b + 1) middle middle := by
      refine Settles.of_run (left.sub (by omega) (by omega)) fun k only => ?_
      rwa [Nat.lt_one_iff.1 only]
    have half := Settles.join (region.sub (by omega) (by omega)) (by omega) (by omega) first own
    have later : ∀ other ∈ rest, (anchor.a + 1 ≤ other.a ∧ other.a < a1) ∧ (anchor.b + 1 ≤ other.b ∧ other.b < b1) ∧
        x.eq other.a other.b = true := by
      intro other member
      obtain ⟨old', new', same'⟩ := inside other (.tail _ member)
      have before : anchor.Before other := (pairwise_cons.1 sorted).1 other member
      exact ⟨⟨before.1, old'.2⟩, ⟨before.2, new'.2⟩, same'⟩
    obtain ⟨after, ran', second⟩ := ih (region.sub (by omega) (by omega)) later (pairwise_cons.1 sorted).2
      (Unmarked.rest region (by omega) (by omega) unmarked half) (by unfold Xd.cost at less ⊢; omega) fun _ => by
        unfold Xd.cost at less ⊢
        omega
    rw [ran]
    exact ⟨after, ran', Settles.join region (by omega) (by omega) half second⟩

theorem patience_solves (region : Region x a0 a1 b0 b1) (other : (x.algorithm.patience || x.algorithm.histogram) = true)
    (below : Below compare (x.cost a0 a1 b0 b1)) : Solves (patience compare) x a0 a1 b0 b1 := by
  intro needMin marks unmarked
  unfold patience
  split
  · exact myersFallback_solves region other below needMin marks unmarked
  rename_i found some
  obtain ⟨many, sub, sorted⟩ := longestChain_spec some (anchors_sorted x a0 a1 b0 b1)
  exact searchGaps_spec below region (fun anchor member => mem_anchors (sub member)) sorted unmarked le_rfl
    fun none => absurd none many

/-! ### Histogram -/

def CommonRun (x : Xd) (a0 a1 b0 b1 : Nat) (best : Best) : Prop :=
  ∀ a b, best.run = some (a, b) → (a0 ≤ a ∧ a + best.len ≤ a1) ∧ (b0 ≤ b ∧ b + best.len ≤ b1) ∧ 0 < best.len ∧
    ∀ k < best.len, x.eq (a + k) (b + k) = true

theorem tryRun_spec {bPtr a : Nat} (acount : Nat) {runs : Runs} (old : a0 ≤ a ∧ a < a1) (new : b0 ≤ bPtr ∧ bPtr < b1)
    (here : x.eq a bPtr = true) (common : CommonRun x a0 a1 b0 b1 runs.best) :
    CommonRun x a0 a1 b0 b1 (tryRun x a0 a1 b0 b1 bPtr acount runs a).best ∧
      runs.bNext ≤ (tryRun x a0 a1 b0 b1 bPtr acount runs a).bNext := by
  unfold tryRun
  split
  · exact ⟨common, le_rfl⟩
  dsimp only
  refine ⟨?_, le_max_left _ _⟩
  split
  · intro p q found
    cases found
    dsimp only
    have short : scan (fun k => x.eq (a - k - 1) (bPtr - k - 1)) (min (a - a0) (bPtr - b0)) ≤ _ := scan_le
    have short' : scan (fun k => x.eq (a + (k + 1)) (bPtr + (k + 1))) (min (a1 - (a + 1)) (b1 - (bPtr + 1))) ≤
      _ := scan_le
    have leftward : ∀ k < scan (fun k => x.eq (a - k - 1) (bPtr - k - 1)) (min (a - a0) (bPtr - b0)),
        x.eq (a - k - 1) (bPtr - k - 1) = true := by
      intro k below
      have same := scan_holds below
      exact same
    have rightward : ∀ k < scan (fun k => x.eq (a + (k + 1)) (bPtr + (k + 1))) (min (a1 - (a + 1)) (b1 - (bPtr + 1))),
        x.eq (a + (k + 1)) (bPtr + (k + 1)) = true := by
      intro k below
      have same := scan_holds below
      exact same
    generalize scan (fun k => x.eq (a - k - 1) (bPtr - k - 1)) (min (a - a0) (bPtr - b0)) = left at short leftward ⊢
    refine ⟨by omega, by omega, by omega, fun k inside => ?_⟩
    obtain before | rfl | behind := Nat.lt_trichotomy k left
    · have same := leftward (left - 1 - k) (by omega)
      rwa [show a - (left - 1 - k) - 1 = a - left + k by omega,
        show bPtr - (left - 1 - k) - 1 = bPtr - left + k by omega] at same
    · rwa [Nat.sub_add_cancel (by omega), Nat.sub_add_cancel (by omega)]
    · have same := rightward (k - left - 1) (by omega)
      rwa [show a + (k - left - 1 + 1) = a - left + k by omega,
        show bPtr + (k - left - 1 + 1) = bPtr - left + k by omega] at same
  · exact common

theorem tryLine_spec {bPtr : Nat} {best : Best} (new : b0 ≤ bPtr ∧ bPtr < b1) (common : CommonRun x a0 a1 b0 b1 best) :
    CommonRun x a0 a1 b0 b1 (tryLine x a0 a1 b0 b1 bPtr best).2 ∧ bPtr < (tryLine x a0 a1 b0 b1 bPtr best).1 := by
  unfold tryLine
  dsimp only
  split
  · split
    · generalize acount : ((upTo a0 a1).filter fun a => x.eq a bPtr).length = count
      refine foldl_invariant (fun _ (runs : Runs) => CommonRun x a0 a1 b0 b1 runs.best ∧ bPtr < runs.bNext)
        ⟨common, Nat.lt_succ_self _⟩ ?_
      intro done a rest runs whole held
      have member : a ∈ (upTo a0 a1).filter fun a => x.eq a bPtr := by
        rw [whole]
        exact mem_append_right _ (.head _)
      obtain ⟨inside, here⟩ := mem_filter.1 member
      obtain ⟨common, further⟩ := tryRun_spec count (mem_upTo.1 inside) new here held.1
      exact ⟨common, lt_of_lt_of_le held.2 further⟩
    · exact ⟨common, Nat.lt_succ_self _⟩
  · exact ⟨common, Nat.lt_succ_self _⟩

theorem bestRun_spec (x : Xd) (a0 a1 b0 b1 : Nat) :
    ∃ best, bestRun x a0 a1 b0 b1 = some best ∧ CommonRun x a0 a1 b0 b1 best := by
  unfold bestRun
  suffices run : ∃ final : Nat × Best, repeatUntil _ _ _ = some final ∧ CommonRun x a0 a1 b0 b1 final.2 by
    obtain ⟨final, ran, common⟩ := run
    exact ⟨final.2, by rw [ran]; rfl, common⟩
  refine repeatUntil_spec (fun state => b0 ≤ state.1 ∧ CommonRun x a0 a1 b0 b1 state.2) _ (fun state => b1 - state.1) ?_
    ⟨le_rfl, nofun⟩ (Nat.lt_succ_self _)
  intro state held
  refine ⟨_, rfl, ?_⟩
  split
  next inside =>
    obtain ⟨common, further⟩ := tryLine_spec ⟨held.1, inside⟩ held.2
    refine ⟨⟨?_, common⟩, ?_⟩
    · exact le_of_lt (lt_of_le_of_lt held.1 further)
    · exact Nat.sub_lt_sub_left inside further
  · exact held.2

theorem histogram_solves (region : Region x a0 a1 b0 b1)
    (other : (x.algorithm.patience || x.algorithm.histogram) = true)
    (below : Below compare (x.cost a0 a1 b0 b1)) : Solves (histogram compare) x a0 a1 b0 b1 := by
  intro needMin marks unmarked
  obtain ⟨best, found, common⟩ := bestRun_spec x a0 a1 b0 b1
  unfold histogram
  rw [found]
  dsimp only [bind, Option.bind]
  split
  · split
    · exact myersFallback_solves region other below needMin marks unmarked
    · exact ⟨_, rfl, Marks.Settled.of_all marks⟩
  rename_i a b chosen
  obtain ⟨old, new, some, same⟩ := common a b chosen
  obtain ⟨middle, ran, first⟩ := below x a0 a b0 b (region.sub (by omega) (by omega)) (by unfold Xd.cost; omega)
    needMin marks (unmarked.sub (by omega) (by omega))
  have left := Unmarked.rest region (by omega) (by omega) unmarked first
  have run : Settles x a (a + best.len) b (b + best.len) middle middle :=
    Settles.of_run (left.sub (by omega) (by omega)) same
  have half := Settles.join (region.sub (by omega) (by omega)) (by omega) (by omega) first run
  obtain ⟨after, ran', second⟩ := below x (a + best.len) a1 (b + best.len) b1 (region.sub (by omega) (by omega))
    (by unfold Xd.cost; omega) needMin middle (Unmarked.rest region (by omega) (by omega) unmarked half)
  rw [ran]
  exact ⟨after, ran', Settles.join region (by omega) (by omega) half second⟩

/-! ### All of them -/

theorem compareBox_solves (region : Region x a0 a1 b0 b1) (below : Below compare (x.cost a0 a1 b0 b1)) :
    Solves (compareBox compare) x a0 a1 b0 b1 := by
  intro needMin marks unmarked
  unfold compareBox
  split
  next same =>
    subst same
    exact ⟨_, rfl, Settles.of_no_old marks⟩
  split
  next same =>
    subst same
    exact ⟨_, rfl, Settles.of_no_new marks⟩
  split
  next chosen => exact patience_solves region (by rw [chosen]; rfl) below needMin marks unmarked
  split
  next chosen => exact histogram_solves region (by rw [chosen]; rfl) below needMin marks unmarked
  · exact myers_solves region below needMin marks unmarked

theorem compareWithin_below (depth : Nat) : Below (compareWithin depth) depth := by
  induction depth with
  | zero => exact fun _ _ _ _ _ _ less => absurd less (Nat.not_lt_zero _)
  | succ depth ih =>
    intro x a0 a1 b0 b1 region less
    exact compareBox_solves region fun y c0 c1 d0 d1 inner small => ih y c0 c1 d0 d1 inner (by omega)

theorem compareAll_below (cost : Nat) : Below compareAll cost := by
  intro x a0 a1 b0 b1 region _ needMin marks
  refine compareWithin_below _ x a0 a1 b0 b1 region ?_ needMin marks
  unfold Xd.cost
  split <;> omega

end

/-! ## The split search gets on

It ends with a split that leaves two smaller boxes, and on the way it stays inside the arrays of the furthest points. -/

section
variable (grid : Grid)

/-- The bands after so many turns of the loop. -/
inductive Rounds (mxcost : Int) (needMin : Bool) : Nat → Bands → Prop where
  | start : Rounds mxcost needMin 0 (startBands grid)
  | next {ec : Nat} {bands after : Bands} : Rounds mxcost needMin ec bands →
      searchRound grid mxcost needMin (ec + 1) bands = .ok after → Rounds mxcost needMin (ec + 1) after

/-- Where a pass over the diagonals from `lo` to `hi` looks: at each and at its neighbours, and the widening writes
just outside. -/
def passIndices (lo hi : Int) : List Int := [lo - 1, hi + 1] ++ (diagonals lo hi).flatMap fun d => [d - 1, d, d + 1]

/-- The places of `vf` and `vb` that a turn reads or writes. -/
def turnIndices (bands : Bands) : List Int :=
  passIndices (widenForward grid bands).fmin (widenForward grid bands).fmax ++
    passIndices (widenBackward grid bands).bmin (widenBackward grid bands).bmax

end

variable {grid : Grid} {mxcost : Int} {needMin : Bool} {ec : Nat} {bands : Bands}

theorem Rounds.searching (box : Box grid) (turns : Rounds grid mxcost needMin ec bands) : Searching grid ec bands := by
  induction turns with
  | start => exact Searching.start box
  | next _ went ih =>
    obtain ⟨split, ended, -⟩ | ⟨after, went', searching⟩ := searchRound_spec box ih mxcost needMin _
    · cases ended.symm.trans went
    · cases went'.symm.trans went
      exact searching

theorem mem_passIndices {lo hi index : Int} (member : index ∈ passIndices lo hi) (some : lo ≤ hi) :
    lo - 1 ≤ index ∧ index ≤ hi + 1 := by
  obtain edge | inner := mem_append.1 member
  · simp only [mem_cons, not_mem_nil, or_false] at edge
    omega
  · obtain ⟨d, band, near⟩ := mem_flatMap.1 inner
    have shape := mem_diagonals.1 band
    simp only [mem_cons, not_mem_nil, or_false] at near
    omega

theorem Searching.indices (box : Box grid) (searching : Searching grid ec bands) {index : Int}
    (member : index ∈ turnIndices grid bands) : grid.least - 1 ≤ index ∧ index ≤ grid.most + 1 := by
  have front := searching.next_forward box
  have back := next_backward box searching.backward
  have least := front.least
  have most := front.most
  have around := front.around
  have least' := back.least
  have most' := back.most
  have around' := back.around
  simp only [Grid.least, Grid.most, Grid.mirror] at least' most'
  unfold Grid.least Grid.most at *
  obtain member | member := mem_append.1 member
  · have := mem_passIndices member (by omega)
    omega
  · have := mem_passIndices member (by omega)
    omega

/-- Of a box with lines on both sides whose first two differ and whose last two do: the search ends with a split
that leaves two smaller boxes, no turn looks outside arrays for files of so many lines, and so the comparison ends.
-/
theorem split_progress (box : Box grid) {na nb : Int} (within : grid.lim1 ≤ na ∧ grid.lim2 ≤ nb) (mxcost : Int)
    (needMin : Bool) :
    (∃ split, findSplit grid mxcost needMin = some split ∧ Parts grid split) ∧
    (∀ ec bands, Rounds grid mxcost needMin ec bands → ∀ index ∈ turnIndices grid bands, -(nb + 1) ≤ index ∧
      index ≤ na + 1) ∧
    ∀ (x : Xd) (a0 a1 b0 b1 : Nat), Region x a0 a1 b0 b1 → ∀ minimal marks, Unmarked x a0 a1 b0 b1 marks →
      ∃ after, compareAll x a0 a1 b0 b1 minimal marks = some after := by
  refine ⟨findSplit_spec box mxcost needMin, fun ec bands turns index member => ?_,
    fun x a0 a1 b0 b1 region minimal marks unmarked => ?_⟩
  · have bounds := (turns.searching box).indices box member
    have nonneg := box.nonneg
    unfold Grid.least Grid.most at bounds
    omega
  · obtain ⟨after, ran, -⟩ := compareAll_below _ x a0 a1 b0 b1 region (Nat.lt_succ_self _) minimal marks unmarked
    exact ⟨after, ran⟩

/-- Three lines against four, of which one is common. -/
def shortGrid : Grid where
  same i j := i = 1 && j = 2
  off1 := 0
  lim1 := 3
  off2 := 0
  lim2 := 4

theorem split_progress_sample : ∃ split, findSplit shortGrid 256 false = some split ∧ Parts shortGrid split :=
  (split_progress (by constructor <;> decide) (show shortGrid.lim1 ≤ 3 ∧ shortGrid.lim2 ≤ 4 by decide) 256 false).1

end BashOs.Git.Diff

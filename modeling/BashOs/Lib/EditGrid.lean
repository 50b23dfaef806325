import Mathlib.Data.List.Basic

/-!
Edit paths through a grid of two sequences, and the search for the furthest points that a number of edits reaches on
each diagonal. A diagonal is the difference of its points' coordinates. The search may leave the grid at its far edges,
where nothing matches any more.
-/

namespace BashOs.Lib

/-! ## Paths -/

/-- A path with so many edits: a step to the right or down is one, a step along a diagonal is free and needs a match. -/
inductive EditPath (same : Int → Int → Prop) : Nat → Int → Int → Int → Int → Prop where
  | stay (x y : Int) : EditPath same 0 x y x y
  | right {edits : Nat} {x y u v : Int} : EditPath same edits x y u v → EditPath same (edits + 1) x y (u + 1) v
  | down {edits : Nat} {x y u v : Int} : EditPath same edits x y u v → EditPath same (edits + 1) x y u (v + 1)
  | free {edits : Nat} {x y u v : Int} : EditPath same edits x y u v → same u v →
      EditPath same edits x y (u + 1) (v + 1)

namespace EditPath

variable {same other : Int → Int → Prop} {edits more : Nat} {x y u v s t : Int}

section
variable (path : EditPath same edits x y u v)
include path

theorem forward : x ≤ u ∧ y ≤ v := by
  induction path with
  | stay x y => omega
  | right _ ih => omega
  | down _ ih => omega
  | free _ _ ih => omega

theorem diagonal : -edits ≤ (u - v) - (x - y) ∧ (u - v) - (x - y) ≤ edits ∧ ((u - v) - (x - y) - edits) % 2 = 0 := by
  induction path with
  | stay x y => simp
  | right _ ih =>
    omega
  | down _ ih =>
    omega
  | free _ _ ih => omega

theorem length : x + y + edits ≤ u + v := by
  induction path with
  | stay x y => simp
  | right _ ih => push_cast; omega
  | down _ ih => push_cast; omega
  | free _ _ ih => omega

end

theorem trans (first : EditPath same edits x y u v) (second : EditPath same more u v s t) :
    EditPath same (edits + more) x y s t := by
  induction second with
  | stay => exact first
  | right _ ih => exact (ih first).right
  | down _ ih => exact (ih first).down
  | free _ matched ih => exact (ih first).free matched

theorem mono (weaker : ∀ p q, same p q → other p q) (path : EditPath same edits x y u v) :
    EditPath other edits x y u v := by
  induction path with
  | stay x y => exact .stay x y
  | right _ ih => exact ih.right
  | down _ ih => exact ih.down
  | free _ matched ih => exact ih.free (weaker _ _ matched)

theorem cut (path : EditPath same edits x y u v) {first : Nat} (part : first ≤ edits) :
    ∃ s t, EditPath same first x y s t ∧ EditPath same (edits - first) s t u v := by
  induction path with
  | stay x y =>
    rw [Nat.le_zero.1 part]
    exact ⟨x, y, .stay x y, .stay x y⟩
  | @right edits x y u v path ih =>
    obtain whole | less := Nat.eq_or_lt_of_le part
    · subst whole
      exact ⟨_, _, path.right, by rw [Nat.sub_self]; exact .stay _ _⟩
    · obtain ⟨s, t, before, after⟩ := ih (Nat.lt_succ_iff.1 less)
      exact ⟨s, t, before, by rw [Nat.succ_sub (Nat.lt_succ_iff.1 less)]; exact after.right⟩
  | @down edits x y u v path ih =>
    obtain whole | less := Nat.eq_or_lt_of_le part
    · subst whole
      exact ⟨_, _, path.down, by rw [Nat.sub_self]; exact .stay _ _⟩
    · obtain ⟨s, t, before, after⟩ := ih (Nat.lt_succ_iff.1 less)
      exact ⟨s, t, before, by rw [Nat.succ_sub (Nat.lt_succ_iff.1 less)]; exact after.down⟩
  | free path matched ih =>
    obtain ⟨s, t, before, after⟩ := ih part
    exact ⟨s, t, before, after.free matched⟩

theorem mirror (path : EditPath same edits x y u v) :
    EditPath (fun p q => same (-p - 1) (-q - 1)) edits (-u) (-v) (-x) (-y) := by
  have back (k : Int) : -(k + 1) + 1 = -k := by omega
  induction path with
  | stay x y => exact .stay _ _
  | @right edits x y u v _ ih =>
    have first : EditPath (fun p q => same (-p - 1) (-q - 1)) 1 (-(u + 1)) (-v) (-(u + 1) + 1) (-v) :=
      .right (.stay _ _)
    rw [back] at first
    have whole := first.trans ih
    rwa [Nat.add_comm] at whole
  | @down edits x y u v _ ih =>
    have first : EditPath (fun p q => same (-p - 1) (-q - 1)) 1 (-u) (-(v + 1)) (-u) (-(v + 1) + 1) := .down (.stay _ _)
    rw [back] at first
    have whole := first.trans ih
    rwa [Nat.add_comm] at whole
  | @free edits x y u v _ matched ih =>
    have turned (k : Int) : -(-(k + 1)) - 1 = k := by omega
    have first : EditPath (fun p q => same (-p - 1) (-q - 1)) 0 (-(u + 1)) (-(v + 1)) (-(u + 1) + 1) (-(v + 1) + 1) :=
      .free (.stay _ _) (by rwa [turned, turned])
    rw [back, back] at first
    have whole := first.trans ih
    rwa [Nat.zero_add] at whole

theorem of_zero (path : EditPath same 0 x y u v) (apart : ¬ same x y) : u = x ∧ v = y := by
  generalize none : 0 = edits at path
  induction path with
  | stay x y => exact ⟨rfl, rfl⟩
  | right _ _ => cases none
  | down _ _ => cases none
  | free _ matched ih =>
    obtain ⟨rfl, rfl⟩ := ih apart none
    exact (apart matched).elim

theorem last_edit (path : EditPath same (edits + 1) x y u v) :
    ∃ run : Nat, (∀ i : Int, u - run ≤ i → i < u → same i (i - (u - v))) ∧
      (EditPath same edits x y (u - run - 1) (v - run) ∨ EditPath same edits x y (u - run) (v - run - 1)) := by
  generalize total : edits + 1 = count at path
  induction path with
  | stay x y => cases total
  | @right count x y u v path _ =>
    cases Nat.succ.inj total
    refine ⟨0, fun i low high => ?_, .inl ?_⟩
    · omega
    · simpa using path
  | @down count x y u v path _ =>
    cases Nat.succ.inj total
    refine ⟨0, fun i low high => ?_, .inr ?_⟩
    · omega
    · simpa using path
  | @free count x y u v _ matched ih =>
    obtain ⟨run, matching, before⟩ := ih total
    refine ⟨run + 1, fun i low high => ?_, ?_⟩
    · rw [show i - (u + 1 - (v + 1)) = i - (u - v) by omega]
      by_cases last : i = u
      · rwa [last, show u - (u - v) = v by omega]
      · exact matching i (by push_cast at low; omega) (by omega)
    · push_cast
      rwa [show u + 1 - (run + 1) = u - run by omega, show v + 1 - (run + 1) = v - run by omega]

theorem straight (x y : Int) (across along : Nat) : EditPath same (across + along) x y (x + across) (y + along) := by
  have first : EditPath same across x y (x + across) y := by
    induction across with
    | zero => simpa using stay x y
    | succ across ih =>
      push_cast
      rw [← Int.add_assoc]
      exact ih.right
  induction along with
  | zero => simpa using first
  | succ along ih =>
    push_cast
    rw [← Int.add_assoc y]
    exact ih.down

end EditPath

/-! ## Furthest points -/

structure Grid where
  same : Int → Int → Bool
  off1 : Int
  lim1 : Int
  off2 : Int
  lim2 : Int

namespace Grid

variable (grid : Grid)

def mid : Int := grid.off1 - grid.off2
def least : Int := grid.off1 - grid.lim2
def most : Int := grid.lim1 - grid.off2

def Matches (x y : Int) : Prop := x < grid.lim1 ∧ y < grid.lim2 ∧ grid.same x y = true

def follow (d : Int) : Nat → Int → Int
  | 0, i => i
  | left + 1, i => if i < grid.lim1 ∧ i - d < grid.lim2 ∧ grid.same i (i - d) then follow d left (i + 1) else i

def slide (d i : Int) : Int := grid.follow d (grid.lim1 - i).toNat i

variable {grid}

theorem follow_spec (d : Int) (left : Nat) (i : Int) (enough : grid.lim1 - i ≤ left) :
    i ≤ grid.follow d left i ∧ (∀ k, i ≤ k → k < grid.follow d left i → grid.Matches k (k - d)) ∧
      ¬ grid.Matches (grid.follow d left i) (grid.follow d left i - d) := by
  induction left generalizing i with
  | zero =>
    refine ⟨Int.le_refl i, fun k low high => ?_, fun matched => ?_⟩
    · exact absurd high (Int.not_lt.2 low)
    · have inside : i < grid.lim1 := matched.1
      omega
  | succ left ih =>
    rw [follow]
    split
    next matched =>
      obtain ⟨further, between, ends⟩ := ih (i + 1) (by push_cast at enough; omega)
      refine ⟨by omega, fun k low high => ?_, ends⟩
      by_cases first : k = i
      · exact first ▸ matched
      · exact between k (by omega) high
    next apart =>
      refine ⟨Int.le_refl i, fun k low high => ?_, apart⟩
      exact absurd high (Int.not_lt.2 low)

theorem slide_spec (d i : Int) : i ≤ grid.slide d i ∧ (∀ k, i ≤ k → k < grid.slide d i → grid.Matches k (k - d)) ∧
      ¬ grid.Matches (grid.slide d i) (grid.slide d i - d) :=
  follow_spec d _ i (Int.self_le_toNat _)

theorem le_slide {d i x : Int} (matching : ∀ k, i ≤ k → k < x → grid.Matches k (k - d)) : x ≤ grid.slide d i := by
  obtain ⟨further, -, ends⟩ := grid.slide_spec d i
  by_contra short
  exact ends (matching _ further (by omega))

theorem slide_path {d i : Int} {edits : Nat} {x y : Int} (path : EditPath grid.Matches edits x y i (i - d)) :
    EditPath grid.Matches edits x y (grid.slide d i) (grid.slide d i - d) := by
  obtain ⟨further, between, -⟩ := grid.slide_spec d i
  generalize grid.slide d i = last at further between
  obtain ⟨count, rfl⟩ : ∃ count : Nat, last = i + count := ⟨(last - i).toNat, by omega⟩
  clear further
  induction count with
  | zero => simpa using path
  | succ count ih =>
    have before := ih fun k low high => between k low (by push_cast; omega)
    have step := before.free (between (i + count) (by omega) (by push_cast; omega))
    rwa [show i + count - d + 1 = i + (count + 1) - d by omega, Int.add_assoc] at step

end Grid

/-- After so many edits, the furthest points on the diagonals from `lo` to `hi`, every second one. -/
structure Furthest (grid : Grid) (edits : Nat) (far : Int → Int) (lo hi : Int) : Prop where
  least : grid.least ≤ lo
  most : hi ≤ grid.most
  around : lo ≤ grid.mid ∧ grid.mid ≤ hi
  near : grid.mid - edits ≤ lo ∧ hi ≤ grid.mid + edits
  parity : (lo - grid.mid - edits) % 2 = 0 ∧ (hi - grid.mid - edits) % 2 = 0
  covers : ∀ d, grid.least ≤ d → d ≤ grid.most → grid.mid - edits ≤ d → d ≤ grid.mid + edits →
    (d - grid.mid - edits) % 2 = 0 → lo ≤ d ∧ d ≤ hi
  reached : ∀ d, lo ≤ d → d ≤ hi → (d - grid.mid - edits) % 2 = 0 →
    EditPath grid.Matches edits grid.off1 grid.off2 (far d) (far d - d)
  furthest : ∀ x y, x ≤ grid.lim1 → y ≤ grid.lim2 →
    EditPath (fun p q => grid.same p q = true) edits grid.off1 grid.off2 x y → x ≤ far (x - y)

namespace Furthest

variable {grid : Grid} {edits : Nat} {far : Int → Int} {lo hi : Int}

theorem start (wide : grid.off1 < grid.lim1 ∧ grid.off2 < grid.lim2) (apart : grid.same grid.off1 grid.off2 = false)
    (corner : far grid.mid = grid.off1) : Furthest grid 0 far grid.mid grid.mid where
  least := by unfold Grid.least Grid.mid; omega
  most := by unfold Grid.most Grid.mid; omega
  around := by omega
  near := by simp
  parity := by simp
  covers := by
    omega
  reached := by
    intro d low high _
    have here : d = grid.mid := by omega
    rw [here, corner, show grid.off1 - grid.mid = grid.off2 by unfold Grid.mid; omega]
    exact .stay _ _
  furthest := by
    intro x y _ _ path
    obtain ⟨rfl, rfl⟩ := path.of_zero (by simp [apart])
    exact Int.le_of_eq corner.symm

/-- One more edit. The band of diagonals grows at both ends, or shrinks where it would leave the grid; just outside it
stands a value that always loses. -/
theorem next (furthest : Furthest grid edits far lo hi) (wide : grid.off1 < grid.lim1 ∧ grid.off2 < grid.lim2)
    {lo' hi' : Int} (low : lo' = if grid.least < lo then lo - 1 else lo + 1)
    (high : hi' = if hi < grid.most then hi + 1 else hi - 1) (edged : Int → Int) {further : Int → Int}
    (kept : ∀ d, lo ≤ d → d ≤ hi → edged d = far d) (below : grid.least < lo → edged (lo - 2) < grid.off1)
    (above : hi < grid.most → edged (hi + 2) < grid.off1)
    (stepped : ∀ d, lo' ≤ d → d ≤ hi' → (d - grid.mid - (edits + 1 : Nat)) % 2 = 0 → further d =
      grid.slide d (if edged (d - 1) ≥ edged (d + 1) then edged (d - 1) + 1 else edged (d + 1))) :
    Furthest grid (edits + 1) further lo' hi' := by
  have wide1 := wide.1
  have wide2 := wide.2
  have least := furthest.least
  have most := furthest.most
  have around := furthest.around
  have near := furthest.near
  have parity := furthest.parity
  have middle : grid.least + 1 ≤ grid.mid ∧ grid.mid + 1 ≤ grid.most := by
    unfold Grid.least Grid.mid Grid.most
    omega
  have covers : ∀ d, grid.least ≤ d → d ≤ grid.most → grid.mid - (edits + 1 : Nat) ≤ d →
    d ≤ grid.mid + (edits + 1 : Nat) →
      (d - grid.mid - (edits + 1 : Nat)) % 2 = 0 → lo' ≤ d ∧ d ≤ hi' := by
    intro d first last from_mid to_mid even
    push_cast at from_mid to_mid even
    -- a diagonal of the new band has a neighbour in the old one
    have up := furthest.covers (d + 1)
    have down := furthest.covers (d - 1)
    split at low <;> split at high <;> omega
  refine ⟨?_, ?_, ?_, ?_, ?_, covers, ?_, ?_⟩
  · split at low <;> omega
  · split at high <;> omega
  · split at low <;> split at high <;> omega
  · push_cast
    split at low <;> split at high <;> omega
  · push_cast
    split at low <;> split at high <;> omega
  · intro d first last even
    rw [stepped d first last even]
    apply Grid.slide_path
    push_cast at even
    have across (inside : lo ≤ d - 1 ∧ d - 1 ≤ hi) : grid.off1 ≤ edged (d - 1) ∧
        EditPath grid.Matches (edits + 1) grid.off1 grid.off2 (edged (d - 1) + 1) (edged (d - 1) + 1 - d) := by
      have path := furthest.reached (d - 1) inside.1 inside.2 (by omega)
      rw [← kept (d - 1) inside.1 inside.2] at path
      refine ⟨path.forward.1, ?_⟩
      rw [show edged (d - 1) + 1 - d = edged (d - 1) - (d - 1) by omega]
      exact path.right
    have along (inside : lo ≤ d + 1 ∧ d + 1 ≤ hi) : grid.off1 ≤ edged (d + 1) ∧
        EditPath grid.Matches (edits + 1) grid.off1 grid.off2 (edged (d + 1)) (edged (d + 1) - d) := by
      have path := furthest.reached (d + 1) inside.1 inside.2 (by omega)
      rw [← kept (d + 1) inside.1 inside.2] at path
      refine ⟨path.forward.1, ?_⟩
      rw [show edged (d + 1) - d = edged (d + 1) - (d + 1) + 1 by omega]
      exact path.down
    -- at the ends of the band one neighbour is the value that loses
    by_cases inner : lo ≤ d - 1
    · by_cases outer : d + 1 ≤ hi
      · split
        · exact (across (by omega)).2
        · exact (along (by omega)).2
      · have edge : hi < grid.most ∧ d + 1 = hi + 2 := by split at low <;> split at high <;> omega
        have loses := above edge.1
        have holds := across (by omega)
        rw [← edge.2] at loses
        rw [if_pos (by omega)]
        exact holds.2
    · have edge : grid.least < lo ∧ d - 1 = lo - 2 := by split at low <;> split at high <;> omega
      have loses := below edge.1
      have holds := along (by omega)
      rw [← edge.2] at loses
      rw [if_neg (by omega)]
      exact holds.2
  · intro x y inside1 inside2 path
    have shape := path.diagonal
    have ahead := path.forward
    have bounds : grid.least ≤ x - y ∧ x - y ≤ grid.most := by
      unfold Grid.least Grid.most
      omega
    have middle_eq : grid.mid = grid.off1 - grid.off2 := rfl
    obtain ⟨first, last⟩ := covers (x - y) bounds.1 bounds.2 (by omega) (by omega) (by omega)
    rw [stepped (x - y) first last (by omega)]
    obtain ⟨run, matching, before⟩ := path.last_edit
    -- the search on this diagonal starts no earlier than the free steps after the last edit
    have reach : ∀ u v, u ≤ x → v ≤ y → EditPath (fun p q => grid.same p q = true) edits grid.off1 grid.off2 u v →
        u ≤ edged (u - v) := by
      intro u v left up prior
      have shape := prior.diagonal
      have ahead := prior.forward
      have inside : grid.least ≤ u - v ∧ u - v ≤ grid.most := by
        unfold Grid.least Grid.most
        omega
      obtain ⟨first, last⟩ := furthest.covers (u - v) inside.1 inside.2 (by omega) (by omega) (by omega)
      rw [kept _ first last]
      exact furthest.furthest u v (by omega) (by omega) prior
    have begins : x - run ≤ if edged (x - y - 1) ≥ edged (x - y + 1) then edged (x - y - 1) + 1 else edged
        (x - y + 1) := by
      obtain across | along := before
      · have far := reach _ _ (by omega) (by omega) across
        rw [show x - run - 1 - (y - run) = x - y - 1 by omega] at far
        split <;> omega
      · have far := reach _ _ (by omega) (by omega) along
        rw [show x - run - (y - run - 1) = x - y + 1 by omega] at far
        split <;> omega
    apply Grid.le_slide
    intro k low high
    refine ⟨by omega, by omega, matching k (by omega) high⟩

theorem congr {other : Int → Int} (furthest : Furthest grid edits far lo hi)
    (agree : ∀ d, lo ≤ d → d ≤ hi → (d - grid.mid - edits) % 2 = 0 → other d = far d) :
      Furthest grid edits other lo hi where
  least := furthest.least
  most := furthest.most
  around := furthest.around
  near := furthest.near
  parity := furthest.parity
  covers := furthest.covers
  reached := by
    intro d low high even
    rw [agree d low high even]
    exact furthest.reached d low high even
  furthest := by
    intro x y inside1 inside2 path
    have shape := path.diagonal
    have ahead := path.forward
    have middle : grid.mid = grid.off1 - grid.off2 := rfl
    have bounds : grid.least ≤ x - y ∧ x - y ≤ grid.most := by
      unfold Grid.least Grid.most
      omega
    obtain ⟨low, high⟩ := furthest.covers (x - y) bounds.1 bounds.2 (by omega) (by omega) (by omega)
    rw [agree _ low high (by omega)]
    exact furthest.furthest x y inside1 inside2 path

/-! ### Two searches that meet -/

section
variable (wide : grid.off1 < grid.lim1 ∧ grid.off2 < grid.lim2)
include wide

theorem clamp {x y : Int} (path : EditPath grid.Matches edits grid.off1 grid.off2 x y) :
    ∃ fewer : Nat, EditPath (fun p q => grid.same p q = true) fewer grid.off1 grid.off2 (min x grid.lim1)
      (min y grid.lim2) ∧
      fewer + (x - min x grid.lim1) + (y - min y grid.lim2) ≤ edits := by
  generalize begin1 : grid.off1 = a at path
  generalize begin2 : grid.off2 = b at path
  induction path with
  | stay x y =>
    refine ⟨0, ?_, by omega⟩
    rw [Int.min_eq_left (by omega), Int.min_eq_left (by omega)]
    exact .stay _ _
  | @right edits a b x y _ ih =>
    obtain ⟨fewer, path, waste⟩ := ih begin1 begin2
    by_cases inside : x < grid.lim1
    · rw [Int.min_eq_left (by omega)] at path waste
      refine ⟨fewer + 1, ?_, ?_⟩
      · rw [Int.min_eq_left (by omega)]
        exact path.right
      · rw [Int.min_eq_left (by omega)]
        omega
    · refine ⟨fewer, ?_, ?_⟩
      · rw [Int.min_eq_right (by omega)] at path ⊢
        exact path
      · push_cast
        omega
  | @down edits a b x y _ ih =>
    obtain ⟨fewer, path, waste⟩ := ih begin1 begin2
    by_cases inside : y < grid.lim2
    · rw [Int.min_eq_left (show y ≤ grid.lim2 by omega)] at path waste
      refine ⟨fewer + 1, ?_, ?_⟩
      · rw [Int.min_eq_left (show y + 1 ≤ grid.lim2 by omega)]
        exact path.down
      · rw [Int.min_eq_left (show y + 1 ≤ grid.lim2 by omega)]
        omega
    · refine ⟨fewer, ?_, ?_⟩
      · rw [Int.min_eq_right (show grid.lim2 ≤ y by omega)] at path
        rwa [Int.min_eq_right (show grid.lim2 ≤ y + 1 by omega)]
      · push_cast
        omega
  | @free edits a b x y _ matched ih =>
    obtain ⟨fewer, path, waste⟩ := ih begin1 begin2
    obtain ⟨inside1, inside2, same⟩ := matched
    refine ⟨fewer, ?_, ?_⟩
    · rw [Int.min_eq_left (by omega), Int.min_eq_left (by omega)] at path ⊢
      exact path.free same
    · omega

/-- A point that is so near to the diagonal of the far corner that a shortest path could lead through it lies in the
grid. -/
theorem inside {x d : Int} (rest : Nat) (path : EditPath grid.Matches edits grid.off1 grid.off2 x (x - d))
    (close : grid.lim1 - grid.lim2 - rest ≤ d ∧ d ≤ grid.lim1 - grid.lim2 + rest)
    (shortest : ∀ count, EditPath (fun p q => grid.same p q = true) count grid.off1 grid.off2 grid.lim1 grid.lim2 →
      edits + rest < count + 2) :
    x ≤ grid.lim1 ∧ x - d ≤ grid.lim2 := by
  obtain ⟨fewer, path, waste⟩ := clamp wide path
  have onward : EditPath (fun p q => grid.same p q = true) _ (min x grid.lim1) (min (x - d) grid.lim2) _ _ :=
    EditPath.straight _ _ (grid.lim1 - min x grid.lim1).toNat (grid.lim2 - min (x - d) grid.lim2).toNat
  rw [show min x grid.lim1 + ((grid.lim1 - min x grid.lim1).toNat : Int) = grid.lim1 by omega,
    show min (x - d) grid.lim2 + ((grid.lim2 - min (x - d) grid.lim2).toNat : Int) = grid.lim2 by omega] at onward
  have bound := shortest _ (path.trans onward)
  omega

/-- The end of a path, or the point where it leaves the grid, is neither corner while no path is so short that two
searches with these edits had met. -/
theorem between (first : grid.same grid.off1 grid.off2 = false)
    (last : grid.same (grid.lim1 - 1) (grid.lim2 - 1) = false) {x y px py : Int}
    (path : EditPath grid.Matches (edits + 1) grid.off1 grid.off2 x y) (before : px ≤ x ∧ py ≤ y)
    (inside : (grid.off1 ≤ px ∧ px ≤ grid.lim1) ∧ grid.off2 ≤ py ∧ py ≤ grid.lim2)
    (leaves : px = x ∧ py = y ∨ px = grid.lim1 ∨ py = grid.lim2)
    (unmet : ∀ count, EditPath (fun p q => grid.same p q = true) count grid.off1 grid.off2 grid.lim1 grid.lim2 →
      2 * edits < count) :
    grid.off1 + grid.off2 < px + py ∧ px + py < grid.lim1 + grid.lim2 := by
  have long := path.length
  push_cast at long
  refine ⟨by omega, ?_⟩
  by_contra corner
  obtain ⟨fewer, crosses, waste⟩ := clamp wide path
  rw [Int.min_eq_right (by omega), Int.min_eq_right (by omega)] at crosses
  have more := unmet fewer crosses
  obtain rfl : fewer = 1 := by omega
  -- one edit does not cross a grid whose corners do not match
  obtain ⟨run, matching, front⟩ := crosses.last_edit
  cases run with
  | zero =>
    have apart : ¬ grid.same grid.off1 grid.off2 = true := by simp [first]
    obtain front | front := front
    · have := front.of_zero apart
      omega
    · have := front.of_zero apart
      omega
  | succ run =>
    have here := matching (grid.lim1 - 1) (by push_cast; omega) (by omega)
    rw [show grid.lim1 - 1 - (grid.lim1 - grid.lim2) = grid.lim2 - 1 by omega, last] at here
    cases here

end

end Furthest

def Grid.mirror (grid : Grid) : Grid where
  same p q := grid.same (-p - 1) (-q - 1)
  off1 := -grid.lim1
  lim1 := -grid.off1
  off2 := -grid.lim2
  lim2 := -grid.off2

theorem Grid.mirror_path {grid : Grid} {count : Nat}
    (path : EditPath (fun p q => grid.mirror.same p q = true) count grid.mirror.off1 grid.mirror.off2 grid.mirror.lim1
      grid.mirror.lim2) :
    EditPath (fun p q => grid.same p q = true) count grid.off1 grid.off2 grid.lim1 grid.lim2 := by
  have turned := path.mirror
  simp only [Grid.mirror, Int.neg_neg] at turned
  refine turned.mono fun p q same => ?_
  rwa [show -(-p - 1) - 1 = p by omega, show -(-q - 1) - 1 = q by omega] at same

/-- Two searches from the two corners whose edits add up to those of a path have met on some diagonal. -/
theorem Furthest.meet {grid : Grid} {front back : Nat} {far near : Int → Int} {lo hi lo' hi' : Int}
    (forward : Furthest grid front far lo hi) (backward : Furthest grid.mirror back near lo' hi')
    (path : EditPath (fun p q => grid.same p q = true) (front + back) grid.off1 grid.off2 grid.lim1 grid.lim2) :
    ∃ d, lo ≤ d ∧ d ≤ hi ∧ (d - grid.mid - front) % 2 = 0 ∧ -hi' ≤ d ∧ d ≤ -lo' ∧ -near (-d) ≤ far d := by
  obtain ⟨x, y, first, second⟩ := path.cut (Nat.le_add_right front back)
  rw [Nat.add_sub_cancel_left] at second
  have shape1 := first.diagonal
  have shape2 := second.diagonal
  have ahead1 := first.forward
  have ahead2 := second.forward
  have turned := second.mirror
  have inside1 := forward.covers (x - y)
  have inside2 := backward.covers (-(x - y))
  have far1 := forward.furthest x y ahead2.1 ahead2.2 first
  have far2 := backward.furthest (-x) (-y) (Int.neg_le_neg ahead1.1) (Int.neg_le_neg ahead1.2) turned
  rw [show -x - -y = -(x - y) by omega] at far2
  simp only [Grid.least, Grid.most, Grid.mid, Grid.mirror] at inside1 inside2 ⊢
  have band1 := inside1 (by omega) (by omega) (by omega) (by omega) (by omega)
  exact ⟨x - y, band1.1, band1.2, by omega, by omega, by omega, by omega⟩

end BashOs.Lib

import Mathlib.Data.List.TakeWhile

/-!
Reachability in a finite graph by a stack of nodes still to visit. Only `known` nodes are ever visited; a
link to anything else leads nowhere.
-/

namespace BashOs.Lib
open List

section Reachability
variable {α : Type} (known : List α) (links : α → List α)

inductive Reach (roots : α → Prop) : α → Prop
  | root {x : α} (start : roots x) (here : x ∈ known) : Reach roots x
  | step {x y : α} (before : Reach roots x) (link : y ∈ links x) (here : y ∈ known) : Reach roots y

variable {known links}

variable {roots : α → Prop} {x : α}

theorem Reach.here (reach : Reach known links roots x) : x ∈ known := by
  cases reach with
  | root _ here => exact here
  | step _ _ here => exact here

theorem Reach.invariant {inside : α → Prop} (start : ∀ x, roots x → x ∈ known → inside x)
    (closed : ∀ x, inside x → ∀ y ∈ links x, y ∈ known → inside y) (reach : Reach known links roots x) : inside x := by
  induction reach with
  | root head here => exact start _ head here
  | step _ link here ih => exact closed _ ih _ link here

theorem Reach.of_roots {more : α → Prop} (weaker : ∀ x, roots x → x ∈ known → Reach known links more x)
    (reach : Reach known links roots x) : Reach known links more x :=
  reach.invariant weaker (fun _ before _ link here => .step before link here)

end Reachability

section Walk
variable {α : Type} [DecidableEq α] (known : List α) (links : α → List α)

def push (visited pending : List α) (x : α) : List α :=
  if x ∈ known ∧ x ∉ visited then x :: pending else pending

theorem mem_push (visited pending : List α) (x y : α) :
    y ∈ push known visited pending x ↔ y ∈ pending ∨ (y = x ∧ y ∈ known ∧ y ∉ visited) := by
  unfold push
  split
  next fresh =>
    rw [mem_cons, or_comm]
    exact or_congr_right (iff_self_and.2 fun same => same ▸ fresh)
  next stale => exact (or_iff_left fun ⟨same, fresh⟩ => stale (same ▸ fresh)).symm

theorem mem_pushes (visited pending xs : List α) (y : α) :
    y ∈ xs.foldl (push known visited) pending ↔ y ∈ pending ∨ (y ∈ xs ∧ y ∈ known ∧ y ∉ visited) := by
  induction xs generalizing pending with
  | nil => simp
  | cons x xs ih => rw [foldl_cons, ih, mem_push, or_assoc, ← or_and_right, mem_cons]

variable {x : α} {visited pending : List α}

theorem unvisited_shrinks (fresh : x ∈ known ∧ x ∉ visited) :
    (known.filter (fun y => y ∉ x :: visited)).length < (known.filter (· ∉ visited)).length := by
  have split : known.filter (fun y => y ∉ x :: visited) = (known.filter (· ∉ visited)).filter (· ≠ x) := by
    simp
  rw [split]
  apply length_filter_lt_length_iff_exists.2
  exact ⟨x, mem_filter.2 ⟨fresh.1, by simpa using fresh.2⟩, by simp⟩

/-- The walk, for as many visits as it is given: entries that are not to be visited any more are dropped from the
stack, and the next one is visited and its links pushed. -/
def walk : Nat → List α → List α → List α
  | 0, visited, _ => visited
  | visits + 1, visited, pending =>
    match pending.dropWhile fun x => !(decide (x ∈ known) && decide (x ∉ visited)) with
    | [] => visited
    | x :: rest => walk visits (x :: visited) ((links x).foldl (push known (x :: visited)) rest)

variable {known links}

theorem mem_dropWhile_of_fresh {y : α} (waiting : y ∈ pending) (inside : y ∈ known) (fresh : y ∉ visited) :
    y ∈ pending.dropWhile fun x => !(decide (x ∈ known) && decide (x ∉ visited)) := by
  rw [← pending.takeWhile_append_dropWhile (p := fun x => !(decide (x ∈ known) && decide (x ∉ visited)))] at waiting
  rcases mem_append.1 waiting with dropped | left
  · have stale := mem_takeWhile_imp dropped
    simp [inside, fresh] at stale
  · exact left

theorem head_fresh {rest : List α}
    (cut : (pending.dropWhile fun x => !(decide (x ∈ known) && decide (x ∉ visited))) = x :: rest) :
    x ∈ known ∧ x ∉ visited := by
  have head := head?_dropWhile_not (fun x => !(decide (x ∈ known) && decide (x ∉ visited))) pending
  rw [cut] at head
  simpa using head

theorem walk_sound {roots : α → Prop} (visits : Nat) (visited pending : List α)
    (old : ∀ x ∈ visited, Reach known links roots x) (next : ∀ x ∈ pending, x ∈ known → Reach known links roots x) :
    ∀ x ∈ walk known links visits visited pending, Reach known links roots x := by
  induction visits generalizing visited pending with
  | zero => exact old
  | succ visits ih =>
    rw [walk]
    split
    · exact old
    next x rest cut =>
      have part : x :: rest ⊆ pending := cut ▸ (dropWhile_sublist _).subset
      have here : Reach known links roots x := next x (part (.head _)) (head_fresh cut).1
      apply ih
      · exact forall_mem_cons.2 ⟨here, old⟩
      · intro y member inside
        rcases (mem_pushes known _ rest _ y).1 member with left | ⟨linked, -⟩
        · exact next y (part (.tail _ left)) inside
        · exact .step here linked inside

structure Closed (known : List α) (links : α → List α) (visited pending result : List α) : Prop where
  kept : ∀ x ∈ visited, x ∈ result
  reached : ∀ x ∈ pending, x ∈ known → x ∈ result
  linked : ∀ x ∈ result, ∀ y ∈ links x, y ∈ known → y ∈ result

omit [DecidableEq α] in
theorem Closed.of_done (done : ∀ y ∈ pending, y ∈ known → y ∈ visited)
    (waiting : ∀ x ∈ visited, ∀ y ∈ links x, y ∈ known → y ∈ visited ∨ y ∈ pending) :
    Closed known links visited pending visited := by
  refine ⟨fun _ member => member, done, ?_⟩
  intro x member y linked inside
  rcases waiting x member y linked inside with old | left
  · exact old
  · exact done y left inside

/-- The walk's result is closed, when every link out of a visited node is visited or pending and there are visits
enough for every known node. -/
theorem walk_closed (visits : Nat) (visited pending : List α) (enough : (known.filter (· ∉ visited)).length ≤ visits)
    (waiting : ∀ x ∈ visited, ∀ y ∈ links x, y ∈ known → y ∈ visited ∨ y ∈ pending) :
    Closed known links visited pending (walk known links visits visited pending) := by
  induction visits generalizing visited pending with
  | zero =>
    refine .of_done ?_ waiting
    intro y _ inside
    by_contra fresh
    have none := eq_nil_of_length_eq_zero (Nat.le_zero.1 enough)
    have member : y ∈ known.filter (· ∉ visited) := mem_filter.2 ⟨inside, by simpa using fresh⟩
    rw [none] at member
    cases member
  | succ visits ih =>
    rw [walk]
    split
    next cut =>
      refine .of_done ?_ waiting
      intro y left inside
      by_contra fresh
      have member := mem_dropWhile_of_fresh left inside fresh
      rw [cut] at member
      cases member
    next x rest cut =>
      have shrinks := unvisited_shrinks known (head_fresh cut)
      have after : Closed known links (x :: visited) ((links x).foldl (push known (x :: visited)) rest)
          (walk known links visits (x :: visited) ((links x).foldl (push known (x :: visited)) rest)) := by
        refine ih (x :: visited) _ (by omega) ?_
        intro z member y linked inside
        by_cases done : y ∈ x :: visited
        · exact .inl done
        refine .inr ((mem_pushes known _ rest _ y).2 ?_)
        rcases mem_cons.1 member with rfl | member
        · exact .inr ⟨linked, inside, done⟩
        rw [mem_cons, not_or] at done
        rcases waiting z member y linked inside with old | left
        · exact absurd old done.2
        · have still := mem_dropWhile_of_fresh left inside done.2
          rw [cut, mem_cons] at still
          exact .inl (still.resolve_left done.1)
      refine ⟨fun z member => after.kept z (.tail _ member), ?_, after.linked⟩
      intro z left inside
      by_cases old : z ∈ visited
      · exact after.kept z (.tail _ old)
      have still := mem_dropWhile_of_fresh left inside old
      rw [cut, mem_cons] at still
      rcases still with rfl | still
      · exact after.kept z (.head _)
      · exact after.reached z ((mem_pushes known _ rest _ z).2 (.inl still)) inside

/-- The nodes visited from a list of heads are exactly the reachable ones: no known node is visited twice, so
there are visits enough. -/
theorem mem_walk_iff (heads : List α) (x : α) : x ∈ walk known links known.length [] (heads.foldl (push known []) []) ↔
      Reach known links (· ∈ heads) x := by
  constructor
  · intro member
    refine walk_sound known.length [] _ (fun y impossible => (not_mem_nil impossible).elim) ?_ x member
    intro y pending inside
    rcases (mem_pushes known [] [] heads y).1 pending with impossible | ⟨head, -⟩
    · cases impossible
    · exact .root head inside
  · intro reach
    have pending (y : α) (head : y ∈ heads) (inside : y ∈ known) : y ∈ heads.foldl (push known []) [] :=
      (mem_pushes known [] [] heads y).2 (.inr ⟨head, inside, not_mem_nil⟩)
    have whole : Closed known links [] (heads.foldl (push known []) []) _ :=
      walk_closed known.length [] _ (length_filter_le _ _) (by simp)
    exact reach.invariant (fun y head inside => whole.reached y (pending y head inside) inside) whole.linked

end Walk

end BashOs.Lib

import BashOs.Lib.Loop
import BashOs.Git.History.MergeBases

/-!
Commits in topological order, from a stack of those that nothing in hand points at any more. What has come out is
pointed at by no commit that is still to come, and the commits on the stack are those among the rest.
-/

namespace BashOs.Git.History
open BashOs.Lib List
open Function (update update_self update_of_ne)

structure Sorting (α : Type) where
  degree : α → Nat
  stack : List α
  sorted : List α

section
variable {α : Type} [DecidableEq α] (graph : CommitGraph α) (ids : List α) (points : α → List α)

/-- The parents that are in the list. Its ids are distinct, so that each stands for its place. -/
def parentsIn (id : α) : List α := ((graph.parents id).take maxParents).filter (· ∈ ids)

def Sorting.release (state : Sorting α) (parent : α) : Sorting α :=
  let left := state.degree parent - 1
  if state.degree parent = 0 then state
  else
    { state with
      degree := update state.degree parent left
      stack := if left = 1 ∧ state.stack.length < ids.length then parent :: state.stack else state.stack }

def topoTurn (state : Sorting α) : ForInStep (Sorting α) :=
  match state.stack with
  | [] => .done state
  | id :: stack =>
    let after := (points id).foldl (Sorting.release ids) { state with stack }
    .yield ⟨update after.degree id 0, after.stack, state.sorted ++ [id]⟩

def topoStart : Sorting α :=
  let degree id := 1 + (ids.flatMap points).count id
  ⟨degree, (ids.filter (degree · = 1)).reverse, []⟩

/-- `git_topo_order`, the top of the stack at the head of its list. -/
def topoOrder : Option (List α) :=
  let points := parentsIn graph ids
  if ids.length < 2 then some ids
  else
    (repeatUntil (some ∘ topoTurn ids points) (ids.length + 1) (topoStart ids points)).map
      fun state => if state.sorted.length = ids.length then state.sorted else ids

/-- `targets` is where the arrows lead that have not been taken back, `left` what has not come out. -/
structure Counts (left targets : List α) (state : Sorting α) : Prop where
  degree : ∀ id ∈ left, state.degree id = 1 + targets.count id
  stack : ∀ id, id ∈ state.stack ↔ id ∈ left ∧ id ∉ targets
  nodup : state.stack.Nodup

structure Sorted (left : List α) (state : Sorting α) : Prop where
  whole : (state.sorted ++ left).Perm ids
  counts : Counts left (left.flatMap points) state
  past : ∀ id ∈ state.sorted, id ∉ left.flatMap points
  order : state.sorted.Pairwise fun a b => a ∉ points b

variable {graph ids points} {left targets : List α} {state : Sorting α} {id : α}

theorem Counts.release {parent : α} (counts : Counts left (parent :: targets) state) (inside : parent ∈ left)
    (few : left.length ≤ ids.length) : Counts left targets (state.release ids parent) := by
  have degree := counts.degree parent inside
  rw [count_cons_self] at degree
  have waits : parent ∉ state.stack := fun there => ((counts.stack parent).1 there).2 (.head _)
  have nodup : (parent :: state.stack).Nodup := nodup_cons.2 ⟨waits, counts.nodup⟩
  have room : state.stack.length < ids.length := by
    have subset : parent :: state.stack ⊆ left := cons_subset.2 ⟨inside, fun id there => ((counts.stack id).1 there).1⟩
    exact Nat.lt_of_lt_of_le (nodup.subperm subset).length_le few
  have last : state.degree parent - 1 = 1 ↔ parent ∉ targets := by
    rw [← count_eq_zero]
    omega
  unfold Sorting.release
  dsimp only
  rw [if_neg (by omega)]
  refine ⟨fun id member => ?_, fun id => ?_, ?_⟩ <;> dsimp only
  · by_cases same : id = parent
    · rw [same, update_self]
      omega
    · rw [update_of_ne same, counts.degree id member, count_cons_of_ne (Ne.symm same)]
  · have stack := counts.stack id
    by_cases same : id = parent
    · subst same
      simp only [last, room, and_true, inside, true_and]
      split
      next out => exact iff_of_true (.head _) out
      next there => exact iff_of_false waits there
    · split <;> simp_all
  · split
    · exact nodup
    · exact counts.nodup

theorem Counts.releaseAll (more : List α) (counts : Counts left (more ++ targets) state) (inside : more ⊆ left)
    (few : left.length ≤ ids.length) : Counts left targets (more.foldl (Sorting.release ids) state) := by
  induction more generalizing state with
  | nil => exact counts
  | cons parent more ih =>
    obtain ⟨first, rest⟩ := cons_subset.1 inside
    exact ih (counts.release first few) rest

section
variable (distinct : ids.Nodup) (within : ∀ id, points id ⊆ ids)
include distinct within

theorem Sorted.turn {stack : List α} (held : Sorted ids points left state) (top : state.stack = id :: stack) :
    ∃ after, topoTurn ids points state = .yield after ∧ Sorted ids points (left.erase id) after ∧
      (left.erase id).length < left.length := by
  obtain ⟨inside, free⟩ := (held.counts.stack id).1 (top ▸ .head _)
  have nodup : (state.sorted ++ left).Nodup := held.whole.nodup_iff.2 distinct
  have others {other : α} : other ∈ left.erase id ↔ other ≠ id ∧ other ∈ left := nodup.of_append_right.mem_erase_iff
  have perm : left.Perm (id :: left.erase id) := perm_cons_erase inside
  have arrows : (left.flatMap points).Perm (points id ++ (left.erase id).flatMap points) := perm.flatMap_right _
  have whole : (state.sorted ++ [id] ++ left.erase id).Perm ids := by
    rw [append_assoc]
    exact (perm.symm.append_left _).trans held.whole
  have later : points id ⊆ left.erase id := by
    intro parent member
    refine others.2 ⟨?_, ?_⟩
    · rintro rfl
      exact free (mem_flatMap_of_mem inside member)
    · refine (mem_append.1 (held.whole.mem_iff.2 (within id member))).resolve_left fun gone => ?_
      exact held.past parent gone (mem_flatMap_of_mem inside member)
  have popped : Counts (left.erase id) (points id ++ (left.erase id).flatMap points) { state with stack } := by
    have fresh : id ∉ stack ∧ stack.Nodup := nodup_cons.1 (top ▸ held.counts.nodup)
    refine ⟨fun other member => ?_, fun other => ?_, fresh.2⟩
    · rw [held.counts.degree other (others.1 member).2, arrows.count_eq]
    · have stacked := held.counts.stack other
      rw [top, mem_cons, arrows.mem_iff] at stacked
      rw [others, and_assoc, ← stacked]
      by_cases same : other = id
      · simp [same, fresh.1]
      · simp [same]
  have few : (left.erase id).length ≤ ids.length := by
    rw [← whole.length_eq, length_append]
    exact Nat.le_add_left _ _
  have counts := popped.releaseAll _ later few
  unfold topoTurn
  rw [top]
  refine ⟨_, rfl, ⟨whole, ⟨fun other member => ?_, counts.stack, counts.nodup⟩, ?_, ?_⟩, ?_⟩
  · dsimp only
    rw [update_of_ne (others.1 member).1]
    exact counts.degree other member
  · intro other member again
    have pointed := arrows.mem_iff.2 (mem_append_right _ again)
    obtain gone | same := mem_append.1 member
    · exact held.past other gone pointed
    · exact free (mem_singleton.1 same ▸ pointed)
  · refine pairwise_append.2 ⟨held.order, pairwise_singleton _ _, fun a gone b member => ?_⟩
    rw [mem_singleton.1 member]
    exact fun arrow => held.past a gone (mem_flatMap_of_mem inside arrow)
  · rw [perm.length_eq]
    exact Nat.lt_succ_self _

theorem topoLoop_spec (newest : ∀ left ⊆ ids, left ≠ [] → ∃ id ∈ left, id ∉ left.flatMap points) :
    ∃ final, repeatUntil (some ∘ topoTurn ids points) (ids.length + 1) (topoStart ids points) = some final ∧
      Sorted ids points [] final := by
  have start : Sorted ids points ids (topoStart ids points) := by
    refine ⟨.refl _, ⟨fun _ _ => rfl, fun id => ?_, nodup_reverse.2 (distinct.filter _)⟩, nofun, .nil⟩
    simp [topoStart, count_eq_zero]
  refine repeatUntil_spec (fun state => ∃ left, Sorted ids points left state) _
    (ids.length - ·.sorted.length) ?_ ⟨ids, start⟩
    (Nat.lt_succ_of_le (Nat.sub_le _ _))
  intro state ⟨left, held⟩
  refine ⟨_, rfl, ?_⟩
  have long := held.whole.length_eq
  cases top : state.stack with
  | nil =>
    have out : left = [] := by
      by_contra some
      obtain ⟨id, member, free⟩ := newest left (fun id member => held.whole.subset (mem_append_right _ member)) some
      have stacked := (held.counts.stack id).2 ⟨member, free⟩
      rw [top] at stacked
      cases stacked
    subst out
    rw [topoTurn, top]
    exact held
  | cons id stack =>
    obtain ⟨after, ran, next, less⟩ := held.turn distinct within top
    have long' := next.whole.length_eq
    rw [length_append] at long long'
    rw [ran]
    refine ⟨⟨_, next⟩, ?_⟩
    dsimp only
    omega

end

section
variable {nodes : Finset α} (acyclic : Acyclic graph.parents nodes)
include acyclic

theorem topoOrder_spec (known : ∀ id ∈ ids, id ∈ nodes) (distinct : ids.Nodup) :
    ∃ sorted, topoOrder graph ids = some sorted ∧ sorted.Perm ids ∧
      sorted.Pairwise fun a b => a ∉ parentsIn graph ids b := by
  unfold topoOrder
  dsimp only
  split
  next short =>
    refine ⟨ids, rfl, .refl _, ?_⟩
    match ids, short with
    | [], _ => exact .nil
    | [id], _ => exact pairwise_singleton _ _
  · have within (id : α) : parentsIn graph ids id ⊆ ids :=
      fun parent member => of_decide_eq_true (mem_filter.1 member).2
    obtain ⟨final, ran, held⟩ := topoLoop_spec distinct within fun left inside some => by
      obtain ⟨first, member⟩ := exists_mem_of_ne_nil left some
      have there {id : α} (member : id ∈ left) : id ∈ nodes := known id (inside member)
      -- of those left, one has no descendant among them
      obtain ⟨newest, listed, least⟩ := (descends_wellFounded acyclic).has_min { id | id.val ∈ left }
        ⟨⟨first, there member⟩, member⟩
      refine ⟨newest, listed, fun pointed => ?_⟩
      obtain ⟨child, other, arrow⟩ := mem_flatMap.1 pointed
      exact least ⟨child, there other⟩ other (.single (mem_of_mem_take (mem_filter.1 arrow).1))
    have whole := held.whole
    rw [append_nil] at whole
    exact ⟨final.sorted, by rw [ran, Option.map_some, if_pos whole.length_eq], whole, held.order⟩

/-- A list of distinct commits is sorted, each commit before its parents, if every parent that is listed is among
the first sixteen of its child; and every list is, if and only if no commit has a parent that is not among its first
sixteen. -/
theorem topo_order_iff :
    (∀ ids : List α, ids.Nodup → (∀ id ∈ ids, id ∈ nodes) →
      (∀ id ∈ ids, ∀ parent ∈ graph.parents id, parent ∈ ids → parent ∈ (graph.parents id).take maxParents) →
      ∃ sorted, topoOrder graph ids = some sorted ∧ sorted.Perm ids ∧ sorted.Pairwise fun a b => a ∉ graph.parents b) ∧
    ((∀ ids : List α, ids.Nodup → (∀ id ∈ ids, id ∈ nodes) →
      ∃ sorted, topoOrder graph ids = some sorted ∧ sorted.Perm ids ∧ sorted.Pairwise fun a b => a ∉ graph.parents b) ↔
    ∀ id ∈ nodes, ∀ parent ∈ graph.parents id, parent ∈ (graph.parents id).take maxParents) := by
  have listed : ∀ ids : List α, ids.Nodup → (∀ id ∈ ids, id ∈ nodes) →
      (∀ id ∈ ids, ∀ parent ∈ graph.parents id, parent ∈ ids → parent ∈ (graph.parents id).take maxParents) →
      ∃ sorted, topoOrder graph ids = some sorted ∧ sorted.Perm ids ∧
        sorted.Pairwise fun a b => a ∉ graph.parents b := by
    intro ids distinct known early
    obtain ⟨sorted, ran, whole, order⟩ := topoOrder_spec acyclic known distinct
    refine ⟨sorted, ran, whole, order.imp_of_mem fun {a b} first second apart arrow => ?_⟩
    have here := whole.subset first
    exact apart (mem_filter.2 ⟨early b (whole.subset second) a arrow here, decide_eq_true here⟩)
  refine ⟨listed, ?_⟩
  constructor
  · intro sorts id inside parent arrow
    by_contra late
    have other := acyclic.closed id inside parent arrow
    have own {id : α} (member : id ∈ nodes) : id ∉ graph.parents id :=
      fun loop => acyclic.loopless id member (.single loop)
    have back : id ∉ graph.parents parent := fun back => acyclic.loopless id inside (.tail (.single arrow) back)
    have apart : id ≠ parent := fun same => own inside (same ▸ arrow)
    obtain ⟨sorted, ran, -, order⟩ := sorts [id, parent] (by simp [apart]) (by simp [inside, other])
    have nothing {one : α} (first : id ∉ (graph.parents one).take maxParents)
      (second : parent ∉ (graph.parents one).take maxParents) :
        parentsIn graph [id, parent] one = [] := by
      refine filter_eq_nil_iff.2 fun other member => ?_
      simp only [mem_cons, not_mem_nil, or_false, decide_eq_true_eq]
      rintro (rfl | rfl)
      · exact first member
      · exact second member
    have none := nothing (own inside ∘ mem_of_mem_take) late
    have none' := nothing (back ∘ mem_of_mem_take) (own other ∘ mem_of_mem_take)
    have out : topoOrder graph [id, parent] = some [parent, id] := by
      simp [topoOrder, topoStart, none, none', repeatUntil, topoTurn]
    rw [out] at ran
    cases ran
    exact rel_of_pairwise_cons order (mem_singleton_self _) arrow
  · intro early ids distinct known
    exact listed ids distinct known fun id member parent arrow _ => early id (known id member) parent arrow

end

theorem topo_order_criss_cross : ∃ sorted, topoOrder crissCross [0, 2, 4, 1, 3] = some sorted ∧
    sorted.Perm [0, 2, 4, 1, 3] ∧
    sorted.Pairwise fun a b => a ∉ crissCross.parents b :=
  (topo_order_iff crissCross_acyclic).1 _ (by decide) (by decide) (by decide)

def octopus : CommitGraph Nat where
  parents id := if id = 0 then (range 17).map (· + 1) else []
  date _ := 0

theorem topo_order_octopus : topoOrder octopus [0, 17] = some [17, 0] ∧ 17 ∈ octopus.parents 0 := by
  decide

end
end BashOs.Git.History

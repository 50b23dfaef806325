import Mathlib.Algebra.Order.BigOperators.Group.Finset
import BashOs.Lib.Worklist

/-!
A walk by a stack that holds anything it was told of, over a set of what has been met, there or not. A set that an
earlier walk left stops a later one where the two meet.
-/

namespace BashOs.Lib
open List

section
variable {α : Type} [DecidableEq α] (links : α → Option (List α))

/-- The walk, for as many rounds as it is given: the set of what was met, and what was met for the first time and
is there, in order. -/
def seenWalk : Nat → List α → List α → List α → Option (List α × List α)
  | 0, _, _, _ => none
  | _ + 1, [], seen, found => some (seen, found)
  | rounds + 1, x :: queue, seen, found =>
    if x ∈ seen then seenWalk rounds queue seen found
    else
      match links x with
      | none => seenWalk rounds queue (x :: seen) found
      | some next => seenWalk rounds (next.reverse ++ queue) (x :: seen) (found ++ [x])

def outgoing (x : α) : List α := (links x).getD []

variable {links} {known : List α} {roots start queue seen found : List α}

omit [DecidableEq α] in
theorem outgoing_of_some {x : α} {next : List α} (there : links x = some next) : outgoing links x = next := by
  rw [outgoing, there, Option.getD_some]

omit [DecidableEq α] in
theorem outgoing_of_none {x : α} (absent : links x = none) : outgoing links x = [] := by
  rw [outgoing, absent, Option.getD_none]

def LinkClosed (links : α → Option (List α)) (seen : List α) : Prop := ∀ x ∈ seen, ∀ y ∈ outgoing links x, y ∈ seen

/-- A walk under way, from `roots` over what was in `start` before it. -/
structure Met (links : α → Option (List α)) (known roots start queue seen found : List α) : Prop where
  kept : ∀ x ∈ start, x ∈ seen
  entered : ∀ x ∈ roots, x ∈ seen ∨ x ∈ queue
  closed : ∀ x ∈ seen, ∀ y ∈ outgoing links x, y ∈ seen ∨ y ∈ queue
  queued : ∀ x ∈ queue, x ∈ known → Reach known (outgoing links) (fun y => y ∈ roots) x
  reached : ∀ x ∈ seen, x ∈ known → x ∈ start ∨ Reach known (outgoing links) (fun y => y ∈ roots) x
  listed : ∀ x, x ∈ found ↔ x ∈ seen ∧ x ∉ start ∧ x ∈ known
  distinct : found.Nodup

namespace Met

omit [DecidableEq α] in
theorem skip {x : α} (met : Met links known roots start (x :: queue) seen found) (old : x ∈ seen) :
    Met links known roots start queue seen found := by
  have left (y : α) (place : y ∈ seen ∨ y ∈ x :: queue) : y ∈ seen ∨ y ∈ queue := by
    rcases place with before | _ | later
    · exact .inl before
    · exact .inl old
    · exact .inr ‹_›
  exact ⟨met.kept, fun y root => left y (met.entered y root), fun y member z link =>
    left z (met.closed y member z link),
    fun y member => met.queued y (.tail _ member), met.reached, met.listed, met.distinct⟩

theorem visit {x : α} (met : Met links known roots start (x :: queue) seen found) (fresh : x ∉ seen)
    (there : x ∈ known ∨ outgoing links x = []) (more : List α)
    (linked : ∀ y, y ∈ more ↔ y ∈ outgoing links x ∨ y ∈ queue) :
    Met links known roots start more (x :: seen) (if x ∈ known then found ++ [x] else found) := by
  have here (inside : x ∈ known) : Reach known (outgoing links) (· ∈ roots) x := met.queued x (.head _) inside
  have outside : x ∉ start := fun old => fresh (met.kept x old)
  have unlisted : x ∉ found := fun old => fresh ((met.listed x).1 old).1
  have left (y : α) (place : y ∈ seen ∨ y ∈ x :: queue) : y ∈ x :: seen ∨ y ∈ more := by
    rcases place with before | _ | later
    · exact .inl (.tail _ before)
    · exact .inl (.head _)
    · exact .inr ((linked y).2 (.inr ‹_›))
  refine ⟨fun y old => .tail _ (met.kept y old), fun y root => left y (met.entered y root), ?_, ?_, ?_, fun y => ?_, ?_⟩
  · intro y member z link
    rcases mem_cons.1 member with rfl | old
    · exact .inr ((linked z).2 (.inl link))
    · exact left z (met.closed y old z link)
  · intro y member inside
    rcases (linked y).1 member with link | waiting
    · rcases there with there | bare
      · exact .step (here there) link inside
      · rw [bare] at link
        cases link
    · exact met.queued y (.tail _ waiting) inside
  · intro y member inside
    rcases mem_cons.1 member with rfl | old
    · exact .inr (here inside)
    · exact met.reached y old inside
  · by_cases same : y = x
    · subst same
      by_cases inside : y ∈ known <;> simp [inside, outside, unlisted]
    · have apart : y ∈ (if x ∈ known then found ++ [x] else found) ↔ y ∈ found := by
        split <;> simp [same]
      rw [apart, met.listed, mem_cons, or_iff_right same]
  · split
    · exact nodup_append.2 ⟨met.distinct, nodup_singleton _,
        fun y old z new same => unlisted (mem_singleton.1 new ▸ same ▸ old)⟩
    · exact met.distinct

omit [DecidableEq α] in
/-- At the end the set is closed under links and holds exactly what it held and what is reachable. -/
theorem done (met : Met links known roots start [] seen found) :
    LinkClosed links seen ∧ (∀ x ∈ known, x ∈ seen ↔ x ∈ start ∨ Reach known (outgoing links) (· ∈ roots) x) ∧
      ∀ x, x ∈ found ↔ x ∉ start ∧ Reach known (outgoing links) (· ∈ roots) x := by
  have settled (x : α) (place : x ∈ seen ∨ x ∈ ([] : List α)) : x ∈ seen := by
    simpa using place
  have whole : ∀ x, Reach known (outgoing links) (· ∈ roots) x → x ∈ seen := by
    intro x reach
    refine reach.invariant (fun y root _ => settled y (met.entered y root)) ?_
    exact fun y member z link _ => settled z (met.closed y member z link)
  refine ⟨fun x member y link => settled y (met.closed x member y link), fun x inside => ?_, fun x => ?_⟩
  · exact ⟨fun member => met.reached x member inside, fun place => place.elim (met.kept x) (whole x)⟩
  · rw [met.listed]
    constructor
    · rintro ⟨member, outside, inside⟩
      exact ⟨outside, (met.reached x member inside).resolve_left outside⟩
    · rintro ⟨outside, reach⟩
      exact ⟨whole x reach, outside, reach.here⟩

end Met

def walkWork (links : α → Option (List α)) (known queue seen : List α) : Nat :=
  queue.length + ∑ x ∈ known.toFinset.filter (fun x => x ∉ seen), (outgoing links x).length

theorem walkWork_visit {x : α} (fresh : x ∉ seen) (there : x ∈ known ∨ outgoing links x = []) (queue more : List α)
    (length : more.length = (outgoing links x).length + queue.length) :
    walkWork links known more (x :: seen) < walkWork links known (x :: queue) seen := by
  have split : known.toFinset.filter (fun y => y ∉ x :: seen) = (known.toFinset.filter (· ∉ seen)).erase x := by
    ext y
    simp only [Finset.mem_filter, Finset.mem_erase, mem_cons]
    tauto
  simp only [walkWork, length_cons, length, split]
  rcases there with inside | bare
  · have member : x ∈ known.toFinset.filter (· ∉ seen) := Finset.mem_filter.2 ⟨mem_toFinset.2 inside, fresh⟩
    have sum := Finset.add_sum_erase _ (fun y => (outgoing links y).length) member
    omega
  have sum : ∑ y ∈ (known.toFinset.filter (· ∉ seen)).erase x, (outgoing links y).length =
      ∑ y ∈ known.toFinset.filter (· ∉ seen), (outgoing links y).length :=
    Finset.sum_erase _ (by rw [bare]; rfl)
  rw [bare, length_nil]
  omega

section
variable (exact : ∀ x, x ∈ known ↔ (links x).isSome)
include exact

theorem Met.run (rounds : Nat)
    (met : Met links known roots start queue seen found) (enough : walkWork links known queue seen < rounds) :
    ∃ seen' found', seenWalk links rounds queue seen found = some (seen', found') ∧
      Met links known roots start [] seen' found' := by
  induction rounds generalizing queue seen found with
  | zero => cases enough
  | succ rounds ih =>
    cases queue with
    | nil => exact ⟨seen, found, rfl, met⟩
    | cons x queue =>
      rw [seenWalk]
      split
      next old =>
        simp only [walkWork, length_cons] at enough ih
        exact ih (met.skip old) (by omega)
      next fresh =>
        cases there : links x with
        | none =>
          have outside : x ∉ known := fun inside => by simpa [there] using (exact x).1 inside
          have bare := outgoing_of_none there
          have step := met.visit fresh (.inr bare) queue (by simp [bare])
          rw [if_neg outside] at step
          have less : walkWork links known queue (x :: seen) < walkWork links known (x :: queue) seen :=
            walkWork_visit fresh (.inr bare) queue queue (by simp [bare])
          exact ih step (by omega)
        | some next =>
          have inside : x ∈ known := (exact x).2 (by rw [there]; rfl)
          have out := outgoing_of_some there
          have step := met.visit fresh (.inl inside) (next.reverse ++ queue) (by simp [out])
          rw [if_pos inside] at step
          have less : walkWork links known (next.reverse ++ queue) (x :: seen) <
              walkWork links known (x :: queue) seen :=
            walkWork_visit fresh (.inl inside) queue (next.reverse ++ queue) (by simp [out])
          exact ih step (by omega)

/-- A walk that starts over a closed set lists, once each, what its roots reach and the set does not hold. How many
rounds are enough does not depend on the set. -/
theorem seenWalk_spec (roots : List α) : ∃ enough, ∀ start, LinkClosed links start → ∀ rounds ≥ enough,
      ∃ seen found, seenWalk links rounds roots start [] = some (seen, found) ∧ LinkClosed links seen ∧ found.Nodup ∧
        (∀ x ∈ known, x ∈ seen ↔ x ∈ start ∨ Reach known (outgoing links) (· ∈ roots) x) ∧
        ∀ x, x ∈ found ↔ x ∉ start ∧ Reach known (outgoing links) (· ∈ roots) x := by
  refine ⟨roots.length + ∑ x ∈ known.toFinset, (outgoing links x).length + 1, fun start closed rounds enough => ?_⟩
  have begun : Met links known roots start roots start [] := by
    refine ⟨fun _ old => old, fun _ root => .inr root, fun x member y link => .inl (closed x member y link),
      fun _ root inside => .root root inside, fun _ old _ => .inl old, fun x => ?_, nodup_nil⟩
    simp only [not_mem_nil, false_iff]
    exact fun impossible => impossible.2.1 impossible.1
  have bound : walkWork links known roots start ≤ roots.length + ∑ x ∈ known.toFinset, (outgoing links x).length :=
    Nat.add_le_add_left (Finset.sum_le_sum_of_subset (Finset.filter_subset _ _)) _
  obtain ⟨seen, found, ran, met⟩ := begun.run exact rounds (by omega)
  obtain ⟨all, members, listed⟩ := met.done
  exact ⟨seen, found, ran, all, met.distinct, members, listed⟩

end

end

end BashOs.Lib

import Mathlib.Algebra.Order.BigOperators.Group.Finset
import BashOs.Lib.Ancestry
import BashOs.Lib.Bytes

/-!
Where two histories last agreed: the walk that paints commits from both sides, newest first, and the candidates
it leaves. Dates only order the queue. Whatever they are, a mark is never wrong, and every commit that is not
waiting has passed its marks on; so when only stale commits wait, the best common ancestors have been found.
-/

namespace BashOs.Git.History
open BashOs.Lib List

/-! ## The graph -/

def maxParents : Nat := 16

/-- What `bgit_commit_parents`, without its limit, and the committer's date answer for each commit. -/
structure CommitGraph (α : Type) where
  parents : α → List α
  date : α → Int

/-! ## The walk -/

inductive Flag
  | parent1
  | parent2
  | stale
  | result
  deriving DecidableEq

/-- An item of `struct bgit_queue`. -/
structure Waiting (α : Type) where
  sha : α
  date : Int
  counter : Nat
  deriving DecidableEq

/-- What the walk holds: `struct bgit_marks`, where a commit without a slot carries no flag, `struct bgit_queue`
and the ids found so far. -/
structure Walk (α : Type) where
  marks : α → Finset Flag
  queue : List (Waiting α)
  counter : Nat
  found : List α

section Walk
variable {α : Type} [DecidableEq α] (graph : CommitGraph α)

def Walk.put (walk : Walk α) (sha : α) (date : Int) : Walk α :=
  { walk with queue := walk.queue ++ [⟨sha, date, walk.counter⟩], counter := walk.counter + 1 }

def Walk.mark (walk : Walk α) (sha : α) (flags : Finset Flag) : Walk α :=
  { walk with marks := Function.update walk.marks sha (walk.marks sha ∪ flags) }

def Waiting.sooner (item best : Waiting α) : Bool :=
  item.date > best.date || (item.date = best.date && item.counter < best.counter)

/-- `bgit_queue_get`. Counters differ, so the item taken out is the one that was found. -/
def queueGet : List (Waiting α) → Option (α × List (Waiting α))
  | [] => none
  | first :: rest =>
    let best := rest.foldl (fun best item => if item.sooner best then item else best) first
    some (best.sha, (first :: rest).erase best)

def Walk.hasFresh (walk : Walk α) : Bool := walk.queue.any fun item => .stale ∉ walk.marks item.sha

/-- The flags a commit passes on: it carries both sides' marks alone, and its ancestors cannot be better. -/
def spread (marks : Finset Flag) : Finset Flag :=
  let flags := marks.erase .result
  if flags = {.parent1, .parent2} then insert .stale flags else flags

def paintParent (flags : Finset Flag) (walk : Walk α) (parent : α) : Walk α :=
  if flags ⊆ walk.marks parent then walk else (walk.mark parent flags).put parent (graph.date parent)

def Walk.take (walk : Walk α) (current : α) : Walk α :=
  if (walk.marks current).erase .result = {.parent1, .parent2} ∧ .result ∉ walk.marks current then
    { walk.mark current {.result} with found := walk.found ++ [current] }
  else walk

/-- A round of the loop of `bgit_paint_down`. -/
def visit (walk : Walk α) (current : α) : Walk α :=
  ((graph.parents current).take maxParents).foldl (paintParent graph (spread (walk.marks current))) (walk.take current)

/-- The loop of `bgit_paint_down`, for as many rounds as it is given. -/
def paintLoop : Nat → Walk α → Option (Walk α)
  | 0, _ => none
  | rounds + 1, walk =>
    if walk.hasFresh then
      match queueGet walk.queue with
      | none => some walk
      | some (current, queue) => paintLoop rounds (visit graph { walk with queue } current)
    else some walk

def Walk.start (flag : Flag) (walk : Walk α) (sha : α) : Walk α := (walk.mark sha {flag}).put sha (graph.date sha)

def paintStart (one : α) (twos : List α) : Walk α :=
  twos.foldl (Walk.start graph .parent2) (Walk.start graph .parent1 ⟨fun _ => ∅, [], 0, []⟩ one)

def paintDown (rounds : Nat) (one : α) (twos : List α) : Option (List α) :=
  (paintLoop graph rounds (paintStart graph one twos)).map Walk.found

def isAncestor (rounds : Nat) (ancestor commit : α) : Option Bool :=
  if ancestor = commit then some true
  else (paintDown graph rounds ancestor [commit]).map fun bases => decide (ancestor ∈ bases)

def removeRedundant (rounds : Nat) (list : List α) : Option (List α) := sieve (isAncestor graph rounds) [] list

def mergeBasesMany (rounds : Nat) (one : α) (twos : List α) : Option (List α) :=
  if one ∈ twos then some [one]
  else do
    let result ← paintDown graph rounds one twos
    removeRedundant graph rounds result

end Walk

/-! ## The queue -/

section Queue
variable {α : Type} [DecidableEq α]

omit [DecidableEq α] in
theorem best_mem (rest : List (Waiting α)) (first : Waiting α) :
    rest.foldl (fun best item => if item.sooner best then item else best) first ∈ first :: rest := by
  induction rest generalizing first with
  | nil => exact .head _
  | cons item rest ih =>
    rw [foldl_cons]
    split
    · exact .tail _ (ih item)
    · rcases mem_cons.1 (ih first) with same | later
      · rw [same]
        exact .head _
      · exact .tail _ (.tail _ later)

theorem queueGet_perm {queue rest : List (Waiting α)} {sha : α} (got : queueGet queue = some (sha, rest)) :
    ∃ item : Waiting α, item.sha = sha ∧ queue.Perm (item :: rest) := by
  cases queue with
  | nil => cases got
  | cons first others =>
    obtain ⟨rfl, rfl⟩ := Prod.mk.inj (Option.some.inj got)
    exact ⟨_, rfl, perm_cons_erase (best_mem others first)⟩

end Queue

/-! ## What a round does -/

variable {flags marks : Finset Flag} {flag : Flag}

section Round
variable {α : Type}

def Walk.waits (walk : Walk α) (x : α) : Prop := ∃ item ∈ walk.queue, item.sha = x

@[simp] theorem waits_put (walk : Walk α) (sha x : α) (date : Int) :
    (walk.put sha date).waits x ↔ walk.waits x ∨ x = sha := by
  simp [Walk.waits, Walk.put, eq_comm]

@[simp] theorem marks_put (walk : Walk α) (sha : α) (date : Int) : (walk.put sha date).marks = walk.marks := rfl

variable [DecidableEq α]

@[simp] theorem waits_mark (walk : Walk α) (sha x : α) (flags : Finset Flag) :
    (walk.mark sha flags).waits x ↔ walk.waits x := Iff.rfl

@[simp] theorem mark_self (walk : Walk α) (sha : α) (flags : Finset Flag) :
    (walk.mark sha flags).marks sha = walk.marks sha ∪ flags := Function.update_self ..

theorem mem_mark {walk : Walk α} {sha x : α} :
    flag ∈ (walk.mark sha flags).marks x ↔ flag ∈ walk.marks x ∨ (x = sha ∧ flag ∈ flags) := by
  by_cases same : x = sha
  · simp [same]
  · simp [Walk.mark, same]

theorem mem_spread : flag ∈ spread marks ↔
      (flag ≠ .result ∧ flag ∈ marks) ∨ (flag = .stale ∧ marks.erase .result = {.parent1, .parent2}) := by
  rw [spread]
  split
  next both => rw [Finset.mem_insert, Finset.mem_erase, or_comm, and_iff_left both]
  next both => simp [both]

theorem result_not_mem_spread : .result ∉ spread marks := by
  intro member
  rcases mem_spread.1 member with ⟨other, -⟩ | ⟨impossible, -⟩
  · exact other rfl
  · cases impossible

structure Passed (flags : Finset Flag) (parents : List α) (before after : Walk α) : Prop where
  marks : ∀ x flag, flag ∈ after.marks x ↔ flag ∈ before.marks x ∨ (x ∈ parents ∧ flag ∈ flags)
  waits : ∀ x, before.waits x → after.waits x
  changed : ∀ x, after.waits x ∨ after.marks x = before.marks x
  queued : ∀ x, after.waits x → before.waits x ∨ x ∈ parents
  found : after.found = before.found

variable (graph : CommitGraph α)

theorem passed_parent (flags : Finset Flag) (walk : Walk α) (parent : α) :
    Passed flags [parent] walk (paintParent graph flags walk parent) := by
  rw [paintParent]
  split
  next covered =>
    refine ⟨fun x flag => ?_, fun _ waits => waits, fun _ => .inr rfl, fun _ waits => .inl waits, rfl⟩
    exact (or_iff_left_of_imp fun ⟨here, new⟩ => mem_singleton.1 here ▸ covered new).symm
  · refine ⟨fun x flag => ?_, fun x waits => ?_, fun x => ?_, fun x waits => ?_, rfl⟩
    · rw [marks_put, mem_mark, mem_singleton]
    · exact (waits_put _ _ _ _).2 (.inl waits)
    · by_cases same : x = parent
      · exact .inl ((waits_put _ _ _ _).2 (.inr same))
      · exact .inr (Function.update_of_ne same _ _)
    · exact ((waits_put _ _ _ _).1 waits).imp_right mem_singleton.2

theorem passed_parents (flags : Finset Flag) (parents : List α) (walk : Walk α) :
    Passed flags parents walk (parents.foldl (paintParent graph flags) walk) := by
  induction parents generalizing walk with
  | nil =>
    exact ⟨by simp, fun _ waits => waits, fun _ => .inr rfl, fun _ waits => .inl waits, rfl⟩
  | cons parent parents ih =>
    have first := passed_parent graph flags walk parent
    have later := ih (paintParent graph flags walk parent)
    refine ⟨fun x flag => ?_, fun x waits => later.waits x (first.waits x waits), fun x => ?_, fun x waits => ?_,
      later.found.trans first.found⟩
    · rw [foldl_cons, later.marks, first.marks, mem_singleton, mem_cons, or_and_right, or_assoc]
    · rcases first.changed x with waits | same
      · exact .inl (later.waits x waits)
      · exact (later.changed x).imp_right (·.trans same)
    · rcases later.queued x waits with waits | member
      · exact (first.queued x waits).imp_right fun here => mem_cons.2 (.inl (mem_singleton.1 here))
      · exact .inr (.tail _ member)

theorem take_marks {walk : Walk α} {current x : α} (other : flag ≠ .result) :
    flag ∈ (walk.take current).marks x ↔ flag ∈ walk.marks x := by
  rw [Walk.take]
  split
  · rw [mem_mark, Finset.mem_singleton]
    exact ⟨fun member => member.resolve_right fun both => other both.2, .inl⟩
  · rfl

section
variable (walk : Walk α)
include walk

theorem erase_take (current x : α) : ((walk.take current).marks x).erase .result = (walk.marks x).erase .result := by
  ext flag
  simp only [Finset.mem_erase]
  exact and_congr_right fun other => take_marks other

theorem spread_take (current x : α) : spread ((walk.take current).marks x) = spread (walk.marks x) := by
  rw [spread, spread, erase_take]

theorem found_take (current : α) : (∀ x ∈ walk.found, x ∈ (walk.take current).found) ∧
      ((walk.marks current).erase .result = {.parent1, .parent2} → .result ∉ walk.marks current →
        current ∈ (walk.take current).found) := by
  rw [Walk.take]
  split
  · exact ⟨fun x old => mem_append_left _ old, fun _ _ => mem_append_right _ (.head _)⟩
  next idle => exact ⟨fun _ old => old, fun both fresh => absurd ⟨both, fresh⟩ idle⟩

theorem waits_take (current x : α) : (walk.take current).waits x ↔ walk.waits x := by
  rw [Walk.take]
  split <;> rfl

theorem passed_visit (current : α) :
    Passed (spread (walk.marks current)) ((graph.parents current).take maxParents) (walk.take current)
      (visit graph walk current) :=
  passed_parents graph _ _ _

end

end Round

/-! ## No mark is wrong -/

section Marks
variable {α : Type} [DecidableEq α] {graph : CommitGraph α} {one : α} {twos : List α}

structure Sound (graph : CommitGraph α) (one : α) (twos : List α) (walk : Walk α) : Prop where
  left : ∀ x, .parent1 ∈ walk.marks x → Reaches graph.parents one x
  right : ∀ x, .parent2 ∈ walk.marks x → ∃ two ∈ twos, Reaches graph.parents two x
  stale : ∀ x, .stale ∈ walk.marks x → ∃ y, Common graph.parents one twos y ∧ Descends graph.parents y x
  found : ∀ x ∈ walk.found, Common graph.parents one twos x
  listed : ∀ x, .result ∈ walk.marks x ↔ x ∈ walk.found
  distinct : walk.found.Nodup

variable {walk : Walk α}

omit [DecidableEq α] in
theorem Sound.common (sound : Sound graph one twos walk) {x : α}
    (both : (walk.marks x).erase .result = {.parent1, .parent2}) : Common graph.parents one twos x := by
  have marked (flag : Flag) (side : flag ∈ ({.parent1, .parent2} : Finset Flag)) : flag ∈ walk.marks x :=
    Finset.mem_of_mem_erase (both.symm ▸ side)
  exact ⟨sound.left x (marked _ (by decide)), sound.right x (marked _ (by decide))⟩

theorem Sound.take (sound : Sound graph one twos walk) (current : α) : Sound graph one twos (walk.take current) := by
  refine ⟨fun x marked => sound.left x ((take_marks (by decide)).1 marked),
    fun x marked => sound.right x ((take_marks (by decide)).1 marked),
    fun x marked => sound.stale x ((take_marks (by decide)).1 marked), ?_, ?_, ?_⟩
  all_goals rw [Walk.take]; split
  next ready => exact forall_mem_append.2 ⟨sound.found, forall_mem_singleton.2 (sound.common ready.1)⟩
  · exact sound.found
  · intro x
    simp only [mem_mark, Finset.mem_singleton, and_true, mem_append, mem_singleton, sound.listed]
  · exact sound.listed
  next ready =>
    have fresh : current ∉ walk.found := fun old => ready.2 ((sound.listed current).2 old)
    exact nodup_append.2 ⟨sound.distinct, nodup_singleton _,
      fun x old y new same => fresh (mem_singleton.1 new ▸ same ▸ old)⟩
  · exact sound.distinct

omit [DecidableEq α] in
theorem Sound.pass {after : Walk α} (sound : Sound graph one twos walk) {current : α} {parents : List α}
    (links : ∀ x ∈ parents, x ∈ graph.parents current)
    (passed : Passed (spread (walk.marks current)) parents walk after) : Sound graph one twos after := by
  have old (x : α) (flag : Flag) (marked : flag ∈ after.marks x) :
      flag ∈ walk.marks x ∨ (x ∈ graph.parents current ∧ flag ∈ spread (walk.marks current)) :=
    ((passed.marks x flag).1 marked).imp_right (And.imp_left (links x))
  refine ⟨fun x marked => ?_, fun x marked => ?_, fun x marked => ?_, ?_, fun x => ?_, ?_⟩
  · rcases old x _ marked with before | ⟨link, new⟩
    · exact sound.left x before
    · rcases mem_spread.1 new with ⟨-, here⟩ | ⟨impossible, -⟩
      · exact (sound.left current here).tail link
      · cases impossible
  · rcases old x _ marked with before | ⟨link, new⟩
    · exact sound.right x before
    · rcases mem_spread.1 new with ⟨-, here⟩ | ⟨impossible, -⟩
      · obtain ⟨two, listed, path⟩ := sound.right current here
        exact ⟨two, listed, path.tail link⟩
      · cases impossible
  · rcases old x _ marked with before | ⟨link, new⟩
    · exact sound.stale x before
    · rcases mem_spread.1 new with ⟨-, here⟩ | ⟨-, both⟩
      · obtain ⟨y, common, down⟩ := sound.stale current here
        exact ⟨y, common, down.tail link⟩
      · exact ⟨current, sound.common both, .single link⟩
  · exact passed.found ▸ sound.found
  · rw [passed.found, passed.marks, sound.listed]
    exact or_iff_left fun new => result_not_mem_spread new.2
  · exact passed.found ▸ sound.distinct

theorem Sound.visit (sound : Sound graph one twos walk) (current : α) :
    Sound graph one twos (visit graph walk current) := by
  have passed := passed_visit graph walk current
  rw [← spread_take walk current current] at passed
  exact (sound.take current).pass (fun x member => mem_of_mem_take member) passed

end Marks

/-! ## Every mark is passed on -/

section Carry
variable {α : Type} [DecidableEq α] {graph : CommitGraph α} {one : α} {twos : List α}

/-- The starts are marked; a commit that does not wait has passed on what it carries, and is a result where it
carries both sides' marks alone. -/
structure Carried (graph : CommitGraph α) (one : α) (twos : List α) (walk : Walk α) : Prop where
  left : .parent1 ∈ walk.marks one
  right : ∀ two ∈ twos, .parent2 ∈ walk.marks two
  passed : ∀ x, walk.waits x ∨ ∀ y ∈ (graph.parents x).take maxParents, spread (walk.marks x) ⊆ walk.marks y
  taken : ∀ x, (walk.marks x).erase .result = {.parent1, .parent2} → walk.waits x ∨ x ∈ walk.found

theorem Carried.visit {walk rest : Walk α} {current : α} (carried : Carried graph one twos walk)
    (sound : Sound graph one twos walk) (marks : rest.marks = walk.marks) (found : rest.found = walk.found)
    (waits : ∀ x, walk.waits x ↔ x = current ∨ rest.waits x) : Carried graph one twos (visit graph rest current) := by
  have passed := passed_visit graph rest current
  have grows (x : α) (flag : Flag) (other : flag ≠ .result) (marked : flag ∈ rest.marks x) :
      flag ∈ (History.visit graph rest current).marks x :=
    (passed.marks x flag).2 (.inl ((take_marks other).2 marked))
  have spreads (x y : α) (before : spread (rest.marks x) ⊆ rest.marks y) :
      spread (rest.marks x) ⊆ (History.visit graph rest current).marks y := by
    intro flag member
    have other : flag ≠ .result := fun same => result_not_mem_spread (same ▸ member)
    exact grows y flag other (before member)
  refine ⟨grows one _ (by decide) (marks ▸ carried.left), ?_, fun x => ?_, fun x both => ?_⟩
  · exact fun two listed => grows two _ (by decide) (marks ▸ carried.right two listed)
  · rcases passed.changed x with later | same
    · exact .inl later
    · rw [same, spread_take]
      by_cases here : x = current
      · subst here
        exact .inr fun y link flag member => (passed.marks y flag).2 (.inr ⟨link, member⟩)
      rcases carried.passed x with waiting | before
      · rcases (waits x).1 waiting with same | still
        · exact absurd same here
        · exact .inl (passed.waits x ((waits_take rest current x).2 still))
      · exact .inr fun y link => spreads x y (marks ▸ before y link)
  · rcases passed.changed x with later | same
    · exact .inl later
    · rw [same, erase_take] at both
      rw [passed.found]
      by_cases here : x = current
      · subst here
        by_cases listed : .result ∈ rest.marks x
        · have old := (sound.listed x).1 (marks ▸ listed)
          exact .inr ((found_take rest x).1 x (found.symm ▸ old))
        · exact .inr ((found_take rest x).2 both listed)
      · rcases carried.taken x (marks ▸ both) with waiting | old
        · rcases (waits x).1 waiting with same | still
          · exact absurd same here
          · exact .inl (passed.waits x ((waits_take rest current x).2 still))
        · exact .inr ((found_take rest current).1 x (found.symm ▸ old))

end Carry

/-! ## The walk ends -/

section Ends
variable {α : Type} [DecidableEq α] {graph : CommitGraph α}

def unpainted (marks : Finset Flag) : Nat := (({.parent1, .parent2, .stale} : Finset Flag) \ marks).card

theorem unpainted_le (marks : Finset Flag) : unpainted marks ≤ 3 := Finset.card_le_card Finset.sdiff_subset

theorem unpainted_mono {before after : Finset Flag} (wider : before ⊆ after) : unpainted after ≤ unpainted before :=
  Finset.card_le_card (Finset.sdiff_subset_sdiff (Finset.Subset.refl _) wider)

theorem unpainted_lt (colours : .result ∉ flags) (new : ¬ flags ⊆ marks) :
    unpainted (marks ∪ flags) < unpainted marks := by
  obtain ⟨flag, member, fresh⟩ := Finset.not_subset.1 new
  have colour : flag ∈ ({.parent1, .parent2, .stale} : Finset Flag) := by
    cases flag with
    | result => exact absurd member colours
    | _ => decide
  refine Finset.card_lt_card (Finset.ssubset_iff_subset_ne.2 ⟨?_, ?_⟩)
  · exact Finset.sdiff_subset_sdiff (Finset.Subset.refl _) Finset.subset_union_left
  · intro same
    have kept : flag ∈ ({.parent1, .parent2, .stale} : Finset Flag) \ marks := Finset.mem_sdiff.2 ⟨colour, fresh⟩
    rw [← same, Finset.mem_sdiff] at kept
    exact kept.2 (Finset.mem_union_right _ member)

def Walk.work (nodes : Finset α) (walk : Walk α) : Nat :=
  walk.queue.length + ∑ x ∈ nodes, unpainted (walk.marks x)

variable {nodes : Finset α}

theorem work_parent (colours : .result ∉ flags) (walk : Walk α) {parent : α} (inside : parent ∈ nodes) :
    (paintParent graph flags walk parent).work nodes ≤ walk.work nodes := by
  rw [paintParent]
  split
  · exact le_rfl
  next new =>
    have fewer : ∑ x ∈ nodes, unpainted ((walk.mark parent flags).marks x) < ∑ x ∈ nodes, unpainted (walk.marks x) := by
      refine Finset.sum_lt_sum (fun x _ => unpainted_mono fun flag member => mem_mark.2 (.inl member)) ?_
      refine ⟨parent, inside, ?_⟩
      rw [mark_self]
      exact unpainted_lt colours new
    have longer : (walk.queue ++ [(⟨parent, graph.date parent, walk.counter⟩ : Waiting α)]).length =
        walk.queue.length + 1 := by simp
    calc ((walk.mark parent flags).put parent (graph.date parent)).work nodes
        = walk.queue.length + 1 + ∑ x ∈ nodes, unpainted ((walk.mark parent flags).marks x) := by
          rw [← longer]; rfl
      _ ≤ walk.work nodes := by rw [Walk.work]; omega

theorem work_parents (colours : .result ∉ flags) (parents : List α) (inside : ∀ x ∈ parents, x ∈ nodes)
    (walk : Walk α) : (parents.foldl (paintParent graph flags) walk).work nodes ≤ walk.work nodes := by
  induction parents generalizing walk with
  | nil => exact le_rfl
  | cons parent parents ih =>
    have later := ih (fun x member => inside x (.tail _ member)) (paintParent graph flags walk parent)
    exact later.trans (work_parent colours walk (inside parent (.head _)))

theorem work_take (nodes : Finset α) (walk : Walk α) (current : α) :
    (walk.take current).work nodes ≤ walk.work nodes := by
  rw [Walk.take]
  split
  · refine Nat.add_le_add_left (Finset.sum_le_sum fun x _ => unpainted_mono fun flag member => ?_) _
    exact mem_mark.2 (.inl member)
  · exact le_rfl

theorem work_visit (acyclic : Acyclic graph.parents nodes) (walk : Walk α) {current : α} (inside : current ∈ nodes) :
    (visit graph walk current).work nodes ≤ walk.work nodes := by
  refine (work_parents result_not_mem_spread _ (fun x member => ?_) _).trans (work_take nodes walk current)
  exact acyclic.closed current inside x (mem_of_mem_take member)

end Ends

/-! ## The whole walk -/

section Run
variable {α : Type} [DecidableEq α] {graph : CommitGraph α} {nodes : Finset α} {one : α} {twos : List α}

structure Walking (graph : CommitGraph α) (nodes : Finset α) (one : α) (twos : List α) (walk : Walk α) : Prop where
  sound : Sound graph one twos walk
  carried : Carried graph one twos walk
  inside : ∀ x, walk.waits x → x ∈ nodes

theorem Walking.visit {walk : Walk α} (walking : Walking graph nodes one twos walk)
    (acyclic : Acyclic graph.parents nodes) {current : α} {queue : List (Waiting α)}
    (got : queueGet walk.queue = some (current, queue)) :
    Walking graph nodes one twos (visit graph { walk with queue } current) ∧
      (History.visit graph { walk with queue } current).work nodes < walk.work nodes := by
  obtain ⟨item, rfl, order⟩ := queueGet_perm got
  have waits (x : α) : walk.waits x ↔ x = item.sha ∨ ({ walk with queue } : Walk α).waits x := by
    simp only [Walk.waits, order.mem_iff, mem_cons, or_and_right, exists_or, exists_eq_left]
    rw [eq_comm]
  have here : item.sha ∈ nodes := walking.inside _ ((waits _).2 (.inl rfl))
  have rest : Sound graph one twos { walk with queue } :=
    ⟨walking.sound.left, walking.sound.right, walking.sound.stale, walking.sound.found, walking.sound.listed,
      walking.sound.distinct⟩
  refine ⟨⟨rest.visit _, walking.carried.visit walking.sound rfl rfl waits, fun x waiting => ?_⟩, ?_⟩
  · rcases (passed_visit graph _ _).queued x waiting with before | link
    · exact walking.inside x ((waits x).2 (.inr ((waits_take _ _ _).1 before)))
    · exact acyclic.closed _ here x (mem_of_mem_take link)
  · have taken : ({ walk with queue } : Walk α).work nodes + 1 = walk.work nodes := by
      have length := order.length_eq
      rw [length_cons] at length
      simp only [Walk.work]
      omega
    have after := work_visit acyclic { walk with queue } here
    omega

theorem Walking.run (acyclic : Acyclic graph.parents nodes) (rounds : Nat) {walk : Walk α}
    (walking : Walking graph nodes one twos walk) (enough : walk.work nodes < rounds) :
    ∃ last, paintLoop graph rounds walk = some last ∧ Walking graph nodes one twos last ∧
      ∀ x, last.waits x → .stale ∈ last.marks x := by
  induction rounds generalizing walk with
  | zero => cases enough
  | succ rounds ih =>
    rw [paintLoop]
    split
    · split
      next empty =>
        refine ⟨walk, rfl, walking, fun x ⟨item, member, _⟩ => ?_⟩
        cases queue : walk.queue with
        | nil => rw [queue] at member; cases member
        | cons first others => rw [queue] at empty; cases empty
      next current queue got =>
        have step := walking.visit acyclic got
        exact ih step.1 (by omega)
    next idle =>
      refine ⟨walk, rfl, walking, ?_⟩
      rintro x ⟨item, member, rfl⟩
      have none := any_eq_false.1 (Bool.not_eq_true _ ▸ idle) item member
      simpa using none

theorem starts (graph : CommitGraph α) (flag : Flag) (shas : List α) (walk : Walk α) :
    (∀ x other, other ∈ (shas.foldl (Walk.start graph flag) walk).marks x ↔
        other ∈ walk.marks x ∨ (x ∈ shas ∧ other = flag)) ∧
      (∀ x, (shas.foldl (Walk.start graph flag) walk).waits x ↔ walk.waits x ∨ x ∈ shas) ∧
      (shas.foldl (Walk.start graph flag) walk).found = walk.found ∧
      (shas.foldl (Walk.start graph flag) walk).queue.length = walk.queue.length + shas.length := by
  induction shas generalizing walk with
  | nil => simp
  | cons sha shas ih =>
    obtain ⟨marks, waits, found, length⟩ := ih (Walk.start graph flag walk sha)
    refine ⟨fun x other => ?_, fun x => ?_, found, ?_⟩
    · rw [foldl_cons, marks, Walk.start, marks_put, mem_mark, Finset.mem_singleton, mem_cons, or_and_right, or_assoc]
    · rw [foldl_cons, waits, Walk.start, waits_put, waits_mark, mem_cons, or_assoc]
    · rw [foldl_cons, length, Walk.start, length_cons]
      simp [Walk.put, Walk.mark]
      omega

theorem paintStart_spec (graph : CommitGraph α) (one : α) (twos : List α) :
    (∀ x flag, flag ∈ (paintStart graph one twos).marks x ↔ (x = one ∧ flag = .parent1) ∨
      (x ∈ twos ∧ flag = .parent2)) ∧
      (∀ x, (paintStart graph one twos).waits x ↔ x = one ∨ x ∈ twos) ∧
      (paintStart graph one twos).found = [] ∧ (paintStart graph one twos).queue.length = twos.length + 1 := by
  obtain ⟨marks, waits, found, length⟩ :=
    starts graph .parent2 twos (Walk.start graph .parent1 ⟨fun _ => ∅, [], 0, []⟩ one)
  refine ⟨fun x flag => ?_, fun x => ?_, found, ?_⟩
  · rw [paintStart, marks, Walk.start, marks_put, mem_mark]
    simp
  · rw [paintStart, waits, Walk.start, waits_put, waits_mark]
    simp [Walk.waits]
  · rw [paintStart, length, Walk.start]
    simp [Walk.put, Walk.mark, add_comm]

theorem paintStart_walking (graph : CommitGraph α) (left : one ∈ nodes)
    (right : ∀ two ∈ twos, two ∈ nodes) : Walking graph nodes one twos (paintStart graph one twos) := by
  obtain ⟨marks, waits, found, -⟩ := paintStart_spec graph one twos
  have bare (x : α) (idle : ¬ (paintStart graph one twos).waits x) : (paintStart graph one twos).marks x = ∅ := by
    refine Finset.eq_empty_of_forall_notMem fun flag member => idle ((waits x).2 ?_)
    exact ((marks x flag).1 member).imp And.left And.left
  refine ⟨⟨fun x marked => ?_, fun x marked => ?_, fun x marked => ?_, ?_, fun x => ?_, ?_⟩,
    ⟨?_, ?_, fun x => ?_, fun x both => ?_⟩,
    fun x waiting => ?_⟩
  · rcases (marks x _).1 marked with ⟨rfl, -⟩ | ⟨-, impossible⟩
    · exact .refl
    · cases impossible
  · rcases (marks x _).1 marked with ⟨-, impossible⟩ | ⟨listed, -⟩
    · cases impossible
    · exact ⟨x, listed, .refl⟩
  · rcases (marks x _).1 marked with ⟨-, impossible⟩ | ⟨-, impossible⟩ <;> cases impossible
  · rw [found]
    exact nofun
  · rw [found]
    simp [marks]
  · rw [found]
    exact nodup_nil
  · exact (marks one _).2 (.inl ⟨rfl, rfl⟩)
  · exact fun two listed => (marks two _).2 (.inr ⟨listed, rfl⟩)
  · by_cases waiting : (paintStart graph one twos).waits x
    · exact .inl waiting
    · refine .inr fun y _ flag member => ?_
      rw [bare x waiting] at member
      exact absurd member (by revert flag; decide)
  · by_contra idle
    rw [bare x (fun waiting => idle (.inl waiting))] at both
    exact absurd both (by decide)
  · rcases (waits x).1 waiting with rfl | listed
    · exact left
    · exact right x listed

theorem paintStart_work (graph : CommitGraph α) (nodes : Finset α) (one : α) (twos : List α) :
    (paintStart graph one twos).work nodes ≤ twos.length + 1 + 3 * nodes.card := by
  obtain ⟨-, -, -, length⟩ := paintStart_spec graph one twos
  have sum : ∑ x ∈ nodes, unpainted ((paintStart graph one twos).marks x) ≤ nodes.card • 3 :=
    Finset.sum_le_card_nsmul _ _ _ fun x _ => unpainted_le _
  rw [Walk.work]
  rw [nsmul_eq_mul, Nat.cast_id] at sum
  omega

omit [DecidableEq α] in
/-- Down a path to a best common ancestor nothing is stale, so nothing on it waits at the end and a mark at its
start has come all the way. -/
theorem marked_of_reaches {last : Walk α} (walking : Walking graph nodes one twos last)
    (acyclic : Acyclic graph.parents nodes) (narrow : ∀ x ∈ nodes, (graph.parents x).length ≤ maxParents)
    (done : ∀ x, last.waits x → .stale ∈ last.marks x) {x y : α} (best : Best graph.parents one twos y)
    (path : Reaches graph.parents x y) (inside : x ∈ nodes) (colour : flag ≠ .result) (marked : flag ∈ last.marks x) :
    flag ∈ last.marks y := by
  induction path using Relation.ReflTransGen.head_induction_on with
  | refl => exact marked
  | head link rest ih =>
    rename_i x z
    refine ih (acyclic.closed x inside z link) ?_
    have idle : ¬ last.waits x := by
      intro waiting
      obtain ⟨w, common, down⟩ := walking.sound.stale x (done x waiting)
      exact best.2 w common (down.trans_left (.head link rest))
    have within : z ∈ (graph.parents x).take maxParents := by
      rwa [take_of_length_le (narrow x inside)]
    exact (walking.carried.passed x).resolve_left idle z within (mem_spread.2 (.inl ⟨colour, marked⟩))

theorem paintDown_spec (rounds : Nat) (acyclic : Acyclic graph.parents nodes)
    (narrow : ∀ x ∈ nodes, (graph.parents x).length ≤ maxParents) (left : one ∈ nodes)
    (right : ∀ two ∈ twos, two ∈ nodes) (enough : twos.length + 3 * nodes.card + 1 < rounds) :
    ∃ bases, paintDown graph rounds one twos = some bases ∧ bases.Nodup ∧
      (∀ x ∈ bases, Common graph.parents one twos x) ∧ ∀ x, Best graph.parents one twos x → x ∈ bases := by
  have work := paintStart_work graph nodes one twos
  obtain ⟨last, ran, walking, done⟩ := (paintStart_walking graph left right).run acyclic rounds (by omega)
  refine ⟨last.found, by rw [paintDown, ran]; rfl, walking.sound.distinct, walking.sound.found, fun x best => ?_⟩
  obtain ⟨first, two, listed, second⟩ := best.1
  have one' := marked_of_reaches walking acyclic narrow done best first left (by decide) walking.carried.left
  have two' := marked_of_reaches walking acyclic narrow done best second (right two listed) (by decide)
    (walking.carried.right two listed)
  have fresh : .stale ∉ last.marks x := by
    intro stale
    obtain ⟨y, common, down⟩ := walking.sound.stale x stale
    exact best.2 y common down
  have both : (last.marks x).erase .result = {.parent1, .parent2} := by
    ext flag
    cases flag <;> simp [one', two', fresh]
  exact (walking.carried.taken x both).resolve_left fun waiting => fresh (done x waiting)

end Run

/-! ## Ancestors and merge bases -/

section Bases
variable {α : Type} [DecidableEq α] {graph : CommitGraph α} {nodes : Finset α} (acyclic : Acyclic graph.parents nodes)
  (narrow : ∀ x ∈ nodes, (graph.parents x).length ≤ maxParents)
include acyclic narrow

theorem isAncestor_spec {ancestor commit : α} (left : ancestor ∈ nodes) (right : commit ∈ nodes) {rounds : Nat}
    (enough : 3 * nodes.card + 2 < rounds) :
    ∃ answer, isAncestor graph rounds ancestor commit = some answer ∧
      (answer = true ↔ Reaches graph.parents commit ancestor) := by
  rw [isAncestor]
  split
  next same => exact ⟨true, rfl, by simp [same, Reaches, Relation.ReflTransGen.refl]⟩
  · obtain ⟨bases, ran, -, sound, complete⟩ := paintDown_spec rounds acyclic narrow left
      (fun two listed => mem_singleton.1 listed ▸ right) (by rw [length_singleton]; omega)
    refine ⟨decide (ancestor ∈ bases), by rw [ran]; rfl, ?_⟩
    rw [decide_eq_true_iff]
    constructor
    · intro member
      obtain ⟨-, two, listed, path⟩ := sound ancestor member
      exact mem_singleton.1 listed ▸ path
    · intro path
      -- the ancestor itself is common, and no ancestor of its own descends to it
      refine complete ancestor ⟨⟨.refl, commit, .head _, path⟩, fun y common down => ?_⟩
      exact acyclic.loopless ancestor left (Relation.TransGen.trans_right common.1 down)

theorem removeRedundant_spec (rounds : Nat) {list : List α} (inside : ∀ x ∈ list, x ∈ nodes)
    (distinct : list.Nodup) (enough : 3 * nodes.card + 2 < rounds) :
    ∃ kept, removeRedundant graph rounds list = some kept ∧ kept.Nodup ∧
      ∀ x, x ∈ kept ↔ x ∈ list ∧ ∀ y ∈ list, ¬ Descends graph.parents y x := by
  refine sieve_exact (fun x y => Descends graph.parents y x) distinct
    (fun x member => acyclic.loopless x (inside x member)) (fun a b c first second => second.trans first) ?_
  intro x here y there other
  obtain ⟨answer, ran, means⟩ := isAncestor_spec acyclic narrow (inside x here) (inside y there) enough
  refine ⟨answer, ran, means.trans ?_⟩
  rw [Reaches, Relation.reflTransGen_iff_eq_or_transGen]
  exact or_iff_right other

theorem mergeBasesMany_spec {one : α} {twos : List α} (left : one ∈ nodes)
    (right : ∀ two ∈ twos, two ∈ nodes) {rounds : Nat} (enough : twos.length + 3 * nodes.card + 2 < rounds) :
    ∃ bases, mergeBasesMany graph rounds one twos = some bases ∧ bases.Nodup ∧
      ∀ x, x ∈ bases ↔ Best graph.parents one twos x := by
  rw [mergeBasesMany]
  split
  next both =>
    refine ⟨[one], rfl, nodup_singleton _, fun x => ?_⟩
    rw [mem_singleton, best_iff_of_common acyclic left ⟨.refl, one, both, .refl⟩]
  · obtain ⟨found, ran, distinct, sound, complete⟩ := paintDown_spec rounds acyclic narrow left right (by omega)
    obtain ⟨kept, sieved, once, exact⟩ := removeRedundant_spec acyclic narrow rounds
      (fun x member => (sound x member).mem acyclic left) distinct (by omega)
    refine ⟨kept, by rw [ran]; exact sieved, once, fun x => (exact x).trans ?_⟩
    constructor
    · rintro ⟨member, free⟩
      refine ⟨sound x member, fun y common down => ?_⟩
      -- what is above the candidate is below a best one, and that was found
      obtain ⟨top, best, path⟩ := common.exists_best acyclic left
      exact free top (complete top best) (Relation.TransGen.trans_right path down)
    · intro best
      exact ⟨complete x best, fun y member => best.2 y (sound y member)⟩

/-- The test for an ancestor agrees with the bases. -/
theorem ancestor_iff_only_base {one two : α} (left : one ∈ nodes) (right : two ∈ nodes) {rounds : Nat}
    (enough : 3 * nodes.card + 3 < rounds) :
    isAncestor graph rounds one two = some true ↔ mergeBasesMany graph rounds one [two] = some [one] := by
  obtain ⟨answer, told, means⟩ := isAncestor_spec acyclic narrow left right (Nat.lt_of_succ_lt enough)
  obtain ⟨bases, ran, once, best⟩ := mergeBasesMany_spec acyclic narrow left (forall_mem_singleton.2 right)
    (by rw [length_singleton]; omega : _ < rounds)
  rw [told, ran, Option.some.injEq, Option.some.injEq, means]
  constructor
  · intro path
    have own : Common graph.parents one [two] one := ⟨.refl, two, .head _, path⟩
    refine perm_singleton.1 ((perm_ext_iff_of_nodup once (nodup_singleton _)).2 fun x => ?_)
    rw [best, best_iff_of_common acyclic left own, mem_singleton]
  · rintro rfl
    obtain ⟨⟨-, other, same, path⟩, -⟩ := (best one).1 (.head _)
    exact mem_singleton.1 same ▸ path

omit acyclic narrow

/-- Whatever the dates, ancestry and merge bases are exact: in a finite graph without cycles where no commit has
more parents than are read, the walk ends, an ancestor is told from what is none, and the bases are the common
ancestors that are no proper ancestor of another, each once. -/
theorem merge_bases_exact (graph : CommitGraph α) (nodes : Finset α) (acyclic : Acyclic graph.parents nodes)
    (narrow : ∀ x ∈ nodes, (graph.parents x).length ≤ maxParents) :
    (∀ ancestor ∈ nodes, ∀ commit ∈ nodes, ∃ enough, ∀ rounds ≥ enough,
      ∃ answer, isAncestor graph rounds ancestor commit = some answer ∧
        (answer = true ↔ Reaches graph.parents commit ancestor)) ∧
    ∀ one ∈ nodes, ∀ twos : List α, (∀ two ∈ twos, two ∈ nodes) → ∃ enough, ∀ rounds ≥ enough,
      ∃ bases, mergeBasesMany graph rounds one twos = some bases ∧ bases.Nodup ∧
        ∀ x, x ∈ bases ↔ Best graph.parents one twos x := by
  constructor
  · intro ancestor left commit right
    refine ⟨3 * nodes.card + 3, fun rounds enough => ?_⟩
    exact isAncestor_spec acyclic narrow left right (by omega)
  · intro one left twos right
    refine ⟨twos.length + 3 * nodes.card + 3, fun rounds enough => ?_⟩
    exact mergeBasesMany_spec acyclic narrow left right (by omega)

end Bases

def crissCross : CommitGraph Nat where
  parents
    | 1 => [0]
    | 2 => [0]
    | 3 => [1, 2]
    | 4 => [2, 1]
    | _ => []
  date commit := -Int.ofNat commit

theorem crissCross_acyclic : Acyclic crissCross.parents {0, 1, 2, 3, 4} := by
  have older (x y : Nat) (link : y ∈ crissCross.parents x) : y < x := by
    simp only [crissCross] at link
    split at link <;> simp at link <;> omega
  have down (x y : Nat) (path : Descends crissCross.parents x y) : y < x := by
    induction path with
    | single link => exact older _ _ link
    | tail _ link ih => exact lt_trans (older _ _ link) ih
  exact ⟨by decide, fun x _ loop => lt_irrefl x (down x x loop)⟩

theorem merge_bases_criss_cross :
    ∃ enough, ∀ rounds ≥ enough, ∃ bases, mergeBasesMany crissCross rounds 3 [4] = some bases ∧ bases.Nodup ∧
      ∀ x, x ∈ bases ↔ Best crissCross.parents 3 [4] x :=
  (merge_bases_exact crissCross {0, 1, 2, 3, 4} crissCross_acyclic (by decide)).2 3 (by decide) [4] (by decide)

theorem ancestor_criss_cross : isAncestor crissCross 20 1 3 = some true ↔
    mergeBasesMany crissCross 20 1 [3] = some [1] :=
  ancestor_iff_only_base crissCross_acyclic (by decide) (by decide) (by decide) (by decide)

example : mergeBasesMany crissCross 20 3 [4] = some [1, 2] := by decide +kernel

end BashOs.Git.History

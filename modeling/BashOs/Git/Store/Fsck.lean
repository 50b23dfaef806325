import BashOs.Git.Store.Gc

/-!
The reachability walk of `git fsck` and `git prune` as it runs: objects in a list sorted by the text of their names and
looked up by bisection, marks on them, a stack of names still to visit, and the names that something points at and the
list does not have.

Names are texts of forty digits. The list spells them in lower case; a commit or a tag may spell the same id in
capitals.
-/

namespace BashOs.Git
open BashOs.Lib List

/-! ## The walk -/

structure FsckObject where
  sha : Bytes
  present : Bool
  reachable : Bool

structure FsckAbsent where
  sha : Bytes
  type : Option ObjectType

/-- `git_fsck` and `git_fsck_walk`, the stack with its top first -/
structure Fsck where
  objects : List FsckObject
  absent : List FsckAbsent
  pending : List Bytes

def fsckFindLoop (objects : List FsckObject) (sha : Bytes) : Nat → Nat → Nat → Option Nat
  | 0, _, _ => none
  | turns + 1, low, high =>
    if low < high then
      let mid := low + (high - low) / 2
      match objects[mid]? with
      | none => none
      | some object =>
        if object.sha < sha then fsckFindLoop objects sha turns (mid + 1) high
        else if sha < object.sha then fsckFindLoop objects sha turns low mid
        else some mid
    else none

def fsckFind (objects : List FsckObject) (sha : Bytes) : Option Nat :=
  fsckFindLoop objects sha objects.length 0 objects.length

def absentNote (absent : List FsckAbsent) (sha : Bytes) (type : Option ObjectType) : List FsckAbsent :=
  if absent.any fun entry => entry.sha = sha then
    absent.map fun entry => if entry.sha = sha ∧ entry.type.isNone then { entry with type } else entry
  else absent ++ [⟨sha, type⟩]

def fsckPush (f : Fsck) (sha : Bytes) : Fsck :=
  match (fsckFind f.objects sha).bind fun place => f.objects[place]? with
  | none => { f with absent := absentNote f.absent sha none }
  | some object => if !object.present || object.reachable then f else { f with pending := sha :: f.pending }

def fsckFollow (f : Fsck) (child : Bytes × ObjectType) : Fsck :=
  match (fsckFind f.objects child.1).bind fun place => f.objects[place]? with
  | some object =>
    if object.present then fsckPush f child.1 else { f with absent := absentNote f.absent child.1 (some child.2) }
  | none => { f with absent := absentNote f.absent child.1 (some child.2) }

/-- `git_fsck_reach`, for as many turns as are given. -/
def reachLoop (read : Bytes → Option Object) : Nat → Fsck → Option Fsck
  | 0, _ => none
  | turns + 1, f =>
    match f.pending with
    | [] => some f
    | sha :: rest =>
      match fsckFind f.objects sha with
      | none => reachLoop read turns { f with pending := rest }
      | some place =>
        match f.objects[place]? with
        | none => reachLoop read turns { f with pending := rest }
        | some object =>
          if !object.present || object.reachable then reachLoop read turns { f with pending := rest }
          else
            let marked := { f with
              pending := rest, objects := f.objects.set place { object with reachable := true } }
            reachLoop read turns (((read sha).elim [] linkNames).foldl fsckFollow marked)

abbrev Store := List (ObjectId × Object)

/-- The names of a store as `bgit_odb_list` gives them: sorted, and one of each. -/
def storeNames (store : Store) : List Bytes :=
  ((store.map fun entry => entry.1.hex).insertionSort (· ≤ ·)).dedup

/-- `bgit_odb_read` of a name in the list -/
def storeRead (store : Store) (sha : Bytes) : Option Object := (idOfHex sha).bind fun id => store.lookup id

/-- The walk before it starts: `git_fsck_collect`, with every object there, and the heads pushed. -/
def fsckStart (store : Store) (heads : List Bytes) : Fsck :=
  heads.foldl fsckPush
    { objects := (storeNames store).map fun sha => ⟨sha, true, false⟩, absent := [], pending := [] }

/-! ## Looking a name up -/

section Find
variable {objects : List FsckObject} {sha : Bytes}

theorem getElem?_sha_lt (sorted : (objects.map FsckObject.sha).Pairwise (· < ·)) {i j : Nat} {a b : FsckObject}
    (first : objects[i]? = some a) (second : objects[j]? = some b) (before : i < j) : a.sha < b.sha := by
  obtain ⟨left, rfl⟩ := List.getElem?_eq_some_iff.1 first
  obtain ⟨right, rfl⟩ := List.getElem?_eq_some_iff.1 second
  exact pairwise_iff_getElem.1 (pairwise_map.1 sorted) i j left right before

theorem not_in_closed_range {low high : Nat} (closed : high ≤ low)
    (below : ∀ i object, i < low → objects[i]? = some object → object.sha < sha)
    (above : ∀ i object, high ≤ i → objects[i]? = some object → sha < object.sha) :
    ∀ object ∈ objects, object.sha ≠ sha := by
  intro object member same
  obtain ⟨i, here⟩ := mem_iff_getElem?.1 member
  obtain before | after := Nat.lt_or_ge i low
  · exact List.lt_irrefl _ (same ▸ below i object before here)
  · exact List.lt_irrefl _ (same ▸ above i object (Nat.le_trans closed after) here)

section
variable (sorted : (objects.map FsckObject.sha).Pairwise (· < ·))
include sorted

theorem fsckFindLoop_spec {turns low high : Nat} (enough : high - low ≤ turns) (inside : high ≤ objects.length)
    (below : ∀ i object, i < low → objects[i]? = some object → object.sha < sha)
    (above : ∀ i object, high ≤ i → objects[i]? = some object → sha < object.sha) :
    (∃ i object, fsckFindLoop objects sha turns low high = some i ∧ objects[i]? = some object ∧ object.sha = sha) ∨
      (fsckFindLoop objects sha turns low high = none ∧ ∀ object ∈ objects, object.sha ≠ sha) := by
  induction turns generalizing low high with
  | zero => exact .inr ⟨rfl, not_in_closed_range (by omega) below above⟩
  | succ turns ih =>
    rw [fsckFindLoop]
    split
    next wide =>
      dsimp only
      generalize middle : low + (high - low) / 2 = mid
      have room : mid < objects.length := by omega
      have here := List.getElem?_eq_getElem room
      rw [here]
      generalize objects[mid] = object at here
      dsimp only
      split
      next smaller =>
        refine ih (by omega) inside ?_ above
        intro i other before there
        obtain rfl | before := Nat.eq_or_lt_of_le (Nat.lt_succ_iff.1 before)
        · cases here.symm.trans there
          exact smaller
        · exact List.lt_trans (getElem?_sha_lt sorted there here before) smaller
      rename_i notSmaller
      split
      next larger =>
        refine ih (by omega) (by omega) below ?_
        intro i other after there
        obtain rfl | after := Nat.eq_or_lt_of_le after
        · cases here.symm.trans there
          exact larger
        · exact List.lt_trans larger (getElem?_sha_lt sorted here there after)
      next notLarger => exact .inl ⟨mid, object, rfl, here, List.le_antisymm notLarger notSmaller⟩
    next closed => exact .inr ⟨rfl, not_in_closed_range (Nat.not_lt.1 closed) below above⟩

theorem fsckFind_spec (sha : Bytes) :
    (∃ i object, fsckFind objects sha = some i ∧ objects[i]? = some object ∧ object.sha = sha) ∨
      (fsckFind objects sha = none ∧ ∀ object ∈ objects, object.sha ≠ sha) := by
  refine fsckFindLoop_spec sorted (Nat.sub_le _ _) le_rfl nofun ?_
  intro i object past here
  rw [getElem?_eq_none past] at here
  cases here

end

end Find

/-! ## One push -/

def Fsck.Marked (f : Fsck) (sha : Bytes) : Prop := ∃ object ∈ f.objects, object.sha = sha ∧ object.reachable = true

def Fsck.Noted (f : Fsck) (sha : Bytes) : Prop := ∃ entry ∈ f.absent, entry.sha = sha

structure Fsck.Lists (f : Fsck) (names : List Bytes) : Prop where
  listed : f.objects.map FsckObject.sha = names
  sorted : names.Pairwise (· < ·)
  there : ∀ object ∈ f.objects, object.present = true

variable {xs rest : List Bytes} {sha text : Bytes} {id : ObjectId}

section Push
variable {f g : Fsck} {names : List Bytes} {sha : Bytes}

theorem mem_absentNote (absent : List FsckAbsent) (sha : Bytes) (type : Option ObjectType) (other : Bytes) :
    (∃ entry ∈ absentNote absent sha type, entry.sha = other) ↔ (∃ entry ∈ absent, entry.sha = other) ∨
      other = sha := by
  rw [absentNote]
  split
  next known =>
    obtain ⟨old, member, same⟩ := any_eq_true.1 known
    have whole : (∃ entry ∈ absent.map (fun entry =>
        if entry.sha = sha ∧ entry.type.isNone then { entry with type := type } else entry), entry.sha = other) ↔
        ∃ entry ∈ absent, entry.sha = other := by
      simp only [mem_map, exists_exists_and_eq_and]
      refine exists_congr fun entry => and_congr_right fun _ => ?_
      split <;> rfl
    rw [whole]
    constructor
    · exact .inl
    · rintro (here | rfl)
      · exact here
      · exact ⟨old, member, by simpa using same⟩
  next unknown =>
    simp only [mem_append, mem_singleton, or_and_right, exists_or, exists_eq_left]
    exact or_congr_right eq_comm

theorem Fsck.Lists.find (lists : f.Lists names) (sha : Bytes) :
    (∃ place object, fsckFind f.objects sha = some place ∧ f.objects[place]? = some object ∧ object.sha = sha ∧
      object.present = true ∧ sha ∈ names ∧ (object.reachable = true ↔ f.Marked sha)) ∨
      (fsckFind f.objects sha = none ∧ sha ∉ names) := by
  have sorted : (f.objects.map FsckObject.sha).Pairwise (· < ·) := by
    rw [lists.listed]
    exact lists.sorted
  obtain ⟨place, object, found, here, same⟩ | ⟨found, nowhere⟩ := fsckFind_spec sorted sha
  · have member := mem_of_getElem? here
    refine .inl ⟨place, object, found, here, same, lists.there object member, ?_, ?_⟩
    · rw [← lists.listed, ← same]
      exact List.mem_map_of_mem member
    · constructor
      · exact fun reached => ⟨object, member, same, reached⟩
      · rintro ⟨other, member', same', reached⟩
        have once : (f.objects.map FsckObject.sha).Nodup :=
          Pairwise.imp (by rintro a _ less rfl; exact List.lt_irrefl a less) sorted
        rwa [inj_on_of_nodup_map once member member' (same.trans same'.symm)]
  · refine .inr ⟨found, fun listed => ?_⟩
    rw [← lists.listed] at listed
    obtain ⟨object, member, same⟩ := List.mem_map.1 listed
    exact nowhere object member same

/-- What it means that some names were pushed: those in the list and not marked wait, the others are noted. -/
structure Pushed (names : List Bytes) (f : Fsck) (xs : List Bytes) (g : Fsck) : Prop where
  objects : g.objects = f.objects
  waits : ∀ y, y ∈ g.pending ↔ y ∈ f.pending ∨ (y ∈ xs ∧ y ∈ names ∧ ¬ f.Marked y)
  notes : ∀ y, g.Noted y ↔ f.Noted y ∨ (y ∈ xs ∧ y ∉ names)
  bound : g.pending.length ≤ f.pending.length + xs.length

theorem Pushed.refl (names : List Bytes) (f : Fsck) : Pushed names f [] f := ⟨rfl, by simp, by simp, le_rfl⟩

theorem Pushed.lists (pushed : Pushed names f xs g) (lists : f.Lists names) : g.Lists names :=
  ⟨by rw [pushed.objects, lists.listed], lists.sorted, by rw [pushed.objects]; exact lists.there⟩

theorem Pushed.marked (pushed : Pushed names f xs g) (y : Bytes) : g.Marked y ↔ f.Marked y := by
  rw [Fsck.Marked, Fsck.Marked, pushed.objects]

theorem Pushed.trans {h : Fsck} {ys : List Bytes} (first : Pushed names f xs g) (second : Pushed names g ys h) :
    Pushed names f (xs ++ ys) h := by
  refine ⟨second.objects.trans first.objects, fun y => ?_, fun y => ?_, ?_⟩
  · rw [second.waits, first.waits, first.marked, mem_append]
    tauto
  · rw [second.notes, first.notes, mem_append]
    tauto
  · have := first.bound
    have := second.bound
    rw [length_append]
    omega

theorem pushed_noted (absent : sha ∉ names) (type : Option ObjectType) :
    Pushed names f [sha] { f with absent := absentNote f.absent sha type } := by
  refine ⟨rfl, fun y => ?_, fun y => ?_, by simp⟩
  · simp only [mem_singleton]
    constructor
    · exact .inl
    · rintro (waiting | ⟨rfl, here, -⟩)
      · exact waiting
      · exact (absent here).elim
  · refine (mem_absentNote f.absent sha type y).trans (or_congr_right ?_)
    rw [mem_singleton]
    exact ⟨fun same => ⟨same, same ▸ absent⟩, fun both => both.1⟩

theorem pushed_fsckPush (lists : f.Lists names) (sha : Bytes) : Pushed names f [sha] (fsckPush f sha) := by
  obtain ⟨place, object, found, here, -, there, listed, marked⟩ | ⟨found, absent⟩ := lists.find sha
  · rw [fsckPush, found, Option.bind_some, here]
    dsimp only
    split
    next old =>
      have done : f.Marked sha := marked.1 (by simpa [there] using old)
      refine ⟨rfl, fun y => ?_, fun y => ?_, by simp⟩
      · rw [mem_singleton]
        exact ⟨.inl, fun either => either.elim id fun new => (new.2.2 (new.1 ▸ done)).elim⟩
      · rw [mem_singleton]
        exact ⟨.inl, fun either => either.elim id fun new => (new.2 (new.1 ▸ listed)).elim⟩
    next fresh =>
      have new : ¬ f.Marked sha := fun done => fresh (by simp [marked.2 done])
      refine ⟨rfl, fun y => ?_, fun y => ?_, by simp⟩
      · rw [mem_cons, mem_singleton, or_comm]
        exact or_congr_right ⟨fun same => ⟨same, same ▸ listed, same ▸ new⟩, fun all => all.1⟩
      · rw [mem_singleton]
        exact ⟨.inl, fun either => either.elim id fun other => (other.2 (other.1 ▸ listed)).elim⟩
  · rw [fsckPush, found]
    exact pushed_noted absent none

theorem pushed_fsckFollow (lists : f.Lists names) (child : Bytes × ObjectType) :
    Pushed names f [child.1] (fsckFollow f child) := by
  obtain ⟨place, object, found, here, -, there, -, -⟩ | ⟨found, absent⟩ := lists.find child.1
  · rw [fsckFollow, found, Option.bind_some, here]
    dsimp only
    rw [there]
    exact pushed_fsckPush lists child.1
  · rw [fsckFollow, found]
    exact pushed_noted absent (some child.2)

theorem pushed_foldl {α : Type} {step : Fsck → α → Fsck} {name : α → Bytes}
    (one : ∀ f x, f.Lists names → Pushed names f [name x] (step f x)) (lists : f.Lists names) (xs : List α) :
    Pushed names f (xs.map name) (xs.foldl step f) := by
  induction xs generalizing f with
  | nil => exact Pushed.refl names f
  | cons x xs ih =>
    have first := one f x lists
    exact first.trans (ih (first.lists lists))

end Push

/-! ## The run -/

section Run
variable {f g : Fsck} {names heads : List Bytes} {read : Bytes → Option Object}

def nameLinks (read : Bytes → Option Object) (sha : Bytes) : List Bytes := ((read sha).elim [] linkNames).map Prod.fst

abbrev Reached (names heads : List Bytes) (read : Bytes → Option Object) (sha : Bytes) : Prop :=
  Reach names (nameLinks read) (fun x => x ∈ heads) sha

def Pointed (names heads : List Bytes) (read : Bytes → Option Object) (sha : Bytes) : Prop :=
  sha ∈ heads ∨ ∃ parent, Reached names heads read parent ∧ sha ∈ nameLinks read parent

def Fsck.Met (f : Fsck) (names : List Bytes) (sha : Bytes) : Prop :=
  (sha ∈ names → f.Marked sha ∨ sha ∈ f.pending) ∧ (sha ∉ names → f.Noted sha)

structure Fsck.Walks (f : Fsck) (names heads : List Bytes) (read : Bytes → Option Object) : Prop where
  lists : f.Lists names
  reached : ∀ sha, f.Marked sha → Reached names heads read sha
  waiting : ∀ sha ∈ f.pending, Reached names heads read sha
  noted : ∀ sha, f.Noted sha → sha ∉ names ∧ Pointed names heads read sha
  heads : ∀ sha ∈ heads, f.Met names sha
  links : ∀ parent, f.Marked parent → ∀ sha ∈ nameLinks read parent, f.Met names sha

theorem Pushed.met (pushed : Pushed names f xs g) (before : f.Met names sha ∨ sha ∈ xs) : g.Met names sha := by
  obtain old | new := before
  · constructor
    · intro here
      obtain marked | waits := old.1 here
      · exact .inl ((pushed.marked sha).2 marked)
      · exact .inr ((pushed.waits sha).2 (.inl waits))
    · exact fun absent => (pushed.notes sha).2 (.inl (old.2 absent))
  · constructor
    · intro here
      by_cases marked : f.Marked sha
      · exact .inl ((pushed.marked sha).2 marked)
      · exact .inr ((pushed.waits sha).2 (.inr ⟨new, here, marked⟩))
    · exact fun absent => (pushed.notes sha).2 (.inr ⟨new, absent⟩)

def Fsck.mark (f : Fsck) (rest : List Bytes) (place : Nat) (object : FsckObject) : Fsck :=
  { f with pending := rest, objects := f.objects.set place { object with reachable := true } }

section Mark
variable {rest : List Bytes} {place : Nat} {object : FsckObject} (here : f.objects[place]? = some object)
include here

theorem Fsck.map_mark : (f.mark rest place object).objects.map FsckObject.sha = f.objects.map FsckObject.sha := by
  obtain ⟨room, rfl⟩ := List.getElem?_eq_some_iff.1 here
  simp only [Fsck.mark, map_set]
  rw [← List.getElem_map FsckObject.sha, set_getElem_self]
  rwa [length_map]

theorem Fsck.Lists.mark (lists : f.Lists names) : (f.mark rest place object).Lists names := by
  refine ⟨(Fsck.map_mark here).trans lists.listed, lists.sorted, fun other member => ?_⟩
  obtain old | rfl := mem_or_eq_of_mem_set member
  · exact lists.there other old
  · exact lists.there object (mem_of_getElem? here)

theorem Fsck.marked_mark (fresh : object.reachable = false) (sha : Bytes) :
    (f.mark rest place object).Marked sha ↔ f.Marked sha ∨ sha = object.sha := by
  constructor
  · rintro ⟨other, member, same, reached⟩
    obtain old | rfl := mem_or_eq_of_mem_set member
    · exact .inl ⟨other, old, same, reached⟩
    · exact .inr same.symm
  · rintro (⟨other, member, same, reached⟩ | rfl)
    · obtain ⟨i, there⟩ := mem_iff_getElem?.1 member
      have apart : place ≠ i := by
        rintro rfl
        cases here.symm.trans there
        rw [fresh] at reached
        cases reached
      refine ⟨other, mem_iff_getElem?.2 ⟨i, ?_⟩, same, reached⟩
      exact (List.getElem?_set_ne apart).trans there
    · obtain ⟨room, -⟩ := List.getElem?_eq_some_iff.1 here
      exact ⟨{ object with reachable := true }, mem_set room _, rfl, rfl⟩

end Mark

/-- What was met still is when the top of the stack is taken off and marked, or was before. -/
theorem Fsck.Met.pop (met : f.Met names text) (top : f.pending = sha :: g.pending)
    (marks : ∀ x, f.Marked x → g.Marked x) (done : sha ∈ names → g.Marked sha) (notes : g.absent = f.absent) :
    g.Met names text := by
  refine ⟨fun here => ?_, by rw [Fsck.Noted, notes]; exact met.2⟩
  obtain marked | waits := met.1 here
  · exact .inl (marks text marked)
  · rw [top] at waits
    obtain rfl | later := mem_cons.1 waits
    · exact .inl (done here)
    · exact .inr later

theorem pushed_links (read : Bytes → Option Object) (lists : f.Lists names) (sha : Bytes) :
    Pushed names f (nameLinks read sha) (((read sha).elim [] linkNames).foldl fsckFollow f) :=
  pushed_foldl (fun _ child lists => pushed_fsckFollow lists child) lists _

section
variable (walks : f.Walks names heads read) (top : f.pending = sha :: rest)
include walks top

theorem Fsck.Walks.skip (done : sha ∈ names → f.Marked sha) :
    ({ f with pending := rest } : Fsck).Walks names heads read := by
  have met {x : Bytes} (before : f.Met names x) : ({ f with pending := rest } : Fsck).Met names x :=
    before.pop top (fun _ => id) done rfl
  refine ⟨⟨walks.lists.listed, walks.lists.sorted, walks.lists.there⟩, walks.reached, fun x waits => ?_, walks.noted,
    fun x head => met (walks.heads x head), fun parent marked x link => met (walks.links parent marked x link)⟩
  exact walks.waiting x (top ▸ .tail _ waits)

theorem Fsck.Walks.visit {place : Nat} {object : FsckObject}
    (here : f.objects[place]? = some object) (same : object.sha = sha)
    (fresh : object.reachable = false) :
    (((read sha).elim [] linkNames).foldl fsckFollow (f.mark rest place object)).Walks names heads read := by
  have reach : Reached names heads read sha := walks.waiting sha (top ▸ (.head _))
  have lists : (f.mark rest place object).Lists names := walks.lists.mark here
  have marks (x : Bytes) : (f.mark rest place object).Marked x ↔ f.Marked x ∨ x = sha :=
    same ▸ Fsck.marked_mark here fresh x
  have pushed := pushed_links read lists sha
  have met {x : Bytes} (before : f.Met names x) : (f.mark rest place object).Met names x :=
    before.pop top (fun x marked => (marks x).2 (.inl marked)) (fun _ => (marks sha).2 (.inr rfl)) rfl
  refine ⟨pushed.lists lists, fun x marked => ?_, fun x waits => ?_, fun x noted => ?_,
    fun x head => pushed.met (.inl (met (walks.heads x head))), fun parent marked x link => ?_⟩
  · obtain old | rfl := (marks x).1 ((pushed.marked x).1 marked)
    · exact walks.reached x old
    · exact reach
  · obtain old | ⟨link, there, -⟩ := (pushed.waits x).1 waits
    · exact walks.waiting x (top ▸ .tail _ old)
    · exact .step reach link there
  · obtain old | ⟨link, absent⟩ := (pushed.notes x).1 noted
    · exact walks.noted x old
    · exact ⟨absent, .inr ⟨sha, reach, link⟩⟩
  · obtain old | rfl := (marks parent).1 ((pushed.marked parent).1 marked)
    · exact pushed.met (.inl (met (walks.links parent old x link)))
    · exact pushed.met (.inr link)

end

def Fsck.work (f : Fsck) (read : Bytes → Option Object) : Nat :=
  f.pending.length +
    (f.objects.map fun object => if object.reachable then 0 else (nameLinks read object.sha).length).sum

theorem sum_map_set {α : Type} (weight : α → Nat) {xs : List α} {i : Nat} {a b : α} (here : xs[i]? = some a) :
    ((xs.set i b).map weight).sum + weight a = (xs.map weight).sum + weight b := by
  induction xs generalizing i with
  | nil => simp at here
  | cons x xs ih =>
    cases i with
    | zero =>
      cases here
      simp
      omega
    | succ i =>
      have := ih here
      simp only [set_cons_succ, map_cons, sum_cons]
      omega

theorem Fsck.work_visit {place : Nat} {object : FsckObject} (lists : f.Lists names) (top : f.pending = sha :: rest)
    (here : f.objects[place]? = some object) (same : object.sha = sha) (fresh : object.reachable = false) :
    (((read sha).elim [] linkNames).foldl fsckFollow (f.mark rest place object)).work read < f.work read := by
  have pushed : Pushed names (f.mark rest place object) _ _ := pushed_links read (lists.mark here) sha
  have bound := pushed.bound
  have sums := sum_map_set (fun object : FsckObject =>
    if object.reachable then 0 else (nameLinks read object.sha).length)
    (b := { object with reachable := true }) here
  rw [Fsck.work, Fsck.work, pushed.objects, top, length_cons]
  simp only [fresh, if_true, Bool.false_eq_true, if_false] at sums
  rw [same] at sums
  simp only [Fsck.mark] at bound ⊢
  rw [same] at bound ⊢
  omega

theorem Fsck.Walks.run (walks : f.Walks names heads read) (turns : Nat) (enough : f.work read < turns) :
    ∃ final, reachLoop read turns f = some final ∧ final.pending = [] ∧ final.Walks names heads read := by
  induction turns generalizing f with
  | zero => cases enough
  | succ turns ih =>
    cases top : f.pending with
    | nil =>
      rw [reachLoop, top]
      exact ⟨f, rfl, top, walks⟩
    | cons sha rest =>
      have less : ({ f with pending := rest } : Fsck).work read < f.work read := by
        simp only [Fsck.work, top, length_cons]
        omega
      rw [reachLoop, top]
      dsimp only
      obtain ⟨place, object, found, here, same, there, -, marked⟩ | ⟨found, absent⟩ := walks.lists.find sha
      · rw [found]
        dsimp only
        rw [here]
        dsimp only
        split
        next old => exact ih (walks.skip top fun _ => marked.1 (by simpa [there] using old)) (by omega)
        rename_i new
        have fresh : object.reachable = false := (by simpa using new : _ ∧ _).2
        have fewer := lt_of_lt_of_le (Fsck.work_visit walks.lists top here same fresh) (Nat.le_of_lt_succ enough)
        exact ih (walks.visit top here same fresh) fewer
      · rw [found]
        exact ih (walks.skip top fun here => (absent here).elim) (by omega)

theorem reachLoop_mono {turns more : Nat} (ran : reachLoop read turns f = some g) (enough : turns ≤ more) :
    reachLoop read more f = some g := by
  induction turns generalizing f more with
  | zero => cases ran
  | succ turns ih =>
    obtain ⟨more, rfl⟩ : ∃ k, more = k + 1 := ⟨more - 1, by omega⟩
    have later : turns ≤ more := Nat.le_of_succ_le_succ enough
    rw [reachLoop] at ran ⊢
    split at ran
    · exact ran
    split at ran
    · exact ih ran later
    split at ran
    · exact ih ran later
    split at ran
    next old => exact (if_pos old).trans (ih ran later)
    next new => exact (if_neg new).trans (ih ran later)

theorem Fsck.Walks.done (walks : f.Walks names heads read) (empty : f.pending = []) :
    (∀ sha, f.Marked sha ↔ Reached names heads read sha) ∧
      ∀ sha, f.Noted sha ↔ sha ∉ names ∧ Pointed names heads read sha := by
  have settled {sha : Bytes} (met : f.Met names sha) (here : sha ∈ names) : f.Marked sha := by
    have := met.1 here
    simpa [empty] using this
  have marks : ∀ sha, Reached names heads read sha → f.Marked sha := by
    intro sha reach
    refine reach.invariant (fun x head here => settled (walks.heads x head) here) ?_
    exact fun x marked y link here => settled (walks.links x marked y link) here
  refine ⟨fun sha => ⟨walks.reached sha, marks sha⟩, fun sha => ⟨walks.noted sha, ?_⟩⟩
  rintro ⟨absent, head | ⟨parent, reach, link⟩⟩
  · exact (walks.heads sha head).2 absent
  · exact (walks.links parent (marks parent reach) sha link).2 absent

end Run

/-! ## Ids -/

section Exact
variable {store : Store} {heads : List Bytes} {final : Fsck}

def storedIds (store : Store) : Ids := store.map Prod.fst

inductive Named (store : Store) (heads : List Bytes) : ObjectId → Prop
  | head {text : Bytes} {id : ObjectId} (pushed : text ∈ heads) (spells : hexToSha text = some id) : Named store heads id
  | link {parent child : ObjectId} {object : Object} (before : Named store heads parent)
      (stored : store.lookup parent = some object) (link : child ∈ linkIds object) : Named store heads child

def Spelling (store : Store) (heads : List Bytes) (text : Bytes) : Prop :=
  text ∈ heads ∨ ∃ parent object, Named store heads parent ∧ store.lookup parent = some object ∧
    text ∈ (linkNames object).map Prod.fst

def LowerCase (store : Store) (heads : List Bytes) : Prop :=
  ∀ text id, Spelling store heads text → hexToSha text = some id → id ∈ storedIds store → text = id.hex

/-- The marks are on the stored part of the closure, and the names noted as absent spell the rest of it. -/
def Exact (store : Store) (heads : List Bytes) (final : Fsck) : Prop :=
  (∀ id, final.Marked id.hex ↔ Named store heads id ∧ id ∈ storedIds store) ∧
    ∀ id, (∃ entry ∈ final.absent, hexToSha entry.sha = some id) ↔ Named store heads id ∧ id ∉ storedIds store

theorem named_iff_spelling (id : ObjectId) :
    Named store heads id ↔ ∃ text, Spelling store heads text ∧ hexToSha text = some id := by
  constructor
  · intro named
    cases named with
    | head pushed spells => exact ⟨_, .inl pushed, spells⟩
    | link before stored link =>
      obtain ⟨child, member, spells⟩ := mem_filterMap.1 link
      exact ⟨child.1, .inr ⟨_, _, before, stored, mem_map_of_mem member⟩, spells⟩
  · rintro ⟨text, pushed | ⟨parent, object, before, stored, member⟩, spells⟩
    · exact .head pushed spells
    · obtain ⟨child, inside, rfl⟩ := mem_map.1 member
      exact .link before stored (mem_filterMap.2 ⟨child, inside, spells⟩)

theorem mem_storeNames (text : Bytes) : text ∈ storeNames store ↔ ∃ id ∈ storedIds store, id.hex = text := by
  simp [storeNames, storedIds]

theorem hex_mem_storeNames (id : ObjectId) : id.hex ∈ storeNames store ↔ id ∈ storedIds store := by
  rw [mem_storeNames]
  constructor
  · rintro ⟨other, stored, same⟩
    exact ObjectId.hex_injective same ▸ stored
  · exact fun stored => ⟨id, stored, rfl⟩

theorem eq_hex_of_mem_storeNames (here : text ∈ storeNames store) (spells : hexToSha text = some id) :
    text = id.hex ∧ id ∈ storedIds store := by
  obtain ⟨other, stored, rfl⟩ := (mem_storeNames text).1 here
  rw [hexToSha_hex] at spells
  cases spells
  exact ⟨rfl, stored⟩

theorem sorted_storeNames (store : Store) : (storeNames store).Pairwise (· < ·) := by
  have sorted : (storeNames store).Pairwise (· ≤ ·) := ((pairwise_insertionSort (· ≤ ·) _).sublist (dedup_sublist _))
  have once : (storeNames store).Pairwise (· ≠ ·) := nodup_dedup _
  refine (sorted.and once).imp fun {a b} both => ?_
  obtain below | same := List.le_iff_lt_or_eq.1 both.1
  · exact below
  · exact absurd same both.2

theorem storeRead_hex (id : ObjectId) : storeRead store id.hex = store.lookup id := by
  rw [storeRead, idOfHex_hex, Option.bind_some]

theorem mem_nameLinks_hex (parent : ObjectId) (text : Bytes) : text ∈ nameLinks (storeRead store) parent.hex ↔
      ∃ object, store.lookup parent = some object ∧ text ∈ (linkNames object).map Prod.fst := by
  rw [nameLinks, storeRead_hex]
  cases store.lookup parent with
  | none => simp
  | some object => simp

theorem walks_fsckStart (store : Store) (heads : List Bytes) :
    (fsckStart store heads).Walks (storeNames store) heads (storeRead store) := by
  have fresh : ({ objects := (storeNames store).map fun sha => ⟨sha, true, false⟩, absent := [], pending := [] } : Fsck).Lists
      (storeNames store) := by
    refine ⟨?_, sorted_storeNames store, fun object member => ?_⟩
    · rw [map_map]
      exact map_id _
    · obtain ⟨sha, -, rfl⟩ := mem_map.1 member
      rfl
  have pushed : Pushed (storeNames store) _ (heads.map id) (fsckStart store heads) :=
    pushed_foldl (fun f sha lists => pushed_fsckPush lists sha) fresh heads
  rw [map_id] at pushed
  have unmarked (sha : Bytes) : ¬ (fsckStart store heads).Marked sha := by
    rw [pushed.marked]
    rintro ⟨object, member, -, reached⟩
    obtain ⟨sha, -, rfl⟩ := mem_map.1 member
    cases reached
  refine ⟨pushed.lists fresh, fun sha marked => (unmarked sha marked).elim, fun sha waits => ?_, fun sha noted => ?_,
    fun sha head => pushed.met (.inr head), fun parent marked => (unmarked parent marked).elim⟩
  · obtain old | ⟨head, here, -⟩ := (pushed.waits sha).1 waits
    · cases old
    · exact .root head here
  · obtain ⟨_, old, -⟩ | ⟨head, absent⟩ := (pushed.notes sha).1 noted
    · cases old
    · exact ⟨absent, .inl head⟩

theorem mem_storedIds_of_lookup {object : Object} (stored : store.lookup id = some object) : id ∈ storedIds store := by
  obtain ⟨before, after, rfl, -⟩ := lookup_eq_some_iff.1 stored
  simp [storedIds]

theorem named_of_reach (reach : Reached (storeNames store) heads (storeRead store) text) :
    ∃ id, text = id.hex ∧ Named store heads id := by
  induction reach with
  | root head here =>
    obtain ⟨id, -, rfl⟩ := (mem_storeNames _).1 here
    exact ⟨id, rfl, .head head (hexToSha_hex id)⟩
  | step before link here ih =>
    obtain ⟨id, -, rfl⟩ := (mem_storeNames _).1 here
    obtain ⟨parent, rfl, named⟩ := ih
    obtain ⟨object, stored, member⟩ := (mem_nameLinks_hex parent _).1 link
    exact ⟨id, rfl, (named_iff_spelling id).2 ⟨_, .inr ⟨parent, object, named, stored, member⟩, hexToSha_hex id⟩⟩

theorem reach_of_named (lower : LowerCase store heads) (named : Named store heads id) (stored : id ∈ storedIds store) :
    Reached (storeNames store) heads (storeRead store) id.hex := by
  induction named with
  | head pushed spells =>
    have same := lower _ _ (.inl pushed) spells stored
    exact .root (same ▸ pushed) ((hex_mem_storeNames _).2 stored)
  | link before read link ih =>
    obtain ⟨child, member, spells⟩ := mem_filterMap.1 link
    have text := mem_map_of_mem (f := Prod.fst) member
    have same := lower _ _ (.inr ⟨_, _, before, read, text⟩) spells stored
    refine .step (ih (mem_storedIds_of_lookup read)) ?_ ((hex_mem_storeNames _).2 stored)
    exact (mem_nameLinks_hex _ _).2 ⟨_, read, same ▸ text⟩

/-- A text is pointed at by what the walk reaches as soon as the objects it names are reached by their own names. -/
theorem pointed_of_spelling (spelling : Spelling store heads text)
    (parents : ∀ id, Named store heads id → id ∈ storedIds store → Reached (storeNames store) heads (storeRead store)
      id.hex) : Pointed (storeNames store) heads (storeRead store) text := by
  obtain head | ⟨parent, object, named, stored, member⟩ := spelling
  · exact .inl head
  · refine .inr ⟨parent.hex, parents parent named (mem_storedIds_of_lookup stored), ?_⟩
    exact (mem_nameLinks_hex parent text).2 ⟨object, stored, member⟩

theorem spelling_of_pointed (pointed : Pointed (storeNames store) heads (storeRead store) text) :
    Spelling store heads text := by
  obtain head | ⟨parent, reach, link⟩ := pointed
  · exact .inl head
  · obtain ⟨parent, rfl, named⟩ := named_of_reach reach
    obtain ⟨object, stored, member⟩ := (mem_nameLinks_hex parent text).1 link
    exact .inr ⟨parent, object, named, stored, member⟩

section Settled
variable
  (marks : ∀ text, final.Marked text ↔
    Reached (storeNames store) heads (storeRead store) text)
  (notes : ∀ text, final.Noted text ↔ text ∉ storeNames store ∧ Pointed (storeNames store) heads (storeRead store) text)
include marks notes

theorem exact_of_lowerCase (lower : LowerCase store heads) : Exact store heads final := by
  refine ⟨fun id => ?_, fun id => ?_⟩
  · rw [marks]
    constructor
    · intro reach
      obtain ⟨other, same, named⟩ := named_of_reach reach
      cases ObjectId.hex_injective same
      exact ⟨named, (hex_mem_storeNames id).1 reach.here⟩
    · exact fun both => reach_of_named lower both.1 both.2
  · constructor
    · rintro ⟨entry, member, spells⟩
      obtain ⟨absent, pointed⟩ := (notes entry.sha).1 ⟨entry, member, rfl⟩
      have spelling := spelling_of_pointed pointed
      refine ⟨(named_iff_spelling id).2 ⟨_, spelling, spells⟩, fun stored => absent ?_⟩
      rw [lower _ _ spelling spells stored]
      exact (hex_mem_storeNames id).2 stored
    · rintro ⟨named, missing⟩
      obtain ⟨text, spelling, spells⟩ := (named_iff_spelling id).1 named
      have absent : text ∉ storeNames store := fun here => missing (eq_hex_of_mem_storeNames here spells).2
      have pointed := pointed_of_spelling spelling fun id named stored => reach_of_named lower named stored
      obtain ⟨entry, member, rfl⟩ := (notes text).2 ⟨absent, pointed⟩
      exact ⟨entry, member, spells⟩

theorem lowerCase_of_exact (exact : Exact store heads final) : LowerCase store heads := by
  intro text id spelling spells stored
  by_contra other
  -- the text is not in the list, so it is noted as absent, and what it spells is stored
  have absent : text ∉ storeNames store := fun here => other (eq_hex_of_mem_storeNames here spells).1
  have pointed := pointed_of_spelling spelling fun id named stored => (marks id.hex).1 ((exact.1 id).2 ⟨named, stored⟩)
  obtain ⟨entry, member, rfl⟩ := (notes text).2 ⟨absent, pointed⟩
  exact ((exact.2 id).1 ⟨entry, member, spells⟩).2 stored

end Settled

end Exact

def emptyTreeId : ObjectId :=
    ⟨[0x4b, 0x82, 0x5d, 0xc6, 0x42, 0xcb, 0x6e, 0xb9, 0xa0, 0x60, 0xe5, 0x4b, 0xf8, 0xd6, 0x92,
  0x88, 0xfb, 0xee, 0x49, 0x04], by decide⟩

def capitalsId : ObjectId := ⟨[0x70, 0xf4, 0x43, 0x77, 0xea, 0xa1, 0x72, 0x4d, 0xc8, 0x24, 0x78, 0x5b, 0x86, 0x1e, 0xe4,
  0x7d, 0x54, 0x75, 0x59, 0x66], by decide⟩

def capitalsText : Bytes :=
  ascii "tree 4B825DC642CB6EB9A060E54BF8D69288FBEE4904\nauthor a <a@b> 0 +0000\ncommitter a <a@b> 0 +0000\n\nm\n"

def capitalsStore : Store :=
  [(capitalsId, ⟨.commit, capitalsText, by decide +kernel⟩), (emptyTreeId, emptyTree)]

end BashOs.Git

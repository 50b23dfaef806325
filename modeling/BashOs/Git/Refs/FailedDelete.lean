import BashOs.Git.Refs.Deletion

/-!
A deletion that fails. The ref's own file goes first and its line in `packed-refs` second, so that what is left when the
second step fails is the value in `packed-refs`.
-/

namespace BashOs.Git.Refs
open BashOs.Lib BashOs.Git.WorkTree List Option Bool Tracked
open Function (update update_self update_of_ne update_idem update_eq_self iterate_succ_apply)

/-! ## A call on its own -/

/-- What the system may refuse: to unlink the ref's file, to give the lock of `packed-refs`, to write and rename it,
and to unlink the reflog. -/
structure DeleteFaults where
  unlink : Bool
  lock : Bool
  commit : Bool
  log : Bool

def DeleteFaults.refuses (faults : DeleteFaults) : DeleteStage → Bool
  | .checked => faults.unlink
  | .kept _ => faults.lock
  | .locked _ => faults.commit
  | .removed => faults.log
  | _ => false

section
variable (dirs : GitDirs) (call : DeleteCall) (faults : DeleteFaults)

def loneStep (state : RefDisk × DeleteStage) : RefDisk × DeleteStage :=
  deleteStep dirs call (faults.refuses state.2) state.1 state.2

/-- `bgit_ref_delete` with nobody else at work. It is over after seven steps. -/
def loneDelete (disk : RefDisk) : RefDisk × DeleteStage := (loneStep dirs call faults)^[7] (disk, .idle)

end

/-- How many more steps a call may take. -/
def DeleteStage.left : DeleteStage → Nat
  | .idle => 7
  | .noFile => 6
  | .checked => 5
  | .unlinked => 4
  | .kept _ => 3
  | .locked _ => 2
  | .removed => 1
  | .finished _ => 0

theorem left_loneStep (dirs : GitDirs) (call : DeleteCall) (faults : DeleteFaults) (state : RefDisk × DeleteStage) :
    (loneStep dirs call faults state).2.left ≤ state.2.left - 1 := by
  have judged (value : RefValue) : (call.judge value).left ≤ 5 := by
    rw [DeleteCall.judge]
    split <;> decide
  obtain ⟨disk, stage⟩ := state
  cases stage with
  | idle =>
    rw [loneStep, deleteStep]
    change _ ≤ 6
    split
    · exact Nat.zero_le 6
    split
    · exact Nat.le_refl 6
    · exact (judged _).trans (by decide)
  | noFile => exact judged _
  | finished ok => exact Nat.zero_le _
  | _ =>
    rw [loneStep, deleteStep]
    repeat' split
    all_goals simp [DeleteStage.left]

theorem loneDelete_finishes (dirs : GitDirs) (call : DeleteCall) (faults : DeleteFaults) (disk : RefDisk) :
    ∃ ok, (loneDelete dirs call faults disk).2 = .finished ok := by
  have run (n : Nat) : ((loneStep dirs call faults)^[n] (disk, .idle)).2.left ≤ 7 - n := by
    induction n with
    | zero => exact Nat.le_refl _
    | succ n ih =>
      rw [Function.iterate_succ_apply']
      have := left_loneStep dirs call faults ((loneStep dirs call faults)^[n] (disk, .idle))
      omega
  have last := run 7
  rw [loneDelete]
  cases ended : ((loneStep dirs call faults)^[7] (disk, .idle)).2 with
  | finished ok => exact ⟨ok, rfl⟩
  | _ =>
    rw [ended] at last
    cases last

/-! ## The lock in one piece -/

theorem writeLocked_eq (disk : RefDisk) (path content : Bytes) (place : Place) :
    writeLocked disk path content place =
      match takeLock disk path content place with
      | (locked, true) => commitLock locked place
      | (after, false) => (after, false) := by
  cases place with
  | nil => rfl
  | cons last up =>
    rw [writeLocked, takeLock]
    split
    · rfl
    split
    · rfl
    split
    · rfl
    split
    · rfl
    rename_i locked written
    have held : locked.leaf (lockPlace (last :: up)) = some content := by
      rw [lockPlace, leaf_write written, update_self]
    simp only [commitLock, held]
    rfl

section
variable {dirs : GitDirs} {disk : RefDisk} {call : DeleteCall} {faults : DeleteFaults}

def noFaults : DeleteFaults := ⟨false, false, false, false⟩

theorem lone_finished (n : Nat) (ok : Bool) :
    (loneStep dirs call faults)^[n] (disk, .finished ok) = (disk, .finished ok) := by
  induction n with
  | zero => rfl
  | succ n ih => rw [iterate_succ_apply]; exact ih

/-- From the rewrite of `packed-refs` on. -/
theorem lone_unlinked (n : Nat) :
    (loneStep dirs call noFaults)^[n + 4] (disk, .unlinked) =
      match packedRefsRemove dirs disk call.name with
      | (after, false) => (after, .finished false)
      | (after, true) =>
        ((if (reflogPath dirs call.name).isSome then
          (unlinkFile after (dirs.base call.name) (ascii "logs/" ++ call.name)).1 else after), .finished true) := by
  have last (n : Nat) (after : RefDisk) : (loneStep dirs call noFaults)^[n + 1] (after, .removed) =
      ((if (reflogPath dirs call.name).isSome then
        (unlinkFile after (dirs.base call.name) (ascii "logs/" ++ call.name)).1 else after), .finished true) := by
    rw [iterate_succ_apply, loneStep, deleteStep, DeleteFaults.refuses]
    simp only [noFaults, Bool.not_false, Bool.and_true]
    split <;> exact lone_finished n true
  rw [iterate_succ_apply, loneStep, deleteStep, packedRefsRemove, packedPlace]
  cases path : pathBelow dirs.commonDir (ascii "packed-refs") with
  | none => exact lone_finished _ _
  | some path =>
    cases disk.leaf (packedRefs :: dirs.commonDir) with
    | none => exact last (n + 2) disk
    | some content =>
      dsimp only
      split
      · rw [writeLocked_eq, iterate_succ_apply, loneStep, deleteStep]
        simp only [path, DeleteFaults.refuses, noFaults, packedPlace, false_eq_true, if_false]
        generalize takeLock _ _ _ _ = taken
        obtain ⟨locked, _ | _⟩ := taken
        · exact lone_finished _ _
        · dsimp only
          rw [iterate_succ_apply, loneStep, deleteStep]
          simp only [DeleteFaults.refuses, packedPlace, false_eq_true, if_false]
          generalize commitLock _ _ = committed
          obtain ⟨after, _ | _⟩ := committed
          · exact lone_finished _ _
          · exact last n after
      · exact last (n + 2) disk

theorem lone_judged (n : Nat) (value : RefValue) (path : (refPath dirs call.name).isSome)
    (same : refValue dirs disk call.name = value) :
    (loneStep dirs call noFaults)^[n + 5] (disk, call.judge value) =
      ((refDelete dirs disk call.name call.old).1, .finished (refDelete dirs disk call.name call.old).2) := by
  obtain ⟨path, fits⟩ := isSome_iff_exists.1 path
  rw [refDelete, checkOld_eq, same, fits, DeleteCall.judge]
  split
  next current passed =>
    rw [iterate_succ_apply, loneStep, deleteStep]
    simp only [DeleteFaults.refuses, noFaults, passed, false_eq_true, if_false]
    generalize unlinkFile disk (dirs.base call.name) call.name = unlinked
    obtain ⟨after, _ | _⟩ := unlinked
    · exact lone_finished _ _
    · dsimp only
      refine (lone_unlinked n).trans ?_
      generalize packedRefsRemove dirs after call.name = removed
      obtain ⟨last, _ | _⟩ := removed
      · rfl
      · dsimp only
        split <;> rfl
  next refused =>
    rw [lone_finished]
    split
    next current _ passed _ => exact absurd passed (refused current)
    · rfl

theorem refValue_eq_elim {name : Bytes} (path : ¬(refPath dirs name).isNone) : refValue dirs disk name =
    (refFileLine dirs disk name).elim (packedRefsRead dirs disk name) lineValue := by
  rw [refValue, if_neg path]
  cases refFileLine dirs disk name <;> rfl

/-- With nothing refused, the steps make up `refDelete`. -/
theorem loneDelete_eq_refDelete (dirs : GitDirs) (disk : RefDisk) (name : Bytes) (old : Option Bytes) :
    loneDelete dirs ⟨name, old⟩ noFaults disk =
      ((refDelete dirs disk name old).1, .finished (refDelete dirs disk name old).2) := by
  rw [loneDelete, iterate_succ_apply, loneStep, deleteStep]
  by_cases path : (refPath dirs name).isNone
  · rw [if_pos path, lone_finished, refDelete, checkOld_eq, refValue, if_pos path]
    rfl
  rw [if_neg path]
  have value : refValue dirs disk name = _ := refValue_eq_elim path
  rw [← not_isSome, not_eq_true', not_eq_false] at path
  cases line : refFileLine dirs disk name with
  | none =>
    rw [line] at value
    dsimp only
    rw [iterate_succ_apply, loneStep, deleteStep]
    exact lone_judged 0 _ path value
  | some line' =>
    rw [line] at value
    exact lone_judged 1 _ path value

/-! ## Names that lead to the same place -/

def SameDirs (a b : RefDisk) : Prop := ∀ q, a.tree.node q = some .dir ↔ b.tree.node q = some .dir

theorem walkDirs_place {a b : RefDisk} (same : SameDirs a b) (here : Place) (parts : List Bytes) :
    (walkDirs a.tree here parts).place = (walkDirs b.tree here parts).place := by
  induction parts generalizing here with
  | nil => rfl
  | cons part rest ih =>
    rw [walkDirs, walkDirs]
    split
    · exact ih _
    split
    · exact ih _
    rename_i name _
    by_cases dir : a.tree.node (name :: here) = some .dir
    · rw [dir, (same _).1 dir]
      exact ih _
    · have other : ¬ b.tree.node (name :: here) = some .dir := mt (same _).2 dir
      cases first : a.tree.node (name :: here) with
      | none =>
        cases second : b.tree.node (name :: here) with
        | none => rfl
        | some thing => cases thing with
          | dir => exact absurd second other
          | leaf => rfl
      | some thing => cases thing with
        | dir => exact absurd first dir
        | leaf =>
          cases second : b.tree.node (name :: here) with
          | none => rfl
          | some thing => cases thing with
            | dir => exact absurd second other
            | leaf => rfl

theorem leads_place {a b : RefDisk} (same : SameDirs a b) (base : Place) (text : Bytes) :
    (leads a.tree base text).place = (leads b.tree base text).place := by
  have walked := walkDirs_place same base (text.splitOn 0x2f).dropLast
  rw [leads, leads]
  cases first : walkDirs a.tree base (text.splitOn 0x2f).dropLast <;>
    cases second : walkDirs b.tree base (text.splitOn 0x2f).dropLast <;>
    rw [first, second] at walked <;> simp_all [Led.place]

/-- Whether or not the lock is taken, no directory is made: the one it stands in is there. -/
theorem sameDirs_takeLock {after : RefDisk} {ok : Bool} {path content : Bytes} {last : FileName} {up : Place}
    (here : disk.tree.node up = some .dir) (ran : takeLock disk path content (last :: up) = (after, ok)) :
    SameDirs disk after := by
  rw [takeLock] at ran
  split at ran
  · cases ran
    exact fun _ => Iff.rfl
  rw [makeDirs_of_dir disk here] at ran
  dsimp only at ran
  split at ran
  · cases ran
    exact fun _ => Iff.rfl
  split at ran
  · cases ran
    exact fun _ => Iff.rfl
  next written =>
    cases ran
    exact fun q => (dir_write written q).symm

/-! ## A failure -/

variable (dirs disk call faults) in
/-- The check has passed, and the ref's file was unlinked or was not there. -/
structure Unlinked (gone : RefDisk) : Prop where
  passed : ∃ current, checkOld dirs disk call.name call.old = some (some current)
  allowed : faults.unlink = false
  done : unlinkFile disk (dirs.base call.name) call.name = (gone, true)

variable (dirs disk call faults) in
/-- The ref's file has gone, and all else is as it was. -/
structure LeftWithout (after : RefDisk) : Prop where
  unlinked : ∃ gone, Unlinked dirs disk call faults gone ∧ after.leaf = gone.leaf ∧ SameDirs gone after
  packed : (pathBelow dirs.commonDir (ascii "packed-refs")).isNone ∨ after.leaf (packedPlace dirs) ≠ none

variable (dirs disk call faults) in
structure Unchanged (after : RefDisk) : Prop where
  same : after = disk
  refused : (∃ current, checkOld dirs disk call.name call.old = some (some current)) → faults.unlink = false →
    refFileLine dirs disk call.name = none

variable (dirs disk call faults) in
/-- What is known of a call on the way to a failure. -/
def OnTheWay : RefDisk × DeleteStage → Prop
  | (now, .idle) => now = disk
  | (now, .noFile) => now = disk ∧ (refPath dirs call.name).isSome ∧ refFileLine dirs disk call.name = none
  | (now, .checked) => now = disk ∧ ∃ current, checkOld dirs disk call.name call.old = some (some current)
  | (now, .unlinked) => Unlinked dirs disk call faults now
  | (now, .kept _) => LeftWithout dirs disk call faults now ∧ now.leaf (packedPlace dirs) ≠ none
  | (now, .locked _) => ∃ before content, LeftWithout dirs disk call faults before ∧ SameDirs before now ∧
      before.leaf (lockPlace (packedPlace dirs)) = none ∧
      now.leaf = update before.leaf (lockPlace (packedPlace dirs)) (some content)
  | (now, .finished false) => Unchanged dirs disk call faults now ∨ LeftWithout dirs disk call faults now
  | _ => True

theorem refFileLine_of_refused {base : Place} {text : Bytes} {after : RefDisk}
    (refused : unlinkFile disk base text = (after, false)) :
    after = disk ∧ ((leads disk.tree base text).place.bind disk.leaf) = none := by
  unfold unlinkFile at refused
  split at refused
  next place there =>
    split at refused
    next dir =>
      cases refused
      refine ⟨rfl, ?_⟩
      rw [there]
      show disk.tree.leaf place = none
      rw [FileTree.leaf, FileTree.isDir_iff.1 dir]
      rfl
    · cases refused
  · cases refused
  next blocked =>
    cases refused
    exact ⟨rfl, by rw [blocked]; rfl⟩

theorem OnTheWay.judge {value : RefValue} (same : refValue dirs disk call.name = value) :
    OnTheWay dirs disk call faults (disk, call.judge value) := by
  rw [DeleteCall.judge]
  split
  next current passed => exact ⟨rfl, current, by rw [checkOld_eq, same, passed]⟩
  next refused =>
    refine .inl ⟨rfl, ?_⟩
    rintro ⟨current, passed⟩
    rw [checkOld_eq, same] at passed
    exact absurd passed (refused current)

/-- The first step reads the ref's own file. -/
theorem OnTheWay.looked : OnTheWay dirs disk call faults (loneStep dirs call faults (disk, .idle)) := by
  rw [loneStep, deleteStep]
  split
  next none =>
    refine .inl ⟨rfl, ?_⟩
    rintro ⟨current, passed⟩
    rw [checkOld_eq, refValue, if_pos none] at passed
    cases passed
  next some =>
    split
    next bare =>
      refine ⟨rfl, ?_, bare⟩
      rwa [← not_isNone, not_eq_true', ← not_eq_true]
    next line here =>
      refine .judge ?_
      rw [refValue_eq_elim some, here, elim_some]

theorem LeftWithout.dropped {before now : RefDisk} {content : Bytes} (left : LeftWithout dirs disk call faults before)
    (dirs' : SameDirs before now) (free : before.leaf (lockPlace (packedPlace dirs)) = none)
    (held : now.leaf = update before.leaf (lockPlace (packedPlace dirs)) (some content)) :
    LeftWithout dirs disk call faults (dropLock now (packedPlace dirs)) := by
  have back : (dropLock now (packedPlace dirs)).leaf = before.leaf := by
    rw [dropLock, leaf_remove, held, update_idem, ← free, update_eq_self]
  obtain ⟨⟨gone, unlinked, leaves, same⟩, packed⟩ := left
  refine ⟨⟨gone, unlinked, back.trans leaves, fun q => ?_⟩, by rwa [back]⟩
  rw [same q, dirs' q, dropLock, dir_remove]

theorem LeftWithout.refused {now after : RefDisk} {path text : Bytes} (left : LeftWithout dirs disk call faults now)
    (room : now.tree.node dirs.commonDir = some .dir)
    (refused : takeLock now path text (packedPlace dirs) = (after, false)) :
    LeftWithout dirs disk call faults after := by
  obtain ⟨⟨gone, unlinked, leaves, same⟩, packed⟩ := left
  have kept := (takeLock_spec refused).2 rfl
  exact ⟨⟨gone, unlinked, kept.trans leaves, fun q => (same q).trans (sameDirs_takeLock room refused q)⟩,
    by rwa [kept]⟩

theorem OnTheWay.step {state : RefDisk × DeleteStage} (before : OnTheWay dirs disk call faults state) :
    OnTheWay dirs disk call faults (loneStep dirs call faults state) := by
  obtain ⟨now, stage⟩ := state
  cases stage with
  | idle =>
    obtain rfl : now = disk := before
    exact .looked
  | noFile =>
    obtain ⟨rfl, path, bare⟩ := before
    refine .judge ?_
    rw [refValue_eq_elim (by simpa [isSome_iff_ne_none] using path), bare, elim_none]
  | checked =>
    obtain ⟨rfl, passed⟩ := before
    rw [loneStep, deleteStep, DeleteFaults.refuses]
    split
    next fault => exact .inl ⟨rfl, fun _ allowed => absurd allowed (by simp [fault])⟩
    next allowed =>
      split
      next after done => exact ⟨passed, by simpa using allowed, done⟩
      next after refused =>
        obtain ⟨rfl, none⟩ := refFileLine_of_refused refused
        exact .inl ⟨rfl, fun _ _ => by rw [refFileLine, none]; rfl⟩
  | unlinked =>
    have left (packed : (pathBelow dirs.commonDir (ascii "packed-refs")).isNone ∨ now.leaf (packedPlace dirs) ≠ none) :
        LeftWithout dirs disk call faults now := ⟨⟨now, before, rfl, fun _ => Iff.rfl⟩, packed⟩
    rw [loneStep, deleteStep]
    split
    next none => exact .inr (left (.inl (by rw [none]; rfl)))
    split
    · trivial
    next content here =>
      split
      · exact ⟨left (.inr (by simp [here])), by simp [here]⟩
      · trivial
  | kept text =>
    obtain ⟨left, here⟩ := before
    rw [loneStep, deleteStep]
    split
    · exact .inr left
    split
    · exact .inr left
    have room : now.tree.node dirs.commonDir = some .dir := by
      obtain ⟨held, found⟩ := ne_none_iff_exists'.1 here
      exact FileTree.node_up_of_eq (FileTree.leaf_eq_some.1 found)
    split
    next path _ _ after taken =>
      obtain ⟨free, leaves⟩ := (takeLock_spec taken).1 rfl
      exact ⟨now, text, left, sameDirs_takeLock room taken, free, leaves⟩
    next path _ _ after refused =>
      exact .inr (left.refused room refused)
  | locked text =>
    obtain ⟨before, content, left, same, free, held⟩ := before
    rw [loneStep, deleteStep]
    split
    · exact .inr (left.dropped same free held)
    split
    · trivial
    next after refused =>
      refine .inr ?_
      have found : now.leaf (lockPlace (packedPlace dirs)) = some content := by rw [held, update_self]
      rw [commitLock, found] at refused
      dsimp only at refused
      split at refused
      · cases refused
      · cases refused
        exact left.dropped same free held
  | removed =>
    rw [loneStep, deleteStep]
    split <;> trivial
  | finished ok => exact before

/-- A call that fails has changed nothing, or it has unlinked the ref's file and no more. -/
theorem loneDelete_failed {after : RefDisk} (failed : loneDelete dirs call faults disk = (after, .finished false)) :
    Unchanged dirs disk call faults after ∨ LeftWithout dirs disk call faults after := by
  have run (n : Nat) : OnTheWay dirs disk call faults ((loneStep dirs call faults)^[n] (disk, .idle)) := by
    induction n with
    | zero => rfl
    | succ n ih =>
      rw [Function.iterate_succ_apply']
      exact ih.step
  have last := run 7
  rwa [show (loneStep dirs call faults)^[7] (disk, .idle) = _ from failed] at last

theorem LeftWithout.reads {after : RefDisk} (left : LeftWithout dirs disk call faults after) :
    refFileLine dirs after call.name = none ∧
      packedRefsRead dirs after call.name = packedRefsRead dirs disk call.name := by
  obtain ⟨⟨gone, unlinked, leaves, same⟩, packed⟩ := left
  obtain ⟨-, -, done⟩ := unlinked
  have sameLeaf (place : Place) : after.leaf place = gone.leaf place := congrFun leaves place
  have packedRead (kept : (pathBelow dirs.commonDir (ascii "packed-refs")).isNone ∨
      gone.leaf (packedPlace dirs) = disk.leaf (packedPlace dirs)) :
      packedRefsRead dirs after call.name = packedRefsRead dirs disk call.name := by
    rw [packedRefsRead, packedRefsRead]
    split
    · rfl
    next short =>
      have same := (sameLeaf (packedPlace dirs)).trans (kept.resolve_left short)
      rw [packedPlace] at same
      rw [same]
  rw [refFileLine, ← leads_place same]
  unfold unlinkFile at done
  split at done
  next place there =>
    split at done
    · cases done
    cases done
    have moved : (leads (disk.remove place).tree (dirs.base call.name) call.name).place = some place := by
      rw [leads_place (fun q => dir_remove disk place q), there]
      rfl
    have removed : (disk.remove place).leaf = update disk.leaf place none := leaf_remove disk place
    refine ⟨?_, packedRead ?_⟩
    · rw [moved, bind_some, sameLeaf, removed, update_self, bind_none]
    · refine packed.imp_right fun here => ?_
      rw [sameLeaf, removed] at here
      rw [removed]
      by_cases own : packedPlace dirs = place
      · rw [own, update_self] at here
        exact absurd rfl here
      · exact update_of_ne own _ _
  · rename_i missing
    cases done
    refine ⟨?_, packedRead (.inr rfl)⟩
    rw [missing]
    rfl
  · cases done

theorem value_of_check {value : RefValue} {old : Option Bytes} {current : Bytes}
    (passed : value.check old = some (some current)) : value = .found current := by
  cases value with
  | broken => cases passed
  | absent => obtain _ | _ | ⟨b, text⟩ := old <;> cases passed
  | found found =>
    obtain _ | _ | ⟨b, text⟩ := old
    · cases passed
      rfl
    · cases passed
    · simp only [RefValue.check, ite_none_right_eq_some, some_inj] at passed
      rw [← passed.2]

end

/-! `p` has a file and a line, `q` has a line, and someone holds the lock of `packed-refs`. -/

def diskHeld : RefDisk where
  tree := (diskPQ.tree.put nameP [] (.leaf (List.replicate 40 0x62 ++ [0x0a])) rfl rfl).put (lockName packedRefs) []
    (.leaf []) rfl rfl
  touched := []

end BashOs.Git.Refs

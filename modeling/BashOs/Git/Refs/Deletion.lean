import BashOs.Lib.Interleaving
import BashOs.Git.Refs.Reading

/-!
Two processes that each delete a ref, each step of either coming between any two of the other. `packed-refs` is read
before its lock is taken and written back from that copy, so a process that reads before the other one writes, and
writes after it, brings the other one's ref back.
-/

namespace BashOs.Git.Refs
open BashOs.Lib BashOs.Git.WorkTree List Option
open Function (update update_of_ne update_self update_apply)
open TurnRules (forall_who)

/-! ## A call in its steps -/

/-- A call of `bgit_ref_delete`. -/
structure DeleteCall where
  name : Bytes
  old : Option Bytes

inductive DeleteStage where
  | idle
  -- the ref has no file, `packed-refs` is to be read for its value
  | noFile
  | checked
  | unlinked
  -- `packed-refs` has been read, and is to be written with this text
  | kept (text : Bytes)
  | locked (text : Bytes)
  | removed
  | finished (ok : Bool)
deriving DecidableEq

def DeleteCall.judge (call : DeleteCall) (value : RefValue) : DeleteStage :=
  match value.check call.old with
  | some (some _) => .checked
  | _ => .finished false

section
variable (dirs : GitDirs)

def packedPlace : Place := packedRefs :: dirs.commonDir

/-- What the call does next; `fault` says that the system refuses it a change. -/
def deleteStep (call : DeleteCall) (fault : Bool) (disk : RefDisk) : DeleteStage → RefDisk × DeleteStage
  | .idle =>
    if (refPath dirs call.name).isNone then (disk, .finished false)
    else
      match refFileLine dirs disk call.name with
      | none => (disk, .noFile)
      | some line => (disk, call.judge (lineValue line))
  | .noFile => (disk, call.judge (packedRefsRead dirs disk call.name))
  | .checked =>
    if fault then (disk, .finished false)
    else
      match unlinkFile disk (dirs.base call.name) call.name with
      | (after, true) => (after, .unlinked)
      | (after, false) => (after, .finished false)
  | .unlinked =>
    match pathBelow dirs.commonDir (ascii "packed-refs") with
    | none => (disk, .finished false)
    | some _ =>
      match disk.leaf (packedPlace dirs) with
      | none => (disk, .removed)
      | some content =>
        if (fileLines content).any (packedLineOf call.name) then
          (disk, .kept (packedKept call.name false (fileLines content)))
        else (disk, .removed)
  | .kept text =>
    match pathBelow dirs.commonDir (ascii "packed-refs") with
    | none => (disk, .finished false)
    | some path =>
      if fault then (disk, .finished false)
      else
        match takeLock disk path text (packedPlace dirs) with
        | (after, true) => (after, .locked text)
        | (after, false) => (after, .finished false)
  | .locked _ =>
    if fault then (dropLock disk (packedPlace dirs), .finished false)
    else
      match commitLock disk (packedPlace dirs) with
      | (after, true) => (after, .removed)
      | (after, false) => (after, .finished false)
  | .removed =>
    -- a reflog that cannot be removed is left
    if (reflogPath dirs call.name).isSome && !fault then
      ((unlinkFile disk (dirs.base call.name) (ascii "logs/" ++ call.name)).1, .finished true)
    else (disk, .finished true)
  | .finished ok => (disk, .finished ok)

/-- Between its copy of `packed-refs` and its rename. -/
def DeleteStage.reading : DeleteStage → Bool
  | .kept _ | .locked _ => true
  | _ => false

/-- Done with `packed-refs`. -/
def DeleteStage.put : DeleteStage → Bool
  | .removed | .finished true => true
  | _ => false

def deleteRules (calls : Bool → DeleteCall) : TurnRules RefDisk DeleteStage Bool where
  step who := deleteStep dirs (calls who)
  reading stage := stage.reading
  puts before after := before.reading && after.put

/-- Both calls, in the turns that `moves` gives them, each with whether the system refuses a change. -/
def deleteRun (calls : Bool → DeleteCall) (disk : RefDisk) (moves : List (Bool × Bool)) : Parties RefDisk DeleteStage :=
  (deleteRules dirs calls).run ⟨disk, fun _ => .idle, fun _ => false⟩ moves

/-- A name is a path of file names to a file of its own, as its reflog is, and not the digits of an id. -/
structure PlainName (name : Bytes) : Prop where
  file : ∃ place, namePlace (dirs.base name) name = some place ∧ place ≠ packedPlace dirs ∧
    place ≠ lockPlace (packedPlace dirs)
  log : ∃ place, namePlace (logs :: dirs.base name) name = some place ∧ place ≠ packedPlace dirs ∧
    place ≠ lockPlace (packedPlace dirs)
  notId : (allHex name && name.length = 40) = false

end

/-! ## What a step does -/

section
variable {dirs : GitDirs} {call : DeleteCall} {fault : Bool} {disk after : RefDisk} {stage : DeleteStage}
  {place : Place}

theorem unlinkFile_leaf {base : Place} {text : Bytes} (found : namePlace base text = some place) :
    ((unlinkFile disk base text).1 = disk ∧ disk.leaf place = none) ∧ (unlinkFile disk base text).2 = false ∨
      (unlinkFile disk base text).1.leaf = update disk.leaf place none ∧ (unlinkFile disk base text).2 = true := by
  unfold unlinkFile
  obtain there | ⟨nowhere, absent⟩ := @leads_names disk.tree base place text found
  · rw [there]
    dsimp only
    split
    next dir =>
      have absent : disk.tree.leaf place = none := by rw [FileTree.leaf, FileTree.isDir_iff.1 dir]; rfl
      exact .inl ⟨⟨rfl, absent⟩, rfl⟩
    · exact .inr ⟨Tracked.leaf_remove disk place, rfl⟩
  have absent : disk.leaf place = none := absent
  have same : update disk.leaf place none = disk.leaf := by rw [← absent, Function.update_eq_self]
  split
  next other led =>
    rw [led] at nowhere
    cases nowhere
  · exact .inr ⟨same.symm, rfl⟩
  · exact .inl ⟨⟨rfl, absent⟩, rfl⟩

inductive DeleteMove (dirs : GitDirs) (name : Bytes) (disk : RefDisk) : DeleteStage → RefDisk × DeleteStage → Prop where
  | rest (ok : Bool) : DeleteMove dirs name disk (.finished ok) (disk, .finished ok)
  | fail (stage : DeleteStage) (after : RefDisk) : ((∀ text, stage ≠ .locked text) → after.leaf = disk.leaf) →
      (∀ q ≠ lockPlace (packedPlace dirs), after.leaf q = disk.leaf q) →
      stage.put = false → DeleteMove dirs name disk stage (after, .finished false)
  | noFile : (refPath dirs name).isSome → DeleteMove dirs name disk .idle (disk, .noFile)
  | check (stage : DeleteStage) : stage = .idle ∧ (refPath dirs name).isSome ∨ stage = .noFile →
      DeleteMove dirs name disk stage (disk, .checked)
  | unlink (place : Place) (after : RefDisk) : namePlace (dirs.base name) name = some place →
      after.leaf = update disk.leaf place none → DeleteMove dirs name disk .checked (after, .unlinked)
  | skip : (pathBelow dirs.commonDir (ascii "packed-refs")).isSome →
      (∀ content, disk.leaf (packedPlace dirs) = some content → ¬ Packs content name) →
      DeleteMove dirs name disk .unlinked (disk, .removed)
  | read (content : Bytes) : (pathBelow dirs.commonDir (ascii "packed-refs")).isSome →
      disk.leaf (packedPlace dirs) = some content → Packs content name →
      DeleteMove dirs name disk .unlinked (disk, .kept (packedKept name false (fileLines content)))
  | lock (text : Bytes) (after : RefDisk) : disk.leaf (lockPlace (packedPlace dirs)) = none →
      after.leaf = update disk.leaf (lockPlace (packedPlace dirs)) (some text) →
      DeleteMove dirs name disk (.kept text) (after, .locked text)
  | rename (text content : Bytes) (after : RefDisk) : disk.leaf (lockPlace (packedPlace dirs)) = some content →
      after.leaf = update (update disk.leaf (lockPlace (packedPlace dirs)) none) (packedPlace dirs)
        (some content) → DeleteMove dirs name disk (.locked text) (after, .removed)
  | finish (after : RefDisk) : after.leaf = disk.leaf ∨ (∃ place, namePlace (logs :: dirs.base name) name = some place ∧
      after.leaf = update disk.leaf place none) → DeleteMove dirs name disk .removed (after, .finished true)

theorem DeleteCall.judge_cases (call : DeleteCall) (value : RefValue) :
    call.judge value = .checked ∨ call.judge value = .finished false := by
  unfold DeleteCall.judge
  split
  · exact .inl rfl
  · exact .inr rfl

theorem deleteStep_move (plain : PlainName dirs call.name) :
    DeleteMove dirs call.name disk stage (deleteStep dirs call fault disk stage) := by
  have still : stage.put = false → DeleteMove dirs call.name disk stage (disk, .finished false) :=
    .fail stage disk (fun _ => rfl) fun _ _ => rfl
  unfold deleteStep
  cases stage with
  | idle =>
    dsimp only
    split
    · exact still rfl
    rename_i path
    have path : (refPath dirs call.name).isSome := by simpa [isSome_iff_ne_none] using path
    split
    · exact .noFile path
    rename_i line _
    obtain good | bad := call.judge_cases (lineValue line)
    · rw [good]
      exact .check .idle (.inl ⟨rfl, path⟩)
    · rw [bad]
      exact still rfl
  | noFile =>
    obtain good | bad := call.judge_cases (packedRefsRead dirs disk call.name)
    · rw [good]
      exact .check .noFile (.inr rfl)
    · rw [bad]
      exact still rfl
  | checked =>
    dsimp only
    split
    · exact still rfl
    obtain ⟨place, found, -⟩ := plain.file
    have leaves := @unlinkFile_leaf disk place (dirs.base call.name) call.name found
    split
    next after done =>
      rw [done] at leaves
      exact .unlink place after found (leaves.resolve_left (by rintro ⟨-, ⟨⟩⟩)).1
    rename_i after refused
    rw [refused] at leaves
    have same : after = disk := (leaves.resolve_right (by rintro ⟨-, ⟨⟩⟩)).1.1
    rw [same]
    exact still rfl
  | unlinked =>
    dsimp only
    split
    · exact still rfl
    rename_i path pathed
    have path : (pathBelow dirs.commonDir (ascii "packed-refs")).isSome := by rw [pathed]; rfl
    split
    next none => exact .skip path fun content held => (some_ne_none content (held.symm.trans none)).elim
    rename_i content held
    split
    next some => exact .read content path held (any_eq_true.1 some)
    rename_i none
    refine .skip path fun content' held' packs => none ?_
    cases held.symm.trans held'
    exact any_eq_true.2 packs
  | kept text =>
    dsimp only
    split
    · exact still rfl
    split
    · exact still rfl
    split
    next after taken =>
      obtain ⟨free, leaves⟩ := (takeLock_spec taken).1 rfl
      exact .lock text after free leaves
    next after refused =>
      have leaves := (takeLock_spec refused).2 rfl
      exact .fail _ after (fun _ => leaves) (fun q _ => congrFun leaves q) rfl
  | locked text =>
    dsimp only
    split
    · refine .fail _ _ (fun other => (other text rfl).elim) (fun q apart => ?_) rfl
      rw [dropLock, Tracked.leaf_remove, update_of_ne apart]
    split
    next after done =>
      obtain ⟨content, held, leaves⟩ := (commitLock_spec done).1 rfl
      exact .rename text content after held leaves
    next after refused => exact .fail _ after (fun other => (other text rfl).elim) ((commitLock_spec refused).2 rfl) rfl
  | removed =>
    dsimp only
    split
    · obtain ⟨place, found, -⟩ := plain.log
      have spelled : ascii "logs/" ++ call.name = logs.bytes ++ 0x2f :: call.name := by
        rw [show ascii "logs/" = logs.bytes ++ [0x2f] from by decide +kernel, append_assoc, singleton_append]
      have found' : namePlace (dirs.base call.name) (ascii "logs/" ++ call.name) = some place := by
        rw [spelled, namePlace_cons, found]
      have leaves := @unlinkFile_leaf disk place (dirs.base call.name) (ascii "logs/" ++ call.name) found'
      exact .finish _ (leaves.imp (fun kept => by rw [kept.1.1]) fun gone => ⟨place, found, gone.1⟩)
    · exact .finish disk (.inl rfl)
  | finished ok => exact .rest ok

end

/-! ## Runs -/

section
variable {dirs : GitDirs} {calls : Bool → DeleteCall} {before after world : Parties RefDisk DeleteStage} {who : Bool}

/-- `packed-refs` gives a ref of this name at present. -/
def PacksNow (dirs : GitDirs) (disk : RefDisk) (name : Bytes) : Prop :=
  ∃ content, disk.leaf (packedPlace dirs) = some content ∧ Packs content name

def Undone (world : Parties RefDisk DeleteStage) (who : Bool) : Prop :=
  (world.part !who).put = true ∧ world.overtaken (!who) = true

structure Fits (dirs : GitDirs) (name : Bytes) : Prop where
  ref : (refPath dirs name).isSome
  packed : (pathBelow dirs.commonDir (ascii "packed-refs")).isSome

def NoFile (dirs : GitDirs) (disk : RefDisk) (name : Bytes) : Prop :=
  ∀ place, namePlace (dirs.base name) name = some place → disk.leaf place = none

/-- What is known of a process: its copy of `packed-refs` is the present one if the other has not written since, and
once it is done its ref is packed only if the other one has undone it. -/
def DeleteKnown (dirs : GitDirs) (calls : Bool → DeleteCall) (world : Parties RefDisk DeleteStage) (who : Bool) :
    DeleteStage → Prop
  | .idle => world.overtaken who = false
  | .noFile | .checked => world.overtaken who = false ∧ (refPath dirs (calls who).name).isSome
  | .unlinked => world.overtaken who = false ∧ (refPath dirs (calls who).name).isSome ∧
      NoFile dirs world.shared (calls who).name
  | .kept text | .locked text => Fits dirs (calls who).name ∧ NoFile dirs world.shared (calls who).name ∧
      ∃ content, 0 ∉ content ∧ text = packedKept (calls who).name false (fileLines content) ∧
        Packs content (calls who).name ∧
        (world.overtaken who = false → world.shared.leaf (packedPlace dirs) = some content) ∧
        (world.overtaken who = true → Packs content (calls !who).name)
  | .removed | .finished true => Fits dirs (calls who).name ∧ NoFile dirs world.shared (calls who).name ∧
      (PacksNow dirs world.shared (calls who).name ↔ Undone world who)
  | .finished false => True

structure DeleteInv (dirs : GitDirs) (calls : Bool → DeleteCall) (world : Parties RefDisk DeleteStage) : Prop where
  known : ∀ who, DeleteKnown dirs calls world who (world.part who)
  clean : ∀ content, world.shared.leaf (packedPlace dirs) = some content → 0 ∉ content
  late : ∀ who, world.overtaken who = true → (world.part !who).put = true
  lock : ∀ who text, world.part who = .locked text → world.shared.leaf (lockPlace (packedPlace dirs)) = some text ∧
    ∀ other, world.part (!who) ≠ .locked other

theorem DeleteInv.start {disk : RefDisk} (clean : ∀ content, disk.leaf (packedPlace dirs) = some content →
    0 ∉ content) :
    DeleteInv dirs calls ⟨disk, fun _ => .idle, fun _ => false⟩ where
  known _ := rfl
  clean := clean
  late _ late := nomatch late
  lock _ _ held := nomatch held

theorem DeleteKnown.congr {stage : DeleteStage}
    (packed : after.shared.leaf (packedPlace dirs) = before.shared.leaf (packedPlace dirs))
    (gone : NoFile dirs before.shared (calls who).name → NoFile dirs after.shared (calls who).name)
    (raced : after.overtaken who = before.overtaken who) (undone : Undone after who ↔ Undone before who)
    (known : DeleteKnown dirs calls before who stage) : DeleteKnown dirs calls after who stage := by
  have packs : PacksNow dirs after.shared (calls who).name ↔ PacksNow dirs before.shared (calls who).name := by
    rw [PacksNow, PacksNow, packed]
  cases stage with
  | idle => exact raced.trans known
  | noFile => exact ⟨raced.trans known.1, known.2⟩
  | checked => exact ⟨raced.trans known.1, known.2⟩
  | unlinked => exact ⟨raced.trans known.1, known.2.1, gone known.2.2⟩
  | kept text | locked text =>
    obtain ⟨fits, none, content, rest⟩ := known
    exact ⟨fits, gone none, content, by rwa [raced, packed]⟩
  | removed =>
    obtain ⟨fits, none, packing⟩ := known
    exact ⟨fits, gone none, by rw [packs, undone, packing]⟩
  | finished ok =>
    cases ok with
    | false => exact trivial
    | true =>
      obtain ⟨fits, none, packing⟩ := known
      exact ⟨fits, gone none, by rw [packs, undone, packing]⟩

/-- Nothing is put anywhere but at `packed-refs` and its lock. -/
def PutsNothing (dirs : GitDirs) (disk last : RefDisk) : Prop :=
  ∀ q, q ≠ packedPlace dirs → q ≠ lockPlace (packedPlace dirs) → disk.leaf q = none → last.leaf q = none

theorem NoFile.of_leaf {disk last : RefDisk} {name : Bytes} (plain : PlainName dirs name)
    (leaves : PutsNothing dirs disk last)
    (none : NoFile dirs disk name) : NoFile dirs last name := by
  intro place found
  obtain ⟨place', found', apart, unlocked⟩ := plain.file
  cases found.symm.trans found'
  exact leaves place apart unlocked (none place found)

section
variable (inv : DeleteInv dirs calls before) (plain : ∀ who, PlainName dirs (calls who).name)
include inv plain

/-- A step that leaves `packed-refs` alone keeps what is known, if it keeps it of the process that takes it. -/
theorem DeleteInv.quiet (packed : after.shared.leaf (packedPlace dirs) = before.shared.leaf (packedPlace dirs))
    (leaves : PutsNothing dirs before.shared after.shared)
    (other : after.part (!who) = before.part (!who)) (raced : after.overtaken = before.overtaken)
    (put : (after.part who).put = (before.part who).put ∨ (before.part who).put = false ∧ before.overtaken who = false)
    (known : DeleteKnown dirs calls after who (after.part who))
    (lock : (∀ text, after.part who = .locked text → after.shared.leaf (lockPlace (packedPlace dirs)) = some text ∧
        ∀ text, before.part (!who) ≠ .locked text) ∧
      (∀ text, before.part (!who) = .locked text →
        after.shared.leaf (lockPlace (packedPlace dirs)) = before.shared.leaf (lockPlace (packedPlace dirs)) ∧
          ∀ text, after.part who ≠ .locked text)) :
    DeleteInv dirs calls after := by
  refine ⟨forall_who who known ?_, fun content held => inv.clean content (packed ▸ held),
    forall_who who ?_ ?_, forall_who who ?_ ?_⟩
  · rw [other]
    refine (inv.known !who).congr packed ((NoFile.of_leaf (plain !who)) leaves) (congrFun raced _) ?_
    rw [Undone, Undone, Bool.not_not, raced]
    obtain same | ⟨-, early⟩ := put
    · rw [same]
    · simp [early]
  · intro late
    rw [raced] at late
    rw [other]
    exact inv.late who late
  · intro late
    rw [raced] at late
    have done := inv.late (!who) late
    rw [Bool.not_not] at done ⊢
    obtain same | ⟨unput, -⟩ := put
    · exact same.trans done
    · cases unput.symm.trans done
  · intro text held
    rw [other]
    exact lock.1 text held
  · intro text held
    rw [other] at held
    rw [Bool.not_not]
    obtain ⟨leaf, free⟩ := lock.2 text held
    rw [leaf]
    exact ⟨(inv.lock (!who) text held).1, free⟩

theorem DeleteInv.still (shared : after.shared = before.shared) (other : after.part (!who) = before.part (!who))
    (raced : after.overtaken = before.overtaken)
    (put : (after.part who).put = (before.part who).put ∨ (before.part who).put = false ∧ before.overtaken who = false)
    (unlocked : ∀ text, after.part who ≠ .locked text) (known : DeleteKnown dirs calls after who (after.part who)) :
    DeleteInv dirs calls after := by
  refine inv.quiet plain (by rw [shared]) (by rw [shared]; exact fun _ _ _ none => none) other raced put known ⟨?_, ?_⟩
  · exact fun text held => (unlocked text held).elim
  · exact fun _ _ => ⟨by rw [shared], unlocked⟩

section
variable (distinct : ∀ who, (calls !who).name ≠ (calls who).name)
include distinct

theorem DeleteInv.rename {text content : Bytes}
    (stage : before.part who = .locked text) (held : before.shared.leaf (lockPlace (packedPlace dirs)) = some content)
    (leaves : after.shared.leaf =
      update (update before.shared.leaf (lockPlace (packedPlace dirs)) none) (packedPlace dirs) (some content))
    (mine : after.part who = .removed) (other : after.part (!who) = before.part (!who))
    (raced : after.overtaken who = before.overtaken who)
    (overOther : after.overtaken (!who) = (before.overtaken (!who) || (before.part !who).reading)) :
    DeleteInv dirs calls after := by
  obtain ⟨own, alone⟩ := inv.lock who text stage
  cases held.symm.trans own
  have known := inv.known who
  rw [stage] at known
  obtain ⟨fits, none, copy, clean, rfl, packs, fresh, stale⟩ := known
  have now : after.shared.leaf (packedPlace dirs) = some (packedKept (calls who).name false (fileLines copy)) := by
    rw [leaves, update_self]
  have packsNow : ∀ name, PacksNow dirs after.shared name ↔
      Packs (packedKept (calls who).name false (fileLines copy)) name := by
    intro name
    rw [PacksNow, now]
    simp
  have unlate : before.overtaken (!who) = false := by
    rw [← Bool.not_eq_true]
    intro late
    have done := inv.late (!who) late
    rw [Bool.not_not, stage] at done
    cases done
  have gone : ∀ x, NoFile dirs before.shared (calls x).name → NoFile dirs after.shared (calls x).name := by
    intro x
    refine NoFile.of_leaf (plain x) fun q apart unlocked absent => ?_
    rw [leaves, update_of_ne apart, update_of_ne unlocked, absent]
  refine ⟨forall_who who ?_ ?_, ?_, forall_who who ?_ ?_, forall_who who ?_ ?_⟩
  · rw [mine]
    refine ⟨fits, gone who none, ?_⟩
    rw [packsNow]
    refine iff_of_false (not_packs_packedKept clean) fun ⟨done, late⟩ => ?_
    -- the other one, done by now, was not overtaken when this one renamed
    rw [other] at done
    have calm : (before.part !who).reading = false := by
      revert done
      cases before.part !who <;> simp [DeleteStage.put, DeleteStage.reading]
    rw [overOther, unlate, calm] at late
    cases late
  · have known := inv.known !who
    have undone : Undone after (!who) ↔ before.overtaken who = true := by
      rw [Undone, Bool.not_not, mine, raced]
      simp [DeleteStage.put]
    have done_case : (before.part !who).put = true → Fits dirs (calls !who).name ∧
        NoFile dirs before.shared (calls !who).name ∧
        (PacksNow dirs before.shared (calls !who).name ↔ Undone before (!who)) →
        Fits dirs (calls !who).name ∧ NoFile dirs after.shared (calls !who).name ∧
        (PacksNow dirs after.shared (calls !who).name ↔ Undone after (!who)) := by
      rintro done ⟨fits, none, packing⟩
      refine ⟨fits, gone _ none, ?_⟩
      rw [packsNow, packs_packedKept clean (distinct who), undone]
      cases late : before.overtaken who with
      | true => exact iff_of_true (stale late) rfl
      | false =>
        refine iff_of_false (fun packs => ?_) (by simp)
        have undone := packing.1 ⟨copy, fresh late, packs⟩
        rw [Undone, Bool.not_not, late] at undone
        cases undone.2
    rw [other]
    cases stage' : before.part !who with
    | idle =>
      rw [stage'] at overOther
      exact overOther.trans (by rw [unlate]; rfl)
    | noFile | checked =>
      rw [stage'] at known overOther
      exact ⟨overOther.trans (by rw [unlate]; rfl), known.2⟩
    | unlinked =>
      rw [stage'] at known overOther
      exact ⟨overOther.trans (by rw [unlate]; rfl), known.2.1, gone _ known.2.2⟩
    | kept text =>
      rw [stage'] at known overOther
      obtain ⟨fits, none, content, clean', rfl, packs', fresh', -⟩ := known
      have early : before.overtaken who = false := by
        rw [← Bool.not_eq_true]
        intro late
        have done := inv.late who late
        rw [stage'] at done
        cases done
      cases (fresh early).symm.trans (fresh' unlate)
      refine ⟨fits, gone _ none, copy, clean, rfl, packs', fun early => ?_, fun _ => ?_⟩
      · rw [overOther] at early
        simp [DeleteStage.reading] at early
      · rwa [Bool.not_not]
    | locked text => exact (alone text stage').elim
    | removed =>
      rw [stage'] at known done_case
      exact done_case rfl known
    | finished ok =>
      cases ok with
      | false => exact trivial
      | true =>
        rw [stage'] at known done_case
        exact done_case rfl known
  · intro content here
    cases now.symm.trans here
    exact packedKept_clean clean
  · intro late
    rw [raced] at late
    rw [other]
    exact inv.late who late
  · intro _
    rw [Bool.not_not, mine]
    rfl
  · intro text here
    rw [mine] at here
    cases here
  · intro text here
    rw [other] at here
    exact (alone text here).elim

theorem DeleteInv.turn (who fault : Bool) :
    DeleteInv dirs calls ((deleteRules dirs calls).turn before (who, fault)) := by
  have move : DeleteMove dirs (calls who).name before.shared (before.part who)
    (deleteStep dirs (calls who) fault before.shared (before.part who)) := deleteStep_move (plain who)
  obtain ⟨shared, mine, other, raced, overOther, calm⟩ := (deleteRules dirs calls).turn_spec before who fault
  generalize (deleteRules dirs calls).turn before (who, fault) = after at *
  simp only [deleteRules] at shared mine overOther calm
  generalize deleteStep dirs (calls who) fault before.shared (before.part who) = result at *
  have unlocked : packedPlace dirs ≠ lockPlace (packedPlace dirs) := (lockPlace_ne_packed _ dirs.commonDir).symm
  -- a step that does not rename overtakes no one
  rw [← mine] at calm
  have known := inv.known who
  generalize stage : before.part who = held at *
  cases move with
  | rest ok =>
    have same := calm (by cases ok <;> rfl)
    refine inv.still plain shared other same (.inl (by rw [stage, mine])) (by rw [mine]; simp) ?_
    rw [mine]
    exact known.congr (by rw [shared]) (by rw [shared]; exact id) raced (by rw [Undone, Undone, other, same])
  | fail _ disk free kept unput =>
    refine inv.quiet plain ?_ ?_ other (calm (by rw [mine]; simp [DeleteStage.put]))
      (.inl (by rw [stage, unput, mine]; rfl))
      (by rw [mine]; exact trivial) ⟨by rw [mine]; simp, fun text held => ⟨?_, by rw [mine]; simp⟩⟩
    · rw [shared, kept _ unlocked]
    · intro q _ free absent
      rw [shared, kept q free, absent]
    · rw [shared, free fun text' mineToo => ?_]
      exact (inv.lock who text' (stage.trans mineToo)).2 text held
  | noFile path =>
    refine inv.still plain shared other (calm rfl) (.inl (by rw [stage, mine]; rfl)) (by rw [mine]; simp) ?_
    rw [mine]
    exact ⟨raced.trans known, path⟩
  | check _ start =>
    have early : before.overtaken who = false ∧ (refPath dirs (calls who).name).isSome := by
      obtain ⟨rfl, path⟩ | rfl := start
      · exact ⟨known, path⟩
      · exact known
    have unput : held.put = false := by obtain ⟨rfl, -⟩ | rfl := start <;> rfl
    refine inv.still plain shared other (calm (by rw [mine]; simp [DeleteStage.put]))
      (.inl (by rw [stage, mine, unput]; rfl))
      (by rw [mine]; simp) ?_
    rw [mine]
    exact ⟨raced.trans early.1, early.2⟩
  | unlink place disk found leaves =>
    obtain ⟨place', found', apart, free⟩ := (plain who).file
    cases found.symm.trans found'
    refine inv.quiet plain ?_ ?_ other (calm rfl) (.inl (by rw [stage, mine]; rfl)) ?_
      ⟨by rw [mine]; simp, fun text held => ⟨?_, by rw [mine]; simp⟩⟩
    · rw [shared, leaves, update_of_ne apart.symm]
    · intro q _ _ absent
      rw [shared, leaves, update_apply, absent, ite_self]
    · rw [mine]
      refine ⟨raced.trans known.1, known.2, fun place'' found'' => ?_⟩
      cases found.symm.trans found''
      rw [shared, leaves, update_self]
    · rw [shared, leaves, update_of_ne free.symm]
  | skip path none =>
    refine inv.still plain shared other (calm rfl) (.inr ⟨by rw [stage]; rfl, known.1⟩) (by rw [mine]; simp) ?_
    rw [mine]
    refine ⟨⟨known.2.1, path⟩, by rw [shared]; exact known.2.2, iff_of_false ?_ fun ⟨_, late⟩ => ?_⟩
    · rintro ⟨content, held, packs⟩
      rw [shared] at held
      exact none content held packs
    · -- the other one is overtaken only once this one has written
      rw [calm rfl] at late
      have done := inv.late (!who) late
      rw [Bool.not_not, stage] at done
      cases done
  | read content path held packs =>
    refine inv.still plain shared other (calm rfl) (.inl (by rw [stage, mine]; rfl)) (by rw [mine]; simp) ?_
    rw [mine]
    refine ⟨⟨known.2.1, path⟩, by rw [shared]; exact known.2.2, content, inv.clean content held, rfl, packs,
      fun _ => by rw [shared, held], fun late => ?_⟩
    rw [raced, known.1] at late
    cases late
  | lock text disk free leaves =>
    have alone : ∀ text, before.part (!who) ≠ .locked text := by
      intro text held
      cases free.symm.trans (inv.lock (!who) text held).1
    have packed : after.shared.leaf (packedPlace dirs) = before.shared.leaf (packedPlace dirs) := by
      rw [shared, leaves, update_of_ne unlocked]
    have apart : PutsNothing dirs before.shared after.shared := by
      intro q _ free absent
      rw [shared, leaves, update_of_ne free, absent]
    have same := calm (by rw [mine]; rfl)
    refine inv.quiet plain packed apart other same (.inl (by rw [stage, mine]; rfl)) ?_
      ⟨fun text' here => ?_, fun text held => (alone text held).elim⟩
    · rw [mine]
      have known' : DeleteKnown dirs calls before who (.locked text) := known
      exact known'.congr packed (NoFile.of_leaf (plain who) apart) raced (by rw [Undone, Undone, other, same])
    · rw [mine] at here
      cases here
      refine ⟨?_, alone⟩
      rw [shared, leaves, update_self]
  | rename text content disk held leaves =>
    refine inv.rename plain distinct stage held (by rw [shared, leaves]) mine other raced ?_
    rw [overOther]
    rfl
  | finish disk gone =>
    obtain ⟨place, found, apart, free⟩ := (plain who).log
    -- the reflog's file is the only one that can be gone
    have kept : ∀ q ≠ place, after.shared.leaf q = before.shared.leaf q := by
      intro q off
      rw [shared]
      obtain same | ⟨place', found', removed⟩ := gone
      · rw [same]
      · cases found.symm.trans found'
        rw [removed, update_of_ne off]
    have leaves : PutsNothing dirs before.shared after.shared := by
      intro q _ _ absent
      rw [shared]
      obtain same | ⟨place, -, removed⟩ := gone
      · rw [same, absent]
      · rw [removed, update_apply, absent, ite_self]
    have same := calm rfl
    refine inv.quiet plain (kept _ apart.symm) leaves other same (.inl (by rw [stage, mine]; rfl)) ?_
      ⟨by rw [mine]; simp, fun text held => ⟨kept _ free.symm, by rw [mine]; simp⟩⟩
    rw [mine]
    have known' : DeleteKnown dirs calls before who (.finished true) := known
    exact known'.congr (kept _ apart.symm) (NoFile.of_leaf (plain who) leaves) raced
      (by rw [Undone, Undone, other, same])

end

end

theorem deleteInv_run {disk : RefDisk} (plain : ∀ who, PlainName dirs (calls who).name)
    (distinct : ∀ who, (calls !who).name ≠ (calls who).name)
    (clean : ∀ content, disk.leaf (packedPlace dirs) = some content → 0 ∉ content) (moves : List (Bool × Bool)) :
    DeleteInv dirs calls (deleteRun dirs calls disk moves) :=
  TurnRules.run_invariant _ _ (DeleteInv dirs calls) (fun _ who fault inv => inv.turn plain distinct who fault)
    (.start clean) moves

theorem DeleteInv.resolves_iff (inv : DeleteInv dirs calls world) (plain : PlainName dirs (calls who).name)
    (done : world.part who = .finished true) :
    (refResolve dirs world.shared (calls who).name).isSome ↔ Undone world who := by
  have known := inv.known who
  rw [done] at known
  obtain ⟨fits, none, packing⟩ := known
  obtain ⟨place, found, -⟩ := plain.file
  have noLine : refFileLine dirs world.shared (calls who).name = Option.none := by
    rw [refFileLine_eq found, none place found, bind_none]
  have path := fits.packed
  rw [← not_isNone, Bool.not_eq_true'] at path
  rw [refResolve_of_no_file plain.notId fits.ref noLine, ← packing, PacksNow, packedRefsRead, path]
  change (RefValue.id (if false = true then _ else match world.shared.leaf (packedPlace dirs) with
    | Option.none => RefValue.absent
    | some content => _)).isSome = true ↔ _
  cases held : world.shared.leaf (packedPlace dirs) with
  | none => simp [RefValue.id]
  | some content =>
    simp only [Option.some.injEq, exists_eq_left', packs_iff]
    cases (packedRefLines content).lookup (calls who).name <;> simp [RefValue.id]

end

/-! Two refs of one `packed-refs`. -/

def linesPQ : Bytes := List.replicate 40 0x61 ++ ascii " p\n" ++ List.replicate 40 0x62 ++ ascii " q\n"

def diskPQ : RefDisk where
  tree := FileTree.empty.put packedRefs [] (.leaf linesPQ) FileTree.empty_top rfl
  touched := []

def dirsPQ : GitDirs := ⟨[], []⟩

def callsPQ (who : Bool) : DeleteCall where
  name := if who then ascii "p" else ascii "q"
  old := none

def nameP : FileName := ⟨ascii "p", by decide⟩

def nameQ : FileName := ⟨ascii "q", by decide⟩

theorem plain_callsPQ : ∀ who, PlainName dirsPQ (callsPQ who).name
  | true => ⟨⟨[nameP], by decide +kernel⟩, ⟨[nameP, logs], by decide +kernel⟩, by decide +kernel⟩
  | false => ⟨⟨[nameQ], by decide +kernel⟩, ⟨[nameQ, logs], by decide +kernel⟩, by decide +kernel⟩

end BashOs.Git.Refs

import BashOs.Lib.Interleaving
import BashOs.Git.Refs.Reading

/-!
Two processes that write one ref, each step of either coming between any two of the other. The value a call expects is
looked at before its lock is taken and not again, so a call replaces what it expects only if the other one has not
written the ref in between.
-/

namespace BashOs.Git.Refs
open BashOs.Lib BashOs.Git.WorkTree List Option Function Bool
open TurnRules (forall_who)

/-! ## A call in its steps -/

/-- A call of `bgit_ref_update`, or without a message of `bgit_ref_set`. -/
structure RefCall where
  new : Bytes
  old : Option Bytes
  message : Option Bytes

inductive SwapStage where
  | idle
  -- the ref has no file, `packed-refs` is to be read
  | noFile
  | checked (current : Option Bytes)
  | locked (current : Option Bytes)
  | renamed (current : Option Bytes)
  | finished (ok : Bool)
deriving DecidableEq

structure SwapProcess where
  stage : SwapStage
  replaced : Option RefValue
deriving DecidableEq

section
variable (ident : Option Bytes) (dirs : GitDirs) (name : Bytes)

/-- `current` is checked: the call goes on to its lock, or it fails. -/
def RefCall.judge (call : RefCall) (value : RefValue) : SwapStage :=
  match value.check call.old with
  | none => .finished false
  | some current => .checked current

/-- What the call does next; `fault` says that the system refuses it a change. -/
def swapStep (call : RefCall) (fault : Bool) (disk : RefDisk) (process : SwapProcess) : RefDisk × SwapProcess :=
  let goTo (disk : RefDisk) (stage : SwapStage) : RefDisk × SwapProcess := (disk, { process with stage })
  match process.stage with
  | .idle =>
    if !nameOk name then goTo disk (.finished false)
    else if call.new.length ≠ 40 || !allHex call.new then goTo disk (.finished false)
    else if (refPath dirs name).isNone then goTo disk (.finished false)
    else
      match refFileLine dirs disk name with
      | none => goTo disk .noFile
      | some line => goTo disk (call.judge (lineValue line))
  | .noFile => goTo disk (call.judge (packedRefsRead dirs disk name))
  | .checked current =>
    match refPath dirs name, namePlace (dirs.base name) name with
    | some path, some place =>
      if fault then goTo disk (.finished false)
      else
        match takeLock disk path (call.new ++ [0x0a]) place with
        | (after, true) => goTo after (.locked current)
        | (after, false) => goTo after (.finished false)
    | _, _ => goTo disk (.finished false)
  | .locked current =>
    match namePlace (dirs.base name) name with
    | none => goTo disk (.finished false)
    | some place =>
      if fault then goTo (dropLock disk place) (.finished false)
      else
        match commitLock disk place with
        | (after, true) => (after, { stage := .renamed current, replaced := some (refValue dirs disk name) })
        | (after, false) => goTo after (.finished false)
  | .renamed current =>
    match call.message with
    | none => goTo disk (.finished true)
    | some message =>
      -- a ref that is set to what it held has not moved
      if current = some call.new then goTo disk (.finished true)
      else if fault then goTo disk (.finished false)
      else
        let (after, ok) := reflogAppend ident dirs disk name current call.new message
        goTo after (.finished ok)
  | .finished ok => goTo disk (.finished ok)

def SwapStage.reading : SwapStage → Bool
  | .noFile | .checked _ | .locked _ => true
  | _ => false

def swapRules (calls : Bool → RefCall) : TurnRules RefDisk SwapProcess Bool where
  step who := swapStep ident dirs name (calls who)
  reading process := process.stage.reading
  puts before after := before.replaced.isNone && after.replaced.isSome

def swapStart (disk : RefDisk) : Parties RefDisk SwapProcess where
  shared := disk
  part _ := { stage := .idle, replaced := none }
  overtaken _ := false

/-- Both calls, in the turns that `moves` gives them, each with whether the system refuses a change. -/
def swapRun (calls : Bool → RefCall) (disk : RefDisk) (moves : List (Bool × Bool)) : Parties RefDisk SwapProcess :=
  (swapRules ident dirs name calls).run (swapStart disk) moves

end

def Expected (old : Option Bytes) (value : RefValue) : Prop := (value.check old).isSome = true

instance (old : Option Bytes) (value : RefValue) :
    Decidable (Expected old value) := inferInstanceAs (Decidable (_ = true))

/-! ## What a step does -/

section
variable {ident : Option Bytes} {dirs : GitDirs} {name : Bytes} {call : RefCall} {fault : Bool} {disk after : RefDisk}
  {process next : SwapProcess} {place : Place} {calls : Bool → RefCall} {world : Parties RefDisk SwapProcess}

structure RefCall.Passed (dirs : GitDirs) (name : Bytes) (call : RefCall) : Prop where
  named : nameOk name = true
  id : call.new.length = 40 ∧ allHex call.new = true
  path : (refPath dirs name).isSome

theorem RefCall.judge_cases (call : RefCall) (value : RefValue) :
    call.judge value = .finished false ∨ ∃ current, call.judge value = .checked current ∧ Expected call.old value := by
  unfold RefCall.judge
  split
  · exact .inl rfl
  next current passed => exact .inr ⟨current, rfl, by simp [Expected, passed]⟩

inductive SwapMove (dirs : GitDirs) (name : Bytes) (call : RefCall) (disk : RefDisk) (process : SwapProcess) :
    RefDisk × SwapProcess → Prop where
  | rest (ok : Bool) : process.stage = .finished ok → SwapMove dirs name call disk process (disk, process)
  | fail (after : RefDisk) :
      ((∀ current, process.stage ≠ .locked current) → after.leaf = disk.leaf) →
      (∀ place, namePlace (dirs.base name) name = some place → ∀ q ≠ lockPlace place, after.leaf q = disk.leaf q) →
      SwapMove dirs name call disk process (after, { process with stage := .finished false })
  | noFile : process.stage = .idle → call.Passed dirs name → refFileLine dirs disk name = none →
      SwapMove dirs name call disk process (disk, { process with stage := .noFile })
  | check (current : Option Bytes) (value : RefValue) :
      (process.stage = .idle ∧ call.Passed dirs name ∧ value = refValue dirs disk name) ∨
        (process.stage = .noFile ∧ value = packedRefsRead dirs disk name) →
      Expected call.old value → SwapMove dirs name call disk process (disk, { process with stage := .checked current })
  | lock (current : Option Bytes) (place : Place) (after : RefDisk) : process.stage = .checked current →
      namePlace (dirs.base name) name = some place → disk.leaf (lockPlace place) = none →
      after.leaf = Function.update disk.leaf (lockPlace place) (some (call.new ++ [0x0a])) →
      SwapMove dirs name call disk process (after, { process with stage := .locked current })
  | rename (current : Option Bytes) (place : Place) (content : Bytes) (after : RefDisk) :
      process.stage = .locked current → namePlace (dirs.base name) name = some place →
      disk.leaf (lockPlace place) = some content →
      after.leaf = Function.update (Function.update disk.leaf (lockPlace place) none) place (some content) →
      SwapMove dirs name call disk process (after, ⟨.renamed current, some (refValue dirs disk name)⟩)
  | finish (current : Option Bytes) (after : RefDisk) (ok : Bool) : process.stage = .renamed current →
      (∀ q, (∀ place, namePlace (logs :: dirs.base name) name = some place → q ≠ place) → after.leaf q = disk.leaf q) →
      SwapMove dirs name call disk process (after, { process with stage := .finished ok })

theorem swapStep_move : SwapMove dirs name call disk process (swapStep ident dirs name call fault disk process) := by
  have still : SwapMove dirs name call disk process (disk, { process with stage := .finished false }) :=
    .fail disk (fun _ => rfl) fun _ _ _ _ => rfl
  unfold swapStep
  cases stage : process.stage with
  | idle =>
    dsimp only
    split
    · exact still
    rename_i named
    split
    · exact still
    rename_i id
    split
    · exact still
    rename_i path
    have passed : call.Passed dirs name :=
      ⟨by simpa using named, by simpa using id, by simpa [isSome_iff_ne_none] using path⟩
    split
    next none => exact .noFile stage passed none
    rename_i line found
    have read : lineValue line = refValue dirs disk name := by
      rw [refValue, if_neg path, found]
      rfl
    obtain failed | ⟨current, judged, expected⟩ := call.judge_cases (lineValue line)
    · rwa [failed]
    · rw [judged]
      exact .check current _ (.inl ⟨stage, passed, read⟩) expected
  | noFile =>
    obtain failed | ⟨current, judged, expected⟩ := call.judge_cases (packedRefsRead dirs disk name)
    · rwa [failed]
    · rw [judged]
      exact .check current _ (.inr ⟨stage, rfl⟩) expected
  | checked current =>
    dsimp only
    split
    next path place _ found =>
      split
      · exact still
      split
      next after taken =>
        obtain ⟨free, leaves⟩ := (takeLock_spec taken).1 rfl
        exact .lock current place after stage found free leaves
      next after refused =>
        have leaves := (takeLock_spec refused).2 rfl
        exact .fail after (fun _ => leaves) fun _ _ q _ => congrFun leaves q
    · exact still
  | locked current =>
    dsimp only
    split
    · exact still
    rename_i place found
    split
    · refine .fail _ (fun other => (other current stage).elim) fun place' found' q apart => ?_
      cases found.symm.trans found'
      rw [dropLock, Tracked.leaf_remove, update_of_ne apart]
    split
    next after done =>
      obtain ⟨content, held, leaves⟩ := (commitLock_spec done).1 rfl
      exact .rename current place content after stage found held leaves
    next after refused =>
      refine .fail after (fun other => (other current stage).elim) fun place' found' q apart => ?_
      cases found.symm.trans found'
      exact (commitLock_spec refused).2 rfl q apart
  | renamed current =>
    dsimp only
    split
    · exact .finish current disk true stage fun _ _ => rfl
    rename_i message _
    split
    · exact .finish current disk true stage fun _ _ => rfl
    split
    · exact .finish current disk false stage fun _ _ => rfl
    refine .finish current _ _ stage fun q apart => ?_
    have covered : ∀ place, namePlace (logs :: dirs.base name) name = some place →
        place ∈ {place | namePlace (logs :: dirs.base name) name = some place} := fun _ found => found
    exact (reflogAppend_within covered current call.new message).kept q fun inside => apart q inside rfl
  | finished ok =>
    dsimp only
    rw [← stage]
    exact .rest ok stage

/-! ## What the ref holds -/

theorem namePlace_logs {logPlace : Place} (found : namePlace (dirs.base name) name = some place)
    (logged : namePlace (logs :: dirs.base name) name = some logPlace) : logPlace.length = place.length + 1 := by
  obtain ⟨names, named, rfl⟩ := map_eq_some_iff.1 found
  obtain ⟨same, named', rfl⟩ := map_eq_some_iff.1 logged
  cases named.symm.trans named'
  simp
  omega

theorem refValue_of_line (passed : call.Passed dirs name) (line : refFileLine dirs disk name = some call.new) :
    refValue dirs disk name = .found call.new := by
  obtain ⟨length, hex⟩ := passed.id
  have plain : (ascii "ref:").isPrefixOf call.new = false := by
    rw [← not_eq_true, isPrefixOf_iff_prefix]
    rintro ⟨rest, same⟩
    have digit := all_eq_true.1 (and_eq_true_iff.1 hex).2 0x72 (by rw [← same]; exact mem_cons_self)
    exact absurd digit (by decide)
  have path := passed.path
  rw [← not_isNone, not_eq_true'] at path
  rw [refValue, path, line]
  simp [plain, length, hex]

/-! ## Runs -/

/-- What is known of a process: what it has seen still holds if the other has not renamed since, and once it has
renamed it replaced what it had seen, or else what the other one wrote. -/
def Known (dirs : GitDirs) (name : Bytes) (calls : Bool → RefCall) (world : Parties RefDisk SwapProcess) (who : Bool) :
    SwapStage → Prop
  | .idle => (world.part who).replaced = none ∧ world.overtaken who = false
  | .noFile => (calls who).Passed dirs name ∧ (world.part who).replaced = none ∧
      (world.overtaken who = false → refFileLine dirs world.shared name = none) ∧
      (world.overtaken who = true → (world.part !who).replaced.isSome)
  | .checked _ | .locked _ => (calls who).Passed dirs name ∧ (world.part who).replaced = none ∧
      (world.overtaken who = false → Expected (calls who).old (refValue dirs world.shared name)) ∧
      (world.overtaken who = true → (world.part !who).replaced.isSome)
  | .renamed _ => (world.part who).replaced.isSome
  | .finished ok => ok = true → (world.part who).replaced.isSome

structure SwapInv (dirs : GitDirs) (name : Bytes) (calls : Bool → RefCall)
    (world : Parties RefDisk SwapProcess) : Prop where
  known : ∀ who, Known dirs name calls world who (world.part who).stage
  replaced : ∀ who value, (world.part who).replaced = some value → (calls who).Passed dirs name ∧
    (world.overtaken who = false → Expected (calls who).old value) ∧
    (world.overtaken who = true → value = .found (calls !who).new)
  lock : ∀ who current place, (world.part who).stage = .locked current → namePlace (dirs.base name) name = some place →
    world.shared.leaf (lockPlace place) = some ((calls who).new ++ [0x0a]) ∧
      ∀ other, (world.part !who).stage ≠ .locked other
  last : ∀ who, (world.part who).replaced.isSome → (world.part !who).replaced = none →
    refFileLine dirs world.shared name = some (calls who).new
  both : (∀ who, (world.part who).replaced.isSome) → (refFileLine dirs world.shared name).isSome ∧
    ∃ who, (world.part who).replaced = some (.found (calls !who).new)

theorem SwapInv.start (disk : RefDisk) : SwapInv dirs name calls (swapStart disk) where
  known who := ⟨rfl, rfl⟩
  replaced who value done := by cases done
  lock who current place held := by cases held
  last who done := by cases done
  both done := by cases done true

variable {before after : Parties RefDisk SwapProcess} {who : Bool}

def SameRef (dirs : GitDirs) (name : Bytes) (before after : RefDisk) : Prop :=
  ∀ place, namePlace (dirs.base name) name = some place →
    refFileLine dirs after name = refFileLine dirs before name ∧ refValue dirs after name = refValue dirs before name

theorem SameRef.of_lock {disk last : RefDisk}
    (kept : ∀ place, namePlace (dirs.base name) name = some place → ∀ q ≠ lockPlace place, last.leaf q = disk.leaf q) :
    SameRef dirs name disk last := by
  intro place found
  obtain ⟨last, more, rfl⟩ := namePlace_below found
  exact refValue_congr found (kept _ found _ (lockPlace_ne (cons_ne_nil _ _)).symm) fun _ =>
    kept _ found _ (lockPlace_ne_packed _ dirs.commonDir).symm

section
variable (same : SameRef dirs name before.shared after.shared)
include same

theorem SameRef.of_passed {call : RefCall} (passed : call.Passed dirs name) :
    refFileLine dirs after.shared name = refFileLine dirs before.shared name ∧
      refValue dirs after.shared name = refValue dirs before.shared name := by
  obtain ⟨last, up, found⟩ := nameOk_place passed.named (dirs.base name)
  exact same _ found

theorem Known.congr {stage : SwapStage} (mine : (after.part who).replaced = (before.part who).replaced)
    (theirs : (after.part !who).replaced = (before.part !who).replaced)
      (raced : after.overtaken who = before.overtaken who)
    (known : Known dirs name calls before who stage) : Known dirs name calls after who stage := by
  cases stage with
  | idle => simpa only [Known, mine, raced] using known
  | noFile =>
    have eqs := same.of_passed known.1
    simpa only [Known, mine, theirs, raced, eqs.1] using known
  | checked current | locked current =>
    have eqs := same.of_passed known.1
    simpa only [Known, mine, theirs, raced, eqs.2] using known
  | renamed current => simpa only [Known, mine] using known
  | finished ok => simpa only [Known, mine] using known

end

section
variable (inv : SwapInv dirs name calls before)
include inv

/-- A step that leaves the ref alone keeps what is known, if it keeps it of the process that takes it. -/
theorem SwapInv.quiet (same : SameRef dirs name before.shared after.shared)
    (mine : (after.part who).replaced = (before.part who).replaced) (other : after.part (!who) = before.part (!who))
    (raced : after.overtaken = before.overtaken) (known : Known dirs name calls after who (after.part who).stage)
    (lock : ∀ place, namePlace (dirs.base name) name = some place →
      (∀ current, (after.part who).stage = .locked current →
        after.shared.leaf (lockPlace place) = some ((calls who).new ++ [0x0a]) ∧
          ∀ current, (before.part !who).stage ≠ .locked current) ∧
      (∀ current, (before.part !who).stage = .locked current →
        after.shared.leaf (lockPlace place) = before.shared.leaf (lockPlace place) ∧
          ∀ current, (after.part who).stage ≠ .locked current)) :
    SwapInv dirs name calls after := by
  have parts : ∀ x, (after.part x).replaced = (before.part x).replaced := forall_who who mine (by rw [other])
  refine ⟨forall_who who known ?_, ?_, ?_, ?_, ?_⟩
  · rw [other]
    exact (inv.known !who).congr same (parts _) (parts _) (congrFun raced _)
  · intro x value done
    rw [parts] at done
    rw [raced]
    exact inv.replaced x value done
  · refine forall_who who ?_ ?_
    · intro current place held found
      rw [other]
      exact (lock place found).1 current held
    · intro current place held found
      rw [other] at held
      rw [Bool.not_not]
      obtain ⟨leaf, free⟩ := (lock place found).2 current held
      rw [leaf]
      exact ⟨(inv.lock (!who) current place held found).1, free⟩
  · intro x done none
    rw [parts] at done none
    obtain ⟨value, here⟩ := isSome_iff_exists.1 done
    rw [(same.of_passed (inv.replaced x value here).1).1]
    exact inv.last x done none
  · intro done
    simp only [parts] at done ⊢
    obtain ⟨value, here⟩ := isSome_iff_exists.1 (done true)
    rw [(same.of_passed (inv.replaced true value here).1).1]
    exact inv.both done

theorem SwapInv.not_reading (done : (before.part who).replaced.isSome) : (before.part who).stage.reading = false := by
  have known := inv.known who
  cases stage : (before.part who).stage with
  | idle => rfl
  | renamed => rfl
  | finished => rfl
  | noFile | locked | checked =>
    rw [stage] at known
    simp [known.2.1] at done

theorem SwapInv.rename {current : Option Bytes} {place : Place} {content : Bytes}
    (stage : (before.part who).stage = .locked current) (found : namePlace (dirs.base name) name = some place)
    (held : before.shared.leaf (lockPlace place) = some content)
    (leaves : after.shared.leaf = update (update before.shared.leaf (lockPlace place) none) place (some content))
    (mine : after.part who = ⟨.renamed current, some (refValue dirs before.shared name)⟩)
    (other : after.part (!who) = before.part (!who)) (raced : after.overtaken who = before.overtaken who)
    (overOther : after.overtaken (!who) = (before.overtaken (!who) || (before.part !who).stage.reading)) :
    SwapInv dirs name calls after := by
  have known := inv.known who
  rw [stage] at known
  obtain ⟨passed, unplaced, fresh, stale⟩ := known
  obtain ⟨own, alone⟩ := inv.lock who current place stage found
  cases held.symm.trans own
  have line : refFileLine dirs after.shared name = some (calls who).new := by
    rw [refFileLine_eq found, leaves, update_self, bind_some, firstLine_id passed.id]
  have theirs : ∀ value, (before.part !who).replaced = some value →
      refValue dirs before.shared name = .found (calls !who).new := by
    intro value done
    have last := inv.last (!who) (by rw [done]; rfl) (by rwa [Bool.not_not])
    exact refValue_of_line (inv.replaced (!who) value done).1 last
  refine ⟨forall_who who ?_ ?_, forall_who who ?_ ?_, forall_who who ?_ ?_, forall_who who ?_ ?_, ?_⟩
  · have placed : (after.part who).replaced.isSome := by rw [mine]; rfl
    rwa [mine]
  · have known := inv.known !who
    have placed : (after.part !!who).replaced.isSome := by
      rw [Bool.not_not, mine]
      rfl
    rw [other]
    cases stage' : (before.part !who).stage with
    | idle =>
      rw [stage'] at known overOther
      exact ⟨by rw [other]; exact known.1, by rw [overOther, known.2]; rfl⟩
    | noFile | checked =>
      rw [stage'] at known overOther
      refine ⟨known.1, by rw [other]; exact known.2.1, fun none => ?_, fun _ => placed⟩
      simp [overOther, SwapStage.reading] at none
    | locked current => exact (alone current stage').elim
    | renamed | finished ok =>
      rw [stage'] at known
      simpa only [Known, other] using known
  · intro value done
    rw [mine] at done
    cases done
    rw [raced]
    refine ⟨passed, fresh, fun late => ?_⟩
    obtain ⟨value, done⟩ := isSome_iff_exists.1 (stale late)
    exact theirs value done
  · intro value done
    rw [other] at done
    have calm : (before.part !who).stage.reading = false := inv.not_reading (by rw [done]; rfl)
    rw [overOther, calm, Bool.or_false]
    exact inv.replaced (!who) value done
  · intro current place held
    rw [mine] at held
    cases held
  · intro current place held
    rw [other] at held
    exact (alone current held).elim
  · intro _ _
    exact line
  · intro _ none
    rw [Bool.not_not, mine] at none
    cases none
  · intro done
    have theirDone := done !who
    rw [other] at theirDone
    obtain ⟨value, theirDone⟩ := isSome_iff_exists.1 theirDone
    refine ⟨by rw [line]; rfl, who, ?_⟩
    rw [mine]
    exact congrArg some (theirs value theirDone)

/-- Only a rename changes what the ref holds. -/
theorem SwapInv.sameRef {next : RefDisk × SwapProcess}
    (move : SwapMove dirs name (calls who) before.shared (before.part who) next)
    (quiet : next.2.replaced = (before.part who).replaced) : SameRef dirs name before.shared next.1 := by
  cases move with
  | rest | noFile | check => exact fun _ _ => ⟨rfl, rfl⟩
  | fail disk free kept => exact .of_lock kept
  | lock current place disk stage found free leaves =>
    refine .of_lock fun place' found' q apart => ?_
    cases found.symm.trans found'
    rw [leaves, update_of_ne apart]
  | rename current place content disk stage =>
    have known := inv.known who
    rw [stage] at known
    cases quiet.trans known.2.1
  | finish current disk ok stage kept =>
    have known := inv.known who
    rw [stage] at known
    have line : (refFileLine dirs before.shared name).isSome := by
      cases theirs : (before.part !who).replaced with
      | none => rw [inv.last who known theirs]; rfl
      | some => exact (inv.both (forall_who who known (by rw [theirs]; rfl))).1
    intro place found
    refine refValue_congr found (kept place fun logPlace logged => ?_) fun none => ?_
    · have longer := namePlace_logs found logged
      rintro rfl
      omega
    · rw [none] at line
      cases line

theorem SwapInv.value_step {next : RefDisk × SwapProcess} {place : Place}
    (move : SwapMove dirs name (calls who) before.shared (before.part who) next)
    (found : namePlace (dirs.base name) name = some place) :
    refValue dirs next.1 name = refValue dirs before.shared name ∨
      refValue dirs next.1 name = .found (calls who).new := by
  by_cases quiet : next.2.replaced = (before.part who).replaced
  · exact .inl (inv.sameRef move quiet place found).2
  cases move with
  | rename current place content disk stage found held leaves =>
    have known := inv.known who
    rw [stage] at known
    cases held.symm.trans (inv.lock who current place stage found).1
    refine .inr (refValue_of_line known.1 ?_)
    rw [refFileLine_eq found, leaves, update_self, bind_some, firstLine_id known.1.id]
  | _ => exact absurd rfl quiet

theorem SwapInv.turn (who fault : Bool) :
    SwapInv dirs name calls ((swapRules ident dirs name calls).turn before (who, fault)) := by
  have move : SwapMove dirs name (calls who) before.shared (before.part who)
    (swapStep ident dirs name (calls who) fault before.shared (before.part who)) := swapStep_move
  obtain ⟨shared, mine, other, raced, overOther, quiet⟩ := (swapRules ident dirs name calls).turn_spec before who fault
  generalize (swapRules ident dirs name calls).turn before (who, fault) = after at *
  simp only [swapRules] at shared mine overOther quiet
  generalize swapStep ident dirs name (calls who) fault before.shared (before.part who) = result at *
  -- a step that does not rename overtakes no one
  have calm (same : (after.part who).replaced = (before.part who).replaced) : after.overtaken = before.overtaken := by
    refine quiet ?_
    rw [← mine, same]
    cases (before.part who).replaced <;> rfl
  have known := inv.known who
  have still (same : result.2.replaced = (before.part who).replaced) : SameRef dirs name before.shared after.shared :=
    shared ▸ inv.sameRef move same
  cases move with
  | rest ok stage =>
    have same : after.part who = before.part who := mine
    refine inv.quiet (still rfl) (by rw [same]) other (calm (by rw [same])) ?_ fun place found => ?_
    · rw [same]
      exact known.congr (still rfl) (by rw [same]) (by rw [other]) raced
    · rw [same, stage]
      exact ⟨by simp, fun _ _ => ⟨by rw [shared], by simp⟩⟩
  | fail disk free kept =>
    refine inv.quiet (still rfl) (by rw [mine]) other (calm (by rw [mine])) ?_ fun place found => ?_
    · rw [mine]
      exact nofun
    · rw [mine]
      refine ⟨by simp, fun current held => ⟨?_, by simp⟩⟩
      rw [shared, free fun mineToo stage => ?_]
      exact (inv.lock who mineToo place stage found).2 current held
  | noFile stage passed none =>
    rw [stage] at known
    refine inv.quiet (still rfl) (by rw [mine]) other (calm (by rw [mine])) ?_ fun place found => ?_
    · rw [mine]
      refine ⟨passed, by rw [mine]; exact known.1, fun _ => by rw [shared]; exact none, fun late => ?_⟩
      rw [raced, known.2] at late
      cases late
    · rw [mine]
      exact ⟨by simp, fun _ _ => ⟨by rw [shared], by simp⟩⟩
  | check current value seen expected =>
    refine inv.quiet (still rfl) (by rw [mine]) other (calm (by rw [mine])) ?_ fun place found => ?_
    · rw [mine]
      obtain ⟨stage, passed, rfl⟩ | ⟨stage, rfl⟩ := seen
      · rw [stage] at known
        refine ⟨passed, by rw [mine]; exact known.1, fun _ => by rw [shared]; exact expected, fun late => ?_⟩
        rw [raced, known.2] at late
        cases late
      rw [stage] at known
      obtain ⟨passed, unplaced, fresh, stale⟩ := known
      refine ⟨passed, by rw [mine]; exact unplaced, fun early => ?_, fun late => ?_⟩
      · rw [raced] at early
        have path := passed.path
        rw [← not_isNone, not_eq_true'] at path
        rwa [shared, refValue, path, fresh early]
      · rw [raced] at late
        rw [other]
        exact stale late
    · rw [mine]
      exact ⟨by simp, fun _ _ => ⟨by rw [shared], by simp⟩⟩
  | lock current place disk stage found free leaves =>
    have unlocked : ∀ current, (before.part !who).stage ≠ .locked current := by
      intro current held
      cases free.symm.trans (inv.lock (!who) current place held found).1
    rw [stage] at known
    refine inv.quiet (still rfl) (by rw [mine]) other (calm (by rw [mine])) ?_ fun place' found' => ?_
    · rw [mine]
      exact Known.congr (still rfl) (by rw [mine]) (by rw [other]) raced known
    · cases found.symm.trans found'
      refine ⟨fun _ _ => ⟨?_, unlocked⟩, fun current held => (unlocked current held).elim⟩
      rw [shared, leaves, update_self]
  | rename current place content disk stage found held leaves =>
    have known : (before.part who).replaced = none := by
      rw [stage] at known
      exact known.2.1
    refine inv.rename stage found held (by rw [shared, leaves]) mine other raced ?_
    rw [overOther, known]
    simp
  | finish current disk ok stage kept =>
    rw [stage] at known
    have apart : ∀ place, namePlace (dirs.base name) name = some place →
        disk.leaf (lockPlace place) = before.shared.leaf (lockPlace place) := by
      intro place found
      refine kept _ fun logPlace logged same => ?_
      have longer := namePlace_logs found logged
      rw [← same, length_lockPlace] at longer
      omega
    refine inv.quiet (still rfl) (by rw [mine]) other (calm (by rw [mine])) ?_ fun place found => ?_
    · rw [mine]
      intro _
      rwa [mine]
    · rw [mine]
      refine ⟨by simp, fun _ _ => ⟨?_, by simp⟩⟩
      rw [shared, apart place found]

end

theorem swapInv_run (disk : RefDisk) (moves : List (Bool × Bool)) :
    SwapInv dirs name calls (swapRun ident dirs name calls disk moves) :=
  TurnRules.run_invariant _ _ (SwapInv dirs name calls) (fun _ who fault inv => inv.turn who fault) (.start disk) moves

/-- At no point of a run do both hold the lock, and the lock file of the one that holds it is what it is to put. -/
theorem swap_lock_held_once (ident : Option Bytes) (dirs : GitDirs) (name : Bytes) (calls : Bool → RefCall)
    (disk : RefDisk)
    (moves : List (Bool × Bool)) :
    let world := swapRun ident dirs name calls disk moves
    ∀ who current place, (world.part who).stage = .locked current → namePlace (dirs.base name) name = some place →
      world.shared.leaf (lockPlace place) = some ((calls who).new ++ [0x0a]) ∧
        ∀ other, (world.part !who).stage ≠ .locked other :=
  (swapInv_run disk moves).lock

/-- Whoever reads the ref, at whatever point of a run, finds what it held before or what one of the calls puts there. -/
theorem swap_value_whole (ident : Option Bytes) (dirs : GitDirs) {name : Bytes} (named : nameOk name = true)
    (calls : Bool → RefCall) (disk : RefDisk) (moves : List (Bool × Bool)) :
    let value := refValue dirs (swapRun ident dirs name calls disk moves).shared name
    value = refValue dirs disk name ∨ ∃ who, value = .found (calls who).new := by
  obtain ⟨last, up, found⟩ := nameOk_place named (dirs.base name)
  refine (TurnRules.run_invariant _ _ (fun world => SwapInv dirs name calls world ∧
    (refValue dirs world.shared name = refValue dirs disk name ∨
      ∃ who, refValue dirs world.shared name = .found (calls who).new))
    (fun world who fault held => ⟨held.1.turn who fault, ?_⟩) ⟨.start disk, .inl rfl⟩ moves).2
  obtain ⟨inv, seen⟩ := held
  rw [((swapRules ident dirs name calls).turn_spec world who fault).1]
  obtain same | put := inv.value_step swapStep_move found
  · exact same ▸ seen
  · exact .inr ⟨who, put⟩

/-- In every run, the calls that succeed have replaced what they expected just when each of them that the other one
overtook expected what the other one wrote. Two that expect the same, and not what either writes, then never both
succeed. -/
theorem swap_iff (ident : Option Bytes) (dirs : GitDirs) (name : Bytes) (calls : Bool → RefCall) (disk : RefDisk)
    (moves : List (Bool × Bool)) :
    let world := swapRun ident dirs name calls disk moves
    ((∀ who, (world.part who).stage = .finished true →
        ∃ value, (world.part who).replaced = some value ∧ Expected (calls who).old value) ∧
      ∀ old, (∀ who, (calls who).old = old) → (∀ who, ¬ Expected old (.found (calls who).new)) →
        ¬ ∀ who, (world.part who).stage = .finished true) ↔
    ∀ who, (world.part who).stage = .finished true → world.overtaken who = true →
      Expected (calls who).old (.found (calls !who).new) := by
  intro world
  have inv : SwapInv dirs name calls world := swapInv_run disk moves
  have placed : ∀ who, (world.part who).stage = .finished true → ∃ value, (world.part who).replaced = some value := by
    intro who done
    have known := inv.known who
    rw [done] at known
    exact isSome_iff_exists.1 (known rfl)
  constructor
  · rintro ⟨swapped, -⟩ who done late
    obtain ⟨value, held, expected⟩ := swapped who done
    rwa [(inv.replaced who value held).2.2 late] at expected
  · intro harmless
    have swapped : ∀ who, (world.part who).stage = .finished true →
        ∃ value, (world.part who).replaced = some value ∧ Expected (calls who).old value := by
      intro who done
      obtain ⟨value, held⟩ := placed who done
      refine ⟨value, held, ?_⟩
      obtain ⟨-, fresh, stale⟩ := inv.replaced who value held
      cases raced : world.overtaken who with
      | false => exact fresh raced
      | true =>
        rw [stale raced]
        exact harmless who done raced
    refine ⟨swapped, fun old same apart done => ?_⟩
    -- the one that renamed last replaced what the first one had written
    obtain ⟨-, who, held⟩ := inv.both fun who => by
      obtain ⟨value, held⟩ := placed who (done who)
      rw [held]
      rfl
    obtain ⟨value, held', expected⟩ := swapped who (done who)
    cases held.symm.trans held'
    rw [same] at expected
    exact apart (!who) expected

end

/-! Two calls that both look before either writes. -/

def digits (b : UInt8) : Bytes := List.replicate 40 b

def nameR : FileName := ⟨ascii "r", by decide⟩

/-- The ref `r` in a repository at the root. -/
def diskR : RefDisk where
  tree := FileTree.empty.put nameR [] (.leaf (digits 0x61 ++ [0x0a])) FileTree.empty_top rfl
  touched := []

def dirsR : GitDirs := ⟨[], []⟩

def callsR (who : Bool) : RefCall where
  new := digits (if who then 0x62 else 0x63)
  old := some (digits 0x61)
  message := none

/-- Both succeed, and the second one has replaced what the first one wrote. -/
theorem swap_both_succeed :
    let world := swapRun none dirsR (ascii "r") callsR diskR
      [(true, false), (false, false), (true, false), (true, false), (true, false),
        (false, false), (false, false), (false, false)]
    world.part true = ⟨.finished true, some (.found (digits 0x61))⟩ ∧
    world.part false = ⟨.finished true, some (.found (digits 0x62))⟩ ∧
    ¬ ∀ who, (world.part who).stage = .finished true →
      ∃ value, (world.part who).replaced = some value ∧ Expected (callsR who).old value := by
  intro world
  have first : world.part true = ⟨.finished true, some (.found (digits 0x61))⟩ := by decide +kernel
  have second : world.part false = ⟨.finished true, some (.found (digits 0x62))⟩ := by decide +kernel
  refine ⟨first, second, fun swapped => ?_⟩
  obtain ⟨value, held, expected⟩ := swapped false (by rw [second])
  rw [second] at held
  cases held
  exact absurd expected (by decide +kernel)

theorem swap_value_whole_sample : nameOk (ascii "r") = true ∧
    let value := refValue dirsR
      (swapRun none dirsR (ascii "r") callsR diskR [(true, false), (true, false), (true, false)]).shared
      (ascii "r")
    value = refValue dirsR diskR (ascii "r") ∨ ∃ who, value = .found (callsR who).new :=
  ⟨by decide, swap_value_whole none dirsR (by decide) callsR diskR _⟩

end BashOs.Git.Refs

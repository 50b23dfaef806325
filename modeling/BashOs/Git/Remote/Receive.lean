import BashOs.Git.Refs.Files

/-!
`git receive-pack` after it has listed the refs: the commands a client sends, the pack, and what each command may do to
a ref. The pack itself is another module's; here only whether it was stored and what the store then answers.
-/

namespace BashOs.Git.Remote
open BashOs.Lib BashOs.Git.WorkTree BashOs.Git.Refs List FileName

/-! ## Commands -/

structure PushCommand where
  oldId : Bytes
  newId : Bytes
  name : Bytes
deriving DecidableEq, Repr

/-- The name in a packet, `stale` being what stands after the packet in the reader's buffer. A NUL before the name makes
the length wrap, and what is copied then is the buffer up to the size of the field. -/
def commandName (stale data : Bytes) : Bytes :=
  let stop := (cString data).length
  if 82 ≤ stop then (stripLineEnd ((data.take stop).drop 82)).take 4095
  else cString ((data.drop 82 ++ stale).take 4095)

def pushCommand (stale data : Bytes) : Option PushCommand :=
  if data.length < 82 || data[40]? ≠ some 0x20 || data[81]? ≠ some 0x20 then none
  else
    some {
      oldId := cString (data.take 40)
      newId := cString ((data.drop 41).take 40)
      name := commandName stale data }

abbrev Packets := List (Bytes × Bytes)

def pushCommands (packets : Packets) : List PushCommand := packets.filterMap fun packet => pushCommand packet.2 packet.1

/-! ## What each may do -/

inductive Refusal where
  | checkedOut
  | fetchFirst
  | missingObjects
  | nonFastForward
  | failed
deriving DecidableEq, Repr

def Refusal.text : Refusal → String
  | .checkedOut => "branch is currently checked out"
  | .fetchFirst => "fetch first"
  | .missingObjects => "missing necessary objects"
  | .nonFastForward => "non-fast-forward"
  | .failed => "failed to update ref"

/-- The repository at the far end of a push. `has` and `isAncestor` are `bgit_odb_has` and whether `bgit_is_ancestor`
answers 1, both over the store as the pack has left it; `ident` is `bgit_committer_ident`. -/
structure Receiver where
  dirs : GitDirs
  bare : Bool
  denyNonFastForwards : Bool
  has : Bytes → Bool
  isAncestor : Bytes → Bytes → Bool
  ident : Option Bytes

section
variable (far : Receiver) (head : Option Bytes) (disk : RefDisk)

def PushCommand.unmaking (command : PushCommand) : Bool := command.newId = zeroes

def refusal (command : PushCommand) : Option Refusal :=
  let current := (refValue far.dirs disk command.name).id
  if head = some command.name then some .checkedOut
  -- a ref that is there has to hold the old id, and the null id stands for one that is not
  else if current.getD zeroes ≠ command.oldId then some .fetchFirst
  else if !command.unmaking && !far.has command.newId then some .missingObjects
  else
    match current with
    | some current =>
      if !command.unmaking && far.denyNonFastForwards && current ≠ command.newId &&
          !far.isAncestor current command.newId then some .nonFastForward
      else none
    | none => none

def runCommand (command : PushCommand) : RefDisk × Option Refusal :=
  match refusal far head disk command with
  | some reason => (disk, some reason)
  | none =>
    let current := (refValue far.dirs disk command.name).id
    let wrote :=
      if command.unmaking then refDelete far.dirs disk command.name current
      else refUpdate far.ident far.dirs disk command.name command.newId (some (current.getD [])) (ascii "push")
    (wrote.1, if wrote.2 then none else some .failed)

def runCommands : RefDisk → List PushCommand → RefDisk × List (PushCommand × Option Refusal)
  | disk, [] => (disk, [])
  | disk, command :: rest =>
    let (after, answer) := runCommand far head disk command
    let (last, report) := runCommands after rest
    (last, (command, answer) :: report)

/-- `git_cmd_receive_pack` from the first packet on, `stored` telling whether the pack that follows could be read and
stored. -/
def receivePack (stored : Bool) (packets : Packets) : RefDisk × Option (List (PushCommand × Option Refusal)) :=
  let commands := pushCommands packets
  if commands.any (fun command => !command.unmaking) && !stored then (disk, none)
  else
    let head := if far.bare then none else symrefTarget far.dirs disk (ascii "HEAD")
    let (after, report) := runCommands far head disk commands
    (after, some report)

end

/-! ## What a push may touch -/

/-- The files a push is there to change, besides those of the store: what lies under `refs/`, `packed-refs` and its
lock, and the reflogs of these. A lock under `refs/` lies under `refs/`. -/
def PushFile (dirs : GitDirs) : Set Place := { place |
  (∃ base ∈ [dirs.gitDir, dirs.commonDir], ∃ last more,
    place = last :: more ++ refsDir :: base ∨ place = last :: more ++ refsDir :: logs :: base) ∨
  place ∈ [packedRefs :: dirs.commonDir, lockName packedRefs :: dirs.commonDir, packedRefs :: logs :: dirs.commonDir] }

/-- A name of a ref: it begins with `refs/` and does not lead out of there. `packed-refs` is named besides, which is
no ref but may be changed. -/
def InsideRefs (name : Bytes) : Prop :=
  name = packedRefs.bytes ∨ ∃ rest, name = refsDir.bytes ++ 0x2f :: rest ∧ [0x2e, 0x2e] ∉ rest.splitOn 0x2f

section
variable {dirs : GitDirs} {name : Bytes} {area : Set Place} {far : Receiver}

theorem base_mem (dirs : GitDirs) (name : Bytes) : dirs.base name ∈ [dirs.gitDir, dirs.commonDir] := by
  unfold GitDirs.base
  split <;> simp

theorem covered_of_inside (inside : InsideRefs name) : Covered (PushFile dirs) dirs name := by
  have packed : packedRefs :: dirs.commonDir ∈ PushFile dirs ∧ lockName packedRefs :: dirs.commonDir ∈ PushFile dirs :=
    ⟨.inr (by simp), .inr (by simp)⟩
  obtain rfl | ⟨rest, rfl, down⟩ := inside
  · have base : dirs.base packedRefs.bytes = dirs.commonDir := by
      rw [GitDirs.base, if_neg (by decide +kernel)]
    refine ⟨fun tree place led => ?_, fun tree place led => ?_, fun _ last up found => ?_, fun _ place found =>
      ?_, packed⟩
    · rw [base] at led
      rw [leads_name led]
      exact packed.1
    · rw [base] at led
      have led : leads tree dirs.commonDir (logs.bytes ++ 0x2f :: packedRefs.bytes) = .there place := led
      rw [leads_name (leads_cons led)]
      exact .inr (by simp)
    · rw [base] at found
      cases found
      exact packed
    · rw [base, namePlace_name] at found
      cases found
      exact .inr (by simp)
  · have member := base_mem dirs (refsDir.bytes ++ 0x2f :: rest)
    refine ⟨fun tree place led => ?_, fun tree place led => ?_, fun _ last up found => ?_, fun _ place found =>
      ?_, packed⟩
    · obtain ⟨last, more, rfl⟩ := leads_below down (leads_cons led)
      exact .inl ⟨_, member, last, more, .inl rfl⟩
    · have led : leads tree _ (logs.bytes ++ 0x2f :: (refsDir.bytes ++ 0x2f :: rest)) = .there place := led
      obtain ⟨last, more, rfl⟩ := leads_below down (leads_cons (leads_cons led))
      exact .inl ⟨_, member, last, more, .inr rfl⟩
    · rw [namePlace_cons] at found
      obtain ⟨last', more, same⟩ := namePlace_below found
      cases same
      exact ⟨.inl ⟨_, member, last, more, .inl rfl⟩, .inl ⟨_, member, lockName last, more, .inl rfl⟩⟩
    · rw [namePlace_cons] at found
      obtain ⟨last, more, rfl⟩ := namePlace_below found
      exact .inl ⟨_, member, last, more, .inr rfl⟩

/-! ## Runs -/

theorem runCommand_within (head : Option Bytes) (disk : RefDisk) {command : PushCommand}
    (covered : Covered area far.dirs command.name) :
    disk.Within area (runCommand far head disk command).1 := by
  unfold runCommand
  split
  · exact .refl area disk
  split
  · exact refDelete_within covered _
  · exact refUpdate_within covered _ _ _

theorem runCommands_within (head : Option Bytes) (disk : RefDisk) {commands : List PushCommand}
    (covered : ∀ command ∈ commands, Covered area far.dirs command.name) :
    disk.Within area (runCommands far head disk commands).1 := by
  induction commands generalizing disk with
  | nil => exact .refl area disk
  | cons command rest ih =>
    have first := runCommand_within head disk (covered command (.head _))
    exact first.trans (ih _ fun later member => covered later (mem_cons_of_mem command member))

end

def OnlyRefs (far : Receiver) (disk : RefDisk) (stored : Bool) (packets : Packets) : Prop :=
  disk.Within (PushFile far.dirs) (receivePack far disk stored packets).1

/-! ## Names that do more -/

def bareRoot : Receiver where
  dirs := ⟨[], []⟩
  bare := true
  denyNonFastForwards := false
  has := fun _ => true
  isAncestor := fun _ _ => true
  ident := none

def noRefs : RefDisk := ⟨.empty, []⟩

def ones : Bytes := List.replicate 40 0x31

def createPacket (name : Bytes) : Bytes := zeroes ++ 0x20 :: ones ++ 0x20 :: name

section
variable {name : Bytes}

theorem leaf_noRefs (place : Place) : noRefs.leaf place = none := by
  cases place <;> rfl

theorem pushCommand_create (good : nameOk name = true) (short : name.length < 4096) (stale : Bytes) :
    pushCommand stale (createPacket name) = some ⟨zeroes, ones, name⟩ := by
  have printed := nameOk_bytes good
  have front : createPacket name = (zeroes ++ 0x20 :: ones ++ [0x20]) ++ name := by simp [createPacket]
  have length : (zeroes ++ 0x20 :: ones ++ [0x20]).length = 82 := by decide +kernel
  have clean : cString (createPacket name) = createPacket name := by
    apply takeWhile_ne_of_not_mem
    rw [front, mem_append, not_or]
    exact ⟨by decide +kernel, fun member => printed 0 member (by decide)⟩
  have whole : stripLineEnd name = name := by
    unfold stripLineEnd
    rw [dropWhile_eq_self_iff.2, reverse_reverse]
    intro some
    have last := printed (name.reverse[0]) (mem_reverse.1 (getElem_mem some))
    generalize name.reverse[0] = b at last
    simp only [Bool.or_eq_true, decide_eq_true_eq, not_or]
    constructor
    · rintro rfl
      exact last (by decide)
    · rintro rfl
      exact last (by decide)
  have drop : (createPacket name).drop 82 = name := by rw [front, ← length, drop_left]
  have total : (createPacket name).length = 82 + name.length := by rw [front, length_append, length]
  have parsed : commandName stale (createPacket name) = name := by
    rw [commandName, clean, if_pos (by omega), take_length, drop, whole, take_of_length_le (by omega)]
  -- what stands before the name is the same in every such packet
  have fixed : ∀ i, i < 82 → (createPacket name)[i]? = (zeroes ++ 0x20 :: ones ++ [0x20])[i]? := by
    intro i below
    rw [front, getElem?_append_left (by omega)]
  have old : (createPacket name).take 40 = zeroes := by simp [createPacket, zeroes]
  have new : ((createPacket name).drop 41).take 40 = ones := by simp [createPacket, zeroes, ones]
  have marks : (createPacket name)[40]? = some 0x20 ∧ (createPacket name)[81]? = some 0x20 :=
    ⟨(fixed 40 (by decide)).trans (by decide +kernel), (fixed 81 (by decide)).trans (by decide +kernel)⟩
  have ids : cString zeroes = zeroes ∧ cString ones = ones := by decide +kernel
  rw [pushCommand, if_neg (by simp [marks, total]), old, new, parsed, ids.1, ids.2]

theorem create_touches (good : nameOk name = true) (short : name.length < 4089) :
    ∃ last up, namePlace [] name = some (last :: up) ∧
      lockName last :: up ∈ (receivePack bareRoot noRefs true [(createPacket name, [])]).1.touched := by
  obtain ⟨last, up, found⟩ := nameOk_place good []
  rw [append_nil] at found
  refine ⟨last, up, found, ?_⟩
  have base : bareRoot.dirs.base name = [] := by
    unfold GitDirs.base
    split <;> rfl
  have fits : refPath bareRoot.dirs name = some (0x2f :: 0x2f :: name) := by
    rw [refPath, base]
    exact if_pos (by simp [rootText]; omega)
  have packed : (pathBelow bareRoot.dirs.commonDir (ascii "packed-refs")).isNone = false := by decide +kernel
  have absent : refValue bareRoot.dirs noRefs name = .absent := by
    have line : refFileLine bareRoot.dirs noRefs name = none := by
      unfold refFileLine
      cases (leads noRefs.tree (bareRoot.dirs.base name) name).place with
      | none => rfl
      | some place => simp [leaf_noRefs]
    simp [refValue, fits, line, packedRefsRead, packed, leaf_noRefs]
  have opens : (noRefs.tree.openDir true up).isSome := FileTree.openDir_isSome fun above _ => leaf_noRefs above
  obtain ⟨tree, walked⟩ := Option.isSome_iff_exists.1 opens
  have free : tree.node (lockName last :: up) = none := by
    by_contra there
    have opened := FileTree.openDir_eq_some walked
    have short := (opened.made (lockName last :: up) rfl there).2.length_le
    simp at short
  have made : noRefs.makeDirs up = some { noRefs with tree } := by rw [Tracked.makeDirs, walked, Option.map_some]
  have checked : checkOld bareRoot.dirs noRefs name (some []) = some none := by
    unfold checkOld
    rw [absent]
  have wrote : lockName last ::
      up ∈ (refUpdate none bareRoot.dirs noRefs name ones (some []) (ascii "push")).1.touched :=
    refUpdate_touches _ good (by decide +kernel) checked fits (by simp; omega) (base ▸ found) made free
  have commands : pushCommands [(createPacket name, [])] = [⟨zeroes, ones, name⟩] := by
    simp [pushCommands, pushCommand_create good (by omega)]
  have kept : PushCommand.unmaking ⟨zeroes, ones, name⟩ = false := by
    change decide (ones = zeroes) = false
    decide +kernel
  have unrefused : refusal bareRoot none noRefs ⟨zeroes, ones, name⟩ = none := by
    unfold refusal
    rw [absent]
    simp [RefValue.id, show bareRoot.has ones = true from rfl]
  simp only [receivePack, commands, runCommands, runCommand,
    show bareRoot.bare = true from rfl, if_true, unrefused, absent]
  exact wrote

theorem lockName_ne_packedRefs (last : FileName) : lockName last ≠ packedRefs := by
  intro same
  have ends : ascii ".lock" <:+ packedRefs.bytes := ⟨last.bytes, congrArg bytes same⟩
  exact absurd (isSuffixOf_iff_suffix.2 ends) (by decide +kernel)

theorem name_of_outermost {last outer : FileName} {more : Place} {text : Bytes}
    (split : text.splitOn 0x2f = (last :: more ++ [outer]).reverse.map bytes) :
    ∃ rest, text = outer.bytes ++ 0x2f :: rest ∧ rest.splitOn 0x2f = (last :: more).reverse.map bytes := by
  rw [reverse_append, reverse_singleton, singleton_append, map_cons] at split
  obtain ⟨second, others, rest⟩ := exists_cons_of_ne_nil (show (last :: more).reverse.map bytes ≠ [] by simp)
  rw [rest] at split ⊢
  exact splitOn_cons_cons split

theorem inside_of_lock {last : FileName} {up : Place} (found : namePlace [] name = some (last :: up))
    (inside : lockName last :: up ∈ PushFile ⟨[], []⟩) :
    InsideRefs name ∨ ∃ rest, name = logs.bytes ++ 0x2f :: (refsDir.bytes ++ 0x2f :: rest) := by
  have split : name.splitOn 0x2f = (last :: up).reverse.map bytes := splitOn_of_namePlace (by rw [found, append_nil])
  obtain ⟨base, member, first, more, under⟩ | single := inside
  · have root : base = [] := by simpa using member
    subst root
    obtain refs | log := under
    · cases refs
      obtain ⟨rest, rfl, parts⟩ := name_of_outermost split
      refine .inl (.inr ⟨rest, rfl, fun dots => ?_⟩)
      rw [parts] at dots
      obtain ⟨part, -, same⟩ := mem_map.1 dots
      exact part.ok.2.2.2.2 same
    · cases log
      have nested : name.splitOn 0x2f = (last :: (more ++ [refsDir]) ++ [logs]).reverse.map bytes :=
        split.trans (by simp)
      obtain ⟨rest, rfl, parts⟩ := name_of_outermost nested
      obtain ⟨tail, rfl, -⟩ := name_of_outermost parts
      exact .inr ⟨tail, rfl⟩
  · simp only [mem_cons, cons.injEq, lockName_ne_packedRefs, false_and, false_or, not_mem_nil, or_false,
      lockName_injective.eq_iff] at single
    obtain ⟨rfl, rfl⟩ := single
    have whole : [0x2f].intercalate (name.splitOn 0x2f) = name := intercalate_splitOn 0x2f
    rw [split] at whole
    exact .inl (.inl (by simpa using whole.symm))

end

def Confined (names : Set Bytes) : Prop :=
  ∀ far disk stored packets, (∀ command ∈ pushCommands packets, command.name ∈ names) → OnlyRefs far disk stored packets

theorem push_confined (names : Set Bytes) :
    ((∀ name ∈ names, InsideRefs name) → Confined names) ∧
    (Confined names → ∀ name ∈ names, nameOk name = true → name.length < 4089 →
      InsideRefs name ∨ ∃ rest, name = logs.bytes ++ 0x2f :: (refsDir.bytes ++ 0x2f :: rest)) := by
  constructor
  · intro inside far disk stored packets named
    unfold OnlyRefs receivePack
    dsimp only
    split
    · exact .refl _ disk
    · exact runCommands_within _ disk fun command member => covered_of_inside (inside _ (named command member))
  · intro confined name member good short
    have named : ∀ command ∈ pushCommands [(createPacket name, [])], command.name ∈ names := by
      simp [pushCommands, pushCommand_create good (by omega), member]
    have within := confined bareRoot noRefs true _ named
    obtain ⟨last, up, found, touched⟩ := create_touches good short
    apply inside_of_lock found
    exact (within.touched _ touched).resolve_left (not_mem_nil)

/-! A repository in a directory `far.git`, and a push to it that makes a file beside the refs. -/

def farGit : Place := [⟨ascii "far.git", by decide +kernel⟩]

def farRepository : Receiver := { bareRoot with dirs := ⟨farGit, farGit⟩, has := fun id => id = ones }

def farFiles : Option (FileTree FileName Bytes) :=
  (noRefs.tree.openDir true (refsDir :: farGit)).bind fun tree =>
    tree.add (.leaf (ascii "ref: refs/heads/main\n")) (⟨ascii "HEAD", by decide +kernel⟩ :: farGit)

def hookPush : RefDisk × Option (List (PushCommand × Option Refusal)) :=
  receivePack farRepository ⟨farFiles.getD noRefs.tree, []⟩ true [(createPacket (ascii "hooks/post-receive"), [])]

def postReceive : Place := ⟨ascii "post-receive", by decide +kernel⟩ :: ⟨ascii "hooks", by decide +kernel⟩ :: farGit

theorem push_writes_hook :
    hookPush.2 = some [(⟨zeroes, ones, ascii "hooks/post-receive"⟩, none)] ∧
    hookPush.1.leaf postReceive = some (ones ++ [0x0a]) ∧
    ¬ OnlyRefs farRepository ⟨farFiles.getD noRefs.tree, []⟩ true
      [(createPacket (ascii "hooks/post-receive"), [])] := by
  have outside : postReceive ∉ PushFile farRepository.dirs := by
    have second : ∀ (outer : FileName) (inner : Place), (inner ++ outer :: farGit).reverse[1]? = some outer := by
      simp [farGit]
    have hooks : postReceive.reverse[1]? ≠ some refsDir ∧ postReceive.reverse[1]? ≠ some logs := by decide +kernel
    rintro (⟨base, member, last, more, refs | log⟩ | single)
    · have root : base = farGit := by simpa [farRepository] using member
      exact hooks.1 (by rw [refs, root, second])
    · have root : base = farGit := by simpa [farRepository] using member
      have nested : postReceive = (last :: more ++ [refsDir]) ++ logs :: farGit := by rw [log, root]; simp
      exact hooks.2 (by rw [nested, second])
    · revert single
      decide +kernel
  have written : hookPush.1.leaf postReceive = some (ones ++ [0x0a]) := by decide +kernel
  refine ⟨by decide +kernel, written, fun within => ?_⟩
  have kept : hookPush.1.leaf postReceive = none := (within.kept postReceive outside).trans (by decide +kernel)
  rw [written] at kept
  cases kept

end BashOs.Git.Remote

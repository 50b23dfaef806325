import BashOs.Git.WorkTree.Merged

/-!
`git merge`: how it comes to a merge of three trees, and what that does to entries that were staged.
-/

namespace BashOs.Git.WorkTree
open BashOs.Lib Option
open BashOs.Lib.ContentStore (Grows)

/-- What the command asks of the rest of the program: whether `MERGE_HEAD` is there, the commit and the tree of
`HEAD`, the commit a name leads to, merge bases, the tree made up from several of them with what can be read once it
is written, a commit's tree, whether the index file and the branch could be written, and the status of committing. -/
structure MergeIo where
  merging : Bool
  head : Option (ObjectId × ObjectId)
  resolve : Bytes → Option ObjectId
  bases : ObjectId → ObjectId → Option Ids
  baseTree : Objects → Ids → Option (ObjectId × Objects)
  commitTree : ObjectId → Option ObjectId
  indexWritten : Bool
  refUpdated : Bool
  conclude : Nat

structure MergeOptions where
  noFf : Bool
  ffOnly : Bool

inductive MergePlan where
  | stop (status : Nat)
  | fastForward (tree : ObjectId) (read : Objects)
  | threeWay (base ours theirs : ObjectId) (read : Objects)

/-- The part of `git_cmd_merge` before the working tree is looked at. -/
def mergePlan (io : MergeIo) (options : MergeOptions) (name : Bytes) (index : Index) (read : Objects) :
    MergePlan :=
  if io.merging then .stop 128
  else
    match io.head with
    | none => .stop 128
    | some (head, headTree) =>
      if index.any fun entry => entry.stage ≠ 0 then .stop 128
      else
        match io.resolve name with
        | none => .stop 128
        | some theirs =>
          match io.bases head theirs with
          | none => .stop 128
          | some [] => .stop 128
          | some (base :: more) =>
            -- several bases are merged into one of their own
            match if more = [] then some (none, read) else (io.baseTree read (base :: more)).map (Prod.map some id) with
            | none => .stop 128
            | some (madeUp, read) =>
              if base = theirs then .stop 0
              else if options.ffOnly && base ≠ head then .stop 128
              else
                match io.commitTree theirs with
                | none => .stop 128
                | some theirTree =>
                  if base = head && !options.noFf then .fastForward theirTree read
                  else
                    match madeUp.or (io.commitTree base) with
                    | none => .stop 128
                    | some baseTree => .threeWay baseTree headTree theirTree read

inductive MergeWay where
  | stopped
  | broken
  | done
deriving DecidableEq

structure MergeEnd where
  way : MergeWay
  status : Nat
  disk : Disk
  index : Index

section
variable (host : Host) (mergeContent : LineMerge) (io : MergeIo) (stamp : UInt32)
  (root : Place)

/-- The merge of three trees in `git_cmd_merge`, the printing apart -/
def trueMerge (base ours theirs : ObjectId) (read : Objects) (index : Index) (disk : Disk) : MergeEnd :=
  match mergeTrees host mergeContent read (some base) (some ours) (some theirs) with
  | none => { way := .stopped, status := 128, disk, index }
  | some (paths, read) =>
    if !mergeSafeText host stamp root disk index paths then { way := .stopped, status := 2, disk, index }
    else
      match applyPathsText host read root paths disk with
      | (disk, none) => { way := .broken, status := 128, disk, index }
      | (disk, some entries) =>
        if !io.indexWritten then { way := .broken, status := 128, disk, index }
        else
          { way := .done
            status := if paths.any fun merged => !merged.settled then 1 else io.conclude
            disk
            index := storeIndex stamp entries }

/-- `git_cmd_merge` for one commit -/
def cmdMerge (options : MergeOptions) (name : Bytes) (read : Objects) (index : Index) (disk : Disk) :
    MergeEnd :=
  match mergePlan io options name index read with
  | .stop status => { way := .stopped, status, disk, index }
  | .fastForward tree read =>
    let moved := checkoutTreeText host read stamp (some root) (some tree) index false disk
    match moved.outcome with
    | .refused _ => { way := .stopped, status := 1, disk := moved.disk, index }
    | .failed => { way := .broken, status := 128, disk := moved.disk, index }
    | .done =>
      if !io.indexWritten then { way := .broken, status := 128, disk := moved.disk, index }
      else
        { way := .done
          status := if io.refUpdated then 0 else 128
          disk := moved.disk
          index := storeIndex stamp moved.index }
  | .threeWay base ours theirs read => trueMerge host mergeContent io stamp root base ours theirs read index disk

def Keeps (entries : Index) (entry : IndexEntry) : Prop :=
  ∃ other ∈ entries, other.path = entry.path ∧ other.mode = entry.mode ∧ other.sha = entry.sha ∧
    other.stage = entry.stage

/-- The merge brings the very entry: our side left the path as it was and theirs has the entry, or both changed the
path and their lines merge into it without a conflict. -/
def Brings (read : Objects) (base ours theirs : Index) (entry : IndexEntry) : Prop :=
  entry.mode ≠ 0 ∧
    ((sameEntry (entryFor base entry.path) (entryFor ours entry.path) = true ∧
        ∃ their, entryFor theirs entry.path = some their ∧ their.mode = entry.mode ∧ their.sha = entry.sha) ∨
      ∃ our their text, entryFor ours entry.path = some our ∧ entryFor theirs entry.path = some their ∧
        sameEntry (entryFor base entry.path) (some our) = false ∧
        sameEntry (entryFor base entry.path) (some their) = false ∧ sameEntry (some our) (some their) = false ∧
        mergedText mergeContent read (entryFor base entry.path) our their = some (text, 0) ∧
        mergedMode (entryFor base entry.path) our their = entry.mode ∧ blobId host text = some entry.sha)

end

section
variable {host : Host} {mergeContent : LineMerge} {io : MergeIo} {stamp : UInt32}
  {root : Place} {read after : Objects} {base ours theirs index entries : Index} {paths : List MergePath}
  {disk last : Disk} {entry : IndexEntry}
  {our their : IndexEntry} {before : Objects} {merged : MergePath} {options : MergeOptions} {name : Bytes}
    {baseTree ourTree theirTree : ObjectId}

theorem fill_mode {side : Option IndexEntry} (present : (Side.fill side).mode ≠ 0) : ∃ entry, side = some entry := by
  cases side with
  | none => exact (present rfl).elim
  | some entry => exact ⟨entry, rfl⟩

theorem Staged.not_ours (staged : Staged ours index entry)
    (found : entryFor ours entry.path = some our) : ¬ (our.mode = entry.mode ∧ our.sha = entry.sha) :=
  fun same => staged.2 ⟨our, entryFor_mem found, entryFor_path found, same⟩

theorem settles_theirs {later : Objects} {base ours theirs : Option IndexEntry} {path : IndexPath}
    (turn : MergeEntry host mergeContent before path base ours theirs (merged, later))
    (unchanged : sameEntry base ours = true) (found : theirs = some their) (apart : sameEntry ours theirs = false) :
    merged.settled = true ∧ merged.result = ⟨their.mode, some their.sha⟩ := by
  subst found
  cases turn with
  | agreed same => cases apart.symm.trans same
  | theirsOnly => exact ⟨rfl, rfl⟩
  | oursOnly _ changed => cases unchanged.symm.trans changed
  | dispute _ _ _ _ changed => cases unchanged.symm.trans changed
  | lines _ _ _ _ _ _ _ _ changed => cases unchanged.symm.trans changed

theorem settles_lines {later : Objects} {base : Option IndexEntry} {path : IndexPath}
    {text : Bytes} {id : ObjectId} (grows : Grows before after)
    (turn : MergeEntry host mergeContent before path base (some our) (some their) (merged, later))
    (left : sameEntry base (some our) = false) (right : sameEntry base (some their) = false)
    (apart : sameEntry (some our) (some their) = false)
    (merging : mergedText mergeContent after base our their = some (text, 0)) (named : blobId host text = some id) :
    merged.settled = true ∧ merged.result = ⟨mergedMode base our their, some id⟩ := by
  cases turn with
  | agreed same => cases apart.symm.trans same
  | theirsOnly _ same => cases left.symm.trans same
  | oursOnly _ _ same => cases right.symm.trans same
  | dispute _ _ _ _ _ conflict =>
    obtain ⟨text', conflicts, found, some⟩ := conflict our their rfl rfl
    cases merging.symm.trans (mergedText_grows grows found)
    exact (some rfl).elim
  | lines our' their' text' id' _ first second _ _ _ found wrote =>
    cases first
    cases second
    cases merging.symm.trans (mergedText_grows grows found)
    cases named.symm.trans (writeObject_eq_some wrote).1
    exact ⟨rfl, rfl⟩

theorem keeps_iff_brings
    (merging : mergePaths host mergeContent base ours theirs (allPaths base ours theirs) read = some (paths, after))
    (applied : applyPathsText host after root paths disk = (last, some entries)) (staged : Staged ours index entry)
    (plain : entry.stage = 0) :
    Keeps (storeIndex stamp entries) entry ↔ Brings host mergeContent after base ours theirs entry := by
  obtain ⟨names, -, each⟩ := mergePaths_eq_some merging
  obtain ⟨forward, back⟩ := applyPathsText_entries applied
  constructor
  · rintro ⟨other, stored, path, mode, sha, stage⟩
    obtain ⟨made, inside, rfl⟩ := mem_storeIndex.1 stored
    obtain ⟨path', mode', sha', stage'⟩ := smudge_names stamp made
    obtain ⟨merged, member, stat, inside⟩ := back made inside
    obtain ⟨settled, present, mode'', sha''⟩ := (MergePath.mem_entries inside).2 (stage'.symm.trans (stage.trans plain))
    have same : merged.path = entry.path := by rw [← (MergePath.mem_entries inside).1, ← path', path]
    have mode : merged.result.mode = entry.mode := by rw [← mode'', ← mode', mode]
    have sha : merged.result.sha.getD nullId = entry.sha := by rw [← sha'', ← sha', sha]
    obtain ⟨before, later, -, ahead, turn⟩ := each merged member
    have grows := turn.grows.trans ahead
    rw [same] at turn
    rw [mode] at present
    cases turn with
    | agreed | oursOnly =>
      obtain ⟨our, found⟩ := fill_mode (mode ▸ present)
      rw [found] at mode sha
      exact (staged.not_ours found ⟨mode, sha⟩).elim
    | theirsOnly _ unchanged =>
      obtain ⟨their, found⟩ := fill_mode (mode ▸ present)
      rw [found] at mode sha
      exact ⟨present, .inl ⟨unchanged, their, found, mode, sha⟩⟩
    | dispute kind _ clean auto =>
      simp [MergePath.settled, clean, auto] at settled
    | lines our their text id _ first second apart left right text' wrote =>
      rw [first] at apart left
      rw [second] at apart right
      refine ⟨present, .inr ⟨our, their, text, first, second, left, right, apart, mergedText_grows grows text',
        mode, ?_⟩⟩
      rw [← sha]
      exact (writeObject_eq_some wrote).1
  · rintro ⟨present, brings⟩
    have listed : entry.path ∈ allPaths base ours theirs := by
      rw [mem_allPaths]
      obtain ⟨-, their, found, -⟩ | ⟨-, their, -, -, found, -⟩ := brings
      · simp [found]
      · simp [found]
    rw [← names] at listed
    obtain ⟨merged, member, same⟩ := List.mem_map.1 listed
    obtain ⟨before, later, -, ahead, turn⟩ := each merged member
    have grows := turn.grows.trans ahead
    rw [same] at turn
    -- it is enough that the path was settled as the entry
    suffices settled : merged.settled = true ∧ merged.result = ⟨entry.mode, some entry.sha⟩ by
      obtain ⟨stat, within⟩ := forward merged member
      obtain ⟨made, inside, path, mode, sha, stage⟩ :=
        merged.entries_settled stat settled.1 (by rw [settled.2]; exact present)
      obtain ⟨path', mode', sha', stage'⟩ := smudge_names stamp made
      refine ⟨_, mem_storeIndex.2 ⟨made, within inside, rfl⟩, ?_, ?_, ?_, ?_⟩
      · rw [path', path, same]
      · rw [mode', mode, settled.2]
      · rw [sha', sha, settled.2]
        rfl
      · rw [stage', stage, plain]
    obtain ⟨unchanged, their, found, mode, sha⟩ | ⟨our, their, text, first, second, left, right, apart, found,
        mode, named⟩ :=
      brings
    · rw [← mode, ← sha]
      refine settles_theirs turn unchanged found ?_
      rw [found]
      cases ours' : entryFor ours entry.path with
      | none => rfl
      | some our =>
        have other := staged.not_ours ours'
        rw [← mode, ← sha] at other
        simpa [sameEntry] using other
    · rw [first, second] at turn
      rw [← mode]
      exact settles_lines grows turn left right apart found named

inductive TrueMerge (host : Host) (mergeContent : LineMerge) (stamp : UInt32)
    (root : Place) (base ours theirs : ObjectId) (read : Objects) (index : Index) (disk : Disk) :
    MergeEnd → Prop where
  | stopped (status : Nat) : TrueMerge host mergeContent stamp root base ours theirs read index disk
      { way := .stopped, status, disk, index }
  | broken (status : Nat) (last : Disk) : TrueMerge host mergeContent stamp root base ours theirs read index disk
      { way := .broken, status, disk := last, index }
  | done (status : Nat) (paths : List MergePath) (after : Objects) (last : Disk) (entries : Index) :
      mergeTrees host mergeContent read (some base) (some ours) (some theirs) = some (paths, after) →
      applyPathsText host after root paths disk = (last, some entries) →
      TrueMerge host mergeContent stamp root base ours theirs read index disk
        { way := .done, status, disk := last, index := storeIndex stamp entries }

theorem trueMerge_cases (host : Host) (mergeContent : LineMerge) (io : MergeIo)
    (stamp : UInt32) (root : Place) (base ours theirs : ObjectId) (read : Objects) (index : Index)
    (disk : Disk) : TrueMerge host mergeContent stamp root base ours theirs read index disk
      (trueMerge host mergeContent io stamp root base ours theirs read index disk) := by
  unfold trueMerge
  split
  · exact .stopped _
  rename_i paths after merging
  split
  · exact .stopped _
  split
  · exact .broken _ _
  rename_i last entries applied
  split
  · exact .broken _ _
  · exact .done _ paths after last entries merging applied

theorem mergePlan_merged (plan : mergePlan io options name index read = .threeWay baseTree ourTree theirTree after) :
    ∀ entry ∈ index, entry.stage = 0 := by
  intro entry member
  by_contra staged
  have some : index.any (fun entry => entry.stage ≠ 0) = true :=
    List.any_eq_true.2 ⟨entry, member, by simpa using staged⟩
  unfold mergePlan at plan
  split at plan
  · cases plan
  split at plan
  · cases plan
  · cases plan

/-- A merge of three trees by `git merge` that stops before writing has changed nothing; one that fails in writing
has left the index; and one that goes through leaves in the index every entry that was staged exactly if it brings
each of them. -/
theorem merge_keeps_staged_iff (host : Host) (mergeContent : Bytes → Bytes → Bytes → Option (Bytes × Nat))
    (stamp : UInt32) (root : Place) (disk : Disk) {options : MergeOptions} {name : Bytes}
      {baseTree ourTree theirTree : ObjectId}
    {store : Objects} (plan : mergePlan io options name index read = .threeWay baseTree ourTree theirTree store) :
    ((cmdMerge host mergeContent io stamp root options name read index disk).way = .stopped →
      (cmdMerge host mergeContent io stamp root options name read index disk).disk = disk ∧
      (cmdMerge host mergeContent io stamp root options name read index disk).index = index) ∧
    ((cmdMerge host mergeContent io stamp root options name read index disk).way = .broken →
      (cmdMerge host mergeContent io stamp root options name read index disk).index = index) ∧
    ((cmdMerge host mergeContent io stamp root options name read index disk).way = .done →
      ∃ base ours theirs paths after, readTree store baseTree = some base ∧ readTree store ourTree = some ours ∧
        readTree store theirTree = some theirs ∧
        mergePaths host mergeContent base ours theirs (allPaths base ours theirs) store = some (paths, after) ∧
        ((∀ entry, Staged ours index entry →
            Keeps (cmdMerge host mergeContent io stamp root options name read index disk).index entry) ↔
          ∀ entry, Staged ours index entry → Brings host mergeContent after base ours theirs entry)) := by
  have same : cmdMerge host mergeContent io stamp root options name read index disk =
      trueMerge host mergeContent io stamp root baseTree ourTree theirTree store index disk := by
    simp [cmdMerge, plan]
  rw [same]
  have plain := mergePlan_merged plan
  have ends := trueMerge_cases host mergeContent io stamp root baseTree ourTree theirTree store index disk
  generalize trueMerge host mergeContent io stamp root baseTree ourTree theirTree store index disk = result at ends
  cases ends with
  | stopped => simp
  | broken => simp
  | done status paths after last entries merging applied =>
    refine ⟨nofun, nofun, fun _ => ?_⟩
    obtain ⟨base, listedBase, merging⟩ := bind_eq_some_iff.1 merging
    obtain ⟨ours, listedOurs, merging⟩ := bind_eq_some_iff.1 merging
    obtain ⟨theirs, listedTheirs, merging⟩ := bind_eq_some_iff.1 merging
    refine ⟨base, ours, theirs, paths, after, listedBase, listedOurs, listedTheirs, merging, ?_⟩
    apply forall_congr'
    intro entry
    apply forall_congr'
    intro staged
    exact keeps_iff_brings merging applied staged (plain entry staged.1)

end

/-- `HEAD` and the base have `f` as 1, `two` has it as 2. -/
def sampleMerge : MergeIo where
  merging := false
  head := some (byteId 0x51, byteId 0x41)
  resolve name := if name = ascii "two" then some (byteId 0x52) else none
  bases _ _ := some [byteId 0x50]
  baseTree _ _ := none
  commitTree id := if id = byteId 0x52 then some (byteId 0x42) else some (byteId 0x41)
  indexWritten := true
  refUpdated := true
  conclude := 0

def plainMerge : MergeOptions := { noFf := false, ffOnly := false }

/-- A file that was added to the index and is in none of the three trees is not in the new index. -/
theorem merge_drops_addition :
    mergePlan sampleMerge plainMerge (ascii "two") [entryF 1, entryG] sampleRead =
      .threeWay (byteId 0x41) (byteId 0x41) (byteId 0x42) sampleRead ∧
    readTree sampleRead (byteId 0x41) = some [listedF 1] ∧
    (cmdMerge sampleHost (fun _ _ _ => none) sampleMerge 50 [] plainMerge (ascii "two") sampleRead
      [entryF 1, entryG] diskFG).way = .done ∧
    ¬ ∀ entry, Staged [listedF 1] [entryF 1, entryG] entry →
      Keeps (cmdMerge sampleHost (fun _ _ _ => none) sampleMerge 50 [] plainMerge (ascii "two") sampleRead
        [entryF 1, entryG] diskFG).index entry := by
  refine ⟨rfl, by decide +kernel, by decide +kernel, fun keeps => ?_⟩
  have staged : Staged [listedF 1] [entryF 1, entryG] entryG := by
    unfold Staged
    decide +kernel
  have kept := keeps entryG staged
  revert kept
  unfold Keeps
  decide +kernel

/-- A change that was staged and that their side made as well is kept. -/
theorem merge_keeps_staged_sample :
    (cmdMerge sampleHost (fun _ _ _ => none) sampleMerge 50 [] plainMerge (ascii "two") sampleRead [entryF 2]
      (diskF [2] 10)).way = .done ∧
    ∀ entry, Staged [listedF 1] [entryF 2] entry →
      Keeps (cmdMerge sampleHost (fun _ _ _ => none) sampleMerge 50 [] plainMerge (ascii "two") sampleRead [entryF 2]
        (diskF [2] 10)).index entry := by
  have plan : mergePlan sampleMerge plainMerge (ascii "two") [entryF 2] sampleRead =
      .threeWay (byteId 0x41) (byteId 0x41) (byteId 0x42) sampleRead := rfl
  have first : readTree sampleRead (byteId 0x41) = some [listedF 1] := by decide +kernel
  have second : readTree sampleRead (byteId 0x42) = some [listedF 2] := by decide +kernel
  have done : (cmdMerge sampleHost (fun _ _ _ => none) sampleMerge 50 [] plainMerge (ascii "two") sampleRead [entryF 2]
      (diskF [2] 10)).way = .done := by decide +kernel
  obtain ⟨-, -, through⟩ := merge_keeps_staged_iff sampleHost (fun _ _ _ => none) 50 [] (diskF [2] 10) plan
  obtain ⟨base, ours, theirs, paths, after, listedBase, listedOurs, listedTheirs, merging, kept⟩ := through done
  cases first.symm.trans listedBase
  cases first.symm.trans listedOurs
  cases second.symm.trans listedTheirs
  refine ⟨done, kept.2 fun entry staged => ?_⟩
  obtain rfl := List.mem_singleton.1 staged.1
  exact ⟨by decide, .inl ⟨by decide +kernel, listedF 2, by decide +kernel, rfl, rfl⟩⟩

end BashOs.Git.WorkTree

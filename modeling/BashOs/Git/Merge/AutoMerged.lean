import BashOs.Git.Merge.KeepsLines
import BashOs.Git.WorkTree.MergedPaths

/-!
What the tree merge stores for a path whose lines it has merged by itself. The merged text has all that the sides have
added to the base, as long as both sides are loaded as lines; a content that looks binary is loaded as no lines at all,
and then all of it is dropped.
-/

namespace BashOs.Git.Merge
open BashOs.Lib BashOs.Lib.ContentStore BashOs.Git.Diff Option
open BashOs.Git.WorkTree hiding Side

def sideText (read : Objects) (side : WorkTree.Side) : Option Bytes :=
  match side.sha with
  | none => some []
  | some id => (read id).map Object.content

variable {mergeText : LineMerge}

section
variable {isspace isalpha : CharClass} {ourLabel theirLabel : Bytes} {host : Host} {read after : Objects}
  {base ours theirs : Option ObjectId} {paths : List MergePath} {merged : MergePath}

theorem mergeTrees_turn (ran : mergeTrees host mergeText read base ours theirs = some (paths, after))
    (member : merged ∈ paths) :
    ∃ inBase inOurs inTheirs before mid, Grows read before ∧ Grows mid after ∧
      MergeEntry host mergeText before merged.path inBase inOurs inTheirs (merged, mid) := by
  obtain ⟨baseTree, -, ran⟩ := bind_eq_some_iff.1 ran
  obtain ⟨ourTree, -, ran⟩ := bind_eq_some_iff.1 ran
  obtain ⟨theirTree, -, ran⟩ := bind_eq_some_iff.1 ran
  obtain ⟨-, -, each⟩ := mergePaths_eq_some ran
  exact ⟨_, _, _, each merged member⟩

theorem writeObject_reads {text : Bytes} {id : ObjectId} (wrote : writeObject host read .blob text = some (id, after))
    (free : read id = none) : ∃ object, after id = some object ∧ object.type = .blob ∧ object.content = text := by
  unfold writeObject at wrote
  split at wrote
  next fits =>
    obtain ⟨key, -, done⟩ := map_eq_some_iff.1 wrote
    cases done
    exact ⟨⟨.blob, text, fits⟩, by simp [free], rfl, rfl⟩
  · cases wrote

theorem mergedText_eq_some {base : Option IndexEntry} {our their : IndexEntry} {result : Bytes × Nat}
    (grows : Grows read after) (merging : mergedText mergeText read base our their = some result) :
    ∃ baseText ourText theirText, sideText after (.fill base) = some baseText ∧
      sideText after (.fill (some our)) = some ourText ∧
      sideText after (.fill (some their)) = some theirText ∧ mergeText baseText ourText theirText = some result := by
  obtain ⟨baseText, readBase, merging⟩ := bind_eq_some_iff.1 merging
  obtain ⟨ourText, readOurs, merging⟩ := bind_eq_some_iff.1 merging
  obtain ⟨theirText, readTheirs, merging⟩ := bind_eq_some_iff.1 merging
  refine ⟨baseText, ourText, theirText, ?_, blobText_grows grows readOurs, blobText_grows grows readTheirs, merging⟩
  cases base <;> exact blobText_grows grows readBase

/-- What is stored for a path that is marked as merged by itself has all that the sides have added, if both sides
are loaded as lines and none is put behind a last line without a newline. -/
theorem auto_merge_loses_nothing
    (ran : mergeTrees host (mergeContent isspace isalpha ourLabel theirLabel) read base ours theirs =
      some (paths, after))
    (member : merged ∈ paths) (auto : merged.kind = .auto) :
    ∃ baseText ourText theirText text id before, sideText after merged.base = some baseText ∧
      sideText after merged.ours = some ourText ∧ sideText after merged.theirs = some theirText ∧
      merged.result.sha = some id ∧ objectId host .blob text = some id ∧ Grows read before ∧
      (before id = none → ∃ object, after id = some object ∧ object.type = .blob ∧ object.content = text) ∧
      ((linesFrom [] baseText).length < 2 ^ 60 → (linesFrom [] ourText).length < 2 ^ 60 →
        (linesFrom [] theirText).length < 2 ^ 60 → Mergeable isspace baseText ourText theirText →
        LosesNothing baseText ourText theirText text) := by
  obtain ⟨_, _, _, before, mid, past, ahead, turn⟩ := mergeTrees_turn ran member
  have grows := turn.grows.trans ahead
  clear member
  generalize merged.path = path at turn
  cases turn with
  | agreed | theirsOnly | oursOnly => cases auto
  | dispute kind result _ other => exact absurd auto other
  | lines our their text id mid isOurs isTheirs _ _ _ merging wrote =>
    obtain ⟨baseText, ourText, theirText, readBase, readOurs, readTheirs, merging⟩ := mergedText_eq_some grows merging
    refine ⟨baseText, ourText, theirText, text, id, before, readBase, by rwa [isOurs], by rwa [isTheirs], rfl,
      (writeObject_eq_some wrote).1, past, fun free => ?_, fun fits fits' fits'' mergeable =>
        mergeContent_loses_nothing fits fits' fits'' mergeable merging⟩
    obtain ⟨object, stored, kind, content⟩ := writeObject_reads wrote free
    exact ⟨object, ahead id object stored, kind, content⟩

/-- Each side has given a file of the base another mode, and not the same one. -/
structure ModesDiffer (merged : MergePath) : Prop where
  there : merged.base.sha.isSome ∧ merged.ours.sha.isSome ∧ merged.theirs.sha.isSome
  changed : merged.ours.mode ≠ merged.base.mode ∧ merged.theirs.mode ≠ merged.base.mode
  apart : merged.ours.mode ≠ merged.theirs.mode

/-- The texts of the three sides do not merge without a conflict. -/
def LinesConflict (mergeText : LineMerge) (after : Objects) (merged : MergePath) : Prop :=
  ∃ baseText ourText theirText text conflicts, sideText after merged.base = some baseText ∧
    sideText after merged.ours = some ourText ∧ sideText after merged.theirs = some theirText ∧
    mergeText baseText ourText theirText = some (text, conflicts) ∧ conflicts ≠ 0

theorem mode_of_sameEntry {first second : Option IndexEntry} (same : sameEntry first second = true) :
    (WorkTree.Side.fill first).mode = (WorkTree.Side.fill second).mode := by
  cases first <;> cases second
  case some.some first second =>
    rw [sameEntry, Bool.and_eq_true, decide_eq_true_eq] at same
    exact same.1
  all_goals first | rfl | cases same

theorem MergeEntry.shown_iff {path : IndexPath} {mid : Objects} {base ours theirs : Option IndexEntry}
    (turn : MergeEntry host mergeText read path base ours theirs (merged, mid)) (ahead : Grows mid after)
      (differ : ModesDiffer merged) :
    (merged.kind ≠ .clean ∧ merged.kind ≠ .auto) ↔ LinesConflict mergeText after merged := by
  have grows := turn.grows.trans ahead
  cases turn with
  | agreed same => exact absurd (mode_of_sameEntry same) differ.apart
  | theirsOnly _ same => exact absurd (mode_of_sameEntry same).symm differ.changed.1
  | oursOnly _ _ same => exact absurd (mode_of_sameEntry same).symm differ.changed.2
  | dispute kind result notClean notAuto _ conflict =>
    refine ⟨fun _ => ?_, fun _ => ⟨notClean, notAuto⟩⟩
    obtain ⟨-, isOurs, isTheirs⟩ := differ.there
    obtain - | our := ours
    · cases isOurs
    obtain - | their := theirs
    · cases isTheirs
    obtain ⟨text, conflicts, merging, some⟩ := conflict our their rfl rfl
    obtain ⟨baseText, ourText, theirText, readBase, readOurs, readTheirs, merging⟩ := mergedText_eq_some grows merging
    exact ⟨baseText, ourText, theirText, text, conflicts, readBase, readOurs, readTheirs, merging, some⟩
  | lines our their text id after isOurs isTheirs _ _ _ merging wrote =>
    subst isOurs isTheirs
    refine ⟨fun shown => absurd rfl shown.2, ?_⟩
    rintro ⟨_, _, _, other, conflicts, readBase, readOurs, readTheirs, merged, some⟩
    -- the texts are those that were merged, and they were merged without a conflict
    obtain ⟨_, _, _, readBase', readOurs', readTheirs', merging⟩ := mergedText_eq_some grows merging
    cases readBase.symm.trans readBase'
    cases readOurs.symm.trans readOurs'
    cases readTheirs.symm.trans readTheirs'
    cases merged.symm.trans merging
    exact absurd rfl some

/-- A path whose mode both sides have changed differently is reported as a conflict if and only if its lines
conflict. -/
theorem mode_conflict_shown_iff {mergeText : Bytes → Bytes → Bytes → Option (Bytes × Nat)}
    (ran : mergeTrees host mergeText read base ours theirs = some (paths, after)) (member : merged ∈ paths)
    (differ : ModesDiffer merged) :
    (merged.kind ≠ .clean ∧ merged.kind ≠ .auto) ↔ LinesConflict mergeText after merged := by
  obtain ⟨_, _, _, before, mid, -, ahead, turn⟩ := mergeTrees_turn ran member
  exact MergeEntry.shown_iff turn ahead differ

end

/-! Three contents of the file `f`, each in a tree of its own. -/

def contentsRead (base ours theirs : Object) (id : ObjectId) : Option Object :=
  if id = byteId 1 then some base
  else if id = byteId 2 then some ours
  else if id = byteId 3 then some theirs
  else if id = byteId 0x41 then some (treeWithF 1)
  else if id = byteId 0x42 then some (treeWithF 2)
  else if id = byteId 0x43 then some (treeWithF 3)
  else none

def mergeThree (base ours theirs : Object) (ids : Ids) : Option (List MergePath × List (Option Object)) :=
  (mergeTrees sampleHost (mergeContent (fun _ => false) (fun _ => false) (ascii "ours") (ascii "theirs"))
    (contentsRead base ours theirs) (some (byteId 0x41)) (some (byteId 0x42)) (some (byteId 0x43))).map
    fun result => (result.1, ids.map result.2)

def autoF (id : ObjectId) : MergePath :=
  ⟨pathF, .auto, ⟨0o100644, some id⟩, ⟨0o100644, some (byteId 1)⟩, ⟨0o100644, some (byteId 2)⟩,
    ⟨0o100644, some (byteId 3)⟩⟩

/-- Three contents that look binary are merged to an empty blob, without a conflict; and a line that a side has put
behind a last line without a newline becomes part of it. -/
theorem binary_merged_away :
    mergeThree ⟨.blob, [0, 1], by decide⟩ ⟨.blob, [0, 2], by decide⟩ ⟨.blob, [0, 3], by decide⟩ [byteId 0] =
      some ([autoF (byteId 0)], [some ⟨.blob, [], by decide⟩]) ∧
    ¬ LosesNothing [0, 1] [0, 2] [0, 3] [] ∧
    mergeThree ⟨.blob, ascii "x\ny\nz", by decide +kernel⟩ ⟨.blob, ascii "x\ny\nz\nb\n", by decide +kernel⟩
        ⟨.blob, ascii "X\ny\nz", by decide +kernel⟩ [byteId 10] =
      some ([autoF (byteId 10)], [some ⟨.blob, ascii "X\ny\nzb\n", by decide +kernel⟩]) ∧
    ¬ LosesNothing (ascii "x\ny\nz") (ascii "x\ny\nz\nb\n") (ascii "X\ny\nz") (ascii "X\ny\nzb\n") := by
  refine ⟨by decide +kernel, fun keeps => ?_, by decide +kernel, fun keeps => ?_⟩
  · have none := keeps.some rfl
    simp at none
  · have line : ascii "b" ∈ added (ascii "x\ny\nz") (ascii "x\ny\nz\nb\n") := by decide +kernel
    have gone : ascii "b" ∉ linesFrom [] (ascii "X\ny\nzb\n") := by decide +kernel
    exact gone (keeps.keepsOurs.subset line)

/-- Changes of the first line on one side and of the last on the other. -/
theorem texts_merged :
    ∃ paths after, mergeTrees sampleHost
      (mergeContent (fun _ => false) (fun _ => false) (ascii "ours") (ascii "theirs"))
        (contentsRead ⟨.blob, ascii "a\nm\nb\n", by decide +kernel⟩ ⟨.blob, ascii "A\nm\nb\n", by decide +kernel⟩
          ⟨.blob, ascii "a\nm\nB\n", by decide +kernel⟩)
        (some (byteId 0x41)) (some (byteId 0x42)) (some (byteId 0x43)) = some (paths, after) ∧
          paths = [autoF (byteId 10)] ∧
      ∃ text, objectId sampleHost .blob text = some (byteId 10) ∧
        LosesNothing (ascii "a\nm\nb\n") (ascii "A\nm\nb\n") (ascii "a\nm\nB\n") text := by
  have ran : mergeThree ⟨.blob, ascii "a\nm\nb\n", by decide +kernel⟩ ⟨.blob, ascii "A\nm\nb\n", by decide +kernel⟩
      ⟨.blob, ascii "a\nm\nB\n", by decide +kernel⟩ [byteId 1, byteId 2, byteId 3] = some ([autoF (byteId 10)],
        [some ⟨.blob, ascii "a\nm\nb\n", by decide +kernel⟩, some ⟨.blob, ascii "A\nm\nb\n", by decide +kernel⟩,
          some ⟨.blob, ascii "a\nm\nB\n", by decide +kernel⟩]) := by decide +kernel
  obtain ⟨⟨paths, after⟩, ran, seen⟩ := map_eq_some_iff.1 ran
  simp only [Prod.mk.injEq, List.map_cons, List.cons.injEq] at seen
  obtain ⟨rfl, readBase, readOurs, readTheirs⟩ := seen
  obtain ⟨baseText, ourText, theirText, text, id, before, isBase, isOurs, isTheirs, result, named, -, -, keeps⟩ :=
    auto_merge_loses_nothing ran (List.mem_singleton_self _) rfl
  simp only [sideText, autoF, readBase, readOurs, readTheirs, map_some, some_inj] at isBase isOurs isTheirs result
  subst isBase isOurs isTheirs result
  refine ⟨_, after, ran, rfl, text, named, keeps (by decide +kernel) (by decide +kernel) (by decide +kernel)
    ⟨?_, ?_, ?_⟩⟩
  · decide +kernel
  · decide +kernel
  · intro marks marks' _ _ missing
    cases missing

/-! The file `f` as a plain file, as a program and as a link. -/

def modeTree (mode : Bytes) (b : UInt8) : Bytes := mode ++ ascii " f" ++ 0 :: (byteId b).bytes

def modesRead (id : ObjectId) : Option Object :=
  if id = byteId 1 then some ⟨.blob, ascii "x\n", by decide +kernel⟩
  else if id = byteId 2 then some ⟨.blob, ascii "y\n", by decide +kernel⟩
  else if id = byteId 3 then some ⟨.blob, ascii "z\n", by decide +kernel⟩
  else if id = byteId 0x41 then some ⟨.tree, modeTree (ascii "100644") 1, by decide +kernel⟩
  else if id = byteId 0x42 then some ⟨.tree, modeTree (ascii "100755") 1, by decide +kernel⟩
  else if id = byteId 0x43 then some ⟨.tree, modeTree (ascii "120000") 1, by decide +kernel⟩
  else if id = byteId 0x44 then some ⟨.tree, modeTree (ascii "100755") 2, by decide +kernel⟩
  else if id = byteId 0x45 then some ⟨.tree, modeTree (ascii "120000") 3, by decide +kernel⟩
  else none

def mergeModes (ours theirs : UInt8) : Option (List MergePath × Objects) :=
  mergeTrees sampleHost (mergeContent (fun _ => false) (fun _ => false) (ascii "ours") (ascii "theirs")) modesRead
    (some (byteId 0x41)) (some (byteId ours)) (some (byteId theirs))

def modesF (kind : MergeKind) (result : Option ObjectId) (ours theirs : UInt8) : MergePath :=
  ⟨pathF, kind, ⟨0o100755, result⟩, ⟨0o100644, some (byteId 1)⟩, ⟨0o100755, some (byteId ours)⟩,
    ⟨0o120000, some (byteId theirs)⟩⟩

theorem modesF_differ (kind : MergeKind) (result : Option ObjectId) (ours theirs : UInt8) :
    ModesDiffer (modesF kind result ours theirs) where
  there := ⟨rfl, rfl, rfl⟩
  changed := ⟨(by decide : (0o100755 : UInt32) ≠ 0o100644), (by decide : (0o120000 : UInt32) ≠ 0o100644)⟩
  apart := (by decide : (0o100755 : UInt32) ≠ 0o120000)

/-- Both sides have changed the mode, and one of the two modes is taken without a conflict. -/
theorem mode_conflict_dropped :
    (mergeModes 0x42 0x43).map Prod.fst = some [modesF .auto (some (byteId 10)) 1 1] ∧
      ModesDiffer (modesF .auto (some (byteId 10)) 1 1) :=
  ⟨by decide +kernel, modesF_differ _ _ _ _⟩

/-- Both sides have changed the line as well. -/
theorem mode_conflict_shown_with_lines :
    ∃ text after, mergeModes 0x44 0x45 = some ([modesF (.content text) none 2 3], after) ∧
      ModesDiffer (modesF (.content text) none 2 3) ∧
      ∃ baseText ourText theirText text conflicts, sideText after ⟨0o100644, some (byteId 1)⟩ = some baseText ∧
        sideText after ⟨0o100755, some (byteId 2)⟩ = some ourText ∧
          sideText after ⟨0o120000, some (byteId 3)⟩ = some theirText ∧
        mergeContent (fun _ => false) (fun _ => false) (ascii "ours") (ascii "theirs") baseText ourText theirText =
          some (text, conflicts) ∧ conflicts ≠ 0 := by
  have ran : (mergeModes 0x44 0x45).map Prod.fst =
      some [modesF (.content (ascii "<<<<<<< ours\ny\n=======\nz\n>>>>>>> theirs\n")) none 2 3] := by decide +kernel
  obtain ⟨⟨paths, after⟩, ran, rfl⟩ := map_eq_some_iff.1 ran
  have differ := modesF_differ (.content (ascii "<<<<<<< ours\ny\n=======\nz\n>>>>>>> theirs\n")) none 2 3
  exact ⟨_, after, ran, differ, (mode_conflict_shown_iff ran (List.mem_singleton_self _) differ).1 ⟨nofun, nofun⟩⟩

end BashOs.Git.Merge

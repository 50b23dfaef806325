import Mathlib.Algebra.Order.BigOperators.Group.List
import BashOs.Git.WorkTree.Clean

/-!
Merging two trees against a third: what becomes of each path that any of them has.
-/

namespace BashOs.Git.WorkTree
open BashOs.Lib List
open BashOs.Lib.ContentStore (Grows)

/-- What one tree has at a path: `mode` and the id's digits, zero and an empty string for nothing. -/
structure Side where
  mode : UInt32
  sha : Option ObjectId
deriving DecidableEq

def Side.fill : Option IndexEntry → Side
  | none => { mode := 0, sha := none }
  | some entry => { mode := entry.mode, sha := some entry.sha }

/-- `enum bgit_merge_kind`, the conflicts of lines with the text that shows them -/
inductive MergeKind where
  | clean
  | auto
  | content (text : Bytes)
  | addAdd (text : Bytes)
  | modifyDelete (deletedInOurs : Bool)
deriving DecidableEq

structure MergePath where
  path : IndexPath
  kind : MergeKind
  result : Side
  base : Side
  ours : Side
  theirs : Side
deriving DecidableEq

def sameEntry : Option IndexEntry → Option IndexEntry → Bool
  | some a, some b => a.mode = b.mode && a.sha = b.sha
  | none, none => true
  | _, _ => false

def smaller (best : Option IndexPath) (listing : Index) : Option IndexPath :=
  match best, listing with
  | best, [] => best
  | none, entry :: _ => some entry.path
  | some path, entry :: _ => if entry.path.text < path.text then some entry.path else some path

def candidate (listings : List Index) : Option IndexPath := listings.foldl smaller none

def advance (path : IndexPath) : Index → Index
  | [] => []
  | entry :: rest => if entry.path = path then rest else entry :: rest

/-- The paths the loop of `bgit_merge_trees` takes. Every turn uses up an entry, so as many turns as there are
entries are enough. -/
def candidates : Nat → List Index → List IndexPath
  | 0, _ => []
  | turns + 1, listings =>
    match candidate listings with
    | none => []
    | some path => path :: candidates turns (listings.map (advance path))

def allPaths (base ours theirs : Index) : List IndexPath :=
  candidates (base.length + ours.length + theirs.length) [ours, theirs, base]

def blobText (read : Objects) : Option IndexEntry → Option Bytes
  | none => some []
  | some entry => (read entry.sha).map Object.content

def mergedMode (base : Option IndexEntry) (our their : IndexEntry) : UInt32 :=
  match base with
  | none => our.mode
  | some base => if our.mode = base.mode then their.mode else our.mode

/-- `bgit_merge_content` from the texts of base, ours and theirs: the merged text and the number of conflicts. -/
abbrev LineMerge := Bytes → Bytes → Bytes → Option (Bytes × Nat)

section
variable (host : Host) (mergeContent : LineMerge)

def mergedText (read : Objects) (base : Option IndexEntry) (our their : IndexEntry) : Option (Bytes × Nat) := do
  let baseText ← blobText read base
  let ourText ← blobText read (some our)
  let theirText ← blobText read (some their)
  mergeContent baseText ourText theirText

def mergeLines (read : Objects) (path : IndexPath) (base : Option IndexEntry) (our their : IndexEntry) :
    Option (MergePath × Objects) := do
  let (text, conflicts) ← mergedText mergeContent read base our their
  let mode := mergedMode base our their
  let sides (kind : MergeKind) (result : Side) : MergePath :=
    { path, kind, result, base := Side.fill base, ours := Side.fill (some our), theirs := Side.fill (some their) }
  if conflicts ≠ 0 then
    some (sides (if base.isSome then .content text else .addAdd text) { mode, sha := none }, read)
  else
    let (id, read) ← writeObject host read .blob text
    some (sides .auto { mode, sha := some id }, read)

/-- One turn of the loop of `bgit_merge_trees` -/
def mergeEntry (read : Objects) (path : IndexPath) (base ours theirs : Option IndexEntry) :
    Option (MergePath × Objects) :=
  let sides (kind : MergeKind) (result : Option IndexEntry) : MergePath :=
    { path, kind, result := Side.fill result, base := Side.fill base, ours := Side.fill ours,
      theirs := Side.fill theirs }
  if sameEntry ours theirs then some (sides .clean ours, read)
  else if sameEntry base ours then some (sides .clean theirs, read)
  else if sameEntry base theirs then some (sides .clean ours, read)
  else
    match ours, theirs with
    | some our, some their => mergeLines host mergeContent read path base our their
    | some our, none => some (sides (.modifyDelete false) (some our), read)
    | none, theirs => some (sides (.modifyDelete true) theirs, read)

def mergePaths (base ours theirs : Index) : List IndexPath → Objects → Option (List MergePath × Objects)
  | [], read => some ([], read)
  | path :: rest, read => do
    let (merged, read) ← mergeEntry host mergeContent read path (entryFor base path) (entryFor ours path)
      (entryFor theirs path)
    let (more, read) ← mergePaths base ours theirs rest read
    some (merged :: more, read)

/-- `bgit_merge_trees`, with what can be read once the merged blobs are written -/
def mergeTrees (read : Objects) (base ours theirs : Option ObjectId) : Option (List MergePath × Objects) := do
  let base ← targetOf read base
  let ours ← targetOf read ours
  let theirs ← targetOf read theirs
  mergePaths host mergeContent base ours theirs (allPaths base ours theirs) read

end

/-! ## What the merge comes to -/

section
variable {host : Host} {mergeContent : LineMerge} {read mid after : Objects}
  {path : IndexPath} {base ours theirs : Index} {merged : MergePath} {list : List IndexPath}
  {paths : List MergePath}

theorem writeObject_eq_some {type : ObjectType} {content : Bytes} {id : ObjectId}
    (wrote : writeObject host read type content = some (id, after)) :
    objectId host type content = some id ∧ Grows read after := by
  unfold writeObject at wrote
  split at wrote
  next fits =>
    have named : objectName host ⟨type, content, fits⟩ = some id := ContentStore.put_name wrote
    exact ⟨named, ContentStore.put_grows wrote⟩
  · cases wrote

theorem blobText_grows (grows : Grows read after) {entry : Option IndexEntry} {text : Bytes}
    (found : blobText read entry = some text) : blobText after entry = some text := by
  cases entry with
  | none => exact found
  | some entry =>
    obtain ⟨object, held, rfl⟩ := Option.map_eq_some_iff.1 found
    simp [blobText, grows _ _ held]

theorem mergedText_grows (grows : Grows read after) {base : Option IndexEntry} {our their : IndexEntry}
    {result : Bytes × Nat} (found : mergedText mergeContent read base our their = some result) :
    mergedText mergeContent after base our their = some result := by
  obtain ⟨baseText, first, found⟩ := Option.bind_eq_some_iff.1 found
  obtain ⟨ourText, second, found⟩ := Option.bind_eq_some_iff.1 found
  obtain ⟨theirText, third, found⟩ := Option.bind_eq_some_iff.1 found
  simp [mergedText, blobText_grows grows first, blobText_grows grows second, blobText_grows grows third, found]

inductive MergeEntry (host : Host) (mergeContent : LineMerge) (read : Objects)
    (path : IndexPath) (base ours theirs : Option IndexEntry) : MergePath × Objects → Prop where
  | agreed : sameEntry ours theirs = true → MergeEntry host mergeContent read path base ours theirs
      (⟨path, .clean, Side.fill ours, Side.fill base, Side.fill ours, Side.fill theirs⟩, read)
  | theirsOnly : sameEntry ours theirs = false → sameEntry base ours = true →
      MergeEntry host mergeContent read path base ours theirs
        (⟨path, .clean, Side.fill theirs, Side.fill base, Side.fill ours, Side.fill theirs⟩, read)
  | oursOnly : sameEntry ours theirs = false → sameEntry base ours = false → sameEntry base theirs = true →
      MergeEntry host mergeContent read path base ours theirs
        (⟨path, .clean, Side.fill ours, Side.fill base, Side.fill ours, Side.fill theirs⟩, read)
  | dispute (kind : MergeKind) (result : Side) : kind ≠ .clean → kind ≠ .auto → sameEntry base ours = false →
      (∀ our their, ours = some our → theirs = some their → ∃ text conflicts,
        mergedText mergeContent read base our their = some (text, conflicts) ∧ conflicts ≠ 0) →
      MergeEntry host mergeContent read path base ours theirs
        (⟨path, kind, result, Side.fill base, Side.fill ours, Side.fill theirs⟩, read)
  | lines (our their : IndexEntry) (text : Bytes) (id : ObjectId) (after : Objects) : ours = some our →
      theirs = some their → sameEntry ours theirs = false → sameEntry base ours = false →
        sameEntry base theirs = false →
      mergedText mergeContent read base our their = some (text, 0) →
      writeObject host read .blob text = some (id, after) →
      MergeEntry host mergeContent read path base ours theirs
        (⟨path, .auto, ⟨mergedMode base our their, some id⟩, Side.fill base, Side.fill ours, Side.fill theirs⟩, after)

theorem mergeEntry_cases {base ours theirs : Option IndexEntry} {result : MergePath × Objects}
    (turn : mergeEntry host mergeContent read path base ours theirs = some result) :
    MergeEntry host mergeContent read path base ours theirs result := by
  unfold mergeEntry at turn
  split at turn
  next agreed => cases turn; exact .agreed agreed
  rename_i apart
  split at turn
  next theirsOnly => cases turn; exact .theirsOnly (by simpa using apart) theirsOnly
  rename_i changed
  split at turn
  next oursOnly => cases turn; exact .oursOnly (by simpa using apart) (by simpa using changed) oursOnly
  rename_i both
  rw [Bool.not_eq_true] at apart changed both
  split at turn
  next our their =>
    obtain ⟨⟨text, conflicts⟩, merging, turn⟩ := Option.bind_eq_some_iff.1 turn
    dsimp only at turn
    split at turn
    next some =>
      cases turn
      refine .dispute _ _ (by split <;> simp) (by split <;> simp) changed ?_
      rintro _ _ ⟨⟩ ⟨⟩
      exact ⟨text, conflicts, merging, some⟩
    rename_i none
    rw [not_not] at none
    subst none
    obtain ⟨⟨id, after⟩, wrote, turn⟩ := Option.bind_eq_some_iff.1 turn
    cases turn
    exact .lines our their text id after rfl rfl apart changed both merging wrote
  · cases turn
    exact .dispute _ _ (by simp) (by simp) changed (by simp)
  · cases turn
    exact .dispute _ _ (by simp) (by simp) changed (by simp)

theorem MergeEntry.grows {base ours theirs : Option IndexEntry}
    (turn : MergeEntry host mergeContent read path base ours theirs (merged, after)) : Grows read after := by
  cases turn with
  | agreed => exact .refl _
  | theirsOnly => exact .refl _
  | oursOnly => exact .refl _
  | dispute => exact .refl _
  | lines _ _ _ _ _ _ _ _ _ _ _ wrote => exact (writeObject_eq_some wrote).2

theorem mergePaths_eq_some (ran : mergePaths host mergeContent base ours theirs list read = some (paths, after)) :
    paths.map MergePath.path = list ∧ Grows read after ∧ ∀ merged ∈ paths, ∃ before mid, Grows read before ∧
      Grows mid after ∧
      MergeEntry host mergeContent before merged.path (entryFor base merged.path) (entryFor ours merged.path)
        (entryFor theirs merged.path) (merged, mid) := by
  induction list generalizing read paths with
  | nil =>
    cases ran
    exact ⟨rfl, .refl _, by simp⟩
  | cons path rest ih =>
    obtain ⟨⟨first, mid⟩, turn, ran⟩ := Option.bind_eq_some_iff.1 ran
    obtain ⟨⟨more, last⟩, run, ran⟩ := Option.bind_eq_some_iff.1 ran
    cases ran
    have turn := mergeEntry_cases turn
    obtain ⟨names, grows, each⟩ := ih run
    have first_path : first.path = path := by cases turn <;> rfl
    refine ⟨by rw [map_cons, names, first_path], turn.grows.trans grows, fun merged member => ?_⟩
    obtain rfl | member := mem_cons.1 member
    · rw [first_path]
      exact ⟨read, mid, .refl _, grows, turn⟩
    · obtain ⟨before, later, past, ahead, own⟩ := each merged member
      exact ⟨before, later, turn.grows.trans past, ahead, own⟩

/-! ## The walk over the listings -/

variable {listings : List Index} {best : Option IndexPath} {listing : Index} {entry : IndexEntry}

theorem advance_sublist (path : IndexPath) (listing : Index) : (advance path listing).Sublist listing := by
  cases listing with
  | nil => exact List.Sublist.slnil
  | cons entry rest =>
    rw [advance]
    split
    · exact sublist_cons_self _ _
    · exact List.Sublist.refl _

theorem mem_advance (among : entry ∈ listing) (other : entry.path ≠ path) : entry ∈ advance path listing := by
  cases listing with
  | nil => cases among
  | cons first rest =>
    rw [advance]
    split
    next same =>
      obtain rfl | among := mem_cons.1 among
      · exact (other same).elim
      · exact among
    · exact among

theorem smaller_cons (best : Option IndexPath) (entry : IndexEntry) (rest : Index) :
    ∃ next, smaller best (entry :: rest) = some next ∧ (best = some next ∨ entry.path = next) ∧
      next.text ≤ entry.path.text ∧ ∀ other, best = some other → next.text ≤ other.text := by
  cases best with
  | none => exact ⟨entry.path, rfl, .inr rfl, List.le_refl _, by simp⟩
  | some path =>
    rw [smaller]
    split
    next less => exact ⟨entry.path, rfl, .inr rfl, List.le_refl _, by rintro _ ⟨⟩; exact List.le_of_lt less⟩
    next more => exact ⟨path, rfl, .inl rfl, List.not_lt.1 more, by rintro _ ⟨⟩; exact List.le_refl _⟩

theorem foldl_smaller_none (found : listings.foldl smaller best = none) :
    best = none ∧ ∀ listing ∈ listings, listing = [] := by
  induction listings generalizing best with
  | nil => exact ⟨found, by simp⟩
  | cons first rest ih =>
    obtain ⟨none, empty⟩ := ih found
    cases first with
    | nil => exact ⟨none, by simpa using empty⟩
    | cons entry more =>
      obtain ⟨next, same, -⟩ := smaller_cons best entry more
      cases same.symm.trans none

theorem foldl_smaller_some (found : listings.foldl smaller best = some path) :
    (best = some path ∨ ∃ entry rest, entry :: rest ∈ listings ∧ entry.path = path) ∧
      (∀ other, best = some other → path.text ≤ other.text) ∧
      ∀ entry rest, entry :: rest ∈ listings → path.text ≤ entry.path.text := by
  induction listings generalizing best with
  | nil =>
    cases (found : best = some path)
    exact ⟨.inl rfl, by simp, by simp⟩
  | cons first rest ih =>
    obtain ⟨origin, under, least⟩ := ih found
    cases first with
    | nil =>
      refine ⟨?_, under, by simpa using least⟩
      obtain same | ⟨entry, more, member, same⟩ := origin
      · exact .inl same
      · exact .inr ⟨entry, more, mem_cons_of_mem _ member, same⟩
    | cons entry more =>
      obtain ⟨next, same, source, below, under'⟩ := smaller_cons best entry more
      have low := under next same
      refine ⟨?_, fun other held => List.le_trans low (under' other held), fun other others member => ?_⟩
      · obtain same' | ⟨entry', more', member, same'⟩ := origin
        · cases same.symm.trans same'
          exact source.imp_right fun same => ⟨entry, more, mem_cons_self, same⟩
        · exact .inr ⟨entry', more', mem_cons_of_mem _ member, same'⟩
      · obtain same | member := mem_cons.1 member
        · cases same
          exact List.le_trans low below
        · exact least other others member

theorem sum_advance_lt {rest : Index} (head : entry :: rest ∈ listings) :
    ((listings.map (advance entry.path)).map List.length).sum < (listings.map List.length).sum := by
  rw [map_map]
  refine sum_lt_sum _ _ (fun listing _ => (advance_sublist _ listing).length_le) ⟨_, head, ?_⟩
  simp [advance]

theorem mem_of_mem_candidates {turns : Nat} (member : path ∈ candidates turns listings) :
    ∃ listing ∈ listings, ∃ entry ∈ listing, entry.path = path := by
  induction turns generalizing listings with
  | zero => cases member
  | succ turns ih =>
    rw [candidates] at member
    split at member
    · cases member
    rename_i first found
    obtain rfl | member := mem_cons.1 member
    · obtain none | ⟨entry, rest, inside, same⟩ := (foldl_smaller_some found).1
      · cases none
      · exact ⟨_, inside, entry, .head _, same⟩
    · obtain ⟨shorter, inside, entry, among, same⟩ := ih member
      obtain ⟨listing, there, rfl⟩ := mem_map.1 inside
      exact ⟨listing, there, entry, (advance_sublist first listing).subset among, same⟩

theorem mem_candidates {turns : Nat} (enough : (listings.map List.length).sum ≤ turns) (inside : listing ∈ listings)
    (among : entry ∈ listing) : entry.path ∈ candidates turns listings := by
  induction turns generalizing listings listing with
  | zero =>
    have short := (le_sum_of_mem (mem_map_of_mem inside)).trans enough
    have := length_pos_of_mem among
    omega
  | succ turns ih =>
    rw [candidates]
    split
    next none =>
      rw [(foldl_smaller_none none).2 listing inside] at among
      cases among
    rename_i path found
    by_cases same : entry.path = path
    · exact same ▸ (.head _)
    · refine .tail _ (ih ?_ (mem_map_of_mem inside) (mem_advance among same))
      obtain none | ⟨first, rest, head, rfl⟩ := (foldl_smaller_some found).1
      · cases none
      · exact Nat.le_of_lt_succ ((sum_advance_lt head).trans_le enough)

theorem mem_allPaths : path ∈ allPaths base ours theirs ↔
    (entryFor base path).isSome ∨ (entryFor ours path).isSome ∨ (entryFor theirs path).isSome := by
  have known : ∀ listing, (entryFor listing path).isSome ↔ ∃ entry ∈ listing, entry.path = path := by
    simp [entryFor]
  rw [known, known, known]
  constructor
  · intro member
    obtain ⟨listing, inside, found⟩ := mem_of_mem_candidates member
    obtain rfl | rfl | rfl : listing = ours ∨ listing = theirs ∨ listing = base := by simpa using inside
    · exact .inr (.inl found)
    · exact .inr (.inr found)
    · exact .inl found
  · intro found
    have enough : ([ours, theirs, base].map length).sum ≤ base.length + ours.length + theirs.length := by
      simp
      omega
    obtain ⟨entry, among, rfl⟩ | ⟨entry, among, rfl⟩ | ⟨entry, among, rfl⟩ := found
    · exact mem_candidates enough (by simp) among
    · exact mem_candidates enough (by simp) among
    · exact mem_candidates enough (by simp) among

end

end BashOs.Git.WorkTree

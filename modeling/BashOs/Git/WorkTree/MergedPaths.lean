import Mathlib.Data.List.Induction
import BashOs.Git.WorkTree.Merge
import BashOs.Lib.Loop
import BashOs.Lib.LowerBound

/-!
Putting paths into the index and taking them out: the index stays in order with each path once, and what stands for
a path is what was last done to it. The paths of a tree merge each come to what the three-way rule says of them
alone, and nothing compares a path with those above it, so the result is a tree only where the rule leaves no file
in a directory's place.
-/

namespace BashOs.Git.WorkTree
open BashOs.Lib List Side

/-! ## The calls -/

/-- `git_index_put`. A path in dispute is settled: its stages go. Otherwise the entry of the path is replaced. -/
def indexPut (entries : Index) (entry : IndexEntry) : Index :=
  putKeyed (fun other => other.path.text) (fun other => other.stage = 0) entries entry

def removePath (entries : Index) (path : IndexPath) : Index :=
  entries.filter fun entry => entry.path ≠ path

inductive Staging where
  | put (entry : IndexEntry)
  | remove (path : IndexPath)
deriving DecidableEq

def Staging.path : Staging → IndexPath
  | put entry => entry.path
  | remove path => path

def stage (entries : Index) : Staging → Index
  | .put entry => indexPut entries entry
  | .remove path => removePath entries path

def staged (calls : List Staging) : Index := calls.foldl stage []

/-! ## What a call does -/

section
variable {entries : Index} {path : IndexPath}

section
variable (sorted : Ascending entries)
include sorted

theorem Ascending.keyed : entries.Pairwise (KeyOrder (fun entry => entry.path.text) fun _ _ => False) := sorted.imp .inl

theorem mem_indexPut (entry other : IndexEntry) :
    other ∈ indexPut entries entry ↔ other = entry ∨ other ∈ entries ∧ other.path ≠ entry.path := by
  rw [indexPut, mem_putKeyed sorted.keyed (by simp)]
  simp [IndexPath.text_injective.eq_iff]

theorem ascending_indexPut (entry : IndexEntry) : Ascending (indexPut entries entry) := by
  exact (putKeyed_sorted sorted.keyed (by simp) entry).imp fun order => order.resolve_right And.right

/-! ## Whole runs -/

end

theorem ascending_staged (calls : List Staging) : Ascending (staged calls) := by
  apply foldl_invariant (fun _ entries => Ascending entries) List.Pairwise.nil
  intro done call rest entries _ sorted
  cases call with
  | put entry => exact ascending_indexPut sorted entry
  | remove path => exact sorted.filter _

def lastCall (calls : List Staging) (path : IndexPath) : Option Staging :=
  calls.reverse.find? fun call => call.path = path

theorem mem_staged (calls : List Staging) (entry : IndexEntry) :
    entry ∈ staged calls ↔ lastCall calls entry.path = some (.put entry) := by
  induction calls using reverseRecOn with
  | nil => simp [staged, lastCall]
  | append_singleton calls call ih =>
    have sorted := ascending_staged calls
    have after : staged (calls ++ [call]) = stage (staged calls) call := by simp [staged]
    have last : lastCall (calls ++ [call]) entry.path =
        if call.path = entry.path then some call else lastCall calls entry.path := by
      split <;> simp_all [lastCall]
    rw [after, last]
    cases call with
    | put other =>
      rw [stage, mem_indexPut sorted, ih]
      by_cases same : other.path = entry.path
      · rw [show (Staging.put other).path = entry.path from same]
        simp [same, eq_comm]
      · have unlike : entry ≠ other := fun equal => same (equal ▸ rfl)
        rw [if_neg (show ¬ (Staging.put other).path = entry.path from same)]
        simp [unlike, Ne.symm same]
    | remove path =>
      rw [stage, removePath, mem_filter, ih]
      by_cases same : path = entry.path
      · rw [if_pos (show (Staging.remove path).path = entry.path from same)]
        simp [same]
      · rw [if_neg (show ¬ (Staging.remove path).path = entry.path from same)]
        simp [Ne.symm same]

end

def LeadsTo (a b : IndexPath) : Prop := a ≠ b ∧ a.names <:+ b.names

def PutLast (calls : List Staging) (path : IndexPath) : Prop :=
  ∃ entry, lastCall calls path = some (.put entry) ∧ entry.stage = 0

theorem path_of_lastCall {calls : List Staging} {path : IndexPath} {entry : IndexEntry}
    (last : lastCall calls path = some (.put entry)) : entry.path = path := by
  have named := find?_some last
  exact of_decide_eq_true named

/-- The index can be written as a tree just if no path was left a file while one below it was put in as well: nothing
that is done to a path removes what is in its way. -/
theorem staged_free_iff (calls : List Staging) :
    (∀ a ∈ staged calls, ∀ b ∈ staged calls, a.stage = 0 → b.stage = 0 → ¬ LeadsTo a.path b.path) ↔
      ∀ p q, LeadsTo p q → ¬ (PutLast calls p ∧ PutLast calls q) := by
  constructor
  · rintro free p q leads ⟨⟨a, lastA, stageA⟩, b, lastB, stageB⟩
    obtain rfl := path_of_lastCall lastA
    obtain rfl := path_of_lastCall lastB
    exact free a ((mem_staged calls a).2 lastA) b ((mem_staged calls b).2 lastB) stageA stageB leads
  · intro apart a insideA b insideB stageA stageB leads
    exact apart a.path b.path leads
      ⟨⟨a, (mem_staged calls a).1 insideA, stageA⟩, b, (mem_staged calls b).1 insideB, stageB⟩

/-- A file is added, becomes a directory, and a file in it is added: the index then has both. -/
theorem staged_file_and_directory :
    staged [.put (entryF 1), .put entryFG] = [entryF 1, entryFG] ∧
      ¬ ∀ a ∈ staged [.put (entryF 1), .put entryFG], ∀ b ∈ staged [.put (entryF 1), .put entryFG],
        a.stage = 0 → b.stage = 0 → ¬ LeadsTo a.path b.path := by
  have both : staged [.put (entryF 1), .put entryFG] = [entryF 1, entryFG] := by decide +kernel
  refine ⟨both, fun free => ?_⟩
  rw [both] at free
  exact free (entryF 1) (by simp) entryFG (by simp) rfl rfl ⟨by decide +kernel, by decide +kernel⟩

/-! ## A tree merge -/

/-- The mode that the three-way rule leaves a path with, zero for none. A path that one side changed and the other
took away is a conflict. -/
def threeWayMode (base ours theirs : Option IndexEntry) : UInt32 :=
  if sameEntry ours theirs then (Side.fill ours).mode
  else if sameEntry base ours then (Side.fill theirs).mode
  else if sameEntry base theirs then (Side.fill ours).mode
  else
    match ours, theirs with
    | some our, some their => mergedMode base our their
    | _, _ => 0

def Left (base ours theirs : Index) (path : IndexPath) : Prop :=
  threeWayMode (entryFor base path) (entryFor ours path) (entryFor theirs path) ≠ 0

/-- What the sides come to at a path: what they agree on, what one of them changed, or the merge of their lines. -/
def ThreeWay (host : Host) (mergeContent : LineMerge) (read : Objects)
    (base ours theirs : Option IndexEntry) (result : Side) : Prop :=
  (sameEntry ours theirs = true ∧ result = Side.fill ours) ∨
  (sameEntry base ours = true ∧ result = Side.fill theirs) ∨
  (sameEntry base theirs = true ∧ result = Side.fill ours) ∨
  ∃ our their text id, ours = some our ∧ theirs = some their ∧
    mergedText mergeContent read base our their = some (text, 0) ∧ objectId host .blob text = some id ∧
    result = ⟨mergedMode base our their, some id⟩

/-- The paths that are left, those that `git_merge_apply` has an entry for. -/
def survivors (paths : List MergePath) : List IndexPath :=
  (paths.filter fun merged => merged.result.mode ≠ 0).map MergePath.path

structure KeepsTree (host : Host) (mergeContent : LineMerge) (read : Objects)
    (base ours theirs : Index) (paths : List MergePath) : Prop where
  union : ∀ path, path ∈ paths.map MergePath.path ↔
    (entryFor base path).isSome ∨ (entryFor ours path).isSome ∨ (entryFor theirs path).isSome
  results : ∀ merged ∈ paths, ThreeWay host mergeContent read (entryFor base merged.path) (entryFor ours merged.path)
    (entryFor theirs merged.path) merged.result
  once : (survivors paths).Pairwise fun a b => a.text < b.text
  free : ∀ p ∈ survivors paths, ∀ q ∈ survivors paths, ¬ LeadsTo p q

/-! ## How often a path is taken -/

def InOrder (listing : Index) : Prop := listing.Pairwise fun a b => a.path.text ≤ b.path.text

section
variable {listings : List Index} {listing base ours theirs : Index} {path other : IndexPath}
  {entry : IndexEntry} {host : Host} {mergeContent : LineMerge} {read mid after : Objects}
  {merged : MergePath} {paths : List MergePath} {list : List IndexPath}

theorem targetOf_inOrder {read : Objects} {tree : Option ObjectId} (listed : targetOf read tree = some listing) :
    InOrder listing := by
  cases tree with
  | none =>
    cases listed
    exact List.Pairwise.nil
  | some id =>
    obtain ⟨entries, -, rfl⟩ := Option.map_eq_some_iff.1 listed
    refine (pairwise_insertionSort entryLE entries).imp ?_
    rintro a b (less | ⟨same, -⟩)
    · exact List.le_of_lt less
    · exact same ▸ List.le_refl _

theorem InOrder.least_le (sorted : InOrder listing)
    (least : ∀ first rest, listing = first :: rest → path.text ≤ first.path.text) (among : entry ∈ listing) :
    path.text ≤ entry.path.text := by
  cases listing with
  | nil => cases among
  | cons first rest =>
    have low := least first rest rfl
    obtain rfl | among := mem_cons.1 among
    · exact low
    · exact List.le_trans low ((pairwise_cons.1 sorted).1 entry among)

section
variable (sorted : ∀ listing ∈ listings, InOrder listing)
include sorted

theorem InOrder.advance (path : IndexPath) : ∀ listing ∈ listings.map (advance path), InOrder listing := by
  intro shorter inside
  obtain ⟨listing, there, rfl⟩ := mem_map.1 inside
  exact List.Pairwise.sublist (advance_sublist path listing) (sorted listing there)

theorem pairwise_candidates {turns : Nat} : (candidates turns listings).Pairwise fun a b => a.text ≤ b.text := by
  induction turns generalizing listings with
  | zero => exact List.Pairwise.nil
  | succ turns ih =>
    rw [candidates]
    split
    · exact List.Pairwise.nil
    rename_i path found
    have least := (foldl_smaller_some found).2.2
    refine pairwise_cons.2 ⟨fun later member => ?_, ih (InOrder.advance sorted path)⟩
    obtain ⟨shorter, inside, entry, among, rfl⟩ := mem_of_mem_candidates member
    obtain ⟨listing, there, rfl⟩ := mem_map.1 inside
    exact (sorted listing there).least_le (fun first rest split => least first rest (split ▸ there))
      ((advance_sublist path listing).subset among)

end

def times (path : IndexPath) (listing : Index) : Nat := (listing.map IndexEntry.path).count path

theorem times_advance_of_ne (apart : other ≠ path) : times path (advance other listing) = times path listing := by
  cases listing with
  | nil => rfl
  | cons first rest =>
    rw [advance]
    split
    next same =>
      have skipped : first.path ≠ path := same ▸ apart
      rw [times, times, map_cons, count_cons_of_ne skipped]
    · rfl

theorem times_advance_self (sorted : InOrder listing)
    (least : ∀ first rest, listing = first :: rest → path.text ≤ first.path.text) :
    times path (advance path listing) = times path listing - 1 := by
  cases listing with
  | nil => rfl
  | cons first rest =>
    rw [advance]
    split
    next same =>
      rw [times, times, map_cons, same, count_cons_self, Nat.add_sub_cancel]
    rename_i other
    -- the path is below all that the listing has
    have none : times path (first :: rest) = 0 := by
      refine count_eq_zero.2 fun member => ?_
      obtain ⟨entry, among, rfl⟩ := List.mem_map.1 member
      obtain rfl | among := mem_cons.1 among
      · exact other rfl
      · have high := (pairwise_cons.1 sorted).1 entry among
        exact other (IndexPath.text_injective (List.le_antisymm high (least first rest rfl)))
    rw [none]

theorem count_candidates_le {turns n : Nat} (sorted : ∀ listing ∈ listings, InOrder listing)
    (enough : (listings.map List.length).sum ≤ turns) :
    (candidates turns listings).count path ≤ n ↔ ∀ listing ∈ listings, times path listing ≤ n := by
  induction turns generalizing listings n with
  | zero =>
    refine ⟨fun _ listing inside => ?_, fun _ => Nat.zero_le _⟩
    have short := (le_sum_of_mem (mem_map_of_mem inside)).trans enough
    rw [length_eq_zero_iff.1 (Nat.le_zero.1 short)]
    exact Nat.zero_le _
  | succ turns ih =>
    rw [candidates]
    split
    next none =>
      refine ⟨fun _ listing inside => ?_, fun _ => Nat.zero_le _⟩
      rw [(foldl_smaller_none none).2 listing inside]
      exact Nat.zero_le _
    rename_i first found
    have least := (foldl_smaller_some found).2.2
    obtain none | ⟨entry, rest, head, rfl⟩ := (foldl_smaller_some found).1
    · cases none
    have fewer : ((listings.map (advance entry.path)).map length).sum ≤ turns :=
      Nat.le_of_lt_succ ((sum_advance_lt head).trans_le enough)
    have rest_le : ∀ n, (candidates turns (listings.map (advance entry.path))).count path ≤ n ↔
        ∀ listing ∈ listings.map (advance entry.path), times path listing ≤ n :=
      fun n => ih (InOrder.advance sorted entry.path) fewer
    by_cases same : entry.path = path
    · have taken : 0 < times path (entry :: rest) := by simp [times, same]
      subst same
      rw [count_cons_self]
      cases n with
      | zero =>
        refine ⟨fun many => (Nat.not_succ_le_zero _ many).elim, fun few => ?_⟩
        have none := few _ head
        omega
      | succ n =>
        rw [Nat.succ_le_succ_iff, rest_le n, forall_mem_map]
        refine forall₂_congr fun listing there => ?_
        have less := times_advance_self (sorted listing there) fun first rest split => least first rest (split ▸ there)
        omega
    · rw [count_cons_of_ne same, rest_le n, forall_mem_map]
      exact forall₂_congr fun listing _ => by rw [times_advance_of_ne same]

/-! ## What is left -/

theorem Left.mem (left : Left base ours theirs path) : path ∈ allPaths base ours theirs := by
  rw [mem_allPaths]
  by_contra none
  simp only [not_or, Bool.not_eq_true, Option.isSome_eq_false_iff, Option.isNone_iff_eq_none] at none
  obtain ⟨noBase, noOurs, noTheirs⟩ := none
  exact left (by rw [noOurs, noTheirs]; rfl)

theorem MergeEntry.threeWay {base ours theirs : Option IndexEntry} (settled : merged.settled = true)
    (turn : MergeEntry host mergeContent read path base ours theirs (merged, mid)) :
    merged.result.mode = threeWayMode base ours theirs ∧
      ThreeWay host mergeContent read base ours theirs merged.result := by
  cases turn with
  | agreed same => exact ⟨by simp [threeWayMode, same], .inl ⟨same, rfl⟩⟩
  | theirsOnly apart same => exact ⟨by simp [threeWayMode, apart, same], .inr (.inl ⟨same, rfl⟩)⟩
  | oursOnly apart changed same =>
    exact ⟨by simp [threeWayMode, changed, same], .inr (.inr (.inl ⟨same, rfl⟩))⟩
  | dispute kind result notClean notAuto => simp [MergePath.settled, notClean, notAuto] at settled
  | lines our their text id after ours theirs apart changed both merging wrote =>
    subst ours theirs
    refine ⟨by simp [threeWayMode, apart, changed, both], .inr (.inr (.inr ?_))⟩
    exact ⟨our, their, text, id, rfl, rfl, merging, (writeObject_eq_some wrote).1, rfl⟩

theorem ThreeWay.grows (grows : ContentStore.Grows read after) {base ours theirs : Option IndexEntry} {result : Side}
    (rule : ThreeWay host mergeContent read base ours theirs result) :
    ThreeWay host mergeContent after base ours theirs result := by
  refine rule.imp_right fun rule => rule.imp_right fun rule => rule.imp_right ?_
  rintro ⟨our, their, text, id, hasOur, hasTheir, merging, named, rfl⟩
  exact ⟨our, their, text, id, hasOur, hasTheir, mergedText_grows grows merging, named, rfl⟩

theorem nodup_filter_iff {keep : IndexPath → Prop} [DecidablePred keep] :
    (list.filter fun path => keep path).Nodup ↔ ∀ path, keep path → list.count path ≤ 1 := by
  rw [nodup_iff_count_le_one]
  refine forall_congr' fun path => ?_
  by_cases kept : keep path
  · rw [count_filter (by simpa using kept)]
    simp [kept]
  · have gone : path ∉ list.filter fun path => keep path := by simp [kept]
    rw [count_eq_zero.2 gone]
    simp [kept]

theorem pairwise_lt_iff (sorted : list.Pairwise fun a b => a.text ≤ b.text) :
    (list.Pairwise fun a b => a.text < b.text) ↔ list.Nodup := by
  constructor
  · intro strict
    refine strict.imp ?_
    rintro a _ less rfl
    exact List.lt_irrefl _ less
  · intro distinct
    refine (sorted.and distinct).imp ?_
    rintro a b ⟨low, apart⟩
    by_contra less
    exact apart (IndexPath.text_injective (List.le_antisymm low (List.not_lt.1 less)))

/-- A merge without conflicts makes a tree just when the three-way rule leaves no path that a listing has twice, and no
path that leads to another it leaves. -/
theorem merge_keeps_tree_iff {baseTree ourTree theirTree : Option ObjectId} (based : targetOf read baseTree = some base)
    (our : targetOf read ourTree = some ours) (their : targetOf read theirTree = some theirs)
    (ran : mergeTrees host mergeContent read baseTree ourTree theirTree = some (paths, after))
    (settled : ∀ merged ∈ paths, merged.settled = true) :
    KeepsTree host mergeContent after base ours theirs paths ↔
      (∀ path, Left base ours theirs path → ∀ listing ∈ [ours, theirs, base], times path listing ≤ 1) ∧
      ∀ p q, LeadsTo p q → ¬ (Left base ours theirs p ∧ Left base ours theirs q) := by
  classical
  have ran : mergePaths host mergeContent base ours theirs (allPaths base ours theirs) read = some (paths, after) := by
    simpa [mergeTrees, based, our, their] using ran
  obtain ⟨names, -, each⟩ := mergePaths_eq_some ran
  have rule : ∀ merged ∈ paths, merged.result.mode =
    threeWayMode (entryFor base merged.path) (entryFor ours merged.path)
      (entryFor theirs merged.path) ∧ ThreeWay host mergeContent after (entryFor base merged.path)
      (entryFor ours merged.path) (entryFor theirs merged.path) merged.result := by
    intro merged among
    obtain ⟨before, mid, -, ahead, turn⟩ := each merged among
    have grows := turn.grows.trans ahead
    obtain ⟨mode, result⟩ := turn.threeWay (settled merged among)
    exact ⟨mode, result.grows grows⟩
  have left_eq : survivors paths = (paths.map MergePath.path).filter fun path => Left base ours theirs path := by
    rw [survivors, filter_map]
    congr 1
    refine filter_congr fun merged among => ?_
    rw [Function.comp_apply, decide_eq_decide, (rule merged among).1]
    rfl
  rw [names] at left_eq
  have sorted : ∀ listing ∈ [ours, theirs, base], InOrder listing := by
    simpa using ⟨targetOf_inOrder our, targetOf_inOrder their, targetOf_inOrder based⟩
  have enough : ([ours, theirs, base].map length).sum ≤ base.length + ours.length + theirs.length := by
    simp
    omega
  have once : ((survivors paths).Pairwise fun a b => a.text < b.text) ↔
      ∀ path, Left base ours theirs path → ∀ listing ∈ [ours, theirs, base], times path listing ≤ 1 := by
    rw [left_eq, allPaths, pairwise_lt_iff ((pairwise_candidates sorted).filter _), nodup_filter_iff]
    exact forall₂_congr fun path _ => count_candidates_le sorted enough
  have among : ∀ path, path ∈ survivors paths ↔ Left base ours theirs path := by
    intro path
    rw [left_eq, mem_filter, decide_eq_true_iff]
    exact ⟨And.right, fun left => ⟨left.mem, left⟩⟩
  constructor
  · intro tree
    refine ⟨once.1 tree.once, fun p q leads ⟨leftP, leftQ⟩ => ?_⟩
    exact tree.free p ((among p).2 leftP) q ((among q).2 leftQ) leads
  · rintro ⟨few, apart⟩
    refine ⟨fun path => by rw [names, mem_allPaths], fun merged member => (rule merged member).2, once.2 few, ?_⟩
    intro p leftP q leftQ leads
    exact apart p q leads ⟨(among p).1 leftP, (among q).1 leftQ⟩

end

/-! A file on one side in the place of a directory on the other. -/

def dirOfG : Bytes := ascii "40000 f" ++ 0 :: (byteId 0x44).bytes

def onlyG : Bytes := ascii "100644 g" ++ 0 :: (byteId 2).bytes

def clashRead (id : ObjectId) : Option Object :=
  if id = byteId 0x43 then some ⟨.tree, dirOfG, by decide⟩
  else if id = byteId 0x44 then some ⟨.tree, onlyG, by decide⟩
  else sampleRead id

def noLines : LineMerge := fun _ _ _ => none

def listedG : IndexEntry := { listedF 2 with path := entryG.path }

def listedFG : IndexEntry := { listedF 2 with path := entryFG.path }

/-- One side adds the file `f` and the other the file `f/g`: both are left, and there is no conflict. -/
theorem merge_file_and_directory :
    targetOf clashRead (some (byteId 0x41)) = some [listedF 1] ∧
    targetOf clashRead (some (byteId 0x43)) = some [listedFG] ∧
    ∃ paths after, mergeTrees sampleHost noLines clashRead none (some (byteId 0x41)) (some (byteId 0x43)) =
        some (paths, after) ∧ (∀ merged ∈ paths, merged.settled = true) ∧
      ¬ KeepsTree sampleHost noLines after [] [listedF 1] [listedFG] paths := by
  have our : targetOf clashRead (some (byteId 0x41)) = some [listedF 1] := by decide +kernel
  have their : targetOf clashRead (some (byteId 0x43)) = some [listedFG] := by decide +kernel
  have ran : mergeTrees sampleHost noLines clashRead none (some (byteId 0x41)) (some (byteId 0x43)) = some
      ([⟨pathF, .clean, fill (some (listedF 1)), fill none, fill (some (listedF 1)), fill none⟩,
        ⟨listedFG.path, .clean, fill (some listedFG), fill none, fill none, fill (some listedFG)⟩],
        clashRead) := by
    rw [mergeTrees, their]
    rfl
  refine ⟨our, their, _, _, ran, by decide +kernel, fun tree => ?_⟩
  exact tree.free pathF (by decide +kernel) listedFG.path (by decide +kernel) ⟨by decide +kernel, by decide +kernel⟩

/-- `f` on one side and `g` on the other. -/
theorem merge_two_files :
    ∃ paths after, mergeTrees sampleHost noLines clashRead none (some (byteId 0x41)) (some (byteId 0x44)) =
        some (paths, after) ∧ (∀ merged ∈ paths, merged.settled = true) ∧
      KeepsTree sampleHost noLines after [] [listedF 1] [listedG] paths := by
  have based : targetOf clashRead none = some [] := rfl
  have our : targetOf clashRead (some (byteId 0x41)) = some [listedF 1] := by decide +kernel
  have their : targetOf clashRead (some (byteId 0x44)) = some [listedG] := by decide +kernel
  have walked : allPaths [] [listedF 1] [listedG] = [pathF, listedG.path] := by decide +kernel
  have ran : mergeTrees sampleHost noLines clashRead none (some (byteId 0x41)) (some (byteId 0x44)) = some
      ([⟨pathF, .clean, fill (some (listedF 1)), fill none, fill (some (listedF 1)), fill none⟩,
        ⟨listedG.path, .clean, fill (some listedG), fill none, fill none, fill (some listedG)⟩],
        clashRead) := by
    rw [mergeTrees, based, our, their]
    rfl
  have settled : ∀ merged ∈ [(⟨pathF, .clean, fill (some (listedF 1)), fill none, fill (some (listedF 1)),
      fill none⟩ : MergePath), ⟨listedG.path, .clean, fill (some listedG), fill none, fill none,
      fill (some listedG)⟩], merged.settled = true := by decide +kernel
  refine ⟨_, clashRead, ran, settled, (merge_keeps_tree_iff based our their ran settled).2 ⟨?_, ?_⟩⟩
  · intro path left
    have among := left.mem
    rw [walked] at among
    have once : ∀ path ∈ [pathF, listedG.path], ∀ listing ∈ [[listedF 1], [listedG], []], times path listing ≤ 1 := by
      decide +kernel
    exact once path among
  · rintro p q leads ⟨leftP, leftQ⟩
    have amongP := leftP.mem
    have amongQ := leftQ.mem
    have apart : ∀ p ∈ [pathF, listedG.path], ∀ q ∈ [pathF, listedG.path], ¬ (p ≠ q ∧ p.names <:+ q.names) := by
      decide +kernel
    exact apart p amongP q amongQ leads

end BashOs.Git.WorkTree

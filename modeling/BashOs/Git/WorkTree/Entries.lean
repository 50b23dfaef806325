import BashOs.Git.Patch.Print
import BashOs.Git.WorkTree.Switch

/-!
What changed between two listings: a walk over both, in the order of their paths.
-/

namespace BashOs.Git.WorkTree
open BashOs.Lib BashOs.Git.Patch List

theorem spelled_hex (id : ObjectId) : ∀ b ∈ id.hex, (hexValue b).isSome := by
  intro b member
  obtain ⟨byte, -, digit⟩ := mem_flatMap.1 member
  have small := byte.toNat_lt
  simp only [mem_cons, not_mem_nil, or_false] at digit
  obtain rfl | rfl := digit <;> rw [hexValue_hexDigit _ (by omega)] <;> rfl

/-- `bgit_diff_push` -/
def diffPush (path : IndexPath) (status : PathStatus) (old new : Option IndexEntry) : DiffEntry where
  path := path.text
  status := status
  oldMode := (old.map fun entry => entry.mode.toNat).getD 0
  newMode := (new.map fun entry => entry.mode.toNat).getD 0
  oldSha := (old.map fun entry => entry.sha.hex).getD []
  newSha := (new.map fun entry => entry.sha.hex).getD []
  renamedFrom := none
  score := 0
  spelled := by
    have each (side : Option IndexEntry) : ∀ b ∈ (side.map fun entry => entry.sha.hex).getD [],
        (hexValue b).isSome := by
      cases side with
      | none => exact nofun
      | some entry => exact spelled_hex entry.sha
    exact forall_mem_append.2 ⟨each old, each new⟩

def diffFrom : Index → Index → List DiffEntry
  | [], [] => []
  | o :: old, [] => diffPush o.path .deleted (some o) none :: diffFrom old []
  | [], n :: new => diffPush n.path .added none (some n) :: diffFrom [] new
  | o :: old, n :: new =>
    if o.path.text < n.path.text then diffPush o.path .deleted (some o) none :: diffFrom old (n :: new)
    else if n.path.text < o.path.text then diffPush n.path .added none (some n) :: diffFrom (o :: old) new
    else if o.sha ≠ n.sha ∨ o.mode ≠ n.mode then diffPush o.path .modified (some o) (some n) :: diffFrom old new
    else diffFrom old new
termination_by old new => old.length + new.length

/-- `bgit_diff_entries` -/
def diffEntries (old new : Index) : List DiffEntry := (diffFrom old new).insertionSort fun a b => a.path ≤ b.path

/-! ## The changes as a patch -/

def listed (entry : IndexEntry) : Bytes × Nat × Bytes := (entry.path.text, entry.mode.toNat, entry.sha.hex)

def applyEntry (listing : List (Bytes × Nat × Bytes)) (change : DiffEntry) : List (Bytes × Nat × Bytes) :=
  let others := listing.filter fun item => item.1 ≠ change.path
  if change.status = .deleted then others
  else others.orderedInsert (fun a b => a.1 ≤ b.1) (change.path, change.newMode, change.newSha)

section
variable {old new : Index} {done here rest : List (Bytes × Nat × Bytes)} {change : DiffEntry}

theorem applyEntry_between (above : ∀ item ∈ done, item.1 < change.path) (own : ∀ item ∈ here, item.1 = change.path)
    (below : ∀ item ∈ rest, change.path < item.1) :
    applyEntry (done ++ (here ++ rest)) change =
      done ++ ((if change.status = .deleted then [] else [(change.path, change.newMode, change.newSha)]) ++ rest) := by
  have first : done.filter (fun item => item.1 ≠ change.path) = done :=
    filter_eq_self.2 fun item member => decide_eq_true fun same => List.lt_irrefl _ (same ▸ above item member)
  have middle : here.filter (fun item => item.1 ≠ change.path) = [] := filter_eq_nil_iff.2 fun item member => by
    simp [own item member]
  have last : rest.filter (fun item => item.1 ≠ change.path) = rest :=
    filter_eq_self.2 fun item member => decide_eq_true fun same => List.lt_irrefl _ (same ▸ below item member)
  rw [applyEntry, filter_append, filter_append, first, middle, last, nil_append]
  split
  · rfl
  rw [orderedInsert_eq_take_drop, takeWhile_append_of_pos, dropWhile_append_of_pos]
  · cases rest with
    | nil => simp
    | cons next rest =>
      have under := List.le_of_lt (below next mem_cons_self)
      simp [under]
  · exact fun item member => by simp [above item member]
  · exact fun item member => by simp [above item member]

def Under (path : Bytes) (entries : Index) : Prop := ∀ entry ∈ entries, path < entry.path.text

/-- The changes are in order, above every path that all that is listed is above, and make the new listing of the old
one, behind what comes before both. -/
structure Changes (old new : Index) (changes : List DiffEntry) : Prop where
  ordered : changes.Pairwise fun a b => a.path < b.path
  above : ∀ path, Under path (old ++ new) → ∀ change ∈ changes, path < change.path
  applied : ∀ done, (∀ item ∈ done, Under item.1 (old ++ new)) →
    changes.foldl applyEntry (done ++ old.map listed) = done ++ new.map listed

theorem Changes.cons {changes : List DiffEntry} {mine theirs : Index} (rest : Changes old new changes)
    (some : mine ++ theirs ≠ []) (own : ∀ entry ∈ mine ++ theirs, entry.path.text = change.path)
    (first : Under change.path (old ++ new))
    (result : theirs.map listed =
      if change.status = .deleted then [] else [(change.path, change.newMode, change.newSha)]) :
    Changes (mine ++ old) (theirs ++ new) (change :: changes) := by
  obtain ⟨one, among⟩ := exists_mem_of_ne_nil _ some
  have split {path : Bytes} (under : Under path (mine ++ old ++ (theirs ++ new))) :
      path < change.path ∧ Under path (old ++ new) := by
    refine ⟨own one among ▸ under one ?_, fun entry member => under entry ?_⟩
    all_goals
      simp only [mem_append] at *
      tauto
  refine ⟨pairwise_cons.2 ⟨rest.above _ first, rest.ordered⟩, fun path under => ?_, fun done under => ?_⟩
  · exact forall_mem_cons.2 ⟨(split under).1, rest.above path (split under).2⟩
  · rw [foldl_cons, map_append, applyEntry_between fun item inside => (split (under item inside)).1, ← result,
      ← append_assoc,
      rest.applied, map_append, append_assoc]
    · refine forall_mem_append.2 ⟨fun item inside => (split (under item inside)).2, ?_⟩
      exact forall_mem_map.2 fun entry inside other member =>
        lt_of_eq_of_lt (own entry (mem_append_right _ inside)) (first other member)
    · exact forall_mem_map.2 fun entry inside => own entry (mem_append_left _ inside)
    · exact forall_mem_map.2 fun entry inside => first entry (mem_append_left _ inside)

theorem Ascending.above {path : Bytes} {entry : IndexEntry} (sorted : Ascending (entry :: old))
    (less : path < entry.path.text) :
    Under path (entry :: old) :=
  forall_mem_cons.2 ⟨less, fun other member => List.lt_trans less ((pairwise_cons.1 sorted).1 other member)⟩

theorem diffFrom_changes (sorted : Ascending old) (sorted' : Ascending new) : Changes old new (diffFrom old new) := by
  fun_induction diffFrom old new with
  | case1 => exact ⟨.nil, nofun, fun _ _ => rfl⟩
  | case2 o old ih =>
    obtain ⟨first, tail⟩ := pairwise_cons.1 sorted
    show Changes ([o] ++ old) ([] ++ []) _
    exact (ih tail .nil).cons (by simp) (by simp [diffPush]) (forall_mem_append.2 ⟨first, nofun⟩) rfl
  | case3 n new ih =>
    obtain ⟨first, tail⟩ := pairwise_cons.1 sorted'
    show Changes ([] ++ []) ([n] ++ new) _
    exact (ih .nil tail).cons (by simp) (by simp [diffPush]) first rfl
  | case4 o old n new less ih =>
    obtain ⟨first, tail⟩ := pairwise_cons.1 sorted
    show Changes ([o] ++ old) ([] ++ (n :: new)) _
    exact (ih tail sorted').cons (by simp) (by simp [diffPush]) (forall_mem_append.2 ⟨first, sorted'.above less⟩) rfl
  | case5 o old n new other less ih =>
    obtain ⟨first, tail⟩ := pairwise_cons.1 sorted'
    show Changes ([] ++ (o :: old)) ([n] ++ new) _
    exact (ih sorted tail).cons (by simp) (by simp [diffPush]) (forall_mem_append.2 ⟨sorted.above less, first⟩) rfl
  | case6 o old n new low high changed ih =>
    obtain ⟨first, tail⟩ := pairwise_cons.1 sorted
    obtain ⟨first', tail'⟩ := pairwise_cons.1 sorted'
    have path : o.path.text = n.path.text := List.le_antisymm high low
    show Changes ([o] ++ old) ([n] ++ new) _
    refine (ih tail tail').cons (by simp) (by simp [diffPush, path]) (forall_mem_append.2 ⟨first, ?_⟩) ?_
    · exact fun entry member => lt_of_eq_of_lt path (first' entry member)
    · simp [diffPush, listed, path]
  | case7 o old n new low high same ih =>
    obtain ⟨first, tail⟩ := pairwise_cons.1 sorted
    obtain ⟨first', tail'⟩ := pairwise_cons.1 sorted'
    have path : o.path.text = n.path.text := List.le_antisymm high low
    have equal : listed o = listed n := by
      rw [not_or, not_not, not_not] at same
      rw [listed, listed, path, same.1, same.2]
    have rest := ih tail tail'
    have split {path : Bytes} (under : Under path (o :: old ++ n :: new)) : Under path (old ++ new) := by
      intro entry member
      refine under entry ?_
      simp only [mem_append, mem_cons] at member ⊢
      tauto
    refine ⟨rest.ordered, fun path under => rest.above path (split under), fun done under => ?_⟩
    rw [map_cons, map_cons, ← equal, append_cons, append_cons _ _ (new.map listed)]
    refine rest.applied _ (forall_mem_append.2
      ⟨fun item inside => split (under item inside), forall_mem_singleton.2 ?_⟩)
    exact forall_mem_append.2 ⟨first, fun entry member => lt_of_eq_of_lt path (first' entry member)⟩

theorem diffFrom_same (same : old.map listed = new.map listed) : diffFrom old new = [] := by
  induction old generalizing new with
  | nil => rw [map_eq_nil_iff.1 same.symm, diffFrom]
  | cons o old ih =>
    obtain ⟨n, new, rfl, head, tail⟩ := map_eq_cons_iff.1 same.symm
    obtain ⟨path, mode, sha⟩ : n.path.text = o.path.text ∧ n.mode.toNat = o.mode.toNat ∧ n.sha.hex = o.sha.hex := by
      simpa [listed] using head
    have differ : ¬ (o.sha ≠ n.sha ∨ o.mode ≠ n.mode) := by simp [ObjectId.hex_injective sha, UInt32.toNat_inj.1 mode]
    rw [diffFrom, path, if_neg (List.lt_irrefl _), if_neg (List.lt_irrefl _), if_neg differ, ih tail.symm]

end

/-- The difference of two listings in order is a patch from the one to the other that has each path at most once. It
is empty if and only if they list the same. -/
theorem diff_entries_patch (old new : List IndexEntry) (sorted : Ascending old) (sorted' : Ascending new) :
    (diffEntries old new).foldl applyEntry (old.map listed) = new.map listed ∧
      ((diffEntries old new).map DiffEntry.path).Nodup ∧
        (diffEntries old new = [] ↔ old.map listed = new.map listed) := by
  have changes := diffFrom_changes sorted sorted'
  have whole : diffEntries old new = diffFrom old new :=
    (changes.ordered.imp fun less => List.le_of_lt less).insertionSort_eq
  have made := changes.applied [] nofun
  rw [whole]
  refine ⟨made, pairwise_map.2 (changes.ordered.imp fun less => ?_), fun none => ?_, diffFrom_same⟩
  · exact fun same => List.lt_irrefl _ (same ▸ less)
  · rwa [none] at made

/-- `f` changed and `g` gone. -/
theorem diff_entries_patch_sample :
    (diffEntries [entryF 1, entryG] [entryF 2]).foldl applyEntry [listed (entryF 1), listed entryG] =
      [listed (entryF 2)] := by
  have sorted : Ascending [entryF 1, entryG] := by
    unfold Ascending
    decide +kernel
  exact (diff_entries_patch [entryF 1, entryG] [entryF 2] sorted (pairwise_singleton _ _)).1

end BashOs.Git.WorkTree

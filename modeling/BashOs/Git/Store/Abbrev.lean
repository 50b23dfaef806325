import BashOs.Git.Store.Odb
import BashOs.Git.Store.Roots
import BashOs.Lib.LowerBound

/-!
Names that say only the first digits of an id. `bgit_odb_resolve` counts the copies that go by such a name, in the
sorted listings of the loose directories and in the bucket of each pack's index, and stops at the second; so an
object that is there twice is as ambiguous to it as two objects.
-/

namespace BashOs.Git
open BashOs.Lib BashOs.Git.Pack List

/-! ## The search -/

structure Candidates where
  count : Nat
  full : Bytes
deriving DecidableEq

/-- `bgit_loose_listing`: the files of one of the directories that two digits name, in order. -/
def looseListing (dir : ObjectDir) (head : Bytes) : List Bytes :=
  (((dir.loose.map fun file => file.1.hex).filter fun hex => hex.take 2 = head).map fun hex =>
    hex.drop 2).insertionSort (· ≤ ·)

/-- The loop of `bgit_loose_match_prefix` -/
def looseMatches (head rest : Bytes) : List Bytes → Candidates → Candidates
  | [], found => found
  | name :: names, found =>
    if found.count < 2 then
      if !rest.isPrefixOf name then found
      else if found.count = 0 then looseMatches head rest names ⟨1, head ++ name⟩
      else if found.full ≠ head ++ name then { found with count := found.count + 1 }
      else looseMatches head rest names { found with count := found.count + 1 }
    else found

def looseMatchPrefix (name : Bytes) (dir : ObjectDir) (found : Candidates) : Candidates :=
  if name.length < 2 then found
  else
    let names := looseListing dir (name.take 2)
    let rest := name.drop 2
    let low := lowerBound (fun other => decide (other.take rest.length < rest)) names names.length 0 names.length
    looseMatches (name.take 2) rest (names.drop low) found

/-- The loop of `bgit_pack_match_prefix` -/
def packMatches (name : Bytes) : List Bytes → Candidates → Candidates
  | [], found => found
  | hex :: rows, found =>
    if name.isPrefixOf hex then
      if found.count ≠ 0 ∧ found.full ≠ hex then { found with count := found.count + 1 }
      else
        let found : Candidates := { count := found.count + 1, full := if found.count = 0 then hex else found.full }
        if found.count > 1 then found else packMatches name rows found
    else packMatches name rows found

/-- `strtoul` of the first two digits. -/
def firstOfName (name : Bytes) : Nat := (((hexPairs (name.take 2)).bind List.head?).map UInt8.toNat).getD 0

def PackFile.rows (file : PackFile) (first count : Nat) : Ids :=
  (List.range' first count).filterMap fun k => idOf ((file.idx.drop (1032 + k * 20)).take 20)

def PackFile.bucket (file : PackFile) (value : Nat) : Ids :=
  let total := wordAt 4 file.idx (8 + 255 * 4)
  let first := if value = 0 then 0 else wordAt 4 file.idx (8 + (value - 1) * 4)
  let last := wordAt 4 file.idx (8 + value * 4)
  if total * 20 > file.idx.length - 1032 ∨ first > last ∨ last > total then [] else file.rows first (last - first)

def PackFile.table (file : PackFile) : Ids :=
  let total := wordAt 4 file.idx (8 + 255 * 4)
  if total * 20 > file.idx.length - 1032 then [] else file.rows 0 total

def packMatchPrefix (name : Bytes) (file : PackFile) (found : Candidates) : Candidates :=
  let rows := if 2 ≤ name.length then file.bucket (firstOfName name) else file.table
  packMatches name (rows.map ObjectId.hex) found

/-- `bgit_odb_resolve`, of a name in lower-case digits -/
def odbResolve (dirs : List ObjectDir) (packs : List PackFile) (name : Bytes) : Option Bytes :=
  if !allHex name ∨ name.length > 40 then none
  else if name.length = 40 then
    match idOfHex name with
    | some id => if has dirs packs id then some name else none
    | none => none
  else if name.length < 4 then none
  else
    let found := dirs.foldl (fun found dir => if found.count < 2 then looseMatchPrefix name dir
      found else found) ⟨0, []⟩
    let found := packs.foldl (fun found file => if found.count < 2 then packMatchPrefix name file
      found else found) found
    if found.count = 1 then some found.full else none

/-! ## What the search counts -/

structure Candidates.Counts (found : Candidates) (copies : List Bytes) : Prop where
  count : min found.count 2 = min copies.length 2
  full : ∀ hex ∈ copies.head?, found.full = hex

theorem Candidates.counts_nil : Candidates.Counts ⟨0, []⟩ [] := ⟨rfl, nofun⟩

variable {name : Bytes} {found : Candidates} {seen : List Bytes}

section
variable {found : Candidates} {copies more : List Bytes} {hex : Bytes}

section
variable (counts : found.Counts copies)
include counts

theorem Candidates.Counts.many (many : 2 ≤ found.count) (more : List Bytes) : found.Counts (copies ++ more) := by
  have count := counts.count
  cases copies with
  | nil =>
    rw [length_nil] at count
    omega
  | cons first rest =>
    refine ⟨?_, counts.full⟩
    rw [length_append]
    omega

theorem Candidates.Counts.next (hex : Bytes) :
    Candidates.Counts ⟨found.count + 1, if found.count = 0 then hex else found.full⟩ (copies ++ [hex]) := by
  have count := counts.count
  have full := counts.full
  cases copies with
  | nil =>
    rw [length_nil] at count
    have none : found.count = 0 := by omega
    rw [none]
    exact ⟨rfl, fun _ same => Option.some.inj same⟩
  | cons first rest =>
    rw [length_cons] at count
    refine ⟨?_, fun given same => ?_⟩
    · simp
      omega
    · rw [if_neg (by omega)]
      exact full given same

theorem Candidates.Counts.eq_one_iff {full : Bytes} :
    (if found.count = 1 then some found.full else none) = some full ↔ copies = [full] := by
  have count := counts.count
  match copies, counts with
  | [], _ =>
    rw [length_nil] at count
    simp [show found.count ≠ 1 by omega]
  | [hex], counts =>
    rw [length_singleton] at count
    rw [if_pos (by omega), counts.full hex rfl]
    simp
  | first :: second :: rest, _ =>
    rw [length_cons, length_cons] at count
    simp [show found.count ≠ 1 by omega]

theorem looseMatches_counts {head rest : Bytes} {names : List Bytes} :
    (looseMatches head rest names found).Counts (copies ++ (names.takeWhile rest.isPrefixOf).map (head ++ ·)) := by
  induction names generalizing found copies with
  | nil => simpa [looseMatches] using counts
  | cons name names ih =>
    rw [looseMatches]
    by_cases few : found.count < 2
    · rw [if_pos few]
      cases matched : rest.isPrefixOf name with
      | false => simpa [matched] using counts
      | true =>
        have next := counts.next (head ++ name)
        rw [if_neg (by decide), takeWhile_cons_of_pos matched, map_cons]
        by_cases none : found.count = 0
        · rw [if_pos none] at next ⊢
          rw [none] at next
          rw [← singleton_append, ← append_assoc]
          exact ih next
        rw [if_neg none] at next ⊢
        rw [← singleton_append, ← append_assoc]
        split
        · exact next.many (by dsimp only; omega) _
        · exact ih next
    · rw [if_neg few]
      exact counts.many (by omega) _

theorem packMatches_counts {rows : List Bytes} :
    (packMatches name rows found).Counts (copies ++ rows.filter name.isPrefixOf) := by
  induction rows generalizing found copies with
  | nil => simpa [packMatches] using counts
  | cons hex rows ih =>
    rw [packMatches]
    cases matched : name.isPrefixOf hex with
    | false =>
      rw [filter_cons_of_neg (by simp [matched])]
      exact ih counts
    | true =>
      have next := counts.next hex
      rw [if_pos rfl, filter_cons_of_pos matched, ← singleton_append, ← append_assoc]
      split
      next other =>
        rw [if_neg other.1] at next
        exact next.many (by dsimp only; omega) _
      · dsimp only
        split
        next many => exact next.many many _
        · exact ih next

end

end

/-! ## The copies -/

section
variable (name : Bytes)

def looseCopies (dir : ObjectDir) : List Bytes := (dir.loose.map fun file => file.1.hex).filter name.isPrefixOf

def packCopies (file : PackFile) :
    List Bytes := ((file.bucket (firstOfName name)).map ObjectId.hex).filter name.isPrefixOf

def copies (dirs : List ObjectDir) (packs : List PackFile) : List Bytes :=
  dirs.flatMap (looseCopies name) ++ packs.flatMap (packCopies name)

end

theorem take_le_take {a b : Bytes} (le : a ≤ b) (n : Nat) : a.take n ≤ b.take n := by
  induction n generalizing a b with
  | zero => simp
  | succ n ih =>
    cases a with
    | nil => simp
    | cons x a =>
      cases b with
      | nil => simp at le
      | cons y b =>
        rw [take_succ_cons, take_succ_cons, cons_le_cons_iff]
        rw [cons_le_cons_iff] at le
        exact le.imp_right fun ⟨same, le⟩ => ⟨same, ih le⟩

section
variable {name : Bytes} {dir : ObjectDir}

theorem listing_matches (rest : Bytes) (names : List Bytes) (sorted : names.Pairwise (· ≤ ·)) :
    (names.drop (lowerBound (fun other => decide (other.take rest.length < rest)) names names.length 0
      names.length)).takeWhile
      rest.isPrefixOf = names.filter rest.isPrefixOf := by
  have down : ∀ a b : Bytes, a ≤ b → decide (b.take rest.length < rest) = true →
      decide (a.take rest.length < rest) = true := by
    intro a b le below
    exact decide_eq_true (List.lt_of_le_of_lt (take_le_take le _) (of_decide_eq_true below))
  refine takeWhile_run sorted down (fun a b le above matched => ?_) fun a matched => ?_
  · have here : b.take rest.length = rest := (prefix_iff_eq_take.1 <| isPrefixOf_iff_prefix.1 matched).symm
    have same : a.take rest.length = rest :=
      List.le_antisymm (Eq.mp (by rw [here]) (take_le_take le rest.length)) (List.not_lt.1 (of_decide_eq_false above))
    refine isPrefixOf_iff_prefix.2 ?_
    exact same ▸ take_prefix _ a
  · have here : a.take rest.length = rest := (prefix_iff_eq_take.1 <| isPrefixOf_iff_prefix.1 matched).symm
    rw [here]
    exact decide_eq_false (List.lt_irrefl rest)

section
variable (two : 2 ≤ name.length)
include two

theorem isPrefixOf_drop {hex : Bytes} :
    name.isPrefixOf hex = (decide (hex.take 2 = name.take 2) && (name.drop 2).isPrefixOf (hex.drop 2)) := by
  match name, hex, two with
  | a :: b :: name, [], _ => simp
  | a :: b :: name, [x], _ => simp [isPrefixOf]
  | a :: b :: name, x :: y :: hex, _ =>
    rw [Bool.eq_iff_iff]
    simp [isPrefixOf, eq_comm (a := x), eq_comm (a := y), and_assoc]

theorem listing_perm :
    (((looseListing dir (name.take 2)).filter (name.drop 2).isPrefixOf).map (name.take 2 ++ ·)).Perm
      (looseCopies name dir) := by
  have sorted := perm_insertionSort (fun a b : Bytes => a ≤ b)
    (((dir.loose.map fun file => file.1.hex).filter fun hex => hex.take 2 = name.take 2).map fun hex => hex.drop 2)
  refine ((sorted.filter _).map _).trans (List.Perm.of_eq ?_)
  rw [filter_map, map_map, filter_filter]
  have back : ∀ hex ∈ (dir.loose.map fun file => file.1.hex).filter (fun hex =>
      ((name.drop 2).isPrefixOf ∘ fun hex => hex.drop 2) hex && decide (hex.take 2 = name.take 2)),
      ((name.take 2 ++ ·) ∘ fun hex : Bytes => hex.drop 2) hex = hex := by
    intro hex member
    have same := (Bool.and_eq_true_iff.1 (mem_filter.1 member).2).2
    rw [Function.comp_apply, ← of_decide_eq_true same, take_append_drop]
  rw [map_congr_left back, map_id']
  refine filter_congr fun hex _ => ?_
  rw [isPrefixOf_drop two, Bool.and_comm]
  rfl

theorem looseMatchPrefix_counts (counts : found.Counts seen) :
    ∃ own, own.Perm (looseCopies name dir) ∧ (looseMatchPrefix name dir found).Counts (seen ++ own) := by
  refine ⟨_, listing_perm two, ?_⟩
  have matched := listing_matches (name.drop 2) (looseListing dir (name.take 2))
    (pairwise_insertionSort (fun a b : Bytes => a ≤ b) _)
  rw [looseMatchPrefix, if_neg (by omega), ← matched]
  exact looseMatches_counts counts

end

end

theorem packMatchPrefix_counts {file : PackFile} (two : 2 ≤ name.length) (counts : found.Counts seen) :
    (packMatchPrefix name file found).Counts (seen ++ packCopies name file) := by
  rw [packMatchPrefix, if_pos two]
  exact packMatches_counts counts

theorem foldl_counts {α : Type} {turn : Candidates → α → Candidates} {held : α → List Bytes}
    (one : ∀ found seen item, found.Counts seen → ∃ own, own.Perm (held item) ∧ (turn found item).Counts (seen ++ own))
    (items : List α) (counts : found.Counts seen) :
    ∃ own, own.Perm (items.flatMap held) ∧
      (items.foldl (fun found item => if found.count < 2 then turn found item else found) found).Counts
        (seen ++ own) := by
  induction items generalizing found seen with
  | nil => exact ⟨[], List.Perm.refl _, by simpa using counts⟩
  | cons item items ih =>
    have step : ∃ own, own.Perm (held item) ∧
        (if found.count < 2 then turn found item else found).Counts (seen ++ own) := by
      split
      · exact one found seen item counts
      next many => exact ⟨held item, List.Perm.refl _, counts.many (Nat.le_of_not_lt many) _⟩
    obtain ⟨own, here, counts⟩ := step
    obtain ⟨more, rest, counts⟩ := ih counts
    refine ⟨own ++ more, here.append rest, ?_⟩
    rwa [← append_assoc]

/-! ## Names and ids -/

theorem firstOfName_eq {id : ObjectId} (two : 2 ≤ name.length) (spelled : name.isPrefixOf id.hex) :
    firstOfName name = firstByte id := by
  have head : name.take 2 = id.hex.take 2 := by
    rw [isPrefixOf_drop two] at spelled
    exact (of_decide_eq_true (Bool.and_eq_true_iff.1 spelled).1).symm
  obtain ⟨bytes, width⟩ := id
  cases bytes with
  | nil => cases width
  | cons b bytes =>
    have digits : (ObjectId.hex ⟨b :: bytes, width⟩).take 2 = [b].flatMap fun b =>
        [hexDigit (b.toNat / 16), hexDigit (b.toNat % 16)] := rfl
    rw [firstOfName, head, digits, hexPairs_hexDigits]
    rfl

/-! ## The ids of a store -/

def InStore (dirs : List ObjectDir) (packs : List PackFile) (id : ObjectId) : Prop :=
  (∃ dir ∈ dirs, (dir.looseFile id).isSome) ∨ ∃ file ∈ packs, id ∈ file.bucket (firstByte id)

def GoesBy (dirs : List ObjectDir) (packs : List PackFile) (name : Bytes) (id : ObjectId) : Prop :=
  InStore dirs packs id ∧ name.isPrefixOf id.hex

section
variable {dirs : List ObjectDir} {packs : List PackFile} {name : Bytes}

theorem mem_copies_iff (two : 2 ≤ name.length) (hex : Bytes) :
    hex ∈ copies name dirs packs ↔ ∃ id, GoesBy dirs packs name id ∧ id.hex = hex := by
  rw [copies, mem_append, mem_flatMap, mem_flatMap]
  constructor
  · rintro (⟨dir, member, copy⟩ | ⟨file, member, copy⟩)
    · obtain ⟨listed, spelled⟩ := mem_filter.1 copy
      obtain ⟨⟨id, data⟩, here, rfl⟩ := mem_map.1 listed
      have known : (dir.looseFile id).isSome := (mem_keys_iff dir.loose id).1 (mem_map_of_mem here)
      exact ⟨id, ⟨.inl ⟨dir, member, known⟩, spelled⟩, rfl⟩
    · obtain ⟨listed, spelled⟩ := mem_filter.1 copy
      obtain ⟨id, here, rfl⟩ := mem_map.1 listed
      rw [firstOfName_eq two spelled] at here
      exact ⟨id, ⟨.inr ⟨file, member, here⟩, spelled⟩, rfl⟩
  · rintro ⟨id, ⟨⟨dir, member, known⟩ | ⟨file, member, here⟩, spelled⟩, rfl⟩
    · obtain ⟨entry, here, rfl⟩ := mem_map.1 ((mem_keys_iff dir.loose id).2 known)
      exact .inl ⟨dir, member, mem_filter.2 ⟨mem_map.2 ⟨entry, here, rfl⟩, spelled⟩⟩
    · rw [← firstOfName_eq two spelled] at here
      exact .inr ⟨file, member, mem_filter.2 ⟨mem_map.2 ⟨id, here, rfl⟩, spelled⟩⟩

theorem allHex_of_lower (lower : ∀ b ∈ name, (hexValue b).isSome) (long : name ≠ []) : allHex name = true := by
  rw [allHex, Bool.and_eq_true_iff]
  refine ⟨decide_eq_true long, all_eq_true.2 fun b member => ?_⟩
  have digit := lower b member
  rw [hexValue] at digit
  split at digit
  next decimal => simp [decimal]
  split at digit
  next letter => simp [letter]
  · cases digit

theorem odbResolve_eq_some_iff (lower : ∀ b ∈ name, (hexValue b).isSome) (four : 4 ≤ name.length)
    (short : name.length ≤ 39)
    (full : Bytes) : odbResolve dirs packs name = some full ↔ copies name dirs packs = [full] := by
  have hex : allHex name = true := allHex_of_lower lower (ne_nil_of_length_pos (by omega))
  have two : 2 ≤ name.length := by omega
  obtain ⟨loose, looseHere, counts⟩ := foldl_counts (fun _ _ _ counts => looseMatchPrefix_counts two counts) dirs
    Candidates.counts_nil
  obtain ⟨packed, packedHere, counts⟩ := foldl_counts
    (fun _ _ file counts => ⟨packCopies name file, List.Perm.refl _, packMatchPrefix_counts two counts⟩) packs counts
  have search : ¬((!allHex name) = true ∨ name.length > 40) := by
    rintro (other | long)
    · rw [hex] at other
      cases other
    · omega
  rw [odbResolve, if_neg search, if_neg (by omega), if_neg (by omega), counts.eq_one_iff]
  have same : (loose ++ packed).Perm (copies name dirs packs) := looseHere.append packedHere
  exact ⟨fun one => perm_singleton.1 (same.symm.trans (List.Perm.of_eq one)),
    fun one => perm_singleton.1 (same.trans (List.Perm.of_eq one))⟩

/-- The search knows an abbreviated name by the one id that starts with it, unless that id is there twice. -/
theorem resolves_unique_iff (lower : ∀ b ∈ name, (hexValue b).isSome) (four : 4 ≤ name.length)
    (short : name.length ≤ 39) :
    (∀ full, odbResolve dirs packs name = some full ↔
      ∃ id, full = id.hex ∧ GoesBy dirs packs name id ∧ ∀ other, GoesBy dirs packs name other → other = id) ↔
    (copies name dirs packs).length ≤ 1 ∨ ∃ id other, GoesBy dirs packs name id ∧ GoesBy dirs packs name other ∧
      id ≠ other := by
  have two : 2 ≤ name.length := by omega
  have mem := @mem_copies_iff dirs packs name two
  simp only [odbResolve_eq_some_iff lower four short]
  generalize copies name dirs packs = copies at mem
  constructor
  · intro law
    by_contra broken
    obtain ⟨many, alike⟩ := not_or.1 broken
    obtain ⟨first, second, rest, rfl⟩ : ∃ first second rest, copies = first :: second :: rest := by
      match copies, many with
      | [_], many => exact absurd (le_refl 1) many
      | first :: second :: rest, _ => exact ⟨first, second, rest, rfl⟩
    obtain ⟨id, goes, rfl⟩ := (mem first).1 (.head _)
    have one := (law id.hex).2 ⟨id, rfl, goes, fun other also => by
      by_contra apart
      exact alike ⟨other, id, also, goes, apart⟩⟩
    cases one
  · intro held full
    constructor
    · rintro rfl
      obtain ⟨id, goes, rfl⟩ := (mem full).1 (.head _)
      refine ⟨id, rfl, goes, fun other also => ?_⟩
      exact ObjectId.hex_injective (mem_singleton.1 ((mem other.hex).2 ⟨other, also, rfl⟩))
    · rintro ⟨id, rfl, goes, only⟩
      rcases held with few | ⟨a, b, goesA, goesB, apart⟩
      · have here := (mem id.hex).2 ⟨id, goes, rfl⟩
        match copies, few, here with
        | [hex], _, here => rw [mem_singleton.1 here]
      · exact absurd ((only a goesA).trans (only b goesB).symm) apart

end

def oneLoose (b : UInt8) : ObjectDir where
  loose := [(.filled b, ⟨[], 0⟩)]
  packs := []
  temporary := []
  looseDistinct := nodup_singleton _
  packsDistinct := nodup_nil

theorem resolves_unique_sample : 4 ≤ (ascii "abab").length ∧
    ∀ full, odbResolve [oneLoose 0xab, oneLoose 0xcd] [] (ascii "abab") = some full ↔
      ∃ id, full = id.hex ∧ GoesBy [oneLoose 0xab, oneLoose 0xcd] [] (ascii "abab") id ∧
        ∀ other, GoesBy [oneLoose 0xab, oneLoose 0xcd] [] (ascii "abab") other → other = id :=
  ⟨by decide +kernel,
    (resolves_unique_iff (by decide +kernel) (by decide +kernel) (by decide +kernel)).2 (.inl (by decide +kernel))⟩

/-- An object that the repository and its alternate both have is no name's only match. -/
theorem second_copy_ambiguous :
    let dirs := [oneLoose 0xab, oneLoose 0xab]
    odbResolve dirs [] (ascii "abab") = none ∧
      ∃ id, GoesBy dirs [] (ascii "abab") id ∧ ∀ other, GoesBy dirs [] (ascii "abab") other → other = id := by
  refine ⟨by decide +kernel, .filled 0xab, ⟨.inl ⟨oneLoose 0xab, .head _, ?_⟩, ?_⟩, ?_⟩
  · decide +kernel
  · decide +kernel
  · rintro other ⟨⟨dir, member, known⟩ | ⟨file, member, -⟩, -⟩
    · have one : dir = oneLoose 0xab := by simpa using member
      have listed := (mem_keys_iff dir.loose other).2 known
      rw [one] at listed
      exact mem_singleton.1 listed
    · cases member

end BashOs.Git

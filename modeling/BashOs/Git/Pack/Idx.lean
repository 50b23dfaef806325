import Mathlib.Data.List.Sort
import Mathlib.Data.List.TakeWhile
import Mathlib.Data.Nat.Bitwise
import BashOs.Git.Store.Links

/-!
Version 2 of a pack's index: `writeIdxV2` lays the tables out and `lookupOffset` searches them.
-/

namespace BashOs.Git.Pack
open BashOs.Lib List Option

structure IdxEntry where
  sha : ObjectId
  off : Nat
  crc : UInt32
deriving DecidableEq

def firstByte (sha : ObjectId) : Nat := (sha.bytes.headD 0).toNat

/-! ## Writing -/

def idxEntryLE (a b : IdxEntry) : Prop := a.sha.bytes ≤ b.sha.bytes

instance : DecidableRel idxEntryLE := fun a b => inferInstanceAs (Decidable (a.sha.bytes ≤ b.sha.bytes))

/-- The fan-out from slot `b` on; `rest` are the entries the slots before it have not counted. -/
def fanoutFrom (b pos : Nat) (rest : List IdxEntry) : Nat → List Nat
  | 0 => []
  | slots + 1 =>
    let pos := pos + (rest.takeWhile (fun e => firstByte e.sha ≤ b)).length
    pos :: fanoutFrom (b + 1) pos (rest.dropWhile (fun e => firstByte e.sha ≤ b)) slots

/-- The words of the offset table and the offsets too long for it, `n64` of which are already placed. -/
def splitOffsets : List IdxEntry → Nat → Option (List Nat × List Nat)
  | [], _ => some ([], [])
  | e :: rest, n64 =>
    if e.off ≥ 0x80000000 then
      if n64 > 0x7fffffff then none
      else (splitOffsets rest (n64 + 1)).map fun (words, long) => ((0x80000000 ||| n64) :: words, e.off :: long)
    else (splitOffsets rest n64).map fun (words, long) => (e.off :: words, long)

/-- `"\377tOc"` and the version. -/
def idxHead : Bytes := [0xff, 0x74, 0x4f, 0x63] ++ be 4 2

def writeIdxV2 (prim : Primitives) (ents : List IdxEntry) (packSha : ObjectId) : Option Bytes := do
  if ents.length > 2 ^ 32 - 1 then none
  else
    let ents := ents.insertionSort idxEntryLE
    let (words, long) ← splitOffsets ents 0
    let idx ← bufAppend [] (idxHead ++ ((fanoutFrom 0 0 ents 256).flatMap (be 4) ++
      (ents.flatMap (fun e => e.sha.bytes) ++ (ents.flatMap (fun e => be 4 e.crc.toNat) ++
        (words.flatMap (be 4) ++ (long.flatMap (be 8) ++ packSha.bytes))))))
    if prim.attacked idx then none else bufAppend idx (prim.digest idx).bytes

/-! ## Looking up -/

def notFound : Nat := 2 ^ 64 - 1

/-- The first of `count` names from number `i` on that is `sha`. -/
def searchNames (idx : Bytes) (sha : ObjectId) : Nat → Nat → Option Nat
  | 0, _ => none
  | count + 1, i =>
    if (idx.drop (1032 + i * 20)).take 20 = sha.bytes then some i else searchNames idx sha count (i + 1)

-- The multiplications are done in 64 bits, where a 32-bit count of objects cannot overflow them.
def lookupOffset (idx : Bytes) (sha : ObjectId) : Nat :=
  if idx.length < 1032 then notFound
  else
    let hi := firstByte sha
    let lo := if hi = 0 then 0 else wordAt 4 idx (8 + (hi - 1) * 4)
    let up := wordAt 4 idx (8 + hi * 4)
    let total := wordAt 4 idx (8 + 255 * 4)
    if lo > up ∨ up > total then notFound
    else if idx.length < 1032 + total * 28 then notFound
    else
      match searchNames idx sha (up - lo) lo with
      | none => notFound
      | some i =>
        let ofs := 1032 + total * 24
        let v := wordAt 4 idx (ofs + i * 4)
        if v &&& 0x80000000 ≠ 0 then
          let idx64 := v &&& 0x7fffffff
          let ofs64 := ofs + total * 4
          if (idx64 + 1) * 8 > idx.length - ofs64 then notFound else wordAt 8 idx (ofs64 + idx64 * 8)
        else v

/-! ## The fan-out of sorted entries -/

variable {i : Nat} {words long : List Nat} {sorted : List IdxEntry}

section Fanout

theorem takeWhile_split {α : Type} {p q : α → Bool} (weaker : ∀ x, p x = true → q x = true) (xs : List α) :
    xs.takeWhile q = xs.takeWhile p ++ (xs.dropWhile p).takeWhile q := by
  induction xs with
  | nil => rfl
  | cons x xs ih =>
    by_cases h : p x = true
    · simp [h, weaker x h, ih]
    · simp [h]

theorem lt_takeWhile_iff {α : Type} {key : α → Nat} {xs : List α} (sorted : xs.Pairwise (fun a b => key a ≤ key b))
    (bound : Nat) {x : α} (found : xs[i]? = some x) :
    i < (xs.takeWhile (fun a => decide (key a ≤ bound))).length ↔ key x ≤ bound := by
  induction xs generalizing i with
  | nil => simp at found
  | cons y ys ih =>
    obtain ⟨first, rest⟩ := pairwise_cons.1 sorted
    by_cases low : key y ≤ bound
    · cases i with
      | zero =>
        simp only [getElem?_cons_zero, Option.some.injEq] at found
        simp [low, ← found]
      | succ i => simpa [low] using ih rest found
    have above : bound < key x := by
      cases i with
      | zero =>
        simp only [getElem?_cons_zero, Option.some.injEq] at found
        rw [← found]
        omega
      | succ i =>
        have := first x (mem_of_getElem? found)
        omega
    simp [low, above]

/-- The entries whose first byte is at most `b` are counted in slot `b`. -/
def upTo (ents : List IdxEntry) (b : Nat) : Nat := (ents.takeWhile (fun e => decide (firstByte e.sha ≤ b))).length

theorem firstByte_le_mono {b c : Nat} (le : b ≤ c) (e : IdxEntry) (low : decide (firstByte e.sha ≤ b) = true) :
    decide (firstByte e.sha ≤ c) = true := by
  rw [decide_eq_true_eq] at low ⊢
  exact low.trans le

theorem fanoutFrom_get (ents : List IdxEntry) (slots b k : Nat) (inside : k < slots) (pos : Nat) (rest : List IdxEntry)
    (counted : ∀ c, b ≤ c → pos + (rest.takeWhile (fun e => decide (firstByte e.sha ≤ c))).length = upTo ents c) :
    (fanoutFrom b pos rest slots)[k]? = some (upTo ents (b + k)) := by
  induction slots generalizing b k pos rest with
  | zero => omega
  | succ slots ih =>
    rw [fanoutFrom]
    cases k with
    | zero => simp [counted b (le_refl b)]
    | succ k =>
      rw [getElem?_cons_succ, ih (b + 1) k (by omega), add_right_comm, add_assoc]
      intro c above
      rw [← counted c (by omega), takeWhile_split (firstByte_le_mono (by omega : b ≤ c)) rest, length_append]
      omega

theorem fanoutFrom_length (b pos : Nat) (rest : List IdxEntry) (slots : Nat) :
    (fanoutFrom b pos rest slots).length = slots := by
  induction slots generalizing b pos rest with
  | zero => rfl
  | succ slots ih => rw [fanoutFrom, length_cons, ih]

section
variable (ents : List IdxEntry)
include ents

theorem fanout_get (b : Nat) (inside : b < 256) : (fanoutFrom 0 0 ents 256)[b]? = some (upTo ents b) := by
  have got := fanoutFrom_get ents 256 0 b inside 0 ents (fun c _ => by rw [zero_add]; rfl)
  rwa [zero_add] at got

theorem upTo_mono {b c : Nat} (le : b ≤ c) : upTo ents b ≤ upTo ents c := by
  unfold upTo
  rw [takeWhile_split (firstByte_le_mono le) ents, length_append]
  omega

theorem upTo_le (b : Nat) : upTo ents b ≤ ents.length := (takeWhile_sublist _).length_le

end

theorem firstByte_lt (sha : ObjectId) : firstByte sha < 256 := UInt8.toNat_lt _

theorem upTo_last (ents : List IdxEntry) : upTo ents 255 = ents.length := by
  unfold upTo
  rw [takeWhile_eq_self_iff.2]
  intro e _
  have := firstByte_lt e.sha
  simp
  omega

end Fanout

/-! ## Where the search looks -/

section Search

theorem searchNames_eq (idx : Bytes) (sha : ObjectId) (count i : Nat) : searchNames idx sha count i =
    (List.range' i count).find? fun j => (idx.drop (1032 + j * 20)).take 20 = sha.bytes := by
  induction count generalizing i with
  | zero => rfl
  | succ count ih =>
    rw [searchNames, List.range'_succ, List.find?_cons, ih]
    split
    next here => rw [decide_eq_true here]
    next elsewhere => rw [decide_eq_false elsewhere]

theorem searchNames_some {idx : Bytes} {sha : ObjectId} {count j : Nat} (found : searchNames idx sha count i = some j) :
    i ≤ j ∧ j < i + count ∧ (idx.drop (1032 + j * 20)).take 20 = sha.bytes := by
  rw [searchNames_eq] at found
  obtain ⟨low, high⟩ := List.mem_range'_1.1 (List.mem_of_find?_eq_some found)
  exact ⟨low, high, by simpa using List.find?_some found⟩

theorem splitOffsets_get {ents : List IdxEntry} {n64 : Nat} (made : splitOffsets ents n64 = some (words, long)) :
    words.length = ents.length ∧ ∀ (i : Nat) (e : IdxEntry), ents[i]? = some e →
      (e.off < 0x80000000 ∧ words[i]? = some e.off) ∨
      (∃ k, n64 + k ≤ 0x7fffffff ∧ words[i]? = some (0x80000000 ||| (n64 + k)) ∧ long[k]? = some e.off) := by
  induction ents generalizing n64 words long with
  | nil =>
    cases made
    simp
  | cons first rest ih =>
    rw [splitOffsets] at made
    split at made
    next above =>
      split at made
      · cases made
      obtain ⟨⟨words, long⟩, madeRest, placed⟩ := map_eq_some_iff.1 made
      cases placed
      obtain ⟨length, each⟩ := ih madeRest
      refine ⟨by simp [length], ?_⟩
      intro i e found
      cases i with
      | zero =>
        cases found
        exact .inr ⟨0, by omega, by simp, by simp⟩
      | succ i =>
        rcases each i e found with ⟨low, word⟩ | ⟨k, bound, word, there⟩
        · exact .inl ⟨low, word⟩
        · exact .inr ⟨k + 1, by omega, by simpa [add_assoc, add_comm 1 k] using word, there⟩
    next below =>
      obtain ⟨⟨words, long⟩, madeRest, placed⟩ := map_eq_some_iff.1 made
      cases placed
      obtain ⟨length, each⟩ := ih madeRest
      refine ⟨by simp [length], ?_⟩
      intro i e found
      cases i with
      | zero =>
        cases found
        exact .inl ⟨by omega, by simp⟩
      | succ i =>
        rcases each i e found with ⟨low, word⟩ | ⟨k, bound, word, there⟩
        · exact .inl ⟨low, word⟩
        · exact .inr ⟨k, bound, word, there⟩

theorem long_word {n : Nat} (small : n ≤ 0x7fffffff) :
    (0x80000000 ||| n) &&& 0x80000000 ≠ 0 ∧ (0x80000000 ||| n) &&& 0x7fffffff = n ∧ 0x80000000 ||| n < 256 ^ 4 := by
  have sum : 0x80000000 ||| n = 0x80000000 + n := (Nat.two_pow_add_eq_or_of_lt (i := 31) (by omega) 1).symm
  refine ⟨?_, ?_, by omega⟩
  · have bit : (0x80000000 ||| n).testBit 31 = true := by
      simp [show (0x80000000 : Nat).testBit 31 = true from by decide]
    have masked := Nat.and_two_pow (0x80000000 ||| n) 31
    rw [bit] at masked
    exact fun zero => absurd (masked.symm.trans zero) (by decide)
  · rw [sum]
    have low : (0x80000000 + n) &&& 0x7fffffff = (0x80000000 + n) % 2 ^ 31 := Nat.and_two_pow_sub_one_eq_mod _ 31
    omega

theorem short_word {n : Nat} (small : n < 0x80000000) : n &&& 0x80000000 = 0 := by
  have := Nat.and_two_pow n 31
  simpa [Nat.testBit_lt_two_pow (show n < 2 ^ 31 by omega)] using this

end Search

/-! ## The written index answers for its entries -/

section Written
variable {prim : Primitives} {ents : List IdxEntry} {packSha : ObjectId} {idx : Bytes}

structure Tables (idx : Bytes) (sorted : List IdxEntry) (words long : List Nat) : Prop where
  few : sorted.length < 2 ^ 32
  split : splitOffsets sorted 0 = some (words, long)
  size : 1032 + sorted.length * 28 + long.length * 8 ≤ idx.length
  fan : ∀ b, b < 256 → wordAt 4 idx (8 + b * 4) = upTo sorted b
  name : ∀ (i : Nat) (e : IdxEntry), sorted[i]? = some e → (idx.drop (1032 + i * 20)).take 20 = e.sha.bytes
  word : ∀ i v : Nat, words[i]? = some v → v < 256 ^ 4 → wordAt 4 idx (1032 + sorted.length * 24 + i * 4) = v
  longWord : ∀ i v : Nat, long[i]? = some v → v < 256 ^ 8 → wordAt 8 idx (1032 + sorted.length * 28 + i * 8) = v

theorem tables_of_layout (tail : Bytes) (few : sorted.length < 2 ^ 32)
    (split : splitOffsets sorted 0 = some (words, long))
    (layout : idx = idxHead ++ ((fanoutFrom 0 0 sorted 256).flatMap (be 4) ++ (sorted.flatMap (fun e => e.sha.bytes)
      ++ (sorted.flatMap (fun e => be 4 e.crc.toNat) ++ (words.flatMap (be 4) ++ (long.flatMap (be 8) ++ tail)))))) :
    Tables idx sorted words long := by
  have head : idxHead.length = 8 := rfl
  have fanLength := table_length (be_length 4) (fanoutFrom 0 0 sorted 256)
  rw [fanoutFrom_length] at fanLength
  have nameLength := table_length (fun e : IdxEntry => e.sha.width) sorted
  have crcLength := table_length (fun e : IdxEntry => be_length 4 e.crc.toNat) sorted
  have wordLength := table_length (be_length 4) words
  rw [(splitOffsets_get split).1] at wordLength
  have longLength := table_length (be_length 8) long
  refine ⟨few, split, ?_, ?_, ?_, ?_, ?_⟩
  · rw [layout]
    simp only [length_append]
    omega
  · intro b inside
    exact wordAt_table layout head (fanout_get sorted b inside) (lt_of_le_of_lt (upTo_le sorted b) few)
  · intro i e found
    rw [← append_assoc] at layout
    refine slice_table (fun e : IdxEntry => e.sha.width) layout ?_ found
    simp [head, fanLength]
  · intro i v found fits
    rw [← append_assoc, ← append_assoc, ← append_assoc] at layout
    refine wordAt_table layout ?_ found fits
    simp only [length_append]
    omega
  · intro i v found fits
    rw [← append_assoc, ← append_assoc, ← append_assoc, ← append_assoc] at layout
    refine wordAt_table layout ?_ found fits
    simp only [length_append]
    omega

theorem writeIdxV2_tables (written : writeIdxV2 prim ents packSha = some idx) :
    ∃ words long, Tables idx (ents.insertionSort idxEntryLE) words long := by
  unfold writeIdxV2 at written
  split at written
  · cases written
  obtain ⟨⟨words, long⟩, split, rest⟩ := bind_eq_some_iff.1 written
  obtain ⟨body, laid, sealed⟩ := bind_eq_some_iff.1 rest
  obtain ⟨rfl, -⟩ := bufAppend_eq_some laid
  split at sealed
  · cases sealed
  obtain ⟨rfl, -⟩ := bufAppend_eq_some sealed
  generalize (prim.digest _).bytes = trailer
  refine ⟨words, long, tables_of_layout (packSha.bytes ++ trailer) ?_ split ?_⟩
  · rw [length_insertionSort]
    omega
  · simp

theorem Tables.search_range (tables : Tables idx sorted words long) (sha : ObjectId) : lookupOffset idx sha =
      let lo := if firstByte sha = 0 then 0 else upTo sorted (firstByte sha - 1)
      match searchNames idx sha (upTo sorted (firstByte sha) - lo) lo with
      | none => notFound
      | some i =>
        let v := wordAt 4 idx (1032 + sorted.length * 24 + i * 4)
        if v &&& 0x80000000 ≠ 0 then
          if ((v &&& 0x7fffffff) + 1) * 8 > idx.length - (1032 + sorted.length * 28) then notFound
          else wordAt 8 idx (1032 + sorted.length * 28 + (v &&& 0x7fffffff) * 8)
        else v := by
  have first := firstByte_lt sha
  have low : (if firstByte sha = 0 then 0 else wordAt 4 idx (8 + (firstByte sha - 1) * 4))
      = if firstByte sha = 0 then 0 else upTo sorted (firstByte sha - 1) := by
    rw [tables.fan _ (by omega)]
  have ordered : ¬((if firstByte sha = 0 then 0 else upTo sorted (firstByte sha - 1)) > upTo sorted (firstByte sha) ∨
      upTo sorted (firstByte sha) > sorted.length) := by
    have := upTo_le sorted (firstByte sha)
    have := upTo_mono sorted (Nat.sub_le (firstByte sha) 1)
    split <;> omega
  have size := tables.size
  have twice : 1032 + sorted.length * 24 + sorted.length * 4 = 1032 + sorted.length * 28 := by omega
  unfold lookupOffset
  simp [low, tables.fan (firstByte sha) first, tables.fan 255 (by decide), upTo_last, ordered, twice,
    show ¬idx.length < 1032 by omega, show ¬idx.length < 1032 + sorted.length * 28 by omega]

instance : Std.Total idxEntryLE := ⟨fun a b => @Std.le_total Bytes _ _ a.sha.bytes b.sha.bytes⟩

instance : IsTrans IdxEntry idxEntryLE := ⟨fun _ _ _ one two => @Std.le_trans Bytes _ _ _ _ _ one two⟩

theorem firstByte_mono {a b : IdxEntry} (le : idxEntryLE a b) : firstByte a.sha ≤ firstByte b.sha := by
  obtain ⟨⟨left, width⟩, _, _⟩ := a
  obtain ⟨⟨right, width'⟩, _, _⟩ := b
  cases left with
  | nil => cases width
  | cons x xs =>
    cases right with
    | nil => cases width'
    | cons y ys =>
      simp only [idxEntryLE, cons_le_cons_iff] at le
      rcases le with less | ⟨rfl, -⟩
      · exact le_of_lt (UInt8.lt_iff_toNat_lt.1 less)
      · exact le_rfl

section
variable (written : writeIdxV2 prim ents packSha = some idx)
include written

theorem lookupOffset_listed (distinct : (ents.map (fun e => e.sha)).Nodup) (wide : ∀ e ∈ ents, e.off < 2 ^ 64)
    {e : IdxEntry} (listed : e ∈ ents) : lookupOffset idx e.sha = e.off := by
  obtain ⟨words, long, tables⟩ := writeIdxV2_tables written
  have byFirst := (pairwise_insertionSort idxEntryLE ents).imp firstByte_mono
  have perm := perm_insertionSort idxEntryLE ents
  generalize ents.insertionSort idxEntryLE = sorted at tables byFirst perm
  obtain ⟨i, found⟩ := mem_iff_getElem?.1 (perm.mem_iff.2 listed)
  have high : i < upTo sorted (firstByte e.sha) := (lt_takeWhile_iff byFirst _ found).2 (Nat.le_refl _)
  have low : (if firstByte e.sha = 0 then 0 else upTo sorted (firstByte e.sha - 1)) ≤ i := by
    split
    · exact Nat.zero_le i
    · rw [← Nat.not_lt]
      intro counted
      have := (lt_takeWhile_iff byFirst (firstByte e.sha - 1) found).1 counted
      omega
  rw [tables.search_range]
  generalize (if firstByte e.sha = 0 then 0 else upTo sorted (firstByte e.sha - 1)) = lo at low
  cases search : searchNames idx e.sha (upTo sorted (firstByte e.sha) - lo) lo with
  | none =>
    rw [searchNames_eq, List.find?_eq_none] at search
    exact absurd (decide_eq_true (tables.name i e found)) (search i (List.mem_range'_1.2 ⟨low, by omega⟩))
  | some j =>
    obtain ⟨-, upper, named⟩ := searchNames_some search
    have bounded := upTo_le sorted (firstByte e.sha)
    have same : j = i := by
      have inside' : j < sorted.length := by omega
      rw [tables.name j sorted[j] (List.getElem?_eq_getElem inside')] at named
      have nodup := (perm.map (fun e => e.sha)).nodup_iff.2 distinct
      refine (List.getElem?_inj (by simpa using inside') nodup).1 ?_
      rw [List.getElem?_map, List.getElem?_map, found, List.getElem?_eq_getElem inside']
      exact congrArg some (ObjectId.ext named)
    simp only [search, same]
    rcases (splitOffsets_get tables.split).2 i e found with ⟨short, word⟩ | ⟨k, few, word, there⟩
    · rw [tables.word i e.off word (by omega), if_neg (by simp [short_word short])]
    rw [Nat.zero_add] at few word
    obtain ⟨marked, number, fits⟩ := long_word few
    have room : k < long.length := (List.getElem?_eq_some_iff.1 there).1
    have size := tables.size
    rw [tables.word i _ word fits, if_pos marked, number, if_neg (by omega),
      tables.longWord k e.off there (wide e listed)]

theorem lookupOffset_unlisted (sha : ObjectId)
    (unlisted : ∀ e ∈ ents, e.sha ≠ sha) : lookupOffset idx sha = notFound := by
  obtain ⟨words, long, tables⟩ := writeIdxV2_tables written
  have perm := perm_insertionSort idxEntryLE ents
  generalize ents.insertionSort idxEntryLE = sorted at tables perm
  rw [tables.search_range]
  generalize (if firstByte sha = 0 then 0 else upTo sorted (firstByte sha - 1)) = lo
  cases search : searchNames idx sha (upTo sorted (firstByte sha) - lo) lo with
  | none => simp only [search]
  | some j =>
    obtain ⟨low, upper, named⟩ := searchNames_some search
    have bounded := upTo_le sorted (firstByte sha)
    have inside : j < sorted.length := by omega
    have here := tables.name j sorted[j] (getElem?_eq_getElem inside)
    rw [here] at named
    exact absurd (ObjectId.ext named) (unlisted _ (perm.mem_iff.1 (getElem_mem inside)))

end

end Written

end BashOs.Git.Pack

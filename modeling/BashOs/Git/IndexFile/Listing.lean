import BashOs.Git.IndexFile.Views

/-!
The reader of an index that lists what git would list: no checksum, no padding and no path is looked at, and the file
is read as it is mapped, with zeros to the end of its last page. `room` is what is left of the mapping.
-/

namespace BashOs.Git.IndexFile
open BashOs.Lib List Option DiskEntry

/-! ## Names of version 4 -/

/-- The bytes of a varint after one that has another following. An overflow gives zero and goes back to the start. -/
def varintRest (start : Bytes) (value : Nat) (room : Bytes) : Option (Nat × Bytes) :=
  if 2 ^ 57 - 1 ≤ value then some (0, start)
  else
    match room with
    | [] => none
    | c :: room =>
      let value := (value + 1) <<< 7 + (c &&& 0x7f).toNat
      if c &&& 0x80 = 0 then some (value, room) else varintRest start value room

def decodeVarint : Bytes → Option (Nat × Bytes)
  | [] => none
  | c :: room =>
    if c &&& 0x80 = 0 then some ((c &&& 0x7f).toNat, room) else varintRest (c :: room) (c &&& 0x7f).toNat room

/-- Why a listing ends early: what was read is no index, or a name of version 4 is shorter than what it shares with the
name before it. -/
inductive Stop where
  | bad
  | overlapping
deriving DecidableEq

structure Previous where
  path : CString
  length : Nat

/-- An entry, what the next one is to know of it, and what is left; `none` is the end of the file. -/
structure Turn where
  entry : DiskEntry
  previous : Previous
  room : Option Bytes

/-- The part of a turn of `bgit_index_read_listing` that is for version 4. -/
def listName4 (last : Bool) (previous : Option Previous) (flags : Nat) (entry : CString → DiskEntry) (room : Bytes) :
    Except Stop Turn :=
  match decodeVarint room with
  | none => .error .bad
  | some (strip, room) =>
    let shared := (previous.map fun name => name.length - strip).getD 0
    let before := (previous.map fun name => name.path.bytes).getD []
    -- a name that shares more than there is of the one before is that one again
    let path (window : Bytes) : CString :=
      match previous with
      | some name =>
        if name.path.bytes.length < shared then name.path else CString.ofBytes (before.take shared ++ window)
      | none => CString.ofBytes window
    let turn (window : Bytes) (length : Nat) (room : Option Bytes) : Except Stop Turn :=
      .ok ⟨entry (path window), ⟨path window, length⟩, room⟩
    let old := (previous.map fun name => name.length).getD 0
    if previous.isSome ∧ old < strip then .error .bad
    else if flags &&& 0xfff = 0xfff then
      match findNul room with
      | none => if last then turn room old none else .error .bad
      | some nul => turn (room.take nul) (shared + nul) (some (room.drop (nul + 1)))
    else if (flags &&& 0xfff) + 1 < shared then .error .overlapping
    else
      let span := (flags &&& 0xfff) + 1 - shared
      if room.length < span then if last then turn room (flags &&& 0xfff) none else .error .bad
      else turn (room.take span) (flags &&& 0xfff) (some (room.drop span))

/-- The part that is for versions 2 and 3. `start` is where the name starts. -/
def listName (last : Bool) (previous : Option Previous) (flags start : Nat) (entry : CString → DiskEntry)
    (room : Bytes) :
    Except Stop Turn :=
  let rest := room.drop start
  let turn (path : CString) (room : Option Bytes) : Except Stop Turn :=
    .ok ⟨entry path, ⟨path, (previous.map fun name => name.length).getD 0⟩, room⟩
  let length := if flags &&& 0xfff = 0xfff then findNul rest else some (flags &&& 0xfff)
  match length with
  | none => if last then turn (CString.ofBytes rest) none else .error .bad
  | some length =>
    if rest.length < length + 1 then if last then turn (CString.ofBytes rest) none else .error .bad
    else
      let path := CString.ofBytes (rest.take (length + 1))
      let padded := (start + length + 1 + 7) / 8 * 8
      if room.length < padded then if last then turn path none else .error .bad
      else turn path (some (room.drop padded))

/-- One turn of `bgit_index_read_listing`. -/
def listEntry (version : Nat) (last : Bool) (previous : Option Previous) (room : Bytes) : Except Stop Turn :=
  if long : 62 ≤ room.length then
    let flags := wordAt 2 room 60
    let extended := flags &&& 0x4000 ≠ 0
    let start := if extended then 64 else 62
    let flags2 := if extended then wordAt 2 room 62 else 0
    if room.length < start then .error .bad
    else if flags2 &&& 0x9fff ≠ 0 then .error .bad
    else
      let entry (path : CString) := readFixed room long (UInt16.ofNat flags2) path
      if version = 4 then listName4 last previous flags entry (room.drop start)
      else listName last previous flags start entry room
  else .error .bad

def listEntries (version : Nat) : Nat → Option Previous → Bytes → Except Stop (List DiskEntry × Option Bytes)
  | 0, _, room => .ok ([], some room)
  | count + 1, previous, room =>
    match listEntry version (count = 0) previous room with
    | .error stop => .error stop
    | .ok turn =>
      match turn.room with
      | none => .ok ([turn.entry], none)
      | some room =>
        match listEntries version count (some turn.previous) room with
        | .error stop => .error stop
        | .ok (entries, room) => .ok (turn.entry :: entries, room)

section
variable (page : Nat) (overlap : Bytes → Nat → Option (List DiskEntry × Nat)) {version : Nat} {room rest tail : Bytes}
  {view : View} {last : Bool} {previous : Option Previous}

def mapped (file : Bytes) : Bytes := file ++ List.replicate ((file.length + page - 1) / page * page - file.length) 0

/-- `bgit_index_read_listing`: the entries, and where the extensions start. `overlap` is `bgit_v4_overlap_listing`,
which follows what glibc's `memcpy` makes of overlapping names of version 4. -/
def readListing (file : Bytes) : Option (List DiskEntry × Nat) :=
  if file.length < 32 then none
  else if file.take 4 ≠ ascii "DIRC" then none
  else
    let version := wordAt 4 file 4
    let count := wordAt 4 file 8
    if version < 2 ∨ 4 < version then none
    else if ((mapped page file).length - 12) / 64 < count then none
    else
      match listEntries version count none ((mapped page file).drop 12) with
      | .error .bad => none
      | .error .overlapping => overlap (mapped page file) count
      | .ok (entries, none) => some (entries, file.length)
      | .ok (entries, some room) => some (entries, (mapped page file).length - room.length)

/-! ## Where both readers are at the same place -/

theorem wordAt_append {n off : Nat} (inside : off + n ≤ room.length) :
    wordAt n (room ++ tail) off = wordAt n room off := by
  rw [wordAt, wordAt, drop_append_of_le_length (by omega), take_append_of_le_length]
  rw [length_drop]
  omega

theorem readFixed_append (long : 62 ≤ room.length) (long' : 62 ≤ (room ++ tail).length) (flags2 : UInt16)
    (path : CString) :
    readFixed (room ++ tail) long' flags2 path = readFixed room long flags2 path := by
  have id : ((room ++ tail).drop 40).take 20 = (room.drop 40).take 20 := by
    rw [drop_append_of_le_length (by omega), take_append_of_le_length]
    rw [length_drop]
    omega
  have word {n off : Nat} (inside : off + n ≤ 62) : wordAt n (room ++ tail) off = wordAt n room off :=
    wordAt_append (le_trans inside long)
  simp (disch := omega) only [readFixed, id, word]

theorem findNul_append {bytes : Bytes} (tail : Bytes) {nul : Nat} (found : findNul bytes = some nul) :
    findNul (bytes ++ tail) = some nul ∧ nul < bytes.length ∧
      CString.ofBytes ((bytes ++ tail).take (nul + 1)) = CString.ofBytes bytes := by
  unfold findNul at found
  split at found
  next member =>
    cases found
    obtain ⟨front, back, rfl, absent⟩ := eq_append_cons_of_mem member
    obtain ⟨stop, -⟩ := takeWhile_append_stop front back absent
    obtain ⟨stop', -⟩ := takeWhile_append_stop front (back ++ tail) absent
    obtain ⟨cut, -⟩ := takeWhile_append_stop front [] absent
    have split : front ++ 0 :: back ++ tail = front ++ 0 :: (back ++ tail) := by simp
    have first : (front ++ 0 :: (back ++ tail)).take (front.length + 1) = front ++ [0] := by
      rw [take_length_add_append]
      rfl
    rw [stop, split]
    refine ⟨?_, by simp, ?_⟩
    · rw [findNul, if_pos (by simp), stop']
    · rw [first]
      unfold CString.ofBytes
      simp only [stop, cut]
  · cases found

theorem pathExtent_facts {start length : Nat} (found : pathExtent version room = some (start, length)) :
    start = (if 3 ≤ version ∧ wordAt 2 room 60 &&& 0x4000 ≠ 0 then 64 else 62) ∧ start ≤ room.length ∧
      findNul (room.drop start) = some length ∧
      length = if wordAt 2 room 60 &&& 0xfff = 0xfff then length else wordAt 2 room 60 &&& 0xfff := by
  unfold pathExtent at found
  split at found
  · cases found
  dsimp only at found
  generalize (if 3 ≤ version ∧ wordAt 2 room 60 &&& 0x4000 ≠ 0 then 64 else 62) = first at found ⊢
  split at found
  · cases found
  rename_i fits
  obtain ⟨nul, here, found⟩ := bind_eq_some_iff.1 found
  generalize extent : (if wordAt 2 room 60 &&& 0xfff = 0xfff then nul else wordAt 2 room 60 &&& 0xfff) = size at found
  split at found
  · cases found
  rename_i same
  rw [not_not] at same
  subst same
  cases found
  exact ⟨rfl, not_lt.1 fits, here, extent.symm⟩

theorem padded_eq (length : Nat) : (length + 1 + 7) / 8 * 8 = length + padding length := by
  unfold padding
  omega

theorem listName_extent {entry : CString → DiskEntry} {flags start length : Nat} (fits : start ≤ room.length)
    (nul : findNul (room.drop start) = some length)
    (size : length = if flags &&& 0xfff = 0xfff then length else flags &&& 0xfff)
    (roomy : ¬ room.length - (start + length) < padding (start + length)) :
    listName last previous flags start entry (room ++ tail) = .ok ⟨entry (CString.ofBytes (room.drop start)),
        ⟨CString.ofBytes (room.drop start), (previous.map fun name => name.length).getD 0⟩,
        some (room.drop (start + length + padding (start + length)) ++ tail)⟩ := by
  obtain ⟨far, short, path⟩ := findNul_append tail nul
  have inner : (room ++ tail).drop start = room.drop start ++ tail := drop_append_of_le_length fits
  have known : (if flags &&& 0xfff = 0xfff then findNul (room.drop start ++ tail) else some (flags &&& 0xfff)) =
      some length := by
    split at size
    next full => rw [if_pos full, far]
    next other => rw [if_neg other, size]
  have name : ¬ (room.drop start ++ tail).length < length + 1 := by
    rw [length_append]
    omega
  rw [length_drop] at short
  have whole : ¬ (room ++ tail).length < start + length + padding (start + length) := by
    rw [length_append]
    omega
  have next : (room ++ tail).drop (start + length + padding (start + length)) =
      room.drop (start + length + padding (start + length)) ++ tail := drop_append_of_le_length (by omega)
  simp only [listName, inner, known, name, if_false, path, padded_eq, whole, next]

theorem decode_eq {path : CString} {long : 62 ≤ room.length} (plain : 3 ≤ version ∨ wordAt 2 room 60 &&& 0x4000 = 0) :
    (⟨room, path, long⟩ : View).decode version =
      readFixed room long (UInt16.ofNat (if wordAt 2 room 60 &&& 0x4000 ≠ 0 then wordAt 2 room 62 else 0)) path := by
  unfold View.decode
  obtain three | none := plain
  · split <;> simp_all
  · simp [none]

/-- The readers take an entry alike when they agree on whether a second word of flags follows. The strict one lets
flags pass in that word which the other does not know. -/
theorem listEntry_of_readView (strict : readView version room = some (view, rest)) (three : version ≠ 4)
    (plain : 3 ≤ version ∨ wordAt 2 room 60 &&& 0x4000 = 0) :
    listEntry version last previous (room ++ tail) = .error .bad ∨
      ∃ before, listEntry version last previous (room ++ tail) =
        .ok ⟨view.decode version, before, some (rest ++ tail)⟩ := by
  unfold readView at strict
  split at strict
  next long =>
    obtain ⟨⟨start, length⟩, extent, strict⟩ := bind_eq_some_iff.1 strict
    obtain ⟨begins, fits, nul, size⟩ := pathExtent_facts extent
    dsimp only at strict
    split at strict
    · cases strict
    split at strict
    · cases strict
    rename_i roomy
    split at strict
    · cases strict
    cases strict
    have word : wordAt 2 (room ++ tail) 60 = wordAt 2 room 60 := wordAt_append long
    have far : 62 ≤ (room ++ tail).length := by
      rw [length_append]
      omega
    -- the two agree on where the path starts
    have begins' : (if wordAt 2 room 60 &&& 0x4000 ≠ 0 then 64 else 62) = start := by
      rw [begins]
      obtain three | none := plain
      · simp [three]
      · simp [none]
    have fits' : ¬ (room ++ tail).length < start := by
      rw [length_append]
      omega
    have second : (if wordAt 2 room 60 &&& 0x4000 ≠ 0 then wordAt 2 (room ++ tail) 62 else 0) =
        if wordAt 2 room 60 &&& 0x4000 ≠ 0 then wordAt 2 room 62 else 0 := by
      split
      next bit =>
        rw [if_pos bit] at begins'
        exact wordAt_append (by omega)
      · rfl
    rw [decode_eq plain]
    unfold listEntry
    rw [dif_pos far]
    dsimp only
    rw [word, begins', if_neg fits', second]
    generalize (if wordAt 2 room 60 &&& 0x4000 ≠ 0 then wordAt 2 room 62 else 0) = flags2
    split
    · exact .inl rfl
    rw [listName_extent fits nul size roomy, readFixed_append long far]
    exact .inr ⟨_, rfl⟩
  · cases strict

/-- The flags of the entries of a file, found as `bgit_index_after_entries` goes from one entry to the next. -/
def entryFlags (version : Nat) : Nat → Bytes → List Nat
  | 0, _ => []
  | count + 1, room => wordAt 2 room 60 :: ((skipEntry version room).map (entryFlags version count)).getD []

theorem skipEntry_of_readView (strict : readView version room = some (view, rest)) :
    skipEntry version room = some rest := by
  unfold readView at strict
  split at strict
  · obtain ⟨⟨start, length⟩, extent, strict⟩ := bind_eq_some_iff.1 strict
    dsimp only at strict
    split at strict
    · cases strict
    split at strict
    · cases strict
    rename_i roomy
    split at strict
    · cases strict
    cases strict
    rw [skipEntry, extent]
    exact if_neg roomy
  · cases strict

theorem listEntries_of_readEntries {count : Nat} {views : List View}
    (strict : readEntries version count room = some (views, rest))
    (three : version ≠ 4) (plain : 3 ≤ version ∨ ∀ flags ∈ entryFlags version count room, flags &&& 0x4000 = 0) :
    listEntries version count previous (room ++ tail) = .error .bad ∨
      ∃ left, listEntries version count previous (room ++ tail) = .ok (views.map (View.decode version), left) := by
  induction count generalizing room views previous with
  | zero =>
    cases strict
    exact .inr ⟨_, rfl⟩
  | succ count ih =>
    obtain ⟨⟨view, room'⟩, first, strict⟩ := bind_eq_some_iff.1 strict
    obtain ⟨⟨views', rest'⟩, more, same⟩ := map_eq_some_iff.1 strict
    cases same
    have here : 3 ≤ version ∨ wordAt 2 room 60 &&& 0x4000 = 0 := plain.imp_right fun all => all _ (.head _)
    have later : 3 ≤ version ∨ ∀ flags ∈ entryFlags version count room', flags &&& 0x4000 = 0 := by
      apply plain.imp_right
      intro all flags member
      apply all
      rw [entryFlags, skipEntry_of_readView first]
      exact .tail _ member
    rw [listEntries]
    obtain bad | ⟨before, turn⟩ := listEntry_of_readView first three here
    · exact .inl (by rw [bad])
    rw [turn]
    dsimp only
    obtain bad | ⟨left, rest⟩ := @ih room' (some before) views' more later
    · exact .inl (by rw [bad])
    · exact .inr ⟨left, by rw [rest]; rfl⟩

end

def DiskEntry.report (entry : DiskEntry) : CString × Nat × UInt32 × ObjectId :=
  (entry.path, entry.stage, entry.mode, entry.sha)

def PlainFlags (file : Bytes) : Prop :=
  wordAt 4 file 4 = 3 ∨ ∀ flags ∈ entryFlags 2 (wordAt 4 file 8) ((fileBody file).drop 12), flags &&& 0x4000 = 0

theorem readHeader_facts {file : Bytes} {version count : Nat} (found : readHeader file = some (version, count)) :
    32 ≤ file.length ∧ (version = 2 ∨ version = 3) ∧ version = wordAt 4 file 4 ∧ count = wordAt 4 file 8 := by
  revert found
  fun_cases readHeader file with
  | case4 long _ _ =>
    rintro ⟨⟩
    exact ⟨not_lt.1 long, by omega, rfl, rfl⟩
  | _ => exact nofun

theorem drop_mapped (page : Nat) {file : Bytes} (long : 32 ≤ file.length) :
    ∃ tail, (mapped page file).drop 12 = (fileBody file).drop 12 ++ tail := by
  have body : 12 ≤ (fileBody file).length := by
    rw [fileBody, length_take]
    omega
  have split : mapped page file = fileBody file ++ (file.drop (file.length - 20) ++
      replicate ((file.length + page - 1) / page * page - file.length) 0) := by
    rw [mapped, fileBody, ← append_assoc, take_append_drop]
  exact ⟨_, by rw [split, drop_append_of_le_length body]⟩

/-- Where a file has plain flags, the two readers report the same entries in the same order. -/
theorem readers_agree (page : Nat) (overlap : Bytes → Nat → Option (List DiskEntry × Nat)) (file : Bytes)
    (strict loose : List DiskEntry) (off : Nat) (read : readIndex file = some strict)
    (listed : readListing page overlap file = some (loose, off)) (plain : PlainFlags file) :
    strict.map DiskEntry.report = loose.map DiskEntry.report := by
  obtain ⟨⟨version, views⟩, viewed, decoded⟩ := map_eq_some_iff.1 read
  subst decoded
  obtain ⟨⟨version', count⟩, header, viewed⟩ := bind_eq_some_iff.1 viewed
  dsimp only at viewed
  split at viewed
  · cases viewed
  obtain ⟨⟨views', rest⟩, entries, viewed⟩ := bind_eq_some_iff.1 viewed
  dsimp only at viewed
  split at viewed
  · cases viewed
    obtain ⟨long, known, is, many⟩ := readHeader_facts header
    obtain ⟨tail, inside⟩ := drop_mapped page long
    have flags : 3 ≤ version ∨ ∀ flags ∈ entryFlags version count ((fileBody file).drop 12), flags &&& 0x4000 = 0 := by
      obtain rfl | rfl := known
      · obtain three | all := plain
        · omega
        · exact .inr (many ▸ all)
      · exact .inl (le_refl 3)
    have outcome := @listEntries_of_readEntries version
      ((fileBody file).drop 12) rest tail none count views entries (by omega) flags
    unfold readListing at listed
    split at listed
    · cases listed
    split at listed
    · cases listed
    dsimp only at listed
    split at listed
    · cases listed
    split at listed
    · cases listed
    rw [← is, ← many, inside] at listed
    obtain bad | ⟨left, same⟩ := outcome
    · rw [bad] at listed
      cases listed
    · rw [same] at listed
      cases left <;> cases listed <;> rfl
  · cases viewed

/-- A file of version 2 with the one entry `@`. -/
def bodyAt (flags : Nat) (ext : Bytes) : Bytes :=
  ascii "DIRC" ++ be 4 2 ++ be 4 1 ++ List.replicate 24 0 ++ be 4 0o100644 ++ List.replicate 12 0 ++
    List.replicate 20 1 ++
    be 2 flags ++ [0x40, 0] ++ ext

def fileAt (flags : Nat) (ext : Bytes) : Bytes := bodyAt flags ext ++ indexSha1 (bodyAt flags ext)

def listedAt (flags : Nat) (ext : Bytes) : Option (List DiskEntry × Nat) :=
  readListing 4096 (fun _ _ => none) (fileAt flags ext)

/-- The flags have the bit for a second word: the strict reader finds the path `@`, the other takes it for flags and
reads a name from the extension. -/
theorem readers_disagree :
    (readIndex (fileAt 0x4001 (ascii "LINK" ++ be 4 0))).map
      (fun entries => entries.map fun entry => entry.path.bytes) =
      some [ascii "@"] ∧
    (listedAt 0x4001 (ascii "LINK" ++ be 4 0)).map (fun found => found.1.map fun entry => entry.path.bytes) =
      some [ascii "LI"] := by
  decide +kernel

-- An extension that begins like the path hides the difference.
example : (readIndex (fileAt 0x4001 [0x40, 0])).map (fun entries => entries.map DiskEntry.report) =
    (listedAt 0x4001 [0x40, 0]).map fun found => found.1.map DiskEntry.report := by
  decide +kernel

/-- Without the bit both find `@`. -/
theorem readers_agree_sample :
    (readIndex (fileAt 1 (ascii "LINK" ++ be 4 0))).isSome ∧ (listedAt 1 (ascii "LINK" ++ be 4 0)).isSome ∧
    ((readIndex (fileAt 1 (ascii "LINK" ++ be 4 0))).getD []).map DiskEntry.report =
      ((listedAt 1 (ascii "LINK" ++ be 4 0)).getD ([], 0)).1.map DiskEntry.report := by
  have read : readIndex (fileAt 1 (ascii "LINK" ++ be 4 0)) =
      some ((readIndex (fileAt 1 (ascii "LINK" ++ be 4 0))).getD []) := by decide +kernel
  have listed : readListing 4096 (fun _ _ => none) (fileAt 1 (ascii "LINK" ++ be 4 0)) =
      some (((listedAt 1 (ascii "LINK" ++ be 4 0)).getD ([], 0)).1,
        ((listedAt 1 (ascii "LINK" ++ be 4 0)).getD ([], 0)).2) := by
    decide +kernel
  have plain : PlainFlags (fileAt 1 (ascii "LINK" ++ be 4 0)) := .inr (by decide +kernel)
  exact ⟨congrArg Option.isSome read, congrArg Option.isSome listed,
    readers_agree 4096 (fun _ _ => none) _ _ _ _ read listed plain⟩

end BashOs.Git.IndexFile

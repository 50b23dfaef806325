import BashOs.Git.Refs.Reading

/-!
Settings from the command line come behind those of the files. The key of such a setting is folded up to a quote,
the key of a lookup outside its subsection, so the two meet where no capital letter tells the one folding from the
other.
-/

namespace BashOs.Git.Config
open BashOs.Lib List

/-- `bgit_config_entry`; a key alone has no value -/
structure Entry where
  key : Bytes
  value : Option Bytes
deriving DecidableEq, Repr

/-! ## Looking up -/

def configFold (key : Bytes) : Bytes :=
  let key := key.take 4095
  if 0x2e ∈ key then
    let first := key.takeWhile (· ≠ 0x2e)
    let last := afterLast 0x2e key
    first.map lowerByte ++ (key.drop first.length).take (key.length - first.length - last.length) ++ last.map lowerByte
  else key.map lowerByte

def configFind (entries : List Entry) (key : Bytes) : Option Entry := (entries.filter (·.key = configFold key)).getLast?

def configGet (entries : List Entry) (key : Bytes) : Option Bytes :=
  (configFind entries key).map fun entry => entry.value.getD []

/-! ## Settings from the command line -/

def overrideKey (key : Bytes) : Bytes :=
  let key := key.take 1099
  (key.takeWhile (· ≠ 0x22)).map lowerByte ++ key.dropWhile (· ≠ 0x22)

def overrideEntry (text : Bytes) : Entry :=
  match text.dropWhile (· ≠ 0x3d) with
  | [] => ⟨overrideKey text, none⟩
  | _ :: value => ⟨overrideKey (text.takeWhile (· ≠ 0x3d)), some value⟩

/-- `bgit_config_load`, with the entries that the files give -/
def configLoad (fromFiles : List Entry) (overrides : List Bytes) : List Entry :=
  fromFiles ++ overrides.map overrideEntry

/-! ## Where the foldings agree -/

/-- A place from the first dot on and before the last. -/
def InSubsection (key : Bytes) (i : Nat) : Prop := 0x2e ∈ key.take (i + 1) ∧ 0x2e ∈ key.drop (i + 1)

instance (key : Bytes) (i : Nat) : Decidable (InSubsection key i) := inferInstanceAs (Decidable (_ ∧ _))

/-- The key fits in the override's buffer, and its capital letters stand in the subsection just if they stand behind a
quote. -/
structure FoldsAlike (key : Bytes) : Prop where
  short : key.length ≤ 1099
  capitals : ∀ i b, key[i]? = some b → 0x41 ≤ b → b ≤ 0x5a → (InSubsection key i ↔ 0x22 ∈ key.take (i + 1))

theorem lowerByte_eq_self_iff {b : UInt8} : lowerByte b = b ↔ ¬ (0x41 ≤ b ∧ b ≤ 0x5a) := by
  unfold lowerByte
  grind

section
variable {key : Bytes}

theorem getElem?_foldUntil (mark : UInt8) (fold : UInt8 → UInt8) (text : Bytes) (i : Nat) :
    ((text.takeWhile (· ≠ mark)).map fold ++ text.dropWhile (· ≠ mark))[i]? =
      text[i]?.map fun b => if mark ∈ text.take (i + 1) then b else fold b := by
  induction text generalizing i with
  | nil => rfl
  | cons b rest ih =>
    by_cases stop : b = mark
    · simp [stop]
    · cases i with
      | zero => simp [stop, Ne.symm stop]
      | succ i => simpa [stop, Ne.symm stop] using ih i

theorem getElem?_overrideKey (short : key.length ≤ 1099) (i : Nat) :
    (overrideKey key)[i]? = key[i]?.map fun b => if 0x22 ∈ key.take (i + 1) then b else lowerByte b := by
  rw [overrideKey, take_of_length_le short]
  exact getElem?_foldUntil 0x22 lowerByte key i

theorem length_overrideKey (key : Bytes) : (overrideKey key).length = min 1099 key.length := by
  rw [overrideKey, length_append, length_map, ← length_append, takeWhile_append_dropWhile, length_take]

theorem mem_take_iff {first back : Bytes} {mark : UInt8} (none : mark ∉ first) (i : Nat) :
    mark ∈ (first ++ mark :: back).take (i + 1) ↔ first.length ≤ i := by
  rw [take_append, mem_append, iff_false_intro (mt mem_of_mem_take none), false_or]
  constructor
  · intro member
    by_contra less
    rw [show i + 1 - first.length = 0 by omega] at member
    cases member
  · intro more
    rw [show i + 1 - first.length = i - first.length + 1 by omega]
    exact mem_cons_self

theorem mem_drop_iff {front last : Bytes} {mark : UInt8} (none : mark ∉ last) (i : Nat) :
    mark ∈ (front ++ mark :: last).drop (i + 1) ↔ i < front.length := by
  rw [drop_append]
  constructor
  · intro member
    by_contra more
    rw [drop_eq_nil_of_le (by omega), nil_append, show i + 1 - front.length = i - front.length + 1 by omega,
      drop_succ_cons] at member
    exact none (mem_of_mem_drop member)
  · intro less
    rw [show i + 1 - front.length = 0 by omega]
    exact mem_append_right _ mem_cons_self

/-- The folded key in three pieces: up to the first dot, up to the last, and behind it. -/
theorem configFold_pieces (short : key.length ≤ 4095) (dotted : 0x2e ∈ key) : ∃ first front, first ≤ front ∧
    front < key.length ∧ (∀ i, InSubsection key i ↔ first ≤ i ∧ i < front) ∧ key[front]? = some 0x2e ∧
    configFold key = (key.take first).map lowerByte ++ (key.drop first).take (front + 1 - first) ++
      (key.drop (front + 1)).map lowerByte := by
  obtain ⟨first, back, same, noneFirst⟩ := eq_append_cons_of_mem dotted
  obtain ⟨behind, before, turned, noneLast⟩ := eq_append_cons_of_mem (mem_reverse.2 dotted)
  have same' : key = before.reverse ++ 0x2e :: behind.reverse := by
    rw [← reverse_reverse key, turned]
    simp
  have last : afterLast 0x2e key = behind.reverse := by
    rw [afterLast, turned, (takeWhile_append_stop behind before noneLast).1]
  have inside : ∀ i, InSubsection key i ↔ first.length ≤ i ∧ i < before.reverse.length := fun i =>
    and_congr (by rw [same, mem_take_iff noneFirst]) (by rw [same', mem_drop_iff (by simpa using noneLast)])
  have size := congrArg length same'
  rw [length_append, length_cons] at size
  have ordered : first.length ≤ before.reverse.length := by
    by_contra less
    refine noneFirst (mem_of_getElem? (i := before.reverse.length) ?_)
    have here : (first ++ 0x2e :: back)[before.reverse.length]? = some 0x2e := by
      rw [← same, same']
      simp
    rwa [getElem?_append_left (not_le.1 less)] at here
  refine ⟨first.length, before.reverse.length, ordered, by omega, inside, by rw [same']; simp, ?_⟩
  rw [configFold, take_of_length_le short, if_pos dotted, last]
  have front : key.takeWhile (· ≠ 0x2e) = first := by rw [same, (takeWhile_append_stop first back noneFirst).1]
  dsimp only
  rw [front, show key.length - first.length - behind.reverse.length = before.reverse.length + 1 - first.length by omega,
    show key.take first.length = first by rw [same, take_left],
    show key.drop (before.reverse.length + 1) = behind.reverse by rw [same', drop_length_add_append]; rfl]

theorem getElem?_configFold (short : key.length ≤ 4095) (i : Nat) :
    (configFold key)[i]? = key[i]?.map fun b => if InSubsection key i then b else lowerByte b := by
  by_cases dotted : 0x2e ∈ key
  · obtain ⟨first, front, ordered, within, inside, dot, same⟩ := configFold_pieces short dotted
    have outside : ¬ (first ≤ i ∧ i < front) →
        (key[i]?.map fun b => if InSubsection key i then b else lowerByte b) = key[i]?.map lowerByte := fun out => by
      simp only [inside, if_neg out]
    rw [same]
    rcases lt_or_ge i first with low | low
    · rw [outside (by omega), append_assoc, getElem?_append_left (by simp; omega), getElem?_map,
        getElem?_take_of_lt low]
    rcases lt_or_ge front i with high | high
    · rw [outside (by omega), getElem?_append_right (by simp; omega), getElem?_map, getElem?_drop]
      congr 2
      simp
      omega
    rw [getElem?_append_left (by simp; omega), getElem?_append_right (by simp; omega),
      getElem?_take_of_lt (by simp; omega),
      getElem?_drop, show first + (i - ((key.take first).map lowerByte).length) = i by simp; omega]
    obtain below | rfl := high.lt_or_eq
    · simp [inside, low, below]
    · rw [outside (by omega), dot]
      rfl
  · have outside : ¬ InSubsection key i := fun inside => dotted (mem_of_mem_take inside.1)
    rw [configFold, take_of_length_le short, if_neg dotted]
    simp [outside]

theorem length_configFold (key : Bytes) : (configFold key).length = min 4095 key.length := by
  have cut : configFold key = configFold (key.take 4095) := by
    unfold configFold
    rw [take_take, Nat.min_self]
  have short : (key.take 4095).length ≤ 4095 := length_take_le _ _
  rw [cut, ← length_take]
  by_cases dotted : 0x2e ∈ key.take 4095
  · obtain ⟨first, front, ordered, within, -, -, same⟩ := configFold_pieces short dotted
    rw [same]
    simp only [length_append, length_map, length_take, length_drop] at within ⊢
    omega
  · rw [configFold, take_of_length_le short, if_neg dotted, length_map]

theorem overrideKey_eq_configFold_iff : overrideKey key = configFold key ↔ FoldsAlike key := by
  by_cases short : key.length ≤ 1099
  · refine ⟨fun same => ⟨short, fun i b here low high => ?_⟩, fun alike => ext_getElem? fun i => ?_⟩
    · have both := congrArg (·[i]?) same
      rw [getElem?_overrideKey short, getElem?_configFold (by omega), here, Option.map_some, Option.map_some,
        Option.some_inj] at both
      have differ : lowerByte b ≠ b := fun same => lowerByte_eq_self_iff.1 same ⟨low, high⟩
      by_cases inside : InSubsection key i
      · exact iff_of_true inside (by_contra fun plain => differ (by rwa [if_neg plain, if_pos inside] at both))
      · exact iff_of_false inside fun quoted => differ (by rw [if_pos quoted, if_neg inside] at both; exact both.symm)
    · rw [getElem?_overrideKey short, getElem?_configFold (by omega)]
      cases here : key[i]? with
      | none => rfl
      | some b =>
        rw [Option.map_some, Option.map_some]
        by_cases capital : 0x41 ≤ b ∧ b ≤ 0x5a
        · simp only [alike.capitals i b here capital.1 capital.2]
        · simp [lowerByte_eq_self_iff.2 capital]
  · refine iff_of_false (fun same => ?_) fun alike => short alike.short
    have size := congrArg length same
    rw [length_overrideKey, length_configFold] at size
    omega

end

theorem configGet_concat (entries : List Entry) (entry : Entry) (key : Bytes) :
    configGet (entries ++ [entry]) key =
      if entry.key = configFold key then some (entry.value.getD []) else configGet entries key := by
  unfold configGet configFind
  rw [filter_append, filter_singleton]
  split <;> simp_all

/-- An override is seen just if its key has no equals sign and is folded alike, or the files give that value. -/
theorem override_seen_iff (fromFiles : List Entry) (key value : Bytes) :
    configGet (configLoad fromFiles [key ++ 0x3d :: value]) key = some value ↔
      0x3d ∉ key ∧ FoldsAlike key ∨ configGet fromFiles key = some value := by
  rw [configLoad, map_singleton, configGet_concat, ← overrideKey_eq_configFold_iff]
  by_cases early : 0x3d ∈ key
  · obtain ⟨front, back, rfl, none⟩ := eq_append_cons_of_mem early
    have cut := takeWhile_append_stop front (back ++ 0x3d :: value) none
    rw [append_assoc, cons_append, overrideEntry, cut.2, cut.1, if_neg]
    · simp
    · -- the key that is stored is too short
      intro same
      have size := congrArg length same
      rw [length_overrideKey, length_configFold] at size
      simp only [length_append, length_cons] at size
      omega
  · have cut := takeWhile_append_stop key value early
    rw [overrideEntry, cut.2, cut.1]
    dsimp only
    split
    next folded => simp [early, folded]
    next apart => simp [apart]

/-- A subsection with a capital letter. -/
theorem override_not_seen : configGet (configLoad [] [ascii "a.B.c=v"]) (ascii "a.B.c") = none := by decide +kernel

end BashOs.Git.Config

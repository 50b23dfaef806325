import BashOs.Dns.Denial
import BashOs.Lib.CString

/-!
Names as lists of labels, and how the resolver's texts stand for them. A label may hold any byte; the text of a name
gives it back where no label holds a dot or a NUL.
-/

namespace BashOs.Dns
open BashOs.Lib List

abbrev Name := List Bytes

namespace Name

def text (name : Name) : Bytes := [dot].intercalate name

def wire (name : Name) : Bytes := name.flatMap (fun label => UInt8.ofNat label.length :: label) ++ [0]

def lower (name : Name) : Name := name.map fun label => label.map lowerByte

def canon (name : Name) : Bytes := if name = [] then rootName else text name

/-- Labels a name can have: none is empty, and none longer than its length byte says. -/
abbrev Filled (most : Nat) (name : Name) : Prop := ∀ label ∈ name, label ≠ [] ∧ label.length ≤ most

structure Sized (name : Name) : Prop where
  labels : ∀ label ∈ name, label ≠ [] ∧ label.length ≤ 63
  fits : (wire name).length ≤ 255

def Plain (name : Name) : Prop := ∀ label ∈ name, dot ∉ label ∧ 0 ∉ label

end Name

def nameCmp (a b : Name) : Ordering := labelsCmp a.reverse b.reverse

/-! ## Small letters -/

theorem lowerByte_dot (b : UInt8) : lowerByte b = dot ↔ b = dot := by
  revert b
  apply byte_cases
  decide +kernel

theorem lowerByte_zero (b : UInt8) : lowerByte b = 0 ↔ b = 0 := by
  revert b
  apply byte_cases
  decide +kernel

namespace Name
variable {name other : Name}

theorem wire_cons (label : Bytes) (rest : Name) :
    wire (label :: rest) = UInt8.ofNat label.length :: (label ++ wire rest) := by
  simp [wire]

theorem wire_lower_length (name : Name) : (wire (lower name)).length = (wire name).length := by
  induction name with
  | nil => rfl
  | cons label rest ih =>
    have tail : lower (label :: rest) = label.map lowerByte :: lower rest := rfl
    rw [tail, wire_cons, wire_cons, length_cons, length_cons, length_append, length_append, ih, length_map]

theorem Filled.lower {most : Nat} (filled : Filled most name) : Filled most (lower name) := by
  intro label member
  obtain ⟨label, inside, rfl⟩ := mem_map.1 member
  have bounds := filled label inside
  exact ⟨by simpa using bounds.1, by simpa using bounds.2⟩

theorem Sized.lower (sized : Sized name) : Sized (lower name) :=
  ⟨Filled.lower sized.labels, by rw [wire_lower_length]; exact sized.fits⟩

theorem plain_lower_iff : Plain (lower name) ↔ Plain name := by
  simp [Plain, Name.lower, mem_map, lowerByte_dot, lowerByte_zero]

theorem Plain.lower (plain : Plain name) : Plain (lower name) := plain_lower_iff.2 plain

/-! ## Texts -/

theorem text_cons (label : Bytes) (rest : Name) : text (label :: rest) = label ++ rest.flatMap (dot :: ·) := by
  induction rest generalizing label with
  | nil => simp [text]
  | cons next rest ih =>
    rw [flatMap_cons, cons_append, ← ih next]
    simp [text]

theorem text_lower (name : Name) : (text name).map lowerByte = text (lower name) := by
  cases name with
  | nil => rfl
  | cons label rest =>
    have tail : lower (label :: rest) = label.map lowerByte :: lower rest := rfl
    rw [tail, text_cons, text_cons, map_append, map_flatMap, Name.lower, flatMap_map]
    rfl

theorem text_length (some : name ≠ []) : (text name).length + 2 = (wire name).length := by
  obtain ⟨label, rest, rfl⟩ := exists_cons_of_ne_nil some
  rw [text_cons, wire, length_append, length_append, length_flatMap, length_flatMap]
  simp
  omega

theorem splitOn_text (plain : Plain name) (some : name ≠ []) : (text name).splitOn dot = name :=
  splitOn_intercalate dot (fun label member => (plain label member).1) some

section
variable (filled : Filled 63 name) (plain : Plain name)
include filled plain

theorem textLabels_text (some : name ≠ []) : textLabels (text name) = name := by
  rw [textLabels, splitOn_text plain some]
  apply filter_eq_self.2
  intro label member
  simpa using (filled label member).1

theorem text_ends (some : name ≠ []) :
    text name ≠ [] ∧ text name ≠ rootName ∧ (text name).getLast? ≠ Option.some dot := by
  have full : [] ∉ name := fun member => (filled [] member).1 rfl
  have split := splitOn_text plain some
  refine ⟨fun empty => full ?_, fun root => full ?_, fun last => full ?_⟩
  · rw [← split, empty]
    exact mem_singleton_self _
  · rw [← split, root]
    decide
  · obtain ⟨front, whole⟩ := List.getLast?_eq_some_iff.1 last
    rw [← split, whole, splitOn_append_mark]
    simp

theorem canonOwner_text (short : (text name).length + 1 ≤ nameRoom) :
    canonOwner (text name) = some (canon (lower name)) := by
  cases name with
  | nil => rfl
  | cons label rest =>
    have some : label :: rest ≠ [] := cons_ne_nil _ _
    have small : lower (label :: rest) ≠ [] := cons_ne_nil _ _
    have ends := text_ends filled plain some
    have lowerEnds := text_ends filled.lower plain.lower small
    have named : ¬ (text (label :: rest) = [] ∨ text (label :: rest) = rootName) :=
      fun named => named.elim ends.1 ends.2.1
    rw [canonOwner, if_neg (Nat.not_lt.2 short), if_neg named]
    dsimp only
    rw [text_lower, if_neg fun both => lowerEnds.2.2 both.2, canon, if_neg small]

theorem canon_injective (filled' : Filled 63 other) (plain' : Plain other)
    (same : canon name = canon other) : name = other := by
  by_cases left : name = []
  · by_cases right : other = []
    · rw [left, right]
    · rw [canon, if_pos left, canon, if_neg right] at same
      exact ((text_ends filled' plain' right).2.1 same.symm).elim
  by_cases right : other = []
  · rw [canon, if_neg left, canon, if_pos right] at same
    exact ((text_ends filled plain left).2.1 same).elim
  · rw [canon, if_neg left, canon, if_neg right] at same
    rw [← splitOn_text plain left, same, splitOn_text plain' right]

end

theorem Sized.short (sized : Sized name) : (text name).length + 1 ≤ nameRoom := by
  by_cases root : name = []
  · rw [root]
    decide
  · have length := text_length root
    have fits := sized.fits
    unfold nameRoom
    omega

theorem canonOwner_canon (sized : Sized name) (plain : Plain name) (small : lower name = name) :
    canonOwner (canon name) = some (canon name) := by
  have made := canonOwner_text sized.labels plain sized.short
  rw [small] at made
  cases name with
  | nil => rfl
  | cons label rest => exact made

/-! ## Wire forms -/

theorem putLabels_iff {room : Nat} {out put : Bytes} {labels : Name} :
    putLabels room out labels = some put ↔ (∀ label ∈ labels, label.length ≤ 255) ∧
      (labels ≠ [] → out.length + (wire labels).length ≤ room) ∧ put = out ++ wire labels := by
  induction labels generalizing out with
  | nil => simp [putLabels, wire, eq_comm]
  | cons label rest ih =>
    have positive : 0 < (wire rest).length := by simp [wire]
    rw [putLabels, wire_cons, forall_mem_cons, length_cons, length_append]
    by_cases long : label.length > 255
    · rw [if_pos long]
      simp only [reduceCtorEq, false_iff]
      omega
    by_cases tight : out.length + 1 + label.length + 1 > room
    · rw [if_neg long, if_pos tight]
      simp only [reduceCtorEq, false_iff]
      intro all
      have := all.2.1 (cons_ne_nil _ _)
      omega
    have fits : (rest ≠ [] → out.length + (label.length + 1) + (wire rest).length ≤ room) ↔
        (label :: rest ≠ [] → out.length + (label.length + (wire rest).length + 1) ≤ room) := by
      by_cases last : rest = []
      · simp [last, wire]
        omega
      · simp only [ne_eq, last, reduceCtorEq, not_false_eq_true, forall_const]
        omega
    rw [if_neg long, if_neg tight, ih, length_append, length_cons, append_assoc, cons_append, fits]
    simp only [Nat.not_lt.1 long, true_and]

theorem nameToWire_eq {spelled : Bytes} {room : Nat} (filled : Filled 63 name) (plain : Plain name)
    (same : canonOwner spelled = some (canon name)) (fits : (wire name).length ≤ room) :
    nameToWire spelled room = some (wire name) := by
  rw [nameToWire, same]
  dsimp only
  by_cases root : name = []
  · subst root
    have some : ¬ room < 1 := Nat.not_lt.2 fits
    rw [if_neg some]
    rfl
  · have ends := text_ends filled plain root
    have named : ¬ (text name = [] ∨ text name = rootName) := fun named => named.elim ends.1 ends.2.1
    rw [canon, if_neg root, if_neg named, textLabels_text filled plain root, putLabels_iff]
    exact ⟨fun label member => (filled label member).2.trans (by decide), fun _ => by simpa using fits, rfl⟩

theorem length_byte {label : Bytes} (bounds : label ≠ [] ∧ label.length ≤ 255) :
    (UInt8.ofNat label.length).toNat = label.length ∧ UInt8.ofNat label.length ≠ 0 := by
  have value : (UInt8.ofNat label.length).toNat = label.length := byte_ofNat_toNat (by omega)
  refine ⟨value, fun zero => bounds.1 (length_eq_zero_iff.1 ?_)⟩
  rw [← value, zero]
  rfl

theorem low_byte_iff (b : UInt8) : b &&& 0xc0 = 0 ↔ b.toNat ≤ 63 := by
  revert b
  apply byte_cases
  decide +kernel

theorem wireLabels_wire (room : Nat) (name : Name) (bounds : Filled 255 name) (fits : name.length < room) :
    wireLabels room (wire name) = name ++ [[]] := by
  induction name generalizing room with
  | nil =>
    obtain ⟨room, rfl⟩ := Nat.exists_eq_succ_of_ne_zero (Nat.ne_of_gt fits)
    rfl
  | cons label rest ih =>
    obtain ⟨room, rfl⟩ := Nat.exists_eq_succ_of_ne_zero (Nat.ne_of_gt (Nat.zero_lt_of_lt fits))
    obtain ⟨value, filled⟩ := length_byte (bounds label mem_cons_self)
    rw [wire_cons, wireLabels, if_neg filled, value, take_left, drop_left,
      ih room (fun label later => bounds label (mem_cons_of_mem _ later)) (Nat.lt_of_succ_lt_succ fits), cons_append]

theorem wide (filled : Filled 63 name) : Filled 255 name :=
  fun label member => ⟨(filled label member).1, (filled label member).2.trans (by decide)⟩

theorem length_lt (sized : Sized name) : name.length < 128 := by
  have bound : ∀ names : Name, Filled 63 names → 2 * names.length + 1 ≤ (wire names).length := by
    intro names bounds
    induction names with
    | nil => simp [wire]
    | cons label rest ih =>
      have positive := length_pos_iff.2 (bounds label mem_cons_self).1
      have tail := ih fun label later => bounds label (mem_cons_of_mem _ later)
      rw [wire_cons, length_cons, length_cons, length_append]
      omega
  have := bound name sized.labels
  have := sized.fits
  omega

theorem nameWireCmp_eq {a b : Bytes} (sized : Sized name) (plain : Plain name) (sized' : Sized other)
    (plain' : Plain other)
    (first : canonOwner a = some (canon name)) (second : canonOwner b = some (canon other)) :
    nameWireCmp a b = nameCmp name other := by
  have fits := sized.fits
  have fits' := sized'.fits
  rw [nameWireCmp, nameToWire_eq sized.labels plain first (by unfold nameRoom; omega),
    nameToWire_eq sized'.labels plain' second (by unfold nameRoom; omega)]
  dsimp only
  rw [wireLabels_wire 128 name (wide sized.labels) (length_lt sized),
    wireLabels_wire 128 other (wide sized'.labels) (length_lt sized'), if_neg (by simp), reverse_append, reverse_append]
  rfl

/-! ## Reading a name -/

def addLabel (out label : Bytes) : Bytes := (if out = [] then out else out ++ [dot]) ++ label

theorem length_addLabel_le (out label : Bytes) : (addLabel out label).length ≤ out.length + label.length + 1 := by
  rw [addLabel, length_append]
  split
  · omega
  · rw [length_append, length_singleton]
    omega

theorem foldl_addLabel {out : Bytes} (some : out ≠ []) (name : Name) :
    name.foldl addLabel out = out ++ name.flatMap (dot :: ·) := by
  induction name generalizing out with
  | nil => simp
  | cons label rest ih =>
    have step : addLabel out label = out ++ dot :: label := by
      rw [addLabel, if_neg some, append_assoc, singleton_append]
    rw [foldl_cons, step, ih (by simp), flatMap_cons, append_assoc]

theorem foldl_addLabel_nil (bounds : ∀ label ∈ name, label ≠ []) : name.foldl addLabel [] = text name := by
  cases name with
  | nil => rfl
  | cons label rest =>
    have first : addLabel [] label = label := rfl
    rw [foldl_cons, first, foldl_addLabel (bounds label mem_cons_self), text_cons]

theorem decodeLoop_wire {pkt rest out : Bytes} {fuel pos : Nat} (bounds : Filled 63 name)
    (fits : out.length + (wire name).length ≤ 255) (enough : name.length < fuel)
      (here : pkt.drop pos = wire name ++ rest) :
    decodeLoop pkt fuel pos 0 none out = some (name.foldl addLabel out, pos + (wire name).length) := by
  induction name generalizing pos out fuel with
  | nil =>
    obtain ⟨fuel, rfl⟩ := Nat.exists_eq_succ_of_ne_zero (Nat.ne_of_gt enough)
    have first : pkt[pos]? = some 0 := by rw [← head?_drop, here]; rfl
    rw [decodeLoop, first]
    rfl
  | cons label more ih =>
    obtain ⟨fuel, rfl⟩ := Nat.exists_eq_succ_of_ne_zero (Nat.ne_of_gt (Nat.zero_lt_of_lt enough))
    obtain ⟨value, filled⟩ := length_byte (wide bounds label mem_cons_self)
    have low := (low_byte_iff _).2 (value.trans_le (bounds label mem_cons_self).2)
    rw [wire_cons, cons_append, append_assoc] at here
    have first : pkt[pos]? = some (UInt8.ofNat label.length) := by rw [← head?_drop, here]; rfl
    have further : pkt.drop (pos + 1) = label ++ (wire more ++ rest) := by rw [← drop_drop, here]; rfl
    have behind : pkt.drop (pos + 1 + label.length) = wire more ++ rest := by rw [← drop_drop, further, drop_left]
    have inside : ¬ pos + 1 + label.length > pkt.length := by
      have := congrArg length further
      have positive := length_pos_iff.2 (bounds label mem_cons_self).1
      rw [length_drop, length_append] at this
      omega
    rw [wire_cons, length_cons, length_append] at fits ⊢
    have room : ¬ out.length + label.length + 1 ≥ nameRoom := by
      unfold nameRoom
      omega
    rw [decodeLoop, first]
    dsimp only
    rw [low, if_neg filled, value, if_neg inside, if_neg room, further, take_left]
    have grown := length_addLabel_le out label
    refine (ih (fun label later => bounds label (mem_cons_of_mem _ later))
      (show (addLabel out label).length + _ ≤ 255 by omega) (Nat.lt_of_succ_lt_succ enough) behind).trans ?_
    rw [foldl_cons, Nat.add_assoc, Nat.add_assoc, Nat.add_comm 1, Nat.add_right_comm]

theorem zero_not_mem_text (plain : Plain name) : 0 ∉ text name := by
  intro member
  cases name with
  | nil => cases member
  | cons label more =>
    rw [text_cons, mem_append, mem_flatMap] at member
    obtain first | ⟨later, among, inside⟩ := member
    · exact (plain label mem_cons_self).2 first
    · obtain zero | inside := mem_cons.1 inside
      · exact absurd zero (by decide)
      · exact (plain later (mem_cons_of_mem _ among)).2 inside

theorem decodeName_wire (sized : Sized name) (plain : Plain name) (rest : Bytes) :
    decodeName (wire name ++ rest) 0 = some (text name, (wire name).length) := by
  have ran := @decodeLoop_wire name (wire name ++ rest) rest [] 300 0 sized.labels (by simpa using sized.fits)
    (Nat.lt_trans (length_lt sized) (by decide)) rfl
  rw [Nat.zero_add, foldl_addLabel_nil fun label member => (sized.labels label member).1] at ran
  rw [decodeName, ran, Option.map_some]
  dsimp only
  rw [takeWhile_ne_of_not_mem (zero_not_mem_text plain)]

/-! ## What a packet spells -/

/-- The labels from a place in a packet on, pointers followed, for as many turns as the reader takes. -/
def spelled (pkt : Bytes) : Nat → Nat → Option Name
  | 0, _ => none
  | fuel + 1, pos =>
    match pkt[pos]? with
    | none => none
    | some b =>
      if b &&& 0xc0 = 0xc0 then (pkt[pos + 1]?).bind fun low => spelled pkt fuel ((b &&& 0x3f).toNat * 256 + low.toNat)
      else if b = 0 then some []
      else (spelled pkt fuel (pos + 1 + b.toNat)).map ((pkt.drop (pos + 1)).take b.toNat :: ·)

theorem decodeLoop_spelled {pkt out text : Bytes} {fuel pos jumps last : Nat} {after : Option Nat}
    (short : out.length < nameRoom) (read : decodeLoop pkt fuel pos jumps after out = some (text, last)) :
    ∃ name, spelled pkt fuel pos = some name ∧ Filled 63 name ∧ text = name.foldl addLabel out ∧
      text.length < nameRoom := by
  fun_induction decodeLoop pkt fuel pos jumps after out with
  | case5 fuel pos jumps after out b here pointer low next target few ih =>
    rw [spelled, here]
    dsimp only
    rw [if_pos pointer, next]
    exact ih short read
  | case7 fuel pos jumps after out here =>
    cases read
    exact ⟨[], by rw [spelled, here]; rfl, forall_mem_nil _, rfl, short⟩
  | case10 fuel pos jumps after out b here pointer ordinary ended inside room begun ih =>
    set label := (pkt.drop (pos + 1)).take b.toNat with isLabel
    have length : label.length = b.toNat := by
      rw [isLabel, length_take, length_drop]
      omega
    have low := (low_byte_iff b).1 (not_not.1 ordinary)
    have grown := length_addLabel_le out label
    obtain ⟨name, spells, filled, whole, fits⟩ := ih (show (addLabel out label).length < nameRoom by omega) read
    rw [spelled, here]
    dsimp only
    rw [if_neg pointer, if_neg ended, spells]
    refine ⟨label :: name, rfl, forall_mem_cons.2 ⟨⟨fun empty => ended ?_, by omega⟩, filled⟩, whole, fits⟩
    rw [empty] at length
    exact UInt8.toNat_inj.1 length.symm
  | _ => cases read

theorem decodeName_spelled {pkt text : Bytes} {off last : Nat} (read : decodeName pkt off = some (text, last)) :
    ∃ name, spelled pkt 300 off = some name ∧ Filled 63 name ∧ text = (Name.text name).takeWhile (· ≠ 0) ∧
      (Name.text name).length + 1 ≤ nameRoom := by
  obtain ⟨⟨whole, after⟩, loop, cut⟩ := Option.map_eq_some_iff.1 read
  cases cut
  obtain ⟨name, spells, filled, rfl, short⟩ := decodeLoop_spelled (by decide) loop
  rw [foldl_addLabel_nil fun label member => (filled label member).1] at short ⊢
  exact ⟨name, spells, filled, rfl, short⟩

theorem zero_not_mem_canonOwner {spelled canon : Bytes} (made : canonOwner spelled = some canon) (clean : 0 ∉ spelled) :
    0 ∉ canon := by
  have small : 0 ∉ spelled.map lowerByte := by simpa [lowerByte_zero] using clean
  unfold canonOwner at made
  split at made
  · cases made
  split at made
  · cases made
    decide
  cases made
  split
  · exact fun member => small (mem_of_mem_dropLast member)
  · exact small

theorem nameToWire_iff (room : Nat) (filled : Filled 63 name) (short : (text name).length + 1 ≤ nameRoom) :
    nameToWire ((text name).takeWhile (· ≠ 0)) room = some (wire (lower name)) ↔ Plain name ∧
      (wire name).length ≤ room := by
  constructor
  · intro put
    rw [← plain_lower_iff, ← wire_lower_length]
    unfold nameToWire at put
    split at put
    · cases put
    rename_i canon made
    have clean := zero_not_mem_canonOwner made fun member => by simpa using mem_takeWhile_imp member
    split at put
    · split at put
      · cases put
      cases rooted : lower name with
      | nil => exact ⟨by simp [Plain], by simp [wire]; omega⟩
      | cons label rest =>
        rw [rooted, wire_cons] at put
        simp [wire] at put
    rename_i named
    obtain ⟨long, fits, same⟩ := putLabels_iff.1 put
    have kept : Filled 255 (textLabels canon) :=
      fun label member => ⟨by simpa using (mem_filter.1 member).2, long label member⟩
    have labels : lower name = textLabels canon := by
      have left := wireLabels_wire _ _ (wide filled.lower)
        (Nat.lt_succ_of_le (Nat.le_max_left _ (textLabels canon).length))
      have right := wireLabels_wire _ _ kept (Nat.lt_succ_of_le (Nat.le_max_right (lower name).length _))
      rw [same, nil_append, right] at left
      exact (append_cancel_right left).symm
    have some : textLabels canon ≠ [] := fun none => by
      rw [none] at labels
      rw [map_eq_nil_iff.1 labels] at made
      cases made
      exact named (Or.inr rfl)
    rw [same]
    refine ⟨?_, by simpa using fits some⟩
    rw [labels]
    intro label member
    obtain ⟨noDot, within⟩ := part_of_splitOn (mem_filter.1 member).1
    exact ⟨noDot, fun zero => clean (within zero)⟩
  · rintro ⟨plain, fits⟩
    rw [takeWhile_ne_of_not_mem (zero_not_mem_text plain)]
    exact nameToWire_eq filled.lower plain.lower (canonOwner_text filled plain short) (by rwa [wire_lower_length])

end Name

/-- `bd_name_eq`. -/
def nameEq (a b : Bytes) : Bool :=
  match canonOwner a, canonOwner b with
  | some a, some b => a == b
  | _, _ => false

open Name in
/-- A name is encoded as the packet spells it, as long as there is room, where no label holds a dot or a NUL; such
names are taken for the same name where their labels are the same. -/
theorem decodeName_faithful_iff {pkt text : Bytes} {off last : Nat} (room : Nat)
    (read : decodeName pkt off = some (text, last)) :
    ∃ name, spelled pkt 300 off = some name ∧
      (nameToWire text room = some (wire (lower name)) ↔ Plain name ∧ (wire name).length ≤ room) ∧
      ∀ pkt' off' text' last' name', decodeName pkt' off' = some (text', last') → spelled pkt' 300 off' = some name' →
        Plain name → Plain name' → (nameEq text text' = true ↔ lower name = lower name') := by
  obtain ⟨name, spells, filled, rfl, short⟩ := decodeName_spelled read
  refine ⟨name, spells, nameToWire_iff room filled short,
    fun pkt' off' text' last' name' read' spells' plain plain' => ?_⟩
  obtain ⟨other, spells'', filled', rfl, short'⟩ := decodeName_spelled read'
  cases spells'.symm.trans spells''
  rw [takeWhile_ne_of_not_mem (zero_not_mem_text plain), takeWhile_ne_of_not_mem (zero_not_mem_text plain'), nameEq,
    canonOwner_text filled plain short, canonOwner_text filled' plain' short']
  simp only [beq_iff_eq]
  exact ⟨canon_injective filled.lower plain.lower filled'.lower plain'.lower, fun same => by rw [same]⟩

theorem decodeName_pointer_faithful :
    ∃ name, Name.spelled [0, 1, 0x41, 0xc0, 0] 300 1 = some name ∧
      nameToWire [0x41] 3 = some (Name.wire (Name.lower name)) := by
  obtain ⟨name, spells, encoded, -⟩ := decodeName_faithful_iff 3
    (show decodeName [0, 1, 0x41, 0xc0, 0] 1 = some ([0x41], 5) by decide)
  cases spells
  exact ⟨_, rfl, encoded.2 ⟨by unfold Name.Plain; decide, by decide⟩⟩

/-- One label with a dot in it, and two labels. -/
theorem decodeName_dotted_label :
    decodeName [3, 0x61, dot, 0x62, 0] 0 = some ([0x61, dot, 0x62], 5) ∧
    Name.spelled [3, 0x61, dot, 0x62, 0] 300 0 = some [[0x61, dot, 0x62]] ∧
    decodeName [1, 0x61, 1, 0x62, 0] 0 = some ([0x61, dot, 0x62], 5) ∧
    Name.spelled [1, 0x61, 1, 0x62, 0] 300 0 = some [[0x61], [0x62]] ∧
    nameToWire [0x61, dot, 0x62] nameRoom = some [1, 0x61, 1, 0x62, 0] ∧
    nameEq [0x61, dot, 0x62] [0x61, dot, 0x62] = true := by decide

end BashOs.Dns

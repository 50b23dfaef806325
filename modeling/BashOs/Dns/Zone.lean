import BashOs.Dns.Labels

/-!
A signed zone: its names and their types, which of them a wildcard answers for, and the two kinds of record that its
signer makes of them to show what is not there. The labels of NSEC3 spell the number that a hash spells, five bits
to the digit (`bd_nsec3_base32hex`), so that hashes of one length and their labels stand in the same order.
-/

namespace BashOs.Dns
open BashOs.Lib List

def base32Text (digits : List Nat) : Bytes := digits.map base32Digit

theorem base32Digit_facts {n : Nat} (small : n < 32) :
    (base32Digit n).toNat = (if n < 10 then 0x30 + n else 0x57 + n) ∧ base32Digit n ≠ dot := by
  have all : ∀ i : Fin 32, (base32Digit i.val).toNat = (if i.val < 10 then 0x30 + i.val else 0x57 + i.val) ∧
      base32Digit i.val ≠ dot := by decide
  exact all ⟨n, small⟩

theorem base32Digit_lt {m n : Nat} (left : m < 32) (right : n < 32) : base32Digit m < base32Digit n ↔ m < n := by
  rw [UInt8.lt_iff_toNat_lt, (base32Digit_facts left).1, (base32Digit_facts right).1]
  split <;> split <;> omega

theorem dot_not_mem_base32Text {digits : List Nat} (small : ∀ d ∈ digits, d < 32) : dot ∉ base32Text digits := by
  intro member
  obtain ⟨d, inside, same⟩ := mem_map.1 member
  exact (base32Digit_facts (small d inside)).2 same

theorem bytesCmp_base32Text {xs ys : List Nat} (left : ∀ d ∈ xs, d < 32) (right : ∀ d ∈ ys, d < 32) :
    bytesCmp (base32Text xs) (base32Text ys) = lexCmp xs ys :=
  lexCmp_map fun x first y second =>
    ⟨base32Digit_lt (left x first) (right y second), base32Digit_lt (right y second) (left x first)⟩

def bytesValue (bytes : Bytes) : Nat := valueOf 256 (bytes.map UInt8.toNat)

theorem bytesCmp_eq_compare {a b : Bytes} (same : a.length = b.length) :
    bytesCmp a b = compare (bytesValue a) (bytesValue b) := by
  have small (bytes : Bytes) : ∀ d ∈ bytes.map UInt8.toNat, d < 256 := by
    intro d member
    obtain ⟨byte, -, rfl⟩ := mem_map.1 member
    exact byte.toNat_lt
  have numbers : bytesCmp a b = lexCmp (a.map UInt8.toNat) (b.map UInt8.toNat) :=
    (lexCmp_map fun x _ y _ => ⟨UInt8.lt_iff_toNat_lt.symm, UInt8.lt_iff_toNat_lt.symm⟩).symm
  rw [numbers, lexCmp_eq_compare (by simpa using same) (small a) (small b)]
  rfl

/-! ## The loop -/

structure Spelt (acc bits : Nat) (out : Bytes) (value length : Nat) : Prop where
  digits : ∃ ds, out = base32Text ds ∧ (∀ d ∈ ds, d < 32) ∧ valueOf 32 ds * 2 ^ bits + acc % 2 ^ bits = value ∧
    5 * ds.length + bits = 8 * length

section
variable {acc bits value length room : Nat} {out bytes text : Bytes}

theorem Spelt.push (spelt : Spelt acc (bits + 5) out value length) :
    Spelt acc bits (out ++ [base32Digit (acc / 2 ^ bits % 32)]) value length := by
  obtain ⟨ds, rfl, small, spells, count⟩ := spelt.digits
  refine ⟨ds ++ [acc / 2 ^ bits % 32], by simp [base32Text], ?_, ?_, ?_⟩
  · intro d member
    obtain early | last := mem_append.1 member
    · exact small d early
    · rw [mem_singleton] at last
      omega
  · have parts : acc % 2 ^ (bits + 5) = acc % 2 ^ bits + 2 ^ bits * (acc / 2 ^ bits % 32) := by
      rw [Nat.pow_add]
      exact Nat.mod_mul
    rw [valueOf_append_singleton, ← spells, parts]
    ring
  · rw [length_append, length_singleton]
    omega

section
variable (spelt : Spelt acc bits out value length)
include spelt

theorem putDigits_spelt {fuel bits' : Nat} {out' : Bytes} (few : bits < 5 * (fuel + 1))
    (ran : putDigits room acc fuel bits out = some (bits', out')) :
    Spelt acc bits' out' value length ∧ bits' < 5 := by
  induction fuel generalizing bits out with
  | zero =>
    cases ran
    exact ⟨spelt, few⟩
  | succ fuel ih =>
    rw [putDigits] at ran
    split at ran
    next below =>
      cases ran
      exact ⟨spelt, below⟩
    split at ran
    · cases ran
    obtain ⟨left, rfl⟩ : ∃ left, bits = left + 5 := ⟨bits - 5, by omega⟩
    exact ih spelt.push (by omega) ran

theorem Spelt.byte (few : bits < 5) (b : UInt8) :
    Spelt ((acc * 256 + b.toNat) % 2 ^ 32) (bits + 8) out (value * 256 + b.toNat) (length + 1) := by
  obtain ⟨ds, whole, small, spells, count⟩ := spelt.digits
  refine ⟨ds, whole, small, ?_, by omega⟩
  have small := b.toNat_lt
  have kept : (acc * 256 + b.toNat) % 2 ^ 32 % 2 ^ (bits + 8) = acc % 2 ^ bits * 256 + b.toNat := by
    have divides : 2 ^ (bits + 8) ∣ 2 ^ 32 := Nat.pow_dvd_pow 2 (by omega)
    have wide : 2 ^ (bits + 8) = 2 ^ bits * 256 := Nat.pow_add 2 bits 8
    have fits : acc % 2 ^ bits * 256 + b.toNat < 2 ^ bits * 256 := by omega
    have parts : acc * 256 + b.toNat = acc % 2 ^ bits * 256 + b.toNat + 2 ^ bits * 256 * (acc / 2 ^ bits) := by
      have := Nat.mod_add_div acc (2 ^ bits)
      calc acc * 256 + b.toNat = (acc % 2 ^ bits + 2 ^ bits * (acc / 2 ^ bits)) * 256 + b.toNat := by rw [this]
        _ = _ := by ring
    rw [Nat.mod_mod_of_dvd _ divides, wide, parts, Nat.add_mul_mod_self_left, Nat.mod_eq_of_lt fits]
  rw [kept, ← spells]
  ring

theorem base32Loop_spelt (few : bits < 5) (ran : base32Loop room acc bits out bytes = some text) :
    ∃ ds pad, text = base32Text ds ∧ (∀ d ∈ ds, d < 32) ∧ pad < 5 ∧ 5 * ds.length = 8 * (length + bytes.length) + pad ∧
      valueOf 32 ds = (bytes.map UInt8.toNat).foldl (fun value d => value * 256 + d) value * 2 ^ pad := by
  induction bytes generalizing acc bits value length out with
  | nil =>
    obtain ⟨ds, whole, small, spells, count⟩ := spelt.digits
    rw [base32Loop] at ran
    split at ran
    next none =>
      subst none
      cases ran
      refine ⟨ds, 0, whole, small, by decide, by simpa using count, ?_⟩
      rw [Nat.pow_zero, Nat.mod_one, add_zero, mul_one] at spells
      simpa using spells
    rename_i some
    split at ran
    · cases ran
    cases ran
    have width : 2 ^ bits * 2 ^ (5 - bits) = 32 := by
      rw [← Nat.pow_add, show bits + (5 - bits) = 5 by omega]
    -- the last digit is what a shift to the left by the missing bits would leave to write
    have shifted : acc * 2 ^ (5 - bits) % 2 ^ 32 % 32 = acc % 2 ^ bits * 2 ^ (5 - bits) := by
      rw [Nat.mod_mod_of_dvd _ (by decide), ← width]
      exact Nat.mul_mod_mul_right _ _ _
    have digit : acc % 2 ^ bits * 2 ^ (5 - bits) < 32 := by
      rw [← shifted]
      exact Nat.mod_lt _ (by decide)
    refine ⟨ds ++ [acc % 2 ^ bits * 2 ^ (5 - bits)], 5 -
      bits, by rw [whole, shifted]; simp [base32Text], ?_, by omega, ?_, ?_⟩
    · intro d member
      obtain early | last := mem_append.1 member
      · exact small d early
      · rw [mem_singleton] at last
        rwa [last]
    · rw [length_append, length_singleton, length_nil]
      omega
    · rw [valueOf_append_singleton, map_nil, foldl_nil, ← spells, Nat.add_mul, Nat.mul_assoc, width]
  | cons b rest ih =>
    rw [base32Loop] at ran
    split at ran
    · cases ran
    rename_i bits' out' wrote
    obtain ⟨after, below⟩ := putDigits_spelt (spelt.byte few b) (by omega) wrote
    obtain ⟨ds, pad, whole, small, short, count, spells⟩ := ih after below ran
    refine ⟨ds, pad, whole, small, short, ?_, spells⟩
    rw [length_cons]
    omega

end

theorem nsec3Base32hex_spells (made : nsec3Base32hex bytes room = some text) :
    ∃ ds pad, text = base32Text ds ∧ (∀ d ∈ ds, d < 32) ∧ pad < 5 ∧ 5 * ds.length = 8 * bytes.length + pad ∧
      valueOf 32 ds = bytesValue bytes * 2 ^ pad := by
  have start : Spelt 0 0 [] 0 0 := ⟨[], rfl, (by simp), rfl, rfl⟩
  obtain ⟨ds, pad, whole, small, short, count, spells⟩ := base32Loop_spelt start (by decide) made
  exact ⟨ds, pad, whole, small, short, by rw [count, zero_add], spells⟩

theorem nsec3Base32hex_order {a b left right : Bytes} {room' : Nat} (same : a.length = b.length)
    (first : nsec3Base32hex a room = some left) (second : nsec3Base32hex b room' = some right) :
    bytesCmp left right = bytesCmp a b := by
  obtain ⟨xs, pad, rfl, small, short, count, spells⟩ := nsec3Base32hex_spells first
  obtain ⟨ys, pad', rfl, small', short', count', spells'⟩ := nsec3Base32hex_spells second
  obtain rfl : pad = pad' := by omega
  have even : xs.length = ys.length := by omega
  rw [bytesCmp_base32Text small small', lexCmp_eq_compare even small small', bytesCmp_eq_compare same, spells, spells']
  simp only [Nat.compare_eq_ite_lt, Nat.mul_lt_mul_right (Nat.two_pow_pos pad)]

theorem dot_not_mem_nsec3Base32hex (made : nsec3Base32hex bytes room = some text) : dot ∉ text := by
  obtain ⟨ds, -, rfl, small, -⟩ := nsec3Base32hex_spells made
  exact dot_not_mem_base32Text small

end

/-! ## Types in windows -/

structure Window where
  number : UInt8
  octets : Bytes
  filled : 1 ≤ octets.length
  short : octets.length ≤ 32
deriving DecidableEq

def Window.bytes (window : Window) : Bytes := window.number :: UInt8.ofNat window.octets.length :: window.octets

def bitmapBytes (windows : List Window) : Bytes := windows.flatMap Window.bytes

def Listed (windows : List Window) (type : Nat) : Prop :=
  ∃ window ∈ windows, type / 256 = window.number.toNat ∧ bitSet window.octets type = true

theorem bitmapLoop_windows (type fuel : Nat) (prev : Int) (windows : List Window) (present : Bool)
    (sorted : (windows.map fun window => (window.number.toNat : Int)).Pairwise (· < ·))
    (behind : ∀ window ∈ windows, prev < window.number.toNat) (enough : (bitmapBytes windows).length ≤ fuel) :
    ∃ found, bitmapLoop type fuel prev (bitmapBytes windows) present = some found ∧
      (found = true ↔ present = true ∨ Listed windows type) := by
  induction windows generalizing fuel prev present with
  | nil => exact ⟨present, by cases fuel <;> rfl, by simp [Listed]⟩
  | cons window rest ih =>
    have whole : bitmapBytes (window :: rest) =
        window.number :: UInt8.ofNat window.octets.length :: (window.octets ++ bitmapBytes rest) := by
      simp [bitmapBytes, Window.bytes]
    rw [whole, length_cons, length_cons, length_append] at enough
    obtain ⟨fuel, rfl⟩ : ∃ more, fuel = more + 1 := ⟨fuel - 1, by omega⟩
    have size : (UInt8.ofNat window.octets.length).toNat = window.octets.length :=
      byte_ofNat_toNat (by have := window.short; omega)
    have within : ¬ (UInt8.ofNat window.octets.length < 1 ∨ 32 < UInt8.ofNat window.octets.length) := by
      have low := window.filled
      have high := window.short
      rw [UInt8.lt_iff_toNat_lt, UInt8.lt_iff_toNat_lt, size]
      rintro (below | above)
      · exact absurd below (not_lt.2 low)
      · exact absurd above (not_lt.2 high)
    have later : ¬ (window.number.toNat : Int) ≤ prev := not_le.2 (behind window (.head _))
    rw [map_cons, pairwise_cons] at sorted
    have first : ∀ other ∈ rest, (window.number.toNat : Int) < other.number.toNat := fun other member =>
      sorted.1 _ (mem_map_of_mem member)
    rw [whole, bitmapLoop, if_neg within, if_neg later, size, if_neg (by rw [length_append]; omega), take_left,
      drop_left]
    obtain ⟨found, ran, means⟩ := ih fuel window.number.toNat
      (if type / 256 = window.number.toNat ∧ bitSet window.octets type = true then true else present) sorted.2
        first (by omega)
    refine ⟨found, ran, means.trans ?_⟩
    have listed : Listed (window :: rest) type ↔
        (type / 256 = window.number.toNat ∧ bitSet window.octets type = true) ∨ Listed rest type := by
      simp [Listed]
    rw [listed]
    split
    next here => simp [here]
    next absent => simp [absent]

structure TypeBitmap where
  windows : List Window
  sorted : (windows.map fun window => (window.number.toNat : Int)).Pairwise (· < ·)

def TypeBitmap.bytes (bitmap : TypeBitmap) : Bytes := bitmapBytes bitmap.windows

theorem TypeBitmap.has (bitmap : TypeBitmap) (type : Nat) :
    ∃ found, nsecBitmapHasType bitmap.bytes type = some found ∧ (found = true ↔ Listed bitmap.windows type) := by
  obtain ⟨found, ran, means⟩ := bitmapLoop_windows type _ (-1) bitmap.windows false bitmap.sorted
    (fun window _ => by omega) le_rfl
  exact ⟨found, ran, means.trans (by simp)⟩

/-! ## Zones -/

structure Zone where
  apex : Name
  has : Name → Nat → Prop
  apexHas : ∃ type, has apex type
  within : ∀ name type, has name type → apex <:+ name ∧ Name.Sized name ∧ Name.lower name = name

namespace Zone
variable (zone : Zone)

def Owner (name : Name) : Prop := ∃ type, zone.has name type

def Exists (name : Name) : Prop := zone.apex <:+ name ∧ ∃ owner, zone.Owner owner ∧ name <:+ owner

def star : Bytes := [0x2a]

/-- The longest name above one, or itself, that is there. -/
structure Closest (encloser name : Name) : Prop where
  part : encloser <:+ name
  there : zone.Exists encloser
  most : ∀ above, above <:+ name → zone.Exists above → above.length ≤ encloser.length

/-- A name that is not there is answered for by the wildcard below the closest name above it that is, if that has
records of the type or is an alias. -/
def WildcardAnswers (name : Name) (type : Nat) : Prop :=
  ¬ zone.Exists name ∧ ∃ encloser, zone.Closest encloser name ∧
    (zone.has (star :: encloser) type ∨ zone.has (star :: encloser) typeCNAME)

variable {zone} {name : Name}

theorem Owner.exists (owner : zone.Owner name) : zone.Exists name := by
  obtain ⟨type, has⟩ := owner
  exact ⟨(zone.within name type has).1, name, ⟨type, has⟩, suffix_refl name⟩

theorem apex_exists : zone.Exists zone.apex := ⟨suffix_refl _, zone.apex, zone.apexHas, suffix_refl _⟩

end Zone

/-! ## The records of its signer -/

/-- What lies between one place of a ring and the next: the way from the last place leads over the end to the first. -/
def Between {α : Type} (cmp : α → α → Ordering) (owner next asked : α) : Prop :=
  if cmp owner next = .lt then cmp owner asked = .lt ∧ cmp asked next = .lt
  else cmp owner asked = .lt ∨ cmp asked next = .lt

/-- `next` is the place after `owner` in the ring of those that `S` holds. -/
structure IsNext {α : Type} (cmp : α → α → Ordering) (S : α → Prop) (owner next : α) : Prop where
  ownerIn : S owner
  nextIn : S next
  empty : ∀ asked, S asked → ¬ Between cmp owner next asked

theorem between_of_rangeCovers {cmp : Bytes → Bytes → Ordering} {owner next asked : Bytes}
    (covers : rangeCovers cmp owner next asked = true) : Between cmp owner next asked := by
  unfold rangeCovers at covers
  unfold Between
  split at covers
  next less =>
    rw [if_pos less]
    simpa using covers
  next more =>
    rw [if_neg (by simp [more])]
    simpa using covers
  · cases covers

def shownOwner (name : Name) : Bytes := (canonOwner ((Name.text name).takeWhile (· ≠ 0))).getD []

structure ChainNsec (zone : Zone) (rr : RR) where
  name : Name
  next : Name
  bitmap : TypeBitmap
  sized : Name.Sized next
  ring : IsNext nameCmp zone.Owner name (Name.lower next)
  types : ∀ type, zone.has name type ↔ Listed bitmap.windows type
  owner : rr.owner = shownOwner name
  rdata : rr.rdata = Name.wire next ++ bitmap.bytes

/-- An NSEC3 record of the zone: of a name that is there, with the next hash. Unless its opt-out flag is set, no
name that is there has a hash in between. -/
structure ChainNsec3 (out : Outside) (zone : Zone) (rr : RR) where
  name : Name
  there : zone.Exists name
  alg : UInt8
  flags : UInt8
  iterations : Nat
  salt : Bytes
  hash : Bytes
  next : Bytes
  label : Bytes
  bitmap : TypeBitmap
  fewIterations : iterations < 2 ^ 16
  shortSalt : salt.length < 256
  shortNext : next.length < 256
  hashed : out.nsec3HashWire (Name.wire name) alg salt iterations = some hash
  types : ∀ type, zone.has name type ↔ Listed bitmap.windows type
  ring : flags = 0 → IsNext bytesCmp
    (fun h => ∃ other, zone.Exists other ∧ out.nsec3HashWire (Name.wire other) alg salt iterations = some h) hash next
  labelled : nsec3Base32hex hash 128 = some label
  owner : rr.owner = label ++ if zone.apex = [] then [] else dot :: shownOwner zone.apex
  rdata : rr.rdata = alg :: flags :: be 2 iterations ++ UInt8.ofNat salt.length :: salt ++
    UInt8.ofNat next.length :: next ++ bitmap.bytes

end BashOs.Dns

import BashOs.Git.Pack.Delta
import BashOs.Git.Pack.Idx

/-!
Reading an object out of a mapped pack: its header, the base a delta leans on, and the cache of bases that
stands between the two. `Holds` says what a pack holds at an offset and how long the chain of deltas under
it is; the reader is proved against it.
-/

namespace BashOs.Git.Pack
open BashOs.Lib List Option

/-! ## Headers -/

def ofsDelta : Nat := 6
def refDelta : Nat := 7

def packType : ObjectType → Nat
  | .commit => 1
  | .tree => 2
  | .blob => 3
  | .tag => 4

def typeFromPack : Nat → Option ObjectType
  | 1 => some .commit
  | 2 => some .tree
  | 3 => some .blob
  | 4 => some .tag
  | _ => none

def encodeObjHeader (type size : Nat) : Bytes :=
  let b := UInt8.ofNat ((type &&& 0x7) <<< 4 ||| size &&& 0xf)
  if size >>> 4 = 0 then [b] else (b ||| 0x80) :: sevenBits (size >>> 4)

def readObjHeader : Bytes → Option (Nat × Nat × Bytes)
  | [] => none
  | b :: rest =>
    let type := (b >>> 4 &&& 0x7).toNat
    let size := (b &&& 0xf).toNat
    if b &&& 0x80 = 0 then some (type, size, rest)
    else (readSevenBits 64 9 4 size rest).map fun (size, rest) => (type, size, rest)

/-! ## The cache of bases -/

def cacheBytes : Nat := 8 * 1024 * 1024

structure Mapping where
  address : Nat
  bytes : Bytes
deriving DecidableEq

structure Cached where
  pack : Nat
  plen : Nat
  off : Nat
  type : ObjectType
  data : Bytes
  used : Nat
deriving DecidableEq

structure Cache where
  slots : List (Option Cached)
  bytes : Nat
  clock : Nat
deriving DecidableEq

def Cache.empty : Cache := { slots := List.replicate 256 none, bytes := 0, clock := 0 }

def tick (clock : Nat) : Nat := (clock + 1) % 2 ^ 64

def Cached.isFor (held : Cached) (pack : Mapping) (off : Nat) : Bool :=
  held.pack = pack.address ∧ held.plen = pack.bytes.length ∧ held.off = off

def takeFrom (pack : Mapping) (off clock : Nat) : List (Option Cached) → Option (Cached × List (Option Cached))
  | [] => none
  | none :: rest => (takeFrom pack off clock rest).map fun (held, rest) => (held, none :: rest)
  | some held :: rest =>
    if held.isFor pack off then some (held, some { held with used := clock } :: rest)
    else (takeFrom pack off clock rest).map fun (found, rest) => (found, some held :: rest)

def Cache.take (cache : Cache) (pack : Mapping) (off : Nat) : Option ((ObjectType × Bytes) × Cache) :=
  (takeFrom pack off (tick cache.clock) cache.slots).map fun (held, slots) =>
    ((held.type, held.data), { cache with slots, clock := tick cache.clock })

/-- The first slot used longest ago, leaving out slot `except`. -/
def oldest (except : Option Nat) : Nat → Option (Nat × Nat) → List (Option Cached) → Option Nat
  | _, best, [] => best.map Prod.fst
  | i, best, none :: rest => oldest except (i + 1) best rest
  | i, best, some held :: rest =>
    if except = some i then oldest except (i + 1) best rest
    else
      match best with
      | some (_, used) =>
        if held.used < used then oldest except (i + 1) (some (i, held.used)) rest else oldest except (i + 1) best rest
      | none => oldest except (i + 1) (some (i, held.used)) rest

def chooseSlot (slots : List (Option Cached)) : Option Nat :=
  match slots.findIdx? (fun slot => slot.isNone) with
  | some i => some i
  | none => oldest none 0 none slots

def Cache.drop (cache : Cache) (i : Nat) : Cache :=
  match cache.slots[i]? with
  | some (some held) => { cache with slots := cache.slots.set i none, bytes := cache.bytes - held.data.length }
  | _ => cache

/-- Slots are dropped, the longest unused first, until the rest is small enough. Each round drops one. -/
def Cache.makeRoom (kept : Nat) : Nat → Cache → Cache
  | 0, cache => cache
  | rounds + 1, cache =>
    if cache.bytes > cacheBytes then
      match oldest (some kept) 0 none cache.slots with
      | none => cache
      | some i => Cache.makeRoom kept rounds (cache.drop i)
    else cache

def Cache.keep (cache : Cache) (pack : Mapping) (off : Nat) (object : ObjectType × Bytes) : Cache :=
  if object.2.length > cacheBytes / 4 then cache
  else
    match chooseSlot cache.slots with
    | none => cache
    | some i =>
      let cache := cache.drop i
      let held : Cached :=
        { pack := pack.address, plen := pack.bytes.length, off, type := object.1, data := object.2,
          used := tick cache.clock }
      Cache.makeRoom i cache.slots.length
        { slots := cache.slots.set i (some held), bytes := cache.bytes + object.2.length, clock := tick cache.clock }

/-! ## Reading an object -/

abbrev Answer := Option (ObjectType × Bytes) × Cache

def readBase (read : Nat → Cache → Answer) (pack : Mapping) (off : Nat) (cache : Cache) : Answer :=
  match cache.take pack off with
  | some (object, cache) => (some object, cache)
  | none =>
    match read off cache with
    | (none, cache) => (none, cache)
    | (some object, cache) => (some object, cache.keep pack off object)

def finishDelta (delta : Bytes) : Answer → Answer
  | (none, cache) => (none, cache)
  | (some (type, base), cache) => ((applyDelta base delta).map fun content => (type, content), cache)

def inflateExpected (prim : Primitives) (expected : Nat) (bytes : Bytes) : Option Bytes :=
  (prim.inflate bytes).bind fun (plain, _) => if plain.length = expected then some plain else none

def maxDeltaDepth : Nat := 50

/-- `bgit_pack_read_object_at`, with `left` levels of deltas still allowed: at depth `d` it is
`maxDeltaDepth + 1 - d`. `loose` reads an object outside the pack. -/
def readObjectAtFrom (prim : Primitives) (loose : LooseRead) (pack : Mapping)
    (idx : Bytes) : Nat → Nat → Cache → Answer
  | 0, _, cache => (none, cache)
  | left + 1, off, cache =>
    match readObjHeader (pack.bytes.drop off) with
    | none => (none, cache)
    | some (type, expected, rest) =>
      match typeFromPack type with
      | some kind => ((inflateExpected prim expected rest).map fun content => (kind, content), cache)
      | none =>
        if type = ofsDelta then
          match readBackOffset 64 9 rest with
          | none => (none, cache)
          | some (distance, rest) =>
            if distance = 0 ∨ distance > off then (none, cache)
            else
              match inflateExpected prim expected rest with
              | none => (none, cache)
              | some delta =>
                finishDelta delta
                  (readBase (readObjectAtFrom prim loose pack idx left) pack (off - distance) cache)
        else if type = refDelta then
          if room : 20 ≤ rest.length then
            let sha : ObjectId := ⟨rest.take 20, length_take_id room⟩
            match inflateExpected prim expected (rest.drop 20) with
            | none => (none, cache)
            | some delta =>
              let baseOff := lookupOffset idx sha
              if baseOff ≠ notFound then
                finishDelta delta (readBase (readObjectAtFrom prim loose pack idx left) pack baseOff cache)
              else finishDelta delta (loose sha, cache)
          else (none, cache)
        else (none, cache)

def readObjectAt (prim : Primitives) (loose : LooseRead) (pack : Mapping) (idx : Bytes)
    (off depth : Nat) (cache : Cache) : Answer :=
  readObjectAtFrom prim loose pack idx (maxDeltaDepth + 1 - depth) off cache

/-! ## Headers read back -/

section Headers

theorem typeFromPack_packType (kind : ObjectType) : typeFromPack (packType kind) = some kind := by
  cases kind <;> rfl

theorem header_byte (type low : Nat) (seven : type < 8) (nibble : low < 16) :
    let b := UInt8.ofNat ((type &&& 0x7) <<< 4 ||| low &&& 0xf)
    b &&& 0x80 = 0 ∧ (b >>> 4 &&& 0x7).toNat = type ∧ (b &&& 0xf).toNat = low ∧
      (b ||| 0x80) &&& 0x80 ≠ 0 ∧ ((b ||| 0x80) >>> 4 &&& 0x7).toNat = type ∧ ((b ||| 0x80) &&& 0xf).toNat = low := by
  have all : ∀ t : Fin 8, ∀ l : Fin 16, let b := UInt8.ofNat ((t.val &&& 0x7) <<< 4 ||| l.val &&& 0xf)
      b &&& 0x80 = 0 ∧ (b >>> 4 &&& 0x7).toNat = t.val ∧ (b &&& 0xf).toNat = l.val ∧
        (b ||| 0x80) &&& 0x80 ≠ 0 ∧ ((b ||| 0x80) >>> 4 &&& 0x7).toNat = t.val ∧
        ((b ||| 0x80) &&& 0xf).toNat = l.val := by
    decide +kernel
  exact all ⟨type, seven⟩ ⟨low, nibble⟩

theorem readObjHeader_encodeObjHeader {type size : Nat} (seven : type < 8) (fits : size < 2 ^ 64) (tail : Bytes) :
    readObjHeader (encodeObjHeader type size ++ tail) = some (type, size, tail) := by
  have nibble : size &&& 0xf = size % 16 := Nat.and_two_pow_sub_one_eq_mod size 4
  have high : size >>> 4 = size / 16 := Nat.shiftRight_eq_div_pow size 4
  obtain ⟨plain, typed, sized, marked, typed', sized'⟩ := header_byte type (size % 16) seven (by omega)
  have low : size % 16 &&& 0xf = size % 16 := (Nat.and_two_pow_sub_one_eq_mod (size % 16) 4).trans (Nat.mod_mod size 16)
  rw [low] at plain typed sized marked typed' sized'
  unfold encodeObjHeader
  simp only [nibble, high]
  by_cases short : size / 16 = 0
  · have whole : size % 16 = size := by omega
    rw [whole] at plain typed sized
    simp only [short, whole, ↓reduceIte, cons_append, nil_append, readObjHeader, plain, typed, sized]
  · have read := readSevenBits_sevenBits 64 (size / 16) 9 4 (size % 16) tail (by omega) (by decide) (by omega)
      (by omega) (by decide)
    have whole : size % 16 + size / 16 * 2 ^ 4 = size := by omega
    simp only [short, ↓reduceIte, cons_append, readObjHeader, marked, typed', sized', read, map_some, whole]

end Headers

/-! ## What a pack holds -/

inductive Holds (prim : Primitives) (pack idx : Bytes) : Nat → Nat → ObjectType × Bytes → Prop
  | whole {off : Nat} {rest : Bytes} {kind : ObjectType} {content : Bytes}
      (header : readObjHeader (pack.drop off) = some (packType kind, content.length, rest))
      (inflated : inflateExpected prim content.length rest = some content) : Holds prim pack idx off 0 (kind, content)
  | back {off distance depth : Nat} {rest after : Bytes} {kind : ObjectType} {base delta content : Bytes}
      (header : readObjHeader (pack.drop off) = some (ofsDelta, delta.length, rest))
      (named : readBackOffset 64 9 rest = some (distance, after))
      (earlier : 0 < distance ∧ distance ≤ off)
      (inflated : inflateExpected prim delta.length after = some delta)
      (below : Holds prim pack idx (off - distance) depth (kind, base))
      (applied : applyDelta base delta = some content) : Holds prim pack idx off (depth + 1) (kind, content)
  | named {off depth : Nat} {sha : ObjectId} {after : Bytes} {kind : ObjectType} {base delta content : Bytes}
      (header : readObjHeader (pack.drop off) = some (refDelta, delta.length, sha.bytes ++ after))
      (inflated : inflateExpected prim delta.length after = some delta)
      (known : lookupOffset idx sha ≠ notFound)
      (below : Holds prim pack idx (lookupOffset idx sha) depth (kind, base))
      (applied : applyDelta base delta = some content) : Holds prim pack idx off (depth + 1) (kind, content)

variable {off : Nat} {held : Cached} {cache : Cache} {holds : Nat → Nat → Nat → ObjectType × Bytes → Prop}
  {object : ObjectType × Bytes}

section Reader
variable {prim : Primitives} {loose : LooseRead} {pack : Mapping} {idx : Bytes}

def Cache.Right (prim : Primitives) (pack : Mapping) (idx : Bytes) (cache : Cache) : Prop :=
  ∀ held off, some held ∈ cache.slots → held.isFor pack off = true →
    ∃ depth, Holds prim pack.bytes idx off depth (held.type, held.data)

theorem Cache.empty_right : Cache.empty.Right prim pack idx := by
  intro held off member
  exact absurd (eq_of_mem_replicate member) (by simp)

theorem takeFrom_held {clock : Nat} {slots after : List (Option Cached)}
    (taken : takeFrom pack off clock slots = some (held, after)) :
    some held ∈ slots ∧ held.isFor pack off = true ∧
      ∀ kept, some kept ∈ after → some kept ∈ slots ∨ kept = { held with used := clock } := by
  induction slots generalizing after with
  | nil => cases taken
  | cons slot rest ih =>
    have later (ran : (takeFrom pack off clock rest).map (fun (found, after) => (found, slot :: after)) =
      some (held, after)) :
        some held ∈ slot :: rest ∧ held.isFor pack off = true ∧
          ∀ kept, some kept ∈ after → some kept ∈ slot :: rest ∨ kept = { held with used := clock } := by
      obtain ⟨⟨found, after⟩, there, same⟩ := map_eq_some_iff.1 ran
      cases same
      obtain ⟨member, right, others⟩ := ih there
      refine ⟨.tail _ member, right, fun kept inside => ?_⟩
      rcases mem_cons.1 inside with same | inside
      · exact .inl (same ▸ .head _)
      · exact (others kept inside).imp_left (mem_cons_of_mem _)
    cases slot with
    | none => exact later taken
    | some first =>
      rw [takeFrom] at taken
      split at taken
      next here =>
        cases taken
        refine ⟨.head _, here, fun kept inside => ?_⟩
        exact (mem_cons.1 inside).symm.imp (mem_cons_of_mem _) Option.some.inj
      · exact later taken

/-- Every kept object is what it should be, by the pack's address and length and the offset it is kept for. -/
def Cache.Keeps (holds : Nat → Nat → Nat → ObjectType × Bytes → Prop) (cache : Cache) : Prop :=
  ∀ held, some held ∈ cache.slots → holds held.pack held.plen held.off (held.type, held.data)

theorem Cache.empty_keeps (holds : Nat → Nat → Nat → ObjectType × Bytes → Prop) : Cache.empty.Keeps holds := by
  intro held member
  exact absurd (eq_of_mem_replicate member) (by simp)

theorem Cache.take_keeps {after : Cache} (keeps : cache.Keeps holds)
    (taken : cache.take pack off = some (object, after)) :
    holds pack.address pack.bytes.length off object ∧ after.Keeps holds := by
  obtain ⟨⟨held, slots⟩, found, same⟩ := map_eq_some_iff.1 taken
  cases same
  obtain ⟨member, here, others⟩ := takeFrom_held found
  simp only [Cached.isFor, decide_eq_true_eq] at here
  refine ⟨here.1 ▸ here.2.1 ▸ here.2.2 ▸ keeps held member, ?_⟩
  intro kept inside
  rcases others kept inside with old | rfl
  · exact keeps kept old
  · exact keeps held member

theorem Cache.drop_slots (cache : Cache) (i : Nat) (member : some held ∈ (cache.drop i).slots) :
    some held ∈ cache.slots := by
  unfold Cache.drop at member
  split at member
  · rcases mem_or_eq_of_mem_set member with old | impossible
    · exact old
    · cases impossible
  · exact member

theorem Cache.makeRoom_slots (kept rounds : Nat) (cache : Cache)
    (member : some held ∈ (Cache.makeRoom kept rounds cache).slots) : some held ∈ cache.slots := by
  induction rounds generalizing cache with
  | zero => exact member
  | succ rounds ih =>
    rw [Cache.makeRoom] at member
    split at member
    · split at member
      · exact member
      next i _ => exact cache.drop_slots i (ih _ member)
    · exact member

theorem Cache.keep_keeps (keeps : cache.Keeps holds) (here : holds pack.address pack.bytes.length off object) :
    (cache.keep pack off object).Keeps holds := by
  unfold Cache.keep
  split
  · exact keeps
  split
  · exact keeps
  rename_i i _
  intro held member
  rcases mem_or_eq_of_mem_set (Cache.makeRoom_slots _ _ _ member) with old | new
  · exact keeps held (cache.drop_slots i old)
  · cases new
    exact here

theorem packType_injective {one two : ObjectType} (same : packType one = packType two) : one = two := by
  cases one <;> cases two <;> first | rfl | cases same

end Reader

/-! ## What stands at an offset -/

inductive BasePlace where
  | inPack (off : Nat)
  | outside (sha : ObjectId)
deriving DecidableEq

inductive PackEntry where
  | whole (object : ObjectType × Bytes)
  | delta (base : BasePlace) (delta : Bytes)
deriving DecidableEq

def entryAt (prim : Primitives) (pack idx : Bytes) (off : Nat) : Option PackEntry :=
  match readObjHeader (pack.drop off) with
  | none => none
  | some (type, expected, rest) =>
    match typeFromPack type with
    | some kind => (inflateExpected prim expected rest).map fun content => .whole (kind, content)
    | none =>
      if type = ofsDelta then
        match readBackOffset 64 9 rest with
        | none => none
        | some (distance, rest) =>
          if distance = 0 ∨ distance > off then none
          else (inflateExpected prim expected rest).map (.delta (.inPack (off - distance)))
      else if type = refDelta then
        if room : 20 ≤ rest.length then
          let sha : ObjectId := ⟨rest.take 20, length_take_id room⟩
          (inflateExpected prim expected (rest.drop 20)).map
            (.delta (if lookupOffset idx sha ≠ notFound then .inPack (lookupOffset idx sha) else .outside sha))
        else none
      else none

section
variable (prim : Primitives) (loose : LooseRead) (pack : Mapping) (idx : Bytes)

def readEntry (left : Nat) (cache : Cache) : Option PackEntry → Answer
  | none => (none, cache)
  | some (.whole object) => (some object, cache)
  | some (.delta (.inPack base) delta) =>
    finishDelta delta (readBase (readObjectAtFrom prim loose pack idx left) pack base cache)
  | some (.delta (.outside sha) delta) => finishDelta delta (loose sha, cache)

theorem readObjectAtFrom_succ (left off : Nat) (cache : Cache) :
    readObjectAtFrom prim loose pack idx (left + 1) off cache =
      readEntry prim loose pack idx left cache (entryAt prim pack.bytes idx off) := by
  rw [readObjectAtFrom, entryAt]
  cases readObjHeader (pack.bytes.drop off) with
  | none => rfl
  | some header =>
    obtain ⟨type, expected, rest⟩ := header
    dsimp only
    cases typeFromPack type with
    | some kind =>
      cases inflateExpected prim expected rest <;> rfl
    | none =>
      by_cases ofs : type = ofsDelta
      · rw [if_pos ofs, if_pos ofs]
        cases readBackOffset 64 9 rest with
        | none => rfl
        | some named =>
          obtain ⟨distance, after⟩ := named
          dsimp only
          by_cases wrong : distance = 0 ∨ distance > off
          · rw [if_pos wrong, if_pos wrong]
            rfl
          · rw [if_neg wrong, if_neg wrong]
            cases inflateExpected prim expected after <;> rfl
      rw [if_neg ofs, if_neg ofs]
      by_cases named : type = refDelta
      · rw [if_pos named, if_pos named]
        by_cases room : 20 ≤ rest.length
        · rw [dif_pos room, dif_pos room]
          cases inflateExpected prim expected (rest.drop 20) with
          | none => rfl
          | some delta =>
            dsimp only
            by_cases known : lookupOffset idx ⟨rest.take 20, length_take_id room⟩ ≠ notFound
            · rw [if_pos known, if_pos known]
              rfl
            · rw [if_neg known, if_neg known]
              rfl
        · rw [dif_neg room, dif_neg room]
          rfl
      · rw [if_neg named, if_neg named]
        rfl

end

inductive Resolves (prim : Primitives) (loose : LooseRead) (pack idx : Bytes) :
    Nat → Nat → ObjectType × Bytes → Prop where
  | whole {off : Nat} {object : ObjectType × Bytes} (entry : entryAt prim pack idx off = some (.whole object)) :
      Resolves prim loose pack idx off 0 object
  | inside {off base depth : Nat} {delta : Bytes} {kind : ObjectType} {content result : Bytes}
      (entry : entryAt prim pack idx off = some (.delta (.inPack base) delta))
      (below : Resolves prim loose pack idx base depth (kind, content))
        (applied : applyDelta content delta = some result) :
      Resolves prim loose pack idx off (depth + 1) (kind, result)
  | outside {off : Nat} {sha : ObjectId} {delta : Bytes} {kind : ObjectType} {content result : Bytes}
      (entry : entryAt prim pack idx off = some (.delta (.outside sha) delta))
        (found : loose sha = some (kind, content))
      (applied : applyDelta content delta = some result) : Resolves prim loose pack idx off 0 (kind, result)

section
variable (prim : Primitives) (loose : LooseRead) (pack : Mapping) (idx : Bytes)

def KeptFor (address length off : Nat) (object : ObjectType × Bytes) : Prop :=
  address = pack.address → length = pack.bytes.length → ∃ depth, Resolves prim loose pack.bytes idx off depth object

end

structure Closed (prim : Primitives) (loose : LooseRead) (pack idx : Bytes)
    (holds : Nat → ObjectType × Bytes → Prop) : Prop where
  whole : ∀ {off object}, entryAt prim pack idx off = some (.whole object) → holds off object
  inside : ∀ {off base delta kind content result}, entryAt prim pack idx off = some (.delta (.inPack base) delta) →
    holds base (kind, content) → applyDelta content delta = some result → holds off (kind, result)
  outside : ∀ {off sha delta kind content result}, entryAt prim pack idx off = some (.delta (.outside sha) delta) →
    loose sha = some (kind, content) → applyDelta content delta = some result → holds off (kind, result)

section
variable {prim : Primitives} {loose : LooseRead} {pack : Mapping} {idx : Bytes}
  {off : Nat} {object : ObjectType × Bytes} {cache : Cache}

theorem closed_resolves (pack : Bytes) :
    Closed prim loose pack idx fun off object => ∃ depth, Resolves prim loose pack idx off depth object :=
  ⟨fun entry => ⟨0, .whole entry⟩, fun entry ⟨depth, below⟩ applied => ⟨depth + 1, .inside entry below applied⟩,
    fun entry found applied => ⟨0, .outside entry found applied⟩⟩

theorem closed_any (pack : Bytes) : Closed prim loose pack idx fun _ _ => True :=
    ⟨fun _ => trivial, fun _ _ _ => trivial, fun _ _ _ => trivial⟩

theorem Resolves.unique {bytes : Bytes} {one two : Nat} {left right : ObjectType × Bytes}
    (here : Resolves prim loose bytes idx off one left) (there : Resolves prim loose bytes idx off two right) :
    left = right ∧ one = two := by
  induction here generalizing two right with
  | whole entry =>
    cases there with
    | whole entry' =>
      cases entry.symm.trans entry'
      exact ⟨rfl, rfl⟩
    | inside entry' => cases entry.symm.trans entry'
    | outside entry' => cases entry.symm.trans entry'
  | inside entry below applied ih =>
    cases there with
    | whole entry' => cases entry.symm.trans entry'
    | inside entry' below' applied' =>
      cases entry.symm.trans entry'
      obtain ⟨same, depth⟩ := ih below'
      cases same
      cases applied.symm.trans applied'
      exact ⟨rfl, by rw [depth]⟩
    | outside entry' => cases entry.symm.trans entry'
  | outside entry found applied =>
    cases there with
    | whole entry' => cases entry.symm.trans entry'
    | inside entry' => cases entry.symm.trans entry'
    | outside entry' found' applied' =>
      cases entry.symm.trans entry'
      cases found.symm.trans found'
      cases applied.symm.trans applied'
      exact ⟨rfl, rfl⟩

theorem finishDelta_eq_some {delta : Bytes} {answer : Answer} (finished : (finishDelta delta answer).1 = some object) :
    ∃ kind content result, answer.1 = some (kind, content) ∧ applyDelta content delta = some result ∧
      object = (kind, result) := by
  obtain ⟨base, cache⟩ := answer
  cases base with
  | none => cases finished
  | some base =>
    obtain ⟨result, applied, same⟩ := Option.map_eq_some_iff.1 finished
    exact ⟨base.1, base.2, result, rfl, applied, same.symm⟩

theorem finishDelta_cache (delta : Bytes) (answer : Answer) : (finishDelta delta answer).2 = answer.2 := by
  obtain ⟨base, cache⟩ := answer
  cases base <;> rfl

theorem readObjectAtFrom_closed {kept : Nat → Nat → Nat → ObjectType × Bytes → Prop}
    {holds : Nat → ObjectType × Bytes → Prop}
    (closed : Closed prim loose pack.bytes idx holds)
    (own : ∀ off object, kept pack.address pack.bytes.length off object ↔ holds off object) (left off : Nat)
    (keeps : cache.Keeps kept) :
    (readObjectAtFrom prim loose pack idx left off cache).2.Keeps kept ∧
      ∀ object, (readObjectAtFrom prim loose pack idx left off cache).1 = some object → holds off object := by
  induction left generalizing off cache with
  | zero => exact ⟨keeps, nofun⟩
  | succ left ih =>
    rw [readObjectAtFrom_succ]
    cases entry : entryAt prim pack.bytes idx off with
    | none => exact ⟨keeps, nofun⟩
    | some found =>
      match found with
      | .whole object =>
        refine ⟨keeps, fun object' same => ?_⟩
        cases same
        exact closed.whole entry
      | .delta (.outside sha) delta =>
        refine ⟨by rwa [readEntry, finishDelta_cache], fun object same => ?_⟩
        obtain ⟨kind, content, result, base, applied, rfl⟩ := finishDelta_eq_some same
        exact closed.outside entry base applied
      | .delta (.inPack base) delta =>
        -- the base, kept or read
        have read : (readBase (readObjectAtFrom prim loose pack idx left) pack base cache).2.Keeps kept ∧
            ∀ object, (readBase (readObjectAtFrom prim loose pack idx left) pack base cache).1 = some object →
              holds base object := by
          unfold readBase
          cases taken : cache.take pack base with
          | some given =>
            obtain ⟨right, still⟩ := Cache.take_keeps keeps taken
            refine ⟨still, fun object same => ?_⟩
            cases same
            exact (own _ _).1 right
          | none =>
            obtain ⟨still, right⟩ := ih base keeps
            generalize readObjectAtFrom prim loose pack idx left base cache = answer at still right
            obtain ⟨base', after⟩ := answer
            cases base' with
            | none => exact ⟨still, nofun⟩
            | some object =>
              refine ⟨Cache.keep_keeps still ((own _ _).2 (right object rfl)), fun object' same => ?_⟩
              cases same
              exact right object rfl
        refine ⟨by rw [readEntry, finishDelta_cache]; exact read.1, fun object same => ?_⟩
        obtain ⟨kind, content, result, found, applied, rfl⟩ := finishDelta_eq_some same
        exact closed.inside entry (read.2 _ found) applied

theorem readObjectAtFrom_resolves {kept : Nat → Nat → Nat → ObjectType × Bytes → Prop}
    (own : ∀ off object, kept pack.address pack.bytes.length off object ↔
      ∃ depth, Resolves prim loose pack.bytes idx off depth object)
    {left depth : Nat} (resolves : Resolves prim loose pack.bytes idx off depth object)
    (allowed : depth < left) (keeps : cache.Keeps kept) :
    (readObjectAtFrom prim loose pack idx left off cache).1 = some object := by
  induction resolves generalizing left cache with
  | whole entry =>
    obtain ⟨left, rfl⟩ : ∃ n, left = n + 1 := ⟨left - 1, by omega⟩
    rw [readObjectAtFrom_succ, entry]
    rfl
  | outside entry found applied =>
    obtain ⟨left, rfl⟩ : ∃ n, left = n + 1 := ⟨left - 1, by omega⟩
    rw [readObjectAtFrom_succ, entry, readEntry, found]
    simp [finishDelta, applied]
  | @inside off base depth delta kind content result entry below applied ih =>
    obtain ⟨left, rfl⟩ : ∃ n, left = n + 1 := ⟨left - 1, by omega⟩
    have read : (readBase (readObjectAtFrom prim loose pack idx left) pack base cache).1 = some (kind, content) := by
      unfold readBase
      cases taken : cache.take pack base with
      | some given =>
        obtain ⟨depth', right⟩ := (own _ _).1 (Cache.take_keeps keeps taken).1
        exact congrArg some (right.unique below).1
      | none =>
        have answer := ih (show depth < left by omega) keeps
        generalize readObjectAtFrom prim loose pack idx left base cache = read at answer
        obtain ⟨given, after⟩ := read
        cases answer
        rfl
    rw [readObjectAtFrom_succ, entry, readEntry]
    generalize readBase (readObjectAtFrom prim loose pack idx left) pack base cache = answer at read
    obtain ⟨given, after⟩ := answer
    cases read
    simp [finishDelta, applied]

theorem Holds.resolves {bytes : Bytes} {depth : Nat} (holds : Holds prim bytes idx off depth object)
    (loose : LooseRead) : Resolves prim loose bytes idx off depth object := by
  induction holds with
  | whole header inflated => exact .whole (by simp [entryAt, header, typeFromPack_packType, inflated])
  | @back off distance _ _ _ _ _ _ _ header named earlier inflated _ applied ih =>
    have allowed : ¬(distance = 0 ∨ distance > off) := by omega
    exact .inside (by simp [entryAt, header, show typeFromPack ofsDelta = none from rfl, named, allowed, inflated]) ih applied
  | @named _ _ sha rest _ _ _ _ header inflated known _ applied ih =>
    have room : 20 ≤ (sha.bytes ++ rest).length := by
      rw [length_append, sha.width]
      omega
    have taken : (sha.bytes ++ rest).take 20 = sha.bytes := take_left' sha.width
    have dropped : (sha.bytes ++ rest).drop 20 = rest := drop_left' sha.width
    refine .inside ?_ ih applied
    simp only [entryAt, header, show typeFromPack refDelta = none from rfl, room, ↓reduceDIte, taken, dropped,
      inflated, known,
      show ¬refDelta = ofsDelta by decide, ne_eq, not_false_eq_true, ↓reduceIte, map_some]

theorem keptFor_own (off : Nat) (object : ObjectType × Bytes) :
    KeptFor prim loose pack idx pack.address pack.bytes.length off object ↔
      ∃ depth, Resolves prim loose pack.bytes idx off depth object :=
  ⟨fun kept => kept rfl rfl, fun resolves _ _ => resolves⟩

theorem Cache.Right.keptFor (right : cache.Right prim pack idx) : cache.Keeps (KeptFor prim loose pack idx) := by
  intro held member address length
  obtain ⟨depth, holds⟩ := right held held.off member (by simp [Cached.isFor, address, length])
  exact ⟨depth, holds.resolves loose⟩

/-- The reader finds what the pack holds, as long as the chain of deltas under it is short enough. -/
theorem readObjectAtFrom_holds {depth left : Nat} (holds : Holds prim pack.bytes idx off depth object)
    (allowed : depth < left) (right : cache.Right prim pack idx) :
    (readObjectAtFrom prim loose pack idx left off cache).1 = some object :=
  readObjectAtFrom_resolves keptFor_own (holds.resolves loose) allowed right.keptFor

end

end BashOs.Git.Pack

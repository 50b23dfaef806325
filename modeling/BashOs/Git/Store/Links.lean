import BashOs.Lib.Bytes

/-!
Objects and their ids, what the program takes from outside itself (the compressor, the checksum and the hash), and the
objects one object points at: a commit's tree and its parents, a tag's object, a tree's entries.
-/

namespace BashOs.Git
open BashOs.Lib List

/-- No allocation reaches past this many bytes: `realloc` refuses half the address space. -/
def addressSpace : Nat := 2 ^ 63

inductive ObjectType where
  | commit | tree | blob | tag
deriving DecidableEq, Repr

/-- An object's id. The program holds it as twenty bytes or as the forty lower-case digits that spell
them; the two determine each other. -/
@[ext]
structure ObjectId where
  bytes : Bytes
  width : bytes.length = 20
deriving DecidableEq

structure Object where
  type : ObjectType
  content : Bytes
  fits : content.length < addressSpace
deriving DecidableEq

abbrev Ids := List ObjectId

/-- What `bgit_odb_read` answers. -/
abbrev Objects := ObjectId → Option Object

/-- The type and the content of a loose object. -/
abbrev LooseRead := ObjectId → Option (ObjectType × Bytes)

theorem length_take_id {bytes : Bytes} (room : 20 ≤ bytes.length) : (bytes.take 20).length = 20 :=
  List.length_take_of_le room

/-- The id of one byte twenty times. -/
def ObjectId.filled (b : UInt8) : ObjectId := ⟨List.replicate 20 b, List.length_replicate⟩

def emptyTree : Object := ⟨.tree, [], by decide⟩

/-- zlib and sha1dc. `inflate` also says how many bytes of its input the stream took. `attacked` is
sha1dc's report that a message carries a collision attack; the digest is given all the same. -/
structure Primitives where
  deflate : Bytes → Option Bytes
  inflate : Bytes → Option (Bytes × Nat)
  crc32 : Bytes → UInt32
  digest : Bytes → ObjectId
  attacked : Bytes → Bool
  inflate_deflate : ∀ plain packed, deflate plain = some packed →
    ∀ tail, inflate (packed ++ tail) = some (plain, packed.length)

def bufAppend (out more : Bytes) : Option Bytes :=
  if out.length + more.length < addressSpace then some (out ++ more) else none

theorem bufAppend_eq_some {out more grown : Bytes} (appended : bufAppend out more = some grown) :
    grown = out ++ more ∧ grown.length < addressSpace := by
  unfold bufAppend at appended
  split at appended
  next fits =>
    cases appended
    exact ⟨rfl, by simpa using fits⟩
  · cases appended

/-! ## Hexadecimal names -/

def hexDigit (n : Nat) : UInt8 := UInt8.ofNat (if n < 10 then 0x30 + n else 0x57 + n)

def ObjectId.hex (id : ObjectId) : Bytes :=
  id.bytes.flatMap fun b => [hexDigit (b.toNat / 16), hexDigit (b.toNat % 16)]

/-- The value of a lower-case digit. Names are compared as text and the store's own are lower-case, so an id
spelled with capitals finds nothing there. -/
def hexValue (b : UInt8) : Option Nat :=
  if 0x30 ≤ b ∧ b ≤ 0x39 then some (b.toNat - 0x30)
  else if 0x61 ≤ b ∧ b ≤ 0x66 then some (b.toNat - 0x57)
  else none

def hexPairs : Bytes → Option Bytes
  | [] => some []
  | high :: low :: rest => do
    let high ← hexValue high
    let low ← hexValue low
    let more ← hexPairs rest
    some (UInt8.ofNat (high * 16 + low) :: more)
  | [_] => none

def idOf (bytes : Bytes) : Option ObjectId :=
  if width : bytes.length = 20 then some ⟨bytes, width⟩ else none

def idOfHex (text : Bytes) : Option ObjectId := (hexPairs text).bind idOf

theorem hexValue_hexDigit (n : Nat) (small : n < 16) : hexValue (hexDigit n) = some n := by
  have all : ∀ i : Fin 16, hexValue (hexDigit i.val) = some i.val := by decide
  exact all ⟨n, small⟩

theorem hexPairs_hexDigits (bytes : Bytes) :
    hexPairs (bytes.flatMap fun b => [hexDigit (b.toNat / 16), hexDigit (b.toNat % 16)]) = some bytes := by
  induction bytes with
  | nil => rfl
  | cons b bytes ih =>
    have high : b.toNat / 16 < 16 := by have := b.toNat_lt; omega
    have low : b.toNat % 16 < 16 := Nat.mod_lt _ (by decide)
    have whole : UInt8.ofNat (b.toNat / 16 * 16 + b.toNat % 16) = b := by
      rw [Nat.div_add_mod', UInt8.ofNat_toNat]
    rw [flatMap_cons, cons_append, cons_append, nil_append, hexPairs, hexValue_hexDigit _ high,
      hexValue_hexDigit _ low, ih]
    exact congrArg (fun b => some (b :: bytes)) whole

theorem ObjectId.hex_injective : Function.Injective ObjectId.hex := by
  intro a b same
  have bytes : some a.bytes = some b.bytes := by
    rw [← hexPairs_hexDigits a.bytes, ← hexPairs_hexDigits b.bytes]
    exact congrArg hexPairs same
  obtain ⟨left, wide⟩ := a
  cases Option.some.inj bytes
  rfl

def hexAnyCase (c : UInt8) : Option Nat :=
  if 0x30 ≤ c ∧ c ≤ 0x39 then some (c.toNat - 0x30)
  else if 0x61 ≤ c ∧ c ≤ 0x66 then some (c.toNat - 0x57)
  else if 0x41 ≤ c ∧ c ≤ 0x46 then some (c.toNat - 0x37)
  else none

def anyCasePairs : Bytes → Option Bytes
  | [] => some []
  | high :: low :: rest => do
    let high ← hexAnyCase high
    let low ← hexAnyCase low
    let more ← anyCasePairs rest
    some (UInt8.ofNat (high * 16 + low) :: more)
  | [_] => none

/-- `bgit_hex_to_sha`: the id a text spells, in whichever case. -/
def hexToSha (text : Bytes) : Option ObjectId := (anyCasePairs text).bind idOf

theorem hexAnyCase_of_hexValue {c : UInt8} {n : Nat} (value : hexValue c = some n) : hexAnyCase c = some n := by
  rw [hexValue] at value
  rw [hexAnyCase]
  split at value
  next digit => rw [if_pos digit, value]
  rename_i notDigit
  split at value
  next small => rw [if_neg notDigit, if_pos small, value]
  · cases value

theorem anyCasePairs_of_hexPairs {text bytes : Bytes} (pairs : hexPairs text = some bytes) :
    anyCasePairs text = some bytes := by
  fun_induction hexPairs text generalizing bytes with
  | case1 => exact pairs
  | case2 high low rest ih =>
    obtain ⟨h, first, pairs⟩ := Option.bind_eq_some_iff.1 pairs
    obtain ⟨l, second, pairs⟩ := Option.bind_eq_some_iff.1 pairs
    obtain ⟨more, later, pairs⟩ := Option.bind_eq_some_iff.1 pairs
    rwa [anyCasePairs, hexAnyCase_of_hexValue first, hexAnyCase_of_hexValue second, ih later]
  | case3 => cases pairs

@[simp] theorem hexToSha_hex (id : ObjectId) : hexToSha id.hex = some id := by
  have pairs : anyCasePairs id.hex = some id.bytes := anyCasePairs_of_hexPairs (hexPairs_hexDigits id.bytes)
  rw [hexToSha, pairs, Option.bind_some, idOf, dif_pos id.width]

theorem idOfHex_hex (id : ObjectId) : idOfHex id.hex = some id := by
  rw [idOfHex, ObjectId.hex, hexPairs_hexDigits, Option.bind_some, idOf, dif_pos id.width]

def allHex (text : Bytes) : Bool :=
  text ≠ [] && text.all fun b =>
    (0x30 ≤ b && b ≤ 0x39) || (0x61 ≤ b && b ≤ 0x66) || (0x41 ≤ b && b ≤ 0x46)

/-! ## Links -/

def headerLines (text : Bytes) : List Bytes := (text.splitOn 0x0a).takeWhile (fun line => line ≠ [])

/-- The name on a line behind a label, as it is written: forty digits of either case and nothing more. -/
def labelledName (label line : Bytes) : Option Bytes :=
  let name := line.drop label.length
  if line.length = label.length + 40 ∧ label.isPrefixOf line ∧ allHex name then some name else none

/-- What a tag's `type` lines say it points to. A commit is what is taken without one. -/
def tagPointsTo (lines : List Bytes) : ObjectType :=
  lines.foldl (fun before line =>
    if 5 < line.length ∧ (ascii "type ").isPrefixOf line then
      let name := (line.drop 5).take 15
      if name = ascii "tree" then .tree
      else if name = ascii "blob" then .blob
      else if name = ascii "tag" then .tag
      else before
    else before) .commit

/-- `strtoul` in base eight, on text too short to overflow. -/
def octalValue (text : Bytes) : Nat :=
  let space (b : UInt8) : Bool := b = 0x20 || (0x09 ≤ b && b ≤ 0x0d)
  let (negative, digits) := match text.dropWhile space with
    | 0x2d :: rest => (true, rest)
    | 0x2b :: rest => (false, rest)
    | rest => (false, rest)
  let value := (digits.takeWhile (fun b => 0x30 ≤ b && b ≤ 0x37)).foldl (fun v b => v * 8 + (b.toNat - 0x30)) 0
  if negative then (2 ^ 64 - value) % 2 ^ 64 else value

/-- The entries of a tree that are not gitlinks: those name commits another repository keeps. Each entry takes
more than twenty bytes, so as many rounds as there are bytes are enough. -/
def treeLinks : Nat → Bytes → List (Bytes × ObjectType)
  | 0, _ => []
  | rounds + 1, bytes =>
    let mode := bytes.takeWhile (fun b => b ≠ 0x20)
    match bytes.dropWhile (fun b => b ≠ 0x20) with
    | [] => []
    | space :: named =>
      if mode.length ≥ 8 then []
      else
        match (space :: named).dropWhile (fun b => b ≠ 0) with
        | [] => []
        | _ :: after =>
          if room : 20 ≤ after.length then
            let more := treeLinks rounds (after.drop 20)
            let name := (ObjectId.mk (after.take 20) (length_take_id room)).hex
            let kind := octalValue mode &&& 0o170000
            if kind = 0o160000 then more
            else if kind = 0o040000 ∨ mode = ascii "40000" then (name, .tree) :: more
            else (name, .blob) :: more
          else []

/-- `git_fsck_links`: each name it calls back with, as it is written, and the type that is expected there. -/
def linkNames (object : Object) : List (Bytes × ObjectType) :=
  match object.type with
  | .commit =>
    (headerLines object.content).filterMap fun line =>
      match labelledName (ascii "tree ") line with
      | some name => some (name, .tree)
      | none => (labelledName (ascii "parent ") line).map fun name => (name, .commit)
  | .tag =>
    let lines := headerLines object.content
    lines.filterMap fun line =>
      (labelledName (ascii "object ") line).map fun name => (name, tagPointsTo lines)
  | .tree => treeLinks object.content.length object.content
  | .blob => []

/-- The links a walk over the store's own names follows: those in lower case. -/
def fsckLinks (object : Object) : Ids := (linkNames object).filterMap fun child => idOfHex child.1

/-- The objects an object points at, however it spells their ids. -/
def linkIds (object : Object) : Ids := (linkNames object).filterMap fun child => hexToSha child.1

end BashOs.Git

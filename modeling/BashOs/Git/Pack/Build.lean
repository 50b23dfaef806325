import BashOs.Git.Pack.Read

/-!
Building a pack: the objects are described and put in order, each is written whole or as a delta against one
of the last ten, and the entries an index is made from are kept by the place the object had in the list.
`Laid` says how an object lies in the body, and lasts while the body grows.
-/

namespace BashOs.Git.Pack
open BashOs.Lib

def packWindow : Nat := 10
def packDepth : Nat := 50

/-! ## Describing the objects -/

/-- One object on its way into a pack. `place` is the source's `at`: which index entry is this object's. -/
structure PackItem where
  id : ObjectId
  type : Nat
  size : Nat
  place : Nat
  named : UInt32
  parent : Option Nat
  name : Bytes

def isSpace (b : UInt8) : Bool := b = 0x20 || (0x09 ≤ b && b ≤ 0x0d)

def packNameHash (name : Bytes) : UInt32 :=
  name.foldl (fun hash ch => if isSpace ch then hash else (hash >>> 2) + (ch.toUInt32 <<< 24)) 0

/-- What a tree calls the objects under it. Each entry takes more than twenty bytes, so as many rounds as
there are bytes are enough. -/
def treeNames : Nat → Bytes → List (Bytes × ObjectId)
  | 0, _ => []
  | rounds + 1, bytes =>
    match bytes.dropWhile (fun b => b ≠ 0x20) with
    | [] => []
    | _ :: afterSpace =>
      match afterSpace.dropWhile (fun b => b ≠ 0) with
      | [] => []
      | _ :: afterNul =>
        if room : 20 ≤ afterNul.length then
          (afterSpace.takeWhile (fun b => b ≠ 0), ⟨afterNul.take 20, length_take_id room⟩)
            :: treeNames rounds (afterNul.drop 20)
        else []

def nameChild (tree : Nat) (items : List PackItem) (entry : Bytes × ObjectId) : List PackItem :=
  match items.findIdx? (fun item => item.id = entry.2) with
  | none => items
  | some j =>
    items.modify j fun held =>
      if held.parent = none ∧ held.name = [] then { held with parent := some tree, name := entry.1.take 63 } else held

def describeItem (i : Nat) (object : Object) (items : List PackItem) : List PackItem :=
  let items := items.modify i fun item =>
    { item with type := packType object.type, size := object.content.length, place := i }
  if object.type = .tree then (treeNames object.content.length object.content).foldl (nameChild i) items else items

def describeFrom (read : Objects) : Ids → Nat → List PackItem → Option (List PackItem)
  | [], _, items => some items
  | id :: rest, i, items =>
    match read id with
    | none => none
    | some object => describeFrom read rest (i + 1) (describeItem i object items)

def pathParts (items : List PackItem) : Nat → Option Nat → List Bytes
  | 0, _ => []
  | _, none => []
  | n + 1, some cursor =>
    match items[cursor]? with
    | none => []
    | some item => if item.name = [] then [] else item.name :: pathParts items n item.parent

def packPath (items : List PackItem) (i : Nat) : Bytes :=
  (List.intercalate [0x2f] (pathParts items 64 (some i)).reverse).take 4095

def nameItems (items : List PackItem) : List PackItem :=
  items.mapIdx fun i item => { item with named := packNameHash (packPath items i) }

/-- `git_pack_order`: like with like, then by name, then the larger first. -/
def packOrder (a b : PackItem) : Bool :=
  if a.type ≠ b.type then a.type > b.type
  else if a.named ≠ b.named then a.named > b.named
  else if a.size ≠ b.size then a.size > b.size
  else a.place < b.place

def packItems (read : Objects) (ids : Ids) : Option (List PackItem) :=
  let items := ids.map fun id => { id, type := 0, size := 0, place := 0, named := 0, parent := none, name := [] }
  (describeFrom read ids 0 items).map fun items => (nameItems items).insertionSort fun a b => packOrder a b

/-! ## Writing them -/

structure Held where
  sha : ObjectId
  content : Bytes
  off : Nat
  type : Nat
  depth : Nat
  index : Option DeltaIndex

/-- What a delta has to beat, in 64-bit arithmetic: half the object less twenty bytes, or the best so far. -/
def deltaMax (len : Nat) (best : Option (Bytes × Held)) (depth : Nat) : Nat :=
  let max := match best with
    | some (delta, _) => delta.length - 1
    | none => if len > 20 then (len / 2 + 2 ^ 64 - 20) % 2 ^ 64 else 0
  max * (packDepth - depth) % 2 ^ 64 / packDepth

def bestDelta (type : Nat) (content : Bytes) : List Held → Option (Bytes × Held) → Option (Bytes × Held)
  | [], best => best
  | held :: older, best =>
    if held.type ≠ type ∨ held.depth ≥ packDepth then bestDelta type content older best
    else
      match held.index with
      | none => bestDelta type content older best
      | some index =>
        let max := deltaMax content.length best held.depth
        if max = 0 then bestDelta type content older best
        else if held.content.length < content.length ∧ content.length - held.content.length ≥ max then
          bestDelta type content older best
        else
          match deltaCreate index content max with
          | none => bestDelta type content older best
          | some delta => bestDelta type content older (some (delta, held))

structure BuildState where
  body : Bytes
  entries : List IdxEntry
  window : List Held

def baseName (ofsOk : Bool) (offset : Nat) : Option (Bytes × Held) → Bytes
  | none => []
  | some (_, held) => if ofsOk then backOffset (offset - held.off) else held.sha.bytes

/-- The type an object is written under, the bytes that are deflated, and the depth it then stands at. -/
def coding (ofsOk : Bool) (item : PackItem) (content : Bytes) : Option (Bytes × Held) → Nat × Bytes × Nat
  | some (delta, held) => (if ofsOk then ofsDelta else refDelta, delta, held.depth + 1)
  | none => (item.type, content, 0)

def slide (window : List Held) (held : Held) : List Held :=
  (if window.length = packWindow then window.tail else window) ++ [held]

def writeItem (prim : Primitives) (read : Objects) (ofsOk : Bool) (state : BuildState)
    (item : PackItem) : Option BuildState := do
  let object ← read item.id
  let best := bestDelta item.type object.content state.window.reverse none
  let offset := state.body.length
  let (type, payload, depth) := coding ofsOk item object.content best
  let body ← bufAppend state.body (encodeObjHeader type payload.length)
  let body ← bufAppend body (baseName ofsOk offset best)
  let deflated ← prim.deflate payload
  let body ← bufAppend body deflated
  let entry : IdxEntry := { sha := item.id, off := offset, crc := prim.crc32 (body.drop offset) }
  some
    { body
      entries := state.entries.set item.place entry
      window := slide state.window
        { sha := item.id, content := object.content, off := offset, type := item.type, depth,
          index := deltaIndexCreate object.content } }

structure Built where
  pack : Bytes
  entries : List IdxEntry
  checksum : ObjectId

def zeroEntry : IdxEntry := { sha := .filled 0, off := 0, crc := 0 }

def packHeader (n : Nat) : Bytes := [0x50, 0x41, 0x43, 0x4b, 0, 0, 0, 2] ++ be 4 n

def packBuildDeltas (prim : Primitives) (read : Objects) (ids : Ids) (ofsOk : Bool) :
    Option Built := do
  let items ← packItems read ids
  let body ← bufAppend [] (packHeader ids.length)
  let state ← items.foldlM (writeItem prim read ofsOk)
    { body, entries := List.replicate ids.length zeroEntry, window := [] }
  let checksum := prim.digest state.body
  let pack ← bufAppend state.body checksum.bytes
  some { pack, entries := state.entries, checksum }

end BashOs.Git.Pack

import BashOs.Git.Pack.RoundTrip

/-!
What a delta saves. The limit that a delta has to keep is half the object less twenty bytes, in unsigned arithmetic: of
an object of 21 to 39 bytes nothing is left to take the twenty from, and every delta is short enough.
-/

namespace BashOs.Git.Pack
open BashOs.Lib List

/-- An object as the loop of `git_pack_build_deltas` comes to it, with the earlier ones in the window. -/
structure Visit where
  window : List Held
  type : Nat
  content : Bytes

structure StoredDelta where
  content : Bytes
  delta : Bytes
deriving DecidableEq

/-- An earlier object that the loop does not pass over: it works out a limit for a delta against it. -/
def TriedAgainst (type : Nat) (held : Held) : Prop :=
  held.type = type ∧ held.depth < packDepth ∧ held.index.isSome = true

/-- The bytes that are deflated. -/
def Visit.payload (visit : Visit) : Bytes :=
  ((bestDelta visit.type visit.content visit.window.reverse none).map Prod.fst).getD visit.content

def Visit.stored (visit : Visit) : Option StoredDelta :=
  (bestDelta visit.type visit.content visit.window.reverse none).map fun answer => ⟨visit.content, answer.1⟩

section
variable (prim : Primitives) (read : Objects) (ofsOk : Bool)

def visitsFrom : BuildState → List PackItem → List Visit
  | _, [] => []
  | state, item :: rest =>
    match read item.id, writeItem prim read ofsOk state item with
    | some object, some next => ⟨state.window, item.type, object.content⟩ :: visitsFrom next rest
    | _, _ => []

def visits (ids : Ids) : List Visit :=
  match packItems read ids, bufAppend [] (packHeader ids.length) with
  | some items, some body =>
    visitsFrom prim read ofsOk { body, entries := replicate ids.length zeroEntry, window := [] } items
  | _, _ => []

/-- The objects that are written as deltas. -/
def storedDeltas (ids : Ids) : List StoredDelta := (visits prim read ofsOk ids).filterMap Visit.stored

end

/-- The lengths from which twenty bytes more are taken than their half has. -/
def Wraps (length : Nat) : Prop := 20 < length ∧ length < 40

/-- Without a wrap the limit is within half the object, whether a better delta is known or not. -/
theorem deltaMax_half {length : Nat} (plain : ¬ Wraps length) {best : Option (Bytes × Held)} (depth : Nat)
    (half : ∀ answer, best = some answer → 2 * answer.1.length ≤ length) : 2 * deltaMax length best depth ≤ length := by
  have scaled (max : Nat) : max * (packDepth - depth) % 2 ^ 64 / packDepth ≤ max := by
    apply Nat.div_le_of_le_mul
    calc max * (packDepth - depth) % 2 ^ 64
      _ ≤ max * (packDepth - depth) := Nat.mod_le _ _
      _ ≤ max * packDepth := Nat.mul_le_mul_left max (Nat.sub_le _ _)
      _ = packDepth * max := mul_comm _ _
  refine le_trans (Nat.mul_le_mul_left 2 (scaled _)) ?_
  cases best with
  | none =>
    unfold Wraps at plain
    dsimp only
    split <;> omega
  | some answer =>
    have := half answer rfl
    dsimp only
    omega

theorem bestDelta_half {type : Nat} {content : Bytes} {window : List Held}
    (plain : ∀ held ∈ window, TriedAgainst type held → ¬ Wraps content.length) :
    ∀ answer, bestDelta type content window none = some answer → 2 * answer.1.length ≤ content.length := by
  apply bestDelta_invariant (P := fun answer => 2 * answer.1.length ≤ content.length) (by simp)
  intro held member index best delta half same shallow indexed created
  have tried := plain held member ⟨same, shallow, Option.isSome_iff_exists.2 ⟨index, indexed⟩⟩
  exact le_trans (Nat.mul_le_mul_left 2 (deltaCreate_length_le created)) (deltaMax_half tried held.depth half)

/-! Two blobs of one length that share nothing: the second is spelled out as a delta all the same. -/

def twins (length : Nat) (id : ObjectId) : Option Object :=
  let content := replicate length (id.bytes.headD 0)
  if fits : content.length < addressSpace then some ⟨.blob, content, fits⟩ else none

def twinDeltas (length : Nat) : List StoredDelta := storedDeltas storing (twins length) true [sampleId 1, sampleId 2]

theorem twinDeltas_wrap : ∀ length < 40, 20 < length →
    ∃ stored ∈ twinDeltas length, stored.content.length < stored.delta.length := by
  decide +kernel

/-- If no object of a length that wraps the limit around is tried against an earlier one of its type, all that is
stored as deltas is at most half as long. Of each of these lengths there are two objects of which the second is
stored as a delta that is longer than itself. -/
theorem deltas_pay (prim : Primitives) (read : ObjectId → Option Object) (ids : List ObjectId) (ofsOk : Bool) :
    ((∀ visit ∈ visits prim read ofsOk ids, ∀ held ∈ visit.window, TriedAgainst visit.type held →
        ¬ (20 < visit.content.length ∧ visit.content.length < 40)) →
      ∀ stored ∈ storedDeltas prim read ofsOk ids, 2 * stored.delta.length ≤ stored.content.length) ∧
    ∀ length, 20 < length → length < 40 →
      ∃ stored ∈ twinDeltas length, stored.content.length < stored.delta.length := by
  refine ⟨fun plain stored member => ?_, fun length low high => twinDeltas_wrap length high low⟩
  obtain ⟨visit, visited, here⟩ := mem_filterMap.1 member
  obtain ⟨answer, found, rfl⟩ := Option.map_eq_some_iff.1 here
  refine bestDelta_half (fun held inside tried => ?_) answer found
  exact plain visit visited held (mem_reverse.1 inside) tried

/-- An object of 21 bytes is stored as a delta of 24. -/
theorem delta_longer_than_object :
    (twinDeltas 21).map (fun stored => (stored.content.length, stored.delta.length)) = [(21, 24)] := by
  decide +kernel

end BashOs.Git.Pack

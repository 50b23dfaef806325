import BashOs.Git.Pack.RoundTrip

/-!
What the cache of bases can change about a read. `Resolves` says what a pack, its index and the objects outside it
make of an offset, and over how many deltas. Whatever was read before, a read answers with nothing else; but a base
that is kept is taken without counting the deltas under it, so a chain that is too long for a first read may not be
too long for a later one. Up to the limit a read answers as it would with nothing kept.
-/

namespace BashOs.Git.Pack
open BashOs.Lib Cache

/-! ## Reads one after the other -/

structure ReadCall where
  loose : LooseRead
  pack : Mapping
  idx : Bytes
  off : Nat

def readAfter (prim : Primitives) (cache : Cache) (calls : List ReadCall) : Cache :=
  calls.foldl (fun cache call => (readObjectAt prim call.loose call.pack call.idx call.off 0 cache).2) cache

section
variable (prim : Primitives) (loose : LooseRead) (pack : Mapping) (idx : Bytes)
  {cache : Cache} {calls : List ReadCall}

/-- A pack that stays as it is: whoever reads at its address and with its length reads it, with its index. -/
def Unchanged (call : ReadCall) : Prop :=
  call.pack.address = pack.address → call.pack.bytes.length = pack.bytes.length →
    call.pack = pack ∧ call.idx = idx ∧ call.loose = loose

variable {prim loose pack idx}

theorem readObjectAt_keptFor {call : ReadCall} (unchanged : Unchanged loose pack idx call)
    (keeps : cache.Keeps (KeptFor prim loose pack idx)) :
    (readObjectAt prim call.loose call.pack call.idx call.off 0 cache).2.Keeps (KeptFor prim loose pack idx) := by
  by_cases same : call.pack.address = pack.address ∧ call.pack.bytes.length = pack.bytes.length
  · obtain ⟨isPack, isIdx, isLoose⟩ := unchanged same.1 same.2
    rw [isPack, isIdx, isLoose]
    exact (readObjectAtFrom_closed (closed_resolves pack.bytes) keptFor_own _ _ keeps).1
  · -- another pack's objects are kept under another address or length
    refine (readObjectAtFrom_closed (closed_any call.pack.bytes) (fun off object => ?_) _ _ keeps).1
    exact iff_of_true (fun address length => absurd ⟨address, length⟩ same) trivial

theorem readAfter_keptFor (unchanged : ∀ call ∈ calls, Unchanged loose pack idx call)
    (keeps : cache.Keeps (KeptFor prim loose pack idx)) :
      (readAfter prim cache calls).Keeps (KeptFor prim loose pack idx) := by
  refine foldl_invariant (fun _ (cache : Cache) => cache.Keeps (KeptFor prim loose pack idx)) keeps ?_
  intro before call rest cache whole keeps
  exact readObjectAt_keptFor (unchanged call (by simp [whole])) keeps

/-- With no more deltas under it than the limit, an object is read after any reads as it is with nothing kept. -/
theorem cached_read_same {off : Nat}
    (short : ∀ depth object, Resolves prim loose pack.bytes idx off depth object → depth ≤ maxDeltaDepth)
    {calls : List ReadCall} (unchanged : ∀ call ∈ calls, Unchanged loose pack idx call) :
    (readObjectAt prim loose pack idx off 0 (readAfter prim Cache.empty calls)).1 =
      (readObjectAt prim loose pack idx off 0 Cache.empty).1 := by
  have empty := empty_keeps (KeptFor prim loose pack idx)
  have after := readAfter_keptFor unchanged empty
  have sound := fun cache (keeps : Cache.Keeps (KeptFor prim loose pack idx) cache) =>
    (readObjectAtFrom_closed (closed_resolves pack.bytes) keptFor_own (maxDeltaDepth + 1 - 0) off keeps).2
  by_cases there : ∃ depth object, Resolves prim loose pack.bytes idx off depth object
  · obtain ⟨depth, object, resolves⟩ := there
    have allowed : depth < maxDeltaDepth + 1 - 0 := Nat.lt_succ_of_le (short depth object resolves)
    exact (readObjectAtFrom_resolves keptFor_own resolves allowed after).trans
      (readObjectAtFrom_resolves keptFor_own resolves allowed empty).symm
  have none : ∀ cache, Cache.Keeps (KeptFor prim loose pack idx) cache →
      (readObjectAt prim loose pack idx off 0 cache).1 = none := by
    intro cache keeps
    refine Option.eq_none_iff_forall_ne_some.2 fun object answer => there ?_
    obtain ⟨depth, resolves⟩ := sound cache keeps object answer
    exact ⟨depth, object, resolves⟩
  rw [none _ after, none _ empty]

end

/-! A pack of one blob and 51 deltas that each copy the entry before them. -/

def copyEntry (distance : UInt8) : Bytes := [0x64, distance, 1, 1, 1, 1, 1, 0x90, 1, 1, 0]

def chainPack : Mapping where
  address := 0
  bytes := ascii "PACK" ++ be 4 2 ++ be 4 52 ++ [0x31, 1, 0x78, 0] ++ copyEntry 4 ++
    (List.replicate 50 (copyEntry 11)).flatten ++
    List.replicate 20 0

def chainOff (n : Nat) : Nat := 16 + 11 * (n - 1)

def chainRead (n : Nat) : ReadCall := { loose := fun _ => none, pack := chainPack, idx := [], off := chainOff n }

/-- The chain of 51 deltas is too long to be read at first, and is read once the object under it was. -/
theorem long_chain_read_after :
    (readObjectAt storing (fun _ => none) chainPack [] (chainOff 51) 0 Cache.empty).1 = none ∧
    (readObjectAt storing (fun _ => none) chainPack [] (chainOff 51) 0
      (readAfter storing Cache.empty [chainRead 50])).1 =
      some (.blob, [0x78]) := by
  decide +kernel

theorem cached_read_same_sample : (readObjectAt storing (fun _ => none) chainPack [] (chainOff 1) 0
      (readAfter storing Cache.empty [chainRead 2, chainRead 51])).1 =
    (readObjectAt storing (fun _ => none) chainPack [] (chainOff 1) 0 Cache.empty).1 := by
  have there : Resolves storing (fun _ => none) chainPack.bytes [] (chainOff 1) 1 (.blob, [0x78]) :=
    .inside (show entryAt storing chainPack.bytes [] (chainOff 1) =
      some (.delta (.inPack 12) [1, 1, 0x90, 1]) by decide +kernel)
      (.whole (show entryAt storing chainPack.bytes [] 12 = some (.whole (.blob, [0x78])) by decide +kernel))
      (by decide +kernel)
  refine cached_read_same (fun depth object resolves => ?_) fun call member => ?_
  · rw [(resolves.unique there).2]
    decide
  · intro _ _
    simp only [List.mem_cons, List.not_mem_nil, or_false] at member
    obtain rfl | rfl := member <;> exact ⟨rfl, rfl, rfl⟩

end BashOs.Git.Pack

import BashOs.Git.Pack.Cached
import BashOs.Git.Store.Odb

/-!
The stores that one process opens and releases, with the cache of bases that outlives them. A pack is mapped when it
is first read, wherever the kernel puts it, and its mapping goes with its store; what was kept of it stays in the
cache under the address and the length it had.
-/

namespace BashOs.Git
open BashOs.Lib BashOs.Git.Pack List

/-- `struct bgit_pack_file`: a pack of an open store, and where it is mapped once it is. -/
structure OpenPack where
  file : PackFile
  address : Option Nat

/-- A read of a packed object as it went: the pack and where it was mapped, how often the caches had been thrown away by
then, and the answer. -/
structure PackedRead where
  file : PackFile
  address : Nat
  epoch : Nat
  off : Nat
  answer : Option (ObjectType × Bytes)
deriving DecidableEq

structure Process where
  stores : Nat → Option (List OpenPack)
  cache : Cache
  epoch : Nat
  reads : List PackedRead

def Process.start : Process := { stores := fun _ => none, cache := Cache.empty, epoch := 0, reads := [] }

/-- What happens to the stores; `place` says where the kernel maps the pack with a number. -/
inductive StoreEvent where
  | opened (store : Nat) (files : List PackFile)
  | read (store : Nat) (id : ObjectId) (place : Nat → Nat)
  | released (store : Nat)
  | forgotten

section
variable (prim : Primitives) (loose : LooseRead)

/-- The loop of `bgit_odb_read_packed` from a pack on: the packs and the cache after it, and the read if there was
one. -/
def readPackedFrom (id : ObjectId) (place : Nat → Nat) (epoch : Nat) :
    Nat → List OpenPack → Cache → List OpenPack × Cache × Option PackedRead
  | _, [], cache => ([], cache, none)
  | i, pack :: packs, cache =>
    let off := lookupOffset pack.file.idx id
    let onward :=
      let (packs, cache, read) := readPackedFrom id place epoch (i + 1) packs cache
      (pack :: packs, cache, read)
    if off = notFound then onward
    else
      match pack.file.mapping with
      | none => onward
      | some bytes =>
        let address := pack.address.getD (place i)
        let (answer, cache) := readObjectAt prim loose { address, bytes } pack.file.idx off 0 cache
        ({ pack with address := some address } :: packs, cache, some { file := pack.file, address, epoch, off, answer })

def forget (cache : Cache) : Cache := { Cache.empty with clock := cache.clock }

def Process.step (process : Process) : StoreEvent → Process
  | .opened store files =>
    { process with stores := Function.update process.stores store (some (files.map fun file => { file, address := none })) }
  | .read store id place =>
    match process.stores store with
    | none => process
    | some packs =>
      let (packs, cache, read) := readPackedFrom prim loose id place process.epoch 0 packs process.cache
      { process with
        stores := Function.update process.stores store (some packs)
        cache
        reads := process.reads ++ read.toList }
  -- `bgit_odb_release` unmaps the packs; the cache is not told
  | .released store => { process with stores := Function.update process.stores store none }
  | .forgotten => { process with cache := forget process.cache, epoch := process.epoch + 1 }

def Process.run (events : List StoreEvent) : Process := events.foldl (Process.step prim loose) Process.start

end

def PackedRead.Own (prim : Primitives) (loose : LooseRead) (read : PackedRead) : Prop :=
  ∀ object, read.answer = some object → ∃ depth, Resolves prim loose read.file.pack read.file.idx read.off depth object

/-- Packs that were read at one address and with one length, with the caches not thrown away in between, are the
same. -/
def Apart (reads : List PackedRead) : Prop :=
  ∀ one ∈ reads, ∀ other ∈ reads, one.epoch = other.epoch → one.address = other.address →
    one.file.pack.length = other.file.pack.length → one.file.pack = other.file.pack ∧ one.file.idx = other.file.idx

section
variable {prim : Primitives} {loose : LooseRead}

theorem Apart.subset {some all : List PackedRead} (apart : Apart all) (within : some ⊆ all) : Apart some :=
  fun one member other member' => apart one (within member) other (within member')

def KeptOf (prim : Primitives) (loose : LooseRead) (epoch : Nat) (reads : List PackedRead)
    (address length off : Nat) (object : ObjectType × Bytes) : Prop :=
  ∃ read ∈ reads, read.epoch = epoch ∧ read.address = address ∧ read.file.pack.length = length ∧
    ∃ depth, Resolves prim loose read.file.pack read.file.idx off depth object

theorem readPackedFrom_spec {id : ObjectId} {place : Nat → Nat} {epoch : Nat} (reads : List PackedRead)
    (i : Nat) (packs : List OpenPack)
    {cache : Cache} (keeps : cache.Keeps (KeptOf prim loose epoch reads)) :
    let (_, after, read) := readPackedFrom prim loose id place epoch i packs cache
    Apart (reads ++ read.toList) →
      after.Keeps (KeptOf prim loose epoch (reads ++ read.toList)) ∧ ∀ r ∈ read.toList, r.Own prim loose := by
  induction packs generalizing i with
  | nil => exact fun _ => ⟨by simpa [readPackedFrom] using keeps, nofun⟩
  | cons pack packs ih =>
    rw [readPackedFrom]
    dsimp only
    split
    · exact ih (i + 1)
    split
    · exact ih (i + 1)
    rename_i bytes mapped
    have whole : bytes = pack.file.pack := by
      unfold PackFile.mapping at mapped
      split at mapped
      · cases mapped
      · exact (Option.some.inj mapped).symm
    subst whole
    intro apart
    generalize pack.address.getD (place i) = address at apart ⊢
    generalize ran : readObjectAt prim loose { address, bytes := pack.file.pack } pack.file.idx
      (lookupOffset pack.file.idx id) 0 cache =
      answer at apart ⊢
    obtain ⟨answer, after⟩ := answer
    generalize read' : (⟨pack.file, address, epoch, lookupOffset pack.file.idx id, answer⟩ : PackedRead) =
      read at apart ⊢
    have file : read.file = pack.file := by rw [← read']
    have kept : cache.Keeps (KeptOf prim loose epoch (reads ++ [read])) := by
      intro held inside
      obtain ⟨r, member, rest⟩ := keeps held inside
      exact ⟨r, mem_append_left _ member, rest⟩
    have last : read ∈ reads ++ [read] := mem_append_right _ (mem_singleton_self read)
    -- what is kept under this address and length is of this pack
    have own : ∀ off object, KeptOf prim loose epoch (reads ++ [read]) address pack.file.pack.length off object ↔
        ∃ depth, Resolves prim loose pack.file.pack pack.file.idx off depth object := by
      intro off object
      constructor
      · rintro ⟨r, member, inEpoch, at', long, resolves⟩
        obtain ⟨samePack, sameIdx⟩ := apart r member read last (by rw [inEpoch, ← read']) (by rw [at', ← read'])
          (by rw [long, file])
        rwa [samePack, sameIdx, file] at resolves
      · intro resolves
        refine ⟨read, last, by rw [← read'], by rw [← read'], by rw [file], ?_⟩
        rwa [file]
    have spec := @readObjectAtFrom_closed prim loose { address, bytes := pack.file.pack } pack.file.idx cache _ _
      (closed_resolves pack.file.pack) own (maxDeltaDepth + 1 - 0) (lookupOffset pack.file.idx id) kept
    have ran' : readObjectAtFrom prim loose { address, bytes := pack.file.pack } pack.file.idx (maxDeltaDepth + 1 - 0)
        (lookupOffset pack.file.idx id) cache = (answer, after) := ran
    rw [ran'] at spec
    refine ⟨spec.1, fun r member => ?_⟩
    rw [mem_singleton.1 member]
    intro object given
    rw [← read'] at given ⊢
    exact spec.2 object given

structure Process.Fresh (prim : Primitives) (loose : LooseRead) (process : Process) : Prop where
  keeps : process.cache.Keeps (KeptOf prim loose process.epoch process.reads)
  own : ∀ read ∈ process.reads, read.Own prim loose

theorem Process.step_reads (process : Process) (event : StoreEvent) : process.reads ⊆ (process.step prim loose event).reads := by
  cases event with
  | opened => exact fun _ member => member
  | released => exact fun _ member => member
  | forgotten => exact fun _ member => member
  | read store id place =>
    rw [Process.step]
    split
    · exact fun _ member => member
    · exact fun _ member => mem_append_left _ member

theorem Process.Fresh.step {process : Process} (fresh : process.Fresh prim loose) (event : StoreEvent)
    (apart : Apart (process.step prim loose event).reads) : (process.step prim loose event).Fresh prim loose := by
  cases event with
  | opened => exact ⟨fresh.keeps, fresh.own⟩
  | released => exact ⟨fresh.keeps, fresh.own⟩
  | forgotten => exact ⟨Cache.empty_keeps _, fresh.own⟩
  | read store id place =>
    rw [Process.step] at apart ⊢
    split at apart
    · exact fresh
    rename_i packs _
    have spec := @readPackedFrom_spec prim loose id place process.epoch process.reads 0 packs process.cache fresh.keeps
    obtain ⟨keeps, own⟩ := spec apart
    exact ⟨keeps, forall_mem_append.2 ⟨fresh.own, own⟩⟩

/-- Whatever stores are opened, read and released, every object is read from its own pack's bytes, if no two different
packs were read at one address and with one length. -/
theorem packed_reads_own (events : List StoreEvent) (apart : Apart (Process.run prim loose events).reads) :
    ∀ read ∈ (Process.run prim loose events).reads, read.Own prim loose := by
  have fresh : Apart (Process.run prim loose events).reads → (Process.run prim loose events).Fresh prim loose := by
    refine foldl_invariant (fun _ (process : Process) => Apart process.reads → process.Fresh prim loose)
      (fun _ => ⟨Cache.empty_keeps _, nofun⟩) ?_
    intro _ event _ process _ fresh apart
    exact (fresh (apart.subset (process.step_reads event))).step event apart
  exact (fresh apart).own

end

/-! Two packs of one length: a blob, and a delta that copies it. -/

def blobPack (byte : UInt8) : PackFile where
  stem := ascii "pack-1"
  idx := (writeIdxV2 storing [⟨sampleId 2, 16, 0⟩] (sampleId 0)).getD []
  pack := ascii "PACK" ++ be 4 2 ++ be 4 2 ++ [0x31, 1, byte, 0] ++ copyEntry 4 ++ List.replicate 20 0

def twoStores (first second : Nat) : List StoreEvent :=
  [.opened 0 [blobPack 0x78], .read 0 (sampleId 2) fun _ => first, .released 0,
    .opened 0 [blobPack 0x79], .read 0 (sampleId 2) fun _ => second, .released 0]

theorem packed_reads_own_sample : Apart (Process.run storing (fun _ => none) (twoStores 4096 8192)).reads ∧
    ∀ read ∈ (Process.run storing (fun _ => none) (twoStores 4096 8192)).reads, read.Own storing fun _ => none := by
  have apart : Apart (Process.run storing (fun _ => none) (twoStores 4096 8192)).reads := by
    unfold Apart
    decide +kernel
  exact ⟨apart, packed_reads_own (twoStores 4096 8192) apart⟩

/-- The second pack is mapped where the first one was, and its delta is applied to the first one's blob. -/
theorem stale_base_read : ∃ read ∈ (Process.run storing (fun _ => none) (twoStores 4096 4096)).reads,
    read.file = blobPack 0x79 ∧ read.answer = some (.blob, [0x78]) ∧ ¬ read.Own storing fun _ => none := by
  have reads : (Process.run storing (fun _ => none) (twoStores 4096 4096)).reads =
      [⟨blobPack 0x78, 4096, 0, 16, some (.blob, [0x78])⟩, ⟨blobPack 0x79, 4096, 0, 16, some (.blob, [0x78])⟩] := by
    decide +kernel
  have entry : entryAt storing (blobPack 0x79).pack (blobPack 0x79).idx 16 =
      some (.delta (.inPack 12) [1, 1, 0x90, 1]) := by
    decide +kernel
  have base : entryAt storing (blobPack 0x79).pack (blobPack 0x79).idx 12 = some (.whole (.blob, [0x79])) := by
    decide +kernel
  have right : Resolves storing (fun _ => none) (blobPack 0x79).pack (blobPack 0x79).idx 16 1 (.blob, [0x79]) :=
    .inside entry (.whole base) (by decide +kernel)
  rw [reads]
  refine ⟨_, .tail _ (.head _), rfl, rfl, fun own => ?_⟩
  obtain ⟨depth, resolves⟩ := own _ rfl
  exact absurd (resolves.unique right).1 (by decide)

end BashOs.Git

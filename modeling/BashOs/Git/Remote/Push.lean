import BashOs.Git.Pack.RoundTrip
import BashOs.Git.Pack.Wire
import BashOs.Git.Remote.Reachable
import BashOs.Git.Remote.Receive

/-!
A whole push: the pack goes into the store, and then each command is tried. Of what a command brings, only the object
its new id names is looked for; whether the rest of the history came with it is left to the client.
-/

namespace BashOs.Git.Remote
open BashOs.Lib BashOs.Git.WorkTree BashOs.Git.Refs BashOs.Git.Pack Relation List

def ObjectGraph.gain (graph : ObjectGraph) (gained : List (ObjectId × Object)) : ObjectGraph where
  objects := graph.objects ++ gained.map fun (id, object) => (id.hex, object)
  spelled := by
    intro entry member
    obtain old | new := mem_append.1 member
    · exact graph.spelled entry old
    · obtain ⟨⟨id, object⟩, -, rfl⟩ := mem_map.1 new
      rw [hexToSha_hex]
      rfl

structure PushOutcome where
  store : ObjectGraph
  disk : RefDisk
  report : Option (List (PushCommand × Option Refusal))

/-- The objects of the pack, which is read only if some command brings something; none if it cannot be read. -/
def packGains (prim : Primitives) (graph : ObjectGraph) (packets : Packets) (pack : Option Bytes) :
    Option (List (ObjectId × Object)) :=
  if (pushCommands packets).any fun command => !command.unmaking then
    pack.bind (storePackInto prim fun id => graph.read id.hex)
  else some []

/-- `git_cmd_receive_pack`. `pack` is what `bgit_pack_read_stream` reads after the commands. -/
def push (prim : Primitives) (graph : ObjectGraph) (far : Receiver) (disk : RefDisk) (packets : Packets)
    (pack : Option Bytes) : PushOutcome :=
  let gained := packGains prim graph packets pack
  let store := graph.gain (gained.getD [])
  let (disk, report) := receivePack { far with has := fun id => id ∈ store.names } disk gained.isSome packets
  { store, disk, report }

/-! ## What a push leaves behind -/

def ObjectGraph.Closed (graph : ObjectGraph) : Prop := ∀ x, ∀ link ∈ graph.links x, link ∈ graph.names

def ObjectGraph.Complete (graph : ObjectGraph) (id : Bytes) : Prop :=
  ∀ x, ReflTransGen (fun a b => b ∈ graph.links a) id x → x ∈ graph.names

def gainedRead (gained : List (ObjectId × Object)) (sha : Bytes) : Option Object :=
  (gained.map fun (id, object) => (id.hex, object)).lookup sha

/-- A link of an object that came with the pack and was not there before. -/
def NewLink (graph : ObjectGraph) (gained : List (ObjectId × Object)) (a b : Bytes) : Prop :=
  a ∉ graph.names ∧ ∃ object, gainedRead gained a = some object ∧ b ∈ (linkNames object).map Prod.fst

section
variable {graph : ObjectGraph} {gained : List (ObjectId × Object)} {x : Bytes} {far : Receiver} {head : Option Bytes}
  {disk : RefDisk} {command : PushCommand}

theorem gain_read (x : Bytes) : (graph.gain gained).read x = (graph.read x).or (gainedRead gained x) := by
  rw [ObjectGraph.read, ObjectGraph.gain, lookup_append]
  rfl

theorem mem_names_gain : x ∈ (graph.gain gained).names ↔ x ∈ graph.names ∨ (gainedRead gained x).isSome := by
  rw [ObjectGraph.mem_names, ObjectGraph.mem_names, gain_read, Option.isSome_or, Bool.or_eq_true]

theorem gain_links_old (old : x ∈ graph.names) : (graph.gain gained).links x = graph.links x := by
  obtain ⟨object, here⟩ := Option.isSome_iff_exists.1 ((graph.mem_names x).1 old)
  simp only [ObjectGraph.links, outgoing, gain_read, here, Option.some_or]

theorem newLink_iff {link : Bytes} (new : x ∉ graph.names) :
    NewLink graph gained x link ↔ link ∈ (graph.gain gained).links x := by
  have absent : graph.read x = none := by simpa using mt (graph.mem_names x).2 new
  rw [NewLink, ObjectGraph.links, outgoing, gain_read, absent, Option.none_or]
  cases gainedRead gained x with
  | none => simp
  | some object => simp [new]

/-- A store that was closed stays complete below an id exactly if what the id reaches through the new objects links to
nothing that is missing. -/
theorem complete_iff (closed : graph.Closed) {id : Bytes} (here : id ∈ (graph.gain gained).names) :
    (graph.gain gained).Complete id ↔ ∀ x link, ReflTransGen (NewLink graph gained) id x →
      NewLink graph gained x link → link ∈ graph.names ∨ (gainedRead gained link).isSome := by
  constructor
  · intro complete x link path new
    have path : ReflTransGen (fun a b => b ∈ (graph.gain gained).links a) id x :=
      ReflTransGen.mono (fun _ _ step => (newLink_iff step.1).1 step) _ _ path
    exact mem_names_gain.1 (complete link (path.tail ((newLink_iff new.1).1 new)))
  · intro met x path
    -- everything on the way is an old object, or is reached through new ones
    have either : x ∈ (graph.gain gained).names ∧
        (x ∈ graph.names ∨ ReflTransGen (NewLink graph gained) id x) := by
      induction path with
      | refl => exact ⟨here, .inr .refl⟩
      | @tail a b _ linked ih =>
        by_cases old : a ∈ graph.names
        · rw [gain_links_old old] at linked
          have there := closed a b linked
          exact ⟨mem_names_gain.2 (.inl there), .inl there⟩
        · have through := ih.2.resolve_left old
          have new := (newLink_iff old).2 linked
          exact ⟨mem_names_gain.2 (met a b through new), .inr (through.tail new)⟩
    exact either.1

/-! ## What is reported -/

theorem runCommand_has (makes : command.unmaking = false) (done : (runCommand far head disk command).2 = none) :
    far.has command.newId = true := by
  unfold runCommand at done
  split at done
  · cases done
  rename_i passed
  unfold refusal at passed
  dsimp only at passed
  split at passed
  · cases passed
  split at passed
  · cases passed
  split at passed
  · cases passed
  next found => simpa [makes] using found

theorem runCommands_has {commands : List PushCommand} (makes : command.unmaking = false)
    (reported : (command, none) ∈ (runCommands far head disk commands).2) : far.has command.newId = true := by
  induction commands generalizing disk with
  | nil => cases reported
  | cons first rest ih =>
    obtain same | later := mem_cons.1 reported
    · obtain ⟨rfl, answer⟩ := Prod.mk.inj same
      exact runCommand_has makes answer.symm
    · exact ih later

theorem receivePack_has {stored : Bool} {packets : Packets} {report : List (PushCommand × Option Refusal)}
    (done : (receivePack far disk stored packets).2 = some report) (reported : (command, none) ∈ report)
    (makes : command.unmaking = false) : far.has command.newId = true := by
  unfold receivePack at done
  dsimp only at done
  split at done
  · cases done
  cases done
  exact runCommands_has makes reported

end

def twoHashes : Primitives :=
  { storing with digest := fun bytes => if bytes.head? = some 0x63 then sampleId 1 else sampleId 2 }

def wirePack (objects : List (Nat × Bytes)) : Bytes :=
  ascii "PACK" ++ be 4 2 ++ be 4 objects.length ++
    objects.flatMap (fun (type, content) =>
      encodeObjHeader type content.length ++ (content.flatMap (fun b => [1, b]) ++ [0])) ++
    List.replicate 20 0

def pushedCommit : Bytes := ascii "tree " ++ (sampleId 2).hex ++ [0x0a, 0x0a]

def noObjects : ObjectGraph := ⟨[], nofun⟩

def samplePackets : Packets := [(zeroes ++ 0x20 :: (sampleId 1).hex ++ 0x20 :: ascii "refs/heads/x", [])]

def samplePush (objects : List (Nat × Bytes)) : PushOutcome :=
  push twoHashes noObjects { bareRoot with ident := some (ascii "a <b> 0 +0000") } noRefs samplePackets
    (some (wirePack objects))

def sampleCommand : PushCommand := ⟨zeroes, (sampleId 1).hex, ascii "refs/heads/x"⟩

theorem closed_noObjects : noObjects.Closed := nofun

end BashOs.Git.Remote

import BashOs.Lib.SeenWalk
import BashOs.Git.Store.Roots

/-!
What a fetch sends: everything the wanted ids reach, less what the had ids reach. One set of names serves both walks,
and both follow the submodule entries of trees, which fsck does not count as links. Names are compared as texts, so the
two spellings of one id are two names.
-/

namespace BashOs.Git.Remote
open BashOs.Lib List

/-! ## Objects by name -/

/-- What `bgit_odb_read` finds, under each name it finds something under. A loose object has the one spelling of its
file's path, a packed object every spelling of its id. -/
structure ObjectGraph where
  objects : List (Bytes × Object)
  spelled : ∀ entry ∈ objects, (hexToSha entry.1).isSome

def ObjectGraph.names (graph : ObjectGraph) : List Bytes := graph.objects.map Prod.fst

def ObjectGraph.read (graph : ObjectGraph) (sha : Bytes) : Option Object := graph.objects.lookup sha

theorem ObjectGraph.mem_names (graph : ObjectGraph) (sha : Bytes) :
    sha ∈ graph.names ↔ (graph.read sha).isSome :=
  mem_keys_iff graph.objects sha

theorem ObjectGraph.spells (graph : ObjectGraph) {sha : Bytes} (here : sha ∈ graph.names) :
    ∃ id, hexToSha sha = some id := by
  obtain ⟨entry, listed, rfl⟩ := mem_map.1 here
  exact Option.isSome_iff_exists.1 (graph.spelled entry listed)

theorem ObjectGraph.nil_not_mem (graph : ObjectGraph) : ([] : Bytes) ∉ graph.names := by
  intro member
  obtain ⟨id, spells⟩ := graph.spells member
  have blank : hexToSha [] = none := by decide
  rw [blank] at spells
  cases spells

/-! ## Links -/

def queuedName (line : Bytes) : Option Bytes :=
  if (line.length > 5 ∧ (ascii "tree ").isPrefixOf line) ∨ (line.length > 7 ∧ (ascii "parent ").isPrefixOf line) ∨
      (line.length > 7 ∧ (ascii "object ").isPrefixOf line) then
    let id := (line.dropWhile fun b => b ≠ 0x20).drop 1
    if 40 ≤ id.length then some (id.take 40) else none
  else none

def queuedEntries : Nat → Bytes → List Bytes
  | 0, _ => []
  | rounds + 1, bytes =>
    match bytes.dropWhile fun b => b ≠ 0 with
    | [] => []
    | _ :: after =>
      if room : 20 ≤ after.length then
        ObjectId.hex ⟨after.take 20, length_take_id room⟩ :: queuedEntries rounds (after.drop 20)
      else []

def queueChildren (object : Object) : List Bytes :=
  match object.type with
  | .commit | .tag => (headerLines object.content).filterMap queuedName
  | .tree => queuedEntries object.content.length object.content
  | .blob => []

section
variable (graph : ObjectGraph)

/-- `bgit_walk_into`: the ids met, and those met for the first time that can be read. A root that is empty is no
root. -/
def walkInto (rounds : Nat) (roots seen : List Bytes) : Option (List Bytes × List Bytes) :=
  seenWalk (fun sha => (graph.read sha).map queueChildren) rounds (roots.filter fun sha => sha ≠ []).reverse seen []

def reachableObjects (rounds : Nat) (roots stop : List Bytes) : Option (List Bytes) := do
  let (seen, _) ← walkInto graph rounds stop []
  let (_, ids) ← walkInto graph rounds roots seen
  some ids

/-- `git_fsck_links`, with names as they are written -/
def ObjectGraph.links (sha : Bytes) : List Bytes :=
  outgoing (fun sha => (graph.read sha).map fun object => (linkNames object).map Prod.fst) sha

def ObjectGraph.followed (sha : Bytes) : List Bytes :=
  outgoing (fun sha => (graph.read sha).map queueChildren) sha

def LinkReach (roots : List Bytes) : Bytes → Prop := Reach graph.names graph.links fun sha => sha ∈ roots

def WalkReach (roots : List Bytes) : Bytes → Prop :=
  Reach graph.names graph.followed fun sha => sha ∈ roots

/-- What the walk returns: the wanted and not the had, name by name. -/
def Sent (wants haves : List Bytes) (x : Bytes) : Prop := WalkReach graph wants x ∧ ¬ WalkReach graph haves x

def ObjectGraph.stored : Ids := graph.names.filterMap hexToSha

def ObjectGraph.idLinks (id : ObjectId) : Ids :=
  (graph.names.filter fun sha => hexToSha sha = some id).flatMap fun sha => (graph.links sha).filterMap hexToSha

/-- The objects that names lead to without submodule links, however their ids are spelled on the way. -/
def IdReach (roots : List Bytes) : ObjectId → Prop :=
  Reach graph.stored graph.idLinks fun id => id ∈ roots.filterMap hexToSha

end

/-! ## The two walks -/

section
variable {graph : ObjectGraph}

theorem walkReach_filter (roots : List Bytes) (x : Bytes) :
    Reach graph.names graph.followed (fun sha => sha ∈ (roots.filter fun sha => sha ≠ []).reverse) x ↔
      WalkReach graph roots x := by
  constructor
  · intro reach
    refine reach.of_roots fun y root here => .root ?_ here
    exact (mem_filter.1 (mem_reverse.1 root)).1
  · intro reach
    refine reach.of_roots fun y root here => .root (mem_reverse.2 (mem_filter.2 ⟨root, ?_⟩)) here
    simpa using fun empty : y = [] => graph.nil_not_mem (empty ▸ here)

/-- The objects returned are those the roots reach and the stops do not, over the links the walk follows. -/
theorem reachableObjects_spec (graph : ObjectGraph) (roots stop : List Bytes) :
    ∃ enough, ∀ rounds ≥ enough, ∃ ids, reachableObjects graph rounds roots stop = some ids ∧ ids.Nodup ∧
      ∀ x, x ∈ ids ↔ Sent graph roots stop x := by
  have exact (x : Bytes) : x ∈ graph.names ↔ ((graph.read x).map queueChildren).isSome := by
    rw [graph.mem_names, Option.isSome_map]
  obtain ⟨one, before⟩ := seenWalk_spec exact (stop.filter fun sha => sha ≠ []).reverse
  obtain ⟨two, after⟩ := seenWalk_spec exact (roots.filter fun sha => sha ≠ []).reverse
  refine ⟨max one two, fun rounds enough => ?_⟩
  obtain ⟨seen, first, marked, closed, -, members, -⟩ := before [] nofun rounds (le_trans (le_max_left _ _) enough)
  obtain ⟨last, ids, walked, -, distinct, -, listed⟩ := after seen closed rounds (le_trans (le_max_right _ _) enough)
  refine ⟨ids, ?_, distinct, fun x => ?_⟩
  · rw [reachableObjects, walkInto, marked]
    change (walkInto graph rounds roots seen).bind _ = _
    rw [walkInto, walked]
    rfl
  · rw [listed]
    constructor
    · rintro ⟨outside, reach⟩
      refine ⟨(walkReach_filter roots x).1 reach, fun had => outside ?_⟩
      exact (members x reach.here).2 (.inr ((walkReach_filter stop x).2 had))
    · rintro ⟨reach, unreached⟩
      refine ⟨fun member => ?_, (walkReach_filter roots x).2 reach⟩
      rcases (members x reach.here).1 member with impossible | had
      · cases impossible
      · exact unreached ((walkReach_filter stop x).1 had)

end

/-! ## Submodule links -/

section
variable (graph : ObjectGraph)

def ObjectGraph.shared (sha : Bytes) : List Bytes := (graph.links sha).filter fun link => link ∈ graph.followed sha

/-- A name that the had history comes to by way of a submodule entry of one of its trees. -/
def BeyondSubmodule (haves : List Bytes) (x : Bytes) : Prop :=
  ∃ tree sha, WalkReach graph haves tree ∧ sha ∈ graph.followed tree ∧ sha ∉ graph.links tree ∧
    Reach graph.names graph.shared (fun start => start = sha) x

/-- What is wanted and not had is met by the walk under a name that no submodule entry of the had history leads to. -/
def SubmodulesApart (wants haves : List Bytes) : Prop :=
  ∀ id, IdReach graph wants id → ¬ IdReach graph haves id →
    ∃ x, hexToSha x = some id ∧ WalkReach graph wants x ∧ ¬ BeyondSubmodule graph haves x

/-- No object is met under two spellings of its id. -/
def SpelledOnce (wants haves : List Bytes) : Prop :=
  ∀ x y, Sent graph wants haves x → Sent graph wants haves y → hexToSha x = hexToSha y → x = y

variable {graph} {wants haves : List Bytes}

theorem WalkReach.shared {tree sha x : Bytes} (reach : WalkReach graph haves tree) (link : sha ∈ graph.followed tree)
    (path : Reach graph.names graph.shared (fun start => start = sha) x) : WalkReach graph haves x := by
  refine path.invariant (fun y start here => ?_) (fun y before z next here => ?_)
  · exact .step reach (start ▸ link) here
  · exact .step before (of_decide_eq_true (mem_filter.1 next).2) here

theorem WalkReach.cases {x : Bytes} (reach : WalkReach graph haves x) :
    LinkReach graph haves x ∨ BeyondSubmodule graph haves x := by
  induction reach with
  | root start here => exact .inl (.root start here)
  | step before link here ih =>
    rename_i y z
    by_cases counted : z ∈ graph.links y
    · rcases ih with linked | ⟨tree, sha, had, follows, uncounted, path⟩
      · exact .inl (.step linked counted here)
      · refine .inr ⟨tree, sha, had, follows, uncounted, .step path ?_ here⟩
        exact mem_filter.2 ⟨counted, decide_eq_true link⟩
    · exact .inr ⟨y, z, before, link, counted, .root rfl here⟩

theorem mem_stored {x : Bytes} {id : ObjectId} (here : x ∈ graph.names) (spells : hexToSha x = some id) :
    id ∈ graph.stored :=
  mem_filterMap.2 ⟨x, here, spells⟩

theorem LinkReach.idReach {x : Bytes} (reach : LinkReach graph wants x) :
    ∀ id, hexToSha x = some id → IdReach graph wants id := by
  induction reach with
  | root start here => exact fun id spells => .root (mem_filterMap.2 ⟨_, start, spells⟩) (mem_stored here spells)
  | step before link here ih =>
    intro id spells
    obtain ⟨parent, named⟩ := graph.spells before.here
    refine .step (ih parent named) ?_ (mem_stored here spells)
    refine mem_flatMap.2 ⟨_, mem_filter.2 ⟨before.here, decide_eq_true named⟩, ?_⟩
    exact mem_filterMap.2 ⟨_, link, spells⟩

end

/-! ## A project and its submodule in one store -/

def nameOf (digit : UInt8) : Bytes := List.replicate 40 digit

def commitOf (digit : UInt8) : Object :=
  ⟨.commit, ascii "tree " ++ nameOf digit ++ [0x0a], by show 46 < addressSpace; decide⟩

/-- A commit `a` of a project whose tree `b` has a submodule entry for the commit `c`, which is here too, with its
empty tree `d`. -/
def withSubmodule : ObjectGraph where
  objects :=
    [(nameOf 0x61, commitOf 0x62),
     (nameOf 0x62, ⟨.tree, ascii "160000 sub" ++ 0 :: List.replicate 20 0xcc, by decide⟩),
     (nameOf 0x63, commitOf 0x64),
     (nameOf 0x64, emptyTree)]
  spelled := by decide

end BashOs.Git.Remote

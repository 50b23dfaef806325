import Mathlib.Data.List.Sort
import BashOs.Git.Remote.Reachable

/-!
The reply to a fetch: the objects that are reachable from what is wanted and not from what the client has, and with
`include-tag` the tags of refs that peel to one of them. Tags are added behind the walk's list, whether it holds
them or not.
-/

namespace BashOs.Git.Remote
open BashOs.Lib Option

/-! ## Tags -/

section Tags
variable (graph : ObjectGraph)

/-- `bgit_tag_target`: the last line that names an object counts. -/
def tagTarget (sha : Bytes) : Option Bytes :=
  match graph.read sha with
  | none => none
  | some object =>
    if object.type ≠ .tag then none
    else
      let named := (headerLines object.content).filterMap fun line =>
        if (ascii "object ").isPrefixOf line ∧ line.length - 7 ≥ 40 then some ((line.drop 7).take 40) else none
      named.getLast?.filter fun name => name.head? ≠ some 0

def ObjectGraph.isTag (sha : Bytes) : Bool := ((graph.read sha).map Object.type) = some .tag

/-- The loop of `git_peel_fully`, with as many turns left. -/
def peelFrom : Nat → Bytes → Option Bytes
  | 0, _ => none
  | turns + 1, sha =>
    match graph.read sha with
    | none => none
    | some object => if object.type ≠ .tag then some sha else (tagTarget graph sha).bind (peelFrom turns)

/-- `git_peel_fully`: nothing where the id is no tag's. -/
def peelFully (sha : Bytes) : Option Bytes := if graph.isTag sha then peelFrom graph 16 sha else none

def PointsAt : Bytes → Bytes → Prop := Relation.TransGen fun tag target => tagTarget graph tag = some target

end Tags

/-! ## The reply -/

/-- `bgit_refs_list` under a path. -/
def refsUnder (repo : Repository) (context : Context) (path : Bytes) : List (Bytes × Bytes) :=
  ((refsList repo context).filter fun ref => path.isPrefixOf ref.1).insertionSort fun a b => a.1 ≤ b.1

/-- The part of `struct git_v2_request` a fetch reads. -/
structure FetchRequest where
  wants : List Bytes
  haves : List Bytes
  done : Bool
  includeTag : Bool

structure FetchReply where
  lines : List Bytes
  pack : Option (List Bytes)

section Reply
variable (graph : ObjectGraph)

def addTag (send : List Bytes) (tag : Bytes) : List Bytes :=
  match peelFully graph tag with
  | none => send
  | some peeled => if peeled ∈ send then send ++ [tag] else send

def v2Fetch (repo : Repository) (context : Context) (rounds : Nat) (request : FetchRequest) : Option FetchReply :=
  let common := request.haves.filter fun sha => (graph.read sha).isSome
  let acks := ascii "acknowledgments\n" :: common.map fun sha => ascii "ACK " ++ sha ++ [0x0a]
  if !request.done && common.isEmpty then some ⟨acks ++ [ascii "NAK\n"], none⟩
  else do
    let send ← reachableObjects graph rounds request.wants request.haves
    let tags := if request.includeTag then (refsUnder repo context (ascii "refs/tags/")).map Prod.snd else []
    let lines := if request.done then [] else acks ++ [ascii "ready\n"]
    some ⟨lines ++ [ascii "packfile\n"], some (tags.foldl (addTag graph) send)⟩

end Reply

/-! ## Peeling -/

variable {tag peeled : Bytes} {base : List Bytes} {request : FetchRequest}

section Peel
variable {graph : ObjectGraph} {sha : Bytes} {turns : Nat}

theorem isTag_of_target {target : Bytes} (points : tagTarget graph tag = some target) : graph.isTag tag = true := by
  rw [tagTarget] at points
  split at points
  · cases points
  next object found =>
    split at points
    · cases points
    next type => simp [ObjectGraph.isTag, found, not_not.1 type]

theorem peelFrom_succ_of_tag (tag : graph.isTag sha = true) (turns : Nat) :
    peelFrom graph (turns + 1) sha = (tagTarget graph sha).bind (peelFrom graph turns) := by
  cases found : graph.read sha with
  | none => simp [ObjectGraph.isTag, found] at tag
  | some object =>
    have type : object.type = .tag := by simpa [ObjectGraph.isTag, found] using tag
    simp [peelFrom, found, type]

theorem peelFrom_not_tag (peels : peelFrom graph turns sha = some peeled) : graph.isTag peeled = false := by
  induction turns generalizing sha with
  | zero => cases peels
  | succ turns ih =>
    by_cases tag : graph.isTag sha = true
    · rw [peelFrom_succ_of_tag tag] at peels
      obtain ⟨next, -, rest⟩ := bind_eq_some_iff.1 peels
      exact ih rest
    rw [peelFrom] at peels
    split at peels
    · cases peels
    next object found =>
      have type : object.type ≠ .tag := by simpa [ObjectGraph.isTag, found] using tag
      rw [if_pos type] at peels
      cases peels
      exact Bool.eq_false_iff.2 tag

theorem peelFully_not_tag (peels : peelFully graph tag = some peeled) : graph.isTag peeled = false := by
  rw [peelFully] at peels
  split at peels
  · exact peelFrom_not_tag peels
  · cases peels

theorem isTag_of_peelFully (peels : peelFully graph tag = some peeled) : graph.isTag tag = true := by
  rw [peelFully] at peels
  split at peels
  next h => exact h
  · cases peels

/-- A chain of tags is followed from its start, so what it comes to that is no tag is what it peels to. -/
theorem peelFrom_of_pointsAt {x : Bytes} (peels : peelFrom graph turns tag = some peeled)
    (points : PointsAt graph tag x) (last : graph.isTag x = false) : x = peeled := by
  induction turns generalizing tag with
  | zero => cases peels
  | succ turns ih =>
    obtain ⟨next, first, rest⟩ := Relation.TransGen.head'_iff.1 points
    rw [peelFrom_succ_of_tag (isTag_of_target first), first, bind_some] at peels
    rcases Relation.reflTransGen_iff_eq_or_transGen.1 rest with rfl | more
    · -- nothing follows what is no tag
      cases turns with
      | zero => cases peels
      | succ turns =>
        rw [peelFrom] at peels
        split at peels
        · cases peels
        next object found =>
          have type : object.type ≠ .tag := by simpa [ObjectGraph.isTag, found] using last
          rw [if_pos type] at peels
          exact Option.some.inj peels
    · exact ih peels more

end Peel

/-! ## The pack -/

section Pack
variable {graph : ObjectGraph} {send : List Bytes}

def joins (graph : ObjectGraph) (base : List Bytes) (tag : Bytes) : Bool :=
  match peelFully graph tag with
  | none => false
  | some peeled => decide (peeled ∈ base)

theorem joins_iff : joins graph base tag = true ↔ ∃ peeled, peelFully graph tag = some peeled ∧ peeled ∈ base := by
  rw [joins]
  split
  next none => simp [none]
  next peeled some => simp [some]

theorem addTag_eq (same : ∀ x, graph.isTag x = false → (x ∈ send ↔ x ∈ base)) (tag : Bytes) :
    addTag graph send tag = if joins graph base tag then send ++ [tag] else send := by
  rw [addTag, joins]
  cases peels : peelFully graph tag with
  | none => rfl
  | some peeled => simp [same peeled (peelFully_not_tag peels)]

theorem foldl_addTag (tags : List Bytes) (same : ∀ x, graph.isTag x = false → (x ∈ send ↔ x ∈ base)) :
    tags.foldl (addTag graph) send = send ++ tags.filter (joins graph base) := by
  induction tags generalizing send with
  | nil => simp
  | cons tag tags ih =>
    rw [List.foldl_cons, addTag_eq same, List.filter_cons]
    split
    next joined =>
      obtain ⟨peeled, peels, -⟩ := joins_iff.1 joined
      rw [ih, List.append_assoc, List.singleton_append]
      intro x other
      have apart : x ≠ tag := by
        rintro rfl
        rw [isTag_of_peelFully peels] at other
        cases other
      rw [List.mem_append, List.mem_singleton, same x other, or_iff_left apart]
    · exact ih same

variable (graph)

def Joins (request : FetchRequest) (tag : Bytes) : Prop :=
  ∃ peeled, peelFully graph tag = some peeled ∧ Sent graph request.wants request.haves peeled

def FetchRequest.sends (request : FetchRequest) : Prop :=
  request.done ∨ ∃ sha ∈ request.haves, (graph.read sha).isSome

def Had (request : FetchRequest) (x : Bytes) : Prop := ∃ id, hexToSha x = some id ∧ IdReach graph request.haves id

/-- The tag objects of refs that join a pack are different ones, not in it already, and each tag between one of them
and what it peels to is in the pack, joins it too, or is had. -/
structure TagsApart (tags : List Bytes) (request : FetchRequest) : Prop where
  distinct : tags.Pairwise fun a b => Joins graph request a → Joins graph request b → hexToSha a ≠ hexToSha b
  unsent : ∀ tag ∈ tags, Joins graph request tag →
    ∀ x, Sent graph request.wants request.haves x → hexToSha x ≠ hexToSha tag
  between : ∀ tag ∈ tags, Joins graph request tag → ∀ x, PointsAt graph tag x → graph.isTag x = true →
    (∃ y, Sent graph request.wants request.haves y ∧ hexToSha y = hexToSha x) ∨
      (∃ y ∈ tags, Joins graph request y ∧ hexToSha y = hexToSha x) ∨ Had graph request x

/-- A list of different ids in which every object that a tag behind the first ones points at is named, or had. -/
def ProperPack (request : FetchRequest) (base ids : List Bytes) : Prop :=
  (ids.map hexToSha).Nodup ∧ ∀ tag ∈ ids.drop base.length, ∀ x, PointsAt graph tag x →
    hexToSha x ∈ ids.map hexToSha ∨ Had graph request x

variable {graph}

theorem properPack_iff {tags : List Bytes} (once : base.Nodup)
    (sent : ∀ x, x ∈ base ↔ Sent graph request.wants request.haves x) :
    ProperPack graph request base (tags.foldl (addTag graph) base) ↔
      SpelledOnce graph request.wants request.haves ∧ TagsApart graph tags request := by
  have joined (tag : Bytes) : joins graph base tag = true ↔ Joins graph request tag := by
    rw [joins_iff]
    exact exists_congr fun peeled => and_congr_right fun _ => sent peeled
  have added (x : Bytes) : x ∈ tags.filter (joins graph base) ↔ x ∈ tags ∧ Joins graph request x := by
    rw [List.mem_filter, joined]
  rw [ProperPack, foldl_addTag tags (fun _ _ => Iff.rfl), List.drop_left, List.map_append, List.nodup_append]
  constructor
  · rintro ⟨⟨single, distinct, apart⟩, whole⟩
    refine ⟨fun x y first second => ?_, ?_, fun tag listed joins x inside => ?_, ?_⟩
    · exact List.inj_on_of_nodup_map single ((sent x).2 first) ((sent y).2 second)
    · refine (List.pairwise_filter.1 (List.pairwise_map.1 distinct)).imp ?_
      exact fun other first second => other ((joined _).2 first) ((joined _).2 second)
    · exact apart _ (List.mem_map_of_mem ((sent x).2 inside)) _ (List.mem_map_of_mem ((added tag).2 ⟨listed, joins⟩))
    · intro tag listed joins x points _
      rcases whole tag ((added tag).2 ⟨listed, joins⟩) x points with inside | had
      · rcases List.mem_append.1 inside with first | behind
        · obtain ⟨y, member, same⟩ := List.mem_map.1 first
          exact .inl ⟨y, (sent y).1 member, same⟩
        · obtain ⟨y, member, same⟩ := List.mem_map.1 behind
          obtain ⟨listed, joins⟩ := (added y).1 member
          exact .inr (.inl ⟨y, listed, joins, same⟩)
      · exact .inr (.inr had)
  · rintro ⟨single, tagsApart⟩
    refine ⟨⟨?_, ?_, ?_⟩, fun tag behind x points => ?_⟩
    · exact once.map_on fun x first y second => single x y ((sent x).1 first) ((sent y).1 second)
    · refine List.pairwise_map.2 (List.pairwise_filter.2 (tagsApart.distinct.imp ?_))
      exact fun other first second => other ((joined _).1 first) ((joined _).1 second)
    · intro a first b behind
      obtain ⟨x, member, rfl⟩ := List.mem_map.1 first
      obtain ⟨tag, later, rfl⟩ := List.mem_map.1 behind
      obtain ⟨listed, joins⟩ := (added tag).1 later
      exact tagsApart.unsent tag listed joins x ((sent x).1 member)
    · obtain ⟨listed, joins⟩ := (added tag).1 behind
      cases last : graph.isTag x with
      | false =>
        obtain ⟨peeled, peels, inside⟩ := joins
        rw [peelFully, if_pos (isTag_of_peelFully peels)] at peels
        rw [peelFrom_of_pointsAt peels points last]
        exact .inl (List.mem_append_left _ (List.mem_map_of_mem ((sent peeled).2 inside)))
      | true =>
        rcases tagsApart.between tag listed joins x points last with ⟨y, inside, same⟩ | ⟨y, member, other, same⟩ | had
        · exact .inl (List.mem_append_left _ (List.mem_map.2 ⟨y, (sent y).2 inside, same⟩))
        · exact .inl (List.mem_append_right _ (List.mem_map.2 ⟨y, (added y).2 ⟨member, other⟩, same⟩))
        · exact .inr had

theorem v2Fetch_pack (repo : Repository) (context : Context) {rounds : Nat}
    (walked : reachableObjects graph rounds request.wants request.haves = some base) :
    (request.sends graph → ∃ reply, v2Fetch graph repo context rounds request = some reply ∧
      reply.pack = some ((if request.includeTag then (refsUnder repo context (ascii "refs/tags/")).map Prod.snd
        else []).foldl (addTag graph) base)) ∧
    (¬ request.sends graph → ∃ reply, v2Fetch graph repo context rounds request = some reply ∧ reply.pack = none) := by
  have common : (request.haves.filter fun sha => (graph.read sha).isSome) = [] ↔
      ¬ ∃ sha ∈ request.haves, (graph.read sha).isSome := by
    simp
  rw [v2Fetch, walked]
  constructor
  · intro sends
    rw [if_neg ?_]
    · exact ⟨_, rfl, rfl⟩
    · intro silent
      rw [Bool.and_eq_true, Bool.not_eq_true', List.isEmpty_iff, common] at silent
      rcases sends with done | some
      · rw [silent.1] at done
        cases done
      · exact silent.2 some
  · intro silent
    rw [FetchRequest.sends, not_or] at silent
    rw [if_pos ?_]
    · exact ⟨_, rfl, rfl⟩
    · rw [Bool.and_eq_true, Bool.not_eq_true', List.isEmpty_iff, common]
      exact ⟨Bool.eq_false_iff.2 silent.1, silent.2⟩

theorem tagsApart_nil (request : FetchRequest) : TagsApart graph [] request := ⟨.nil, nofun, nofun⟩

end Pack

/-! ## A tag that is wanted by name -/

/-- A commit `a` with its empty tree `b`, and a tag `c` of the commit. -/
def withTag : ObjectGraph where
  objects :=
    [(nameOf 0x61, commitOf 0x62),
     (nameOf 0x62, emptyTree),
     (nameOf 0x63, ⟨.tag, ascii "object " ++ nameOf 0x61 ++ ascii "\ntype commit\ntag v1\n", by decide⟩)]
  spelled := by decide

def tagged : Repository :=
  ⟨⟨[(ascii "refs/tags/v1", nameOf 0x63 ++ [0x0a])], [], none⟩, [], []⟩

end BashOs.Git.Remote

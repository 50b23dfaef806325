import BashOs.Git.Pack.Build
import BashOs.Lib.Loop

/-!
Every object put into a pack comes back out of it: what `packBuildDeltas` writes, `writeIdxV2` indexes and
`readObjectAt` reads.
-/

namespace BashOs.Git.Pack
open BashOs.Lib List Cache PackItem

/-! ## The items are the objects asked for -/

variable {ids : Ids} {items done : List PackItem} {cores : List (ObjectId × Nat × Nat)} {body : Bytes}
  {off size : Nat} {known all : List IdxEntry} {object : ObjectType × Bytes} {best : Option (Bytes × Held)}
  {state : BuildState} {item : PackItem}

section Items
variable {read : Objects}

def PackItem.core (item : PackItem) : ObjectId × Nat × Nat := (item.id, item.type, item.place)

theorem map_modify {α β : Type} {f : α → β} {g : α → α} {h : β → β} (commutes : ∀ x, f (g x) = h (f x))
    (xs : List α) (i : Nat) : (xs.modify i g).map f = (xs.map f).modify i h := by
  induction xs generalizing i with
  | nil => simp
  | cons x xs ih =>
    cases i with
    | zero => simp [commutes]
    | succ i => simp [ih]

theorem nameChild_core (tree : Nat) (items : List PackItem) (entry : Bytes × ObjectId) :
    (nameChild tree items entry).map core = items.map core := by
  unfold nameChild
  split
  · rfl
  · rw [map_modify (h := id), modify_id]
    intro held
    split <;> rfl

theorem nameChildren_core (tree : Nat) (names : List (Bytes × ObjectId)) (items : List PackItem) :
    (names.foldl (nameChild tree) items).map core = items.map core := by
  induction names generalizing items with
  | nil => rfl
  | cons entry names ih => rw [foldl_cons, ih, nameChild_core]

theorem describeItem_core (i : Nat) (object : Object) (items : List PackItem) : (describeItem i object items).map core =
      (items.map core).modify i fun core => (core.1, packType object.type, i) := by
  have modified : (items.modify i fun item =>
      { item with type := packType object.type, size := object.content.length, place := i }).map core =
      (items.map core).modify i fun core => (core.1, packType object.type, i) := by
    apply map_modify
    intro item
    rfl
  unfold describeItem
  split
  · rw [nameChildren_core, modified]
  · exact modified

def Described (read : Objects) (i : Nat) (core : ObjectId × Nat × Nat) : Prop :=
  core.2.2 = i ∧ ∃ object, read core.1 = some object ∧ core.2.1 = packType object.type

/-- The cores of the items while the objects from number `i` on are still to be described. -/
structure HalfDescribed (read : Objects) (ids : Ids) (i : Nat)
    (cores : List (ObjectId × Nat × Nat)) : Prop where
  names : cores.map Prod.fst = ids
  known : ∀ (k : Nat) (core : ObjectId × Nat × Nat), k < i → cores[k]? = some core → Described read k core

theorem HalfDescribed.step {ids : Ids} {i : Nat} {cores : List (ObjectId × Nat × Nat)} {object : Object}
    {name : ObjectId} (half : HalfDescribed read ids i cores) (here : ids[i]? = some name)
    (readable : read name = some object) :
    HalfDescribed read ids (i + 1) (cores.modify i fun core => (core.1, packType object.type, i)) := by
  constructor
  · rw [map_modify (h := id), modify_id, half.names]
    intro core
    rfl
  · intro k core below found
    rw [getElem?_modify] at found
    obtain ⟨old, there, rfl⟩ := Option.map_eq_some_iff.1 found
    rcases Nat.lt_succ_iff_lt_or_eq.1 below with less | rfl
    · rw [if_neg (by omega)]
      exact half.known k old less there
    · rw [if_pos rfl]
      rw [← half.names, getElem?_map, there] at here
      cases here
      exact ⟨rfl, object, readable, rfl⟩

theorem describeFrom_described {rest : Ids} {i : Nat} {out : List PackItem}
    (described : describeFrom read rest i items = some out) (left : ids.drop i = rest)
    (half : HalfDescribed read ids i (items.map core)) :
    HalfDescribed read ids ids.length (out.map core) := by
  induction rest generalizing i items with
  | nil =>
    cases described
    have done : ids.length ≤ i := drop_eq_nil_iff.1 left
    exact ⟨half.names, fun k core below found => half.known k core (by omega) found⟩
  | cons id rest ih =>
    rw [describeFrom] at described
    split at described
    · cases described
    rename_i object readable
    have here : ids[i]? = some id := by
      rw [← head?_drop, left]
      rfl
    refine ih described ?_ ?_
    · rw [← tail_drop, left]
      rfl
    · rw [describeItem_core]
      exact half.step here readable

structure ItemsFor (read : Objects) (ids : Ids) (items : List PackItem) : Prop where
  places : (items.map (fun item => item.place)).Nodup
  each : ∀ item ∈ items, ids[item.place]? = some item.id ∧
    ∃ object, read item.id = some object ∧ item.type = packType object.type
  all : ∀ (i : Nat) (id : ObjectId), ids[i]? = some id → ∃ item ∈ items, item.place = i ∧ item.id = id

section
variable (described : HalfDescribed read ids ids.length cores)
include described

theorem HalfDescribed.numbered {k : Nat}
    {core : ObjectId × Nat × Nat} (found : cores[k]? = some core) : ids[k]? = some core.1 ∧ Described read k core := by
  have name : ids[k]? = some core.1 := by rw [← described.names, List.getElem?_map, found]; rfl
  exact ⟨name, described.known k core (List.getElem?_eq_some_iff.1 name).1 found⟩

theorem itemsFor_of_cores (perm : (items.map core).Perm cores) : ItemsFor read ids items := by
  have places : cores.map (fun core => core.2.2) = List.range cores.length := by
    apply ext_getElem?
    intro k
    rw [List.getElem?_map]
    cases found : cores[k]? with
    | none => simpa using found
    | some core =>
      have inside := (List.getElem?_eq_some_iff.1 found).1
      rw [List.getElem?_range inside, Option.map_some, (described.numbered found).2.1]
  constructor
  · have mapped := perm.map (fun core => core.2.2)
    rw [places, map_map] at mapped
    exact mapped.nodup_iff.2 nodup_range
  · intro item member
    obtain ⟨k, found⟩ := mem_iff_getElem?.1 (perm.mem_iff.1 (mem_map_of_mem member))
    obtain ⟨name, place, typed⟩ := described.numbered found
    exact ⟨by rw [show item.place = k from place]; exact name, typed⟩
  · intro i id here
    have inside : i < cores.length := by
      rw [← length_map (f := Prod.fst), described.names]
      exact (List.getElem?_eq_some_iff.1 here).1
    have found : cores[i]? = some cores[i] := List.getElem?_eq_getElem inside
    obtain ⟨name, place, -⟩ := described.numbered found
    obtain ⟨item, member, same⟩ := mem_map.1 (perm.mem_iff.2 (mem_of_getElem? found))
    rw [← same] at name place
    refine ⟨item, member, place, ?_⟩
    exact Option.some.inj (name.symm.trans here)

end

theorem packItems_itemsFor (made : packItems read ids = some items) : ItemsFor read ids items := by
  obtain ⟨described, found, rfl⟩ := Option.map_eq_some_iff.1 made
  have half : HalfDescribed read ids ids.length (described.map core) := by
    refine describeFrom_described found rfl ⟨?_, ?_⟩
    · rw [map_map, map_map]
      exact map_id' ids
    · intro k core below
      omega
  refine itemsFor_of_cores half ?_
  have named : (nameItems described).map core = described.map core := by
    apply ext_getElem?
    intro k
    simp only [nameItems, getElem?_map, getElem?_mapIdx, Option.map_map]
    rfl
  rw [← named]
  exact (perm_insertionSort _ _).map _

end Items

/-! ## How objects lie in the body -/

/-- An object as it was written at an offset: its header, the name of its base if it is a delta, its stream. -/
inductive Laid (prim : Primitives) (known : List IdxEntry) (body : Bytes) : Nat → Nat → ObjectType × Bytes → Prop
  | whole {off : Nat} {kind : ObjectType} {content packed tail : Bytes} (fits : content.length < addressSpace)
      (deflated : prim.deflate content = some packed)
      (lies : body.drop off = encodeObjHeader (packType kind) content.length ++ (packed ++ tail)) :
      Laid prim known body off 0 (kind, content)
  | back {off distance depth : Nat} {kind : ObjectType} {base delta content packed tail : Bytes}
      (fits : delta.length < addressSpace) (deflated : prim.deflate delta = some packed)
      (lies : body.drop off = encodeObjHeader ofsDelta delta.length ++ (backOffset distance ++ (packed ++ tail)))
      (earlier : 0 < distance ∧ distance ≤ off) (near : distance < addressSpace)
      (below : Laid prim known body (off - distance) depth (kind, base))
      (applied : applyDelta base delta = some content) : Laid prim known body off (depth + 1) (kind, content)
  | named {off depth : Nat} {entry : IdxEntry} {kind : ObjectType} {base delta content packed tail : Bytes}
      (fits : delta.length < addressSpace) (deflated : prim.deflate delta = some packed)
      (lies : body.drop off = encodeObjHeader refDelta delta.length ++ (entry.sha.bytes ++ (packed ++ tail)))
      (listed : entry ∈ known) (below : Laid prim known body entry.off depth (kind, base))
      (applied : applyDelta base delta = some content) : Laid prim known body off (depth + 1) (kind, content)

section Body
variable {prim : Primitives}

theorem drop_grows {front tail : Bytes} (nonempty : front ≠ []) (lies : body.drop off = front ++ tail) (more : Bytes) :
    (body ++ more).drop off = front ++ (tail ++ more) := by
  have inside : off ≤ body.length := by
    by_contra past
    rw [drop_eq_nil_of_le (by omega)] at lies
    exact nonempty (append_eq_nil_iff.1 lies.symm).1
  rw [drop_append_of_le_length inside, lies, append_assoc]

theorem encodeObjHeader_ne_nil (type size : Nat) : encodeObjHeader type size ≠ [] := by
  unfold encodeObjHeader
  split <;> simp

theorem Laid.grow {depth : Nat} (laid : Laid prim known body off depth object) (more : Bytes)
    (kept : ∀ e ∈ known, e ∈ all) : Laid prim all (body ++ more) off depth object := by
  induction laid with
  | whole fits deflated lies =>
    have lies := drop_grows (encodeObjHeader_ne_nil _ _) lies more
    rw [append_assoc] at lies
    exact .whole fits deflated lies
  | back fits deflated lies earlier near below applied ih =>
    have lies := drop_grows (encodeObjHeader_ne_nil _ _) lies more
    rw [append_assoc, append_assoc] at lies
    exact .back fits deflated lies earlier near ih applied
  | named fits deflated lies listed below applied ih =>
    have lies := drop_grows (encodeObjHeader_ne_nil _ _) lies more
    rw [append_assoc, append_assoc] at lies
    exact .named fits deflated lies (kept _ listed) ih applied

theorem inflateExpected_deflate {plain packed : Bytes} (deflated : prim.deflate plain = some packed) (tail : Bytes) :
    inflateExpected prim plain.length (packed ++ tail) = some plain := by
  simp [inflateExpected, prim.inflate_deflate plain packed deflated tail]

theorem below_word {n : Nat} (fits : n < addressSpace) : n < 2 ^ 64 := by
  simp only [addressSpace] at fits
  omega

theorem header_of_lies {tail : Bytes} {type : Nat} (seven : type < 8) (fits : size < addressSpace)
    (lies : body.drop off = encodeObjHeader type size ++ tail) :
    readObjHeader (body.drop off) = some (type, size, tail) := by
  rw [lies, readObjHeader_encodeObjHeader seven (below_word fits)]

theorem Laid.holds {idx : Bytes} {depth : Nat} (laid : Laid prim known body off depth object)
    (indexed : ∀ e ∈ known, lookupOffset idx e.sha = e.off ∧ e.off ≠ notFound) :
    Holds prim body idx off depth object := by
  induction laid with
  | @whole _ kind content _ _ fits deflated lies =>
    have seven : packType kind < 8 := by cases kind <;> decide
    exact .whole (header_of_lies seven fits lies) (inflateExpected_deflate deflated _)
  | @back _ distance _ _ _ _ _ packed tail fits deflated lies earlier near below applied ih =>
    have short : distance < 128 ^ (9 + 1) := by
      simp only [addressSpace] at near
      omega
    have distant := readBackOffset_backOffset 64 distance 9 (packed ++ tail) (below_word near) short
    exact .back (header_of_lies (by decide) fits lies) distant earlier (inflateExpected_deflate deflated _) ih applied
  | named fits deflated lies listed below applied ih =>
    obtain ⟨found, known⟩ := indexed _ listed
    rw [← found] at ih known
    exact .named (header_of_lies (by decide) fits lies) (inflateExpected_deflate deflated _) known ih applied

end Body

/-! ## The writing loop -/

section Writing
variable {prim : Primitives} {read : Objects} {ofsOk : Bool} {window : List Held}

/-- A delta the search may answer: it was made against an object of the window that is no deeper than allowed. -/
def Usable (window : List Held) (type : Nat) (content : Bytes) (answer : Bytes × Held) : Prop :=
  answer.2 ∈ window ∧ answer.2.type = type ∧ answer.2.depth < packDepth ∧
    ∃ index max, answer.2.index = some index ∧ deltaCreate index content max = some answer.1

/-- What holds of the best delta so far, and of every delta that may take its place, holds of the answer. -/
theorem bestDelta_invariant {P : Bytes × Held → Prop} {type : Nat} {content : Bytes}
    (sofar : ∀ answer, best = some answer → P answer)
    (next : ∀ held ∈ window, ∀ index best delta, (∀ answer, best = some answer → P answer) → held.type = type →
      held.depth < packDepth → held.index = some index → deltaCreate index content (deltaMax content.length best
      held.depth) = some delta → P (delta, held)) :
    ∀ answer, bestDelta type content window best = some answer → P answer := by
  induction window generalizing best with
  | nil => exact sofar
  | cons held older ih =>
    have later := fun h member => next h (mem_cons_of_mem held member)
    have skip := ih sofar later
    unfold bestDelta
    split
    · exact skip
    next fitting =>
      split
      · exact skip
      next index indexed =>
        dsimp only
        split
        · exact skip
        · split
          · exact skip
          · split
            · exact skip
            next delta created =>
              simp only [not_or, Decidable.not_not, not_le] at fitting
              refine ih (fun answer same => ?_) later
              cases same
              exact next held (.head _) index best delta sofar fitting.1 fitting.2 indexed created

theorem bestDelta_of_window (window : List Held) (type : Nat) (content : Bytes) (answer : Bytes × Held)
    (found : bestDelta type content window.reverse none = some answer) : Usable window type content answer := by
  refine bestDelta_invariant (by simp) (fun held member index _ delta _ same shallow indexed created => ?_) answer found
  exact ⟨mem_reverse.1 member, same, shallow, index, _, indexed, created⟩

theorem writeItem_eq_some {next : BuildState} (wrote : writeItem prim read ofsOk state item = some next) :
    ∃ object packed crc, read item.id = some object ∧
      let best := bestDelta item.type object.content state.window.reverse none
      let coded := coding ofsOk item object.content best
      prim.deflate coded.2.1 = some packed ∧ next.body.length < addressSpace ∧
      next.body = state.body ++ (encodeObjHeader coded.1 coded.2.1.length ++
        (baseName ofsOk state.body.length best ++ packed)) ∧
      next.entries = state.entries.set item.place { sha := item.id, off := state.body.length, crc } ∧
      next.window = slide state.window
        { sha := item.id, content := object.content, off := state.body.length, type := item.type,
          depth := coded.2.2, index := deltaIndexCreate object.content } := by
  obtain ⟨object, readable, rest⟩ := Option.bind_eq_some_iff.1 wrote
  obtain ⟨one, headed, rest⟩ := Option.bind_eq_some_iff.1 rest
  obtain ⟨two, based, rest⟩ := Option.bind_eq_some_iff.1 rest
  obtain ⟨packed, deflated, rest⟩ := Option.bind_eq_some_iff.1 rest
  obtain ⟨three, streamed, rest⟩ := Option.bind_eq_some_iff.1 rest
  obtain ⟨rfl, -⟩ := bufAppend_eq_some headed
  obtain ⟨rfl, -⟩ := bufAppend_eq_some based
  obtain ⟨rfl, bounded⟩ := bufAppend_eq_some streamed
  cases rest
  refine ⟨object, packed, _, readable, deflated, bounded, ?_, rfl, rfl⟩
  rw [append_assoc, append_assoc]
  rfl

structure Held.Right (prim : Primitives) (known : List IdxEntry) (body : Bytes) (held : Held) : Prop where
  indexed : held.index = deltaIndexCreate held.content
  fits : held.content.length < addressSpace
  inside : held.off < body.length
  listed : ∃ entry ∈ known, entry.sha = held.sha ∧ entry.off = held.off
  laid : ∃ kind, held.type = packType kind ∧ Laid prim known body held.off held.depth (kind, held.content)

structure Written (prim : Primitives) (read : Objects) (known : List IdxEntry) (state : BuildState)
    (item : PackItem) (entry : IdxEntry) : Prop where
  named : entry.sha = item.id
  entered : state.entries[item.place]? = some entry
  fits : entry.off < addressSpace
  laid : ∃ object depth, read item.id = some object ∧ depth ≤ packDepth ∧
    Laid prim known state.body entry.off depth (object.type, object.content)

/-- The state after the items `done`, whose entries are `known`. -/
structure Progress (prim : Primitives) (read : Objects) (size : Nat) (done : List PackItem)
    (state : BuildState) (known : List IdxEntry) : Prop where
  bounded : state.body.length < addressSpace
  sized : state.entries.length = size
  window : ∀ held ∈ state.window, held.Right prim known state.body
  written : List.Forall₂ (Written prim read known state) done known

theorem Held.Right.grow {held : Held} (right : held.Right prim known body) (more : Bytes)
    (kept : ∀ e ∈ known, e ∈ all) : held.Right prim all (body ++ more) := by
  obtain ⟨entry, member, same⟩ := right.listed
  obtain ⟨kind, typed, laid⟩ := right.laid
  refine ⟨right.indexed, right.fits, ?_, ⟨entry, kept entry member, same⟩, ⟨kind, typed, laid.grow more kept⟩⟩
  rw [length_append]
  exact Nat.lt_add_right _ right.inside

theorem coding_laid {object : Object} {packed : Bytes}
    (right : ∀ held ∈ window, held.Right prim known body) (kept : ∀ e ∈ known, e ∈ all)
    (bounded : body.length < addressSpace) (typed : item.type = packType object.type)
    (usable : ∀ answer, best = some answer → Usable window item.type object.content answer)
    (deflated : prim.deflate (coding ofsOk item object.content best).2.1 = some packed) :
    (coding ofsOk item object.content best).2.2 ≤ packDepth ∧ Laid prim all
        (body ++ (encodeObjHeader (coding ofsOk item object.content best).1
          (coding ofsOk item object.content best).2.1.length ++ (baseName ofsOk body.length best ++ packed)))
        body.length (coding ofsOk item object.content best).2.2 (object.type, object.content) := by
  -- everything from the old end on is what was appended
  have lies (appended : Bytes) : (body ++ (appended ++ packed)).drop body.length = appended ++ (packed ++ []) := by
    simp
  cases best with
  | none =>
    refine ⟨Nat.zero_le _, ?_⟩
    have here := lies (encodeObjHeader item.type object.content.length)
    rw [typed] at here
    simp only [coding, typed] at deflated ⊢
    exact .whole object.fits deflated here
  | some answer =>
    obtain ⟨delta, held⟩ := answer
    obtain ⟨member, sameType, shallow, index, max, indexed, created⟩ := usable _ rfl
    have good := right held member
    obtain ⟨kind, heldType, laid⟩ := good.laid
    obtain ⟨-, -, -, deltaFits, -⟩ := deltaCreate_spells created
    have applied : applyDelta held.content delta = some object.content :=
      applyDelta_deltaCreate (good.indexed.symm.trans indexed) created good.fits object.fits
    have inside := good.inside
    obtain rfl : kind = object.type := packType_injective (heldType.symm.trans (sameType.trans typed))
    refine ⟨shallow, ?_⟩
    cases ofsOk with
    | true =>
      have place : body.length - (body.length - held.off) = held.off := by omega
      have here := lies (encodeObjHeader ofsDelta delta.length ++ backOffset (body.length - held.off))
      rw [append_assoc, append_assoc] at here
      refine .back deltaFits deflated here (by omega) (by omega) ?_ applied
      rw [place]
      exact laid.grow _ kept
    | false =>
      obtain ⟨entry, listed, sha, off⟩ := good.listed
      have here := lies (encodeObjHeader refDelta delta.length ++ entry.sha.bytes)
      rw [append_assoc, append_assoc] at here
      simp only [baseName, ← sha] at deflated ⊢
      refine .named deltaFits deflated here (kept entry listed) ?_ applied
      rw [off]
      exact laid.grow _ kept

theorem Progress.step {size : Nat} {done : List PackItem} {state next : BuildState} {known : List IdxEntry}
    {item : PackItem} (progress : Progress prim read size done state known)
    (wrote : writeItem prim read ofsOk state item = some next) (room : item.place < size)
    (apart : ∀ other ∈ done, other.place ≠ item.place)
    (typed : ∀ object, read item.id = some object → item.type = packType object.type) :
    ∃ entry, Progress prim read size (done ++ [item]) next (known ++ [entry]) := by
  obtain ⟨object, packed, crc, readable, deflated, bounded, body, entries, window⟩ := writeItem_eq_some wrote
  have usable := bestDelta_of_window state.window item.type object.content
  generalize bestDelta item.type object.content state.window.reverse none = best at *
  set entry : IdxEntry := { sha := item.id, off := state.body.length, crc } with entry_def
  have kept : ∀ e ∈ known, e ∈ known ++ [entry] := fun e member => mem_append_left _ member
  have mine : entry ∈ known ++ [entry] := mem_append_right _ (.head _)
  obtain ⟨shallow, laid⟩ := coding_laid progress.window kept progress.bounded (typed object readable) usable deflated
  rw [← body] at laid
  refine ⟨entry, bounded, ?_, ?_, ?_⟩
  · rw [entries, length_set, progress.sized]
  · intro held member
    rw [window, slide, mem_append] at member
    rcases member with old | new
    · have before : held ∈ state.window := by
        split at old
        · exact mem_of_mem_tail old
        · exact old
      rw [body]
      exact (progress.window held before).grow _ kept
    obtain rfl := mem_singleton.1 new
    refine ⟨rfl, object.fits, ?_, ⟨entry, mine, rfl, rfl⟩, ⟨object.type, typed object readable, laid⟩⟩
    rw [body, length_append, length_append]
    dsimp only
    have := length_pos_of_ne_nil (encodeObjHeader_ne_nil (coding ofsOk item object.content best).1
      (coding ofsOk item object.content best).2.1.length)
    omega
  · have apartFrom := (forall₂_and_left _ _).2 ⟨apart, progress.written⟩
    refine rel_append (apartFrom.imp ?_) (List.Forall₂.cons ?_ List.Forall₂.nil)
    · rintro other old ⟨elsewhere, written⟩
      obtain ⟨theirs, depth, readTheirs, shallow, laidTheirs⟩ := written.laid
      refine ⟨written.named, ?_, written.fits, theirs, depth, readTheirs, shallow, ?_⟩
      · rw [entries, getElem?_set_ne (Ne.symm elsewhere)]
        exact written.entered
      · rw [body]
        exact laidTheirs.grow _ kept
    · refine ⟨rfl, ?_, progress.bounded, object, _, readable, shallow, laid⟩
      rw [entries, getElem?_set_self (by rw [progress.sized]; exact room)]

theorem writeItems_progress {start : BuildState} (itemsFor : ItemsFor read ids items)
    (small : start.body.length < addressSpace) (fresh : start.entries.length = ids.length)
    (noWindow : start.window = []) (ran : items.foldlM (writeItem prim read ofsOk) start = some state) :
    ∃ known, Progress prim read ids.length items state known := by
  refine foldlM_invariant (fun done state => ∃ known, Progress prim read ids.length done state known) ran ?_ ?_
  · refine ⟨[], small, fresh, ?_, List.Forall₂.nil⟩
    simp [noWindow]
  · rintro done item rest state next whole ⟨known, progress⟩ wrote
    obtain ⟨name, object, readable, typed⟩ := itemsFor.each item (by simp [whole])
    have apart : ∀ other ∈ done, other.place ≠ item.place := by
      intro other member same
      have nodup := itemsFor.places
      rw [whole, map_append, nodup_append] at nodup
      exact nodup.2.2 _ (mem_map_of_mem member) _ (mem_map_of_mem mem_cons_self) same
    obtain ⟨entry, further⟩ := progress.step wrote (List.getElem?_eq_some_iff.1 name).1 apart (by
      intro other readOther
      rw [readable] at readOther
      cases readOther
      exact typed)
    exact ⟨known ++ [entry], further⟩

section
variable (progress : Progress prim read size done state known)
include progress

theorem Progress.written_of_mem (member : item ∈ done) : ∃ entry ∈ known, Written prim read known state item entry := by
  obtain ⟨k, inside, rfl⟩ := mem_iff_getElem.1 member
  have length := progress.written.length_eq
  exact ⟨known[k], getElem_mem (by omega), progress.written.get inside (by omega)⟩

theorem Progress.known_entered {entry : IdxEntry}
    (member : entry ∈ known) : entry ∈ state.entries ∧ entry.off < addressSpace := by
  obtain ⟨k, inside, rfl⟩ := mem_iff_getElem.1 member
  have length := progress.written.length_eq
  have written := progress.written.get (i := k) (by omega) inside
  exact ⟨mem_of_getElem? written.entered, written.fits⟩

end

section
variable (progress : Progress prim read ids.length items state known) (itemsFor : ItemsFor read ids items)
include progress itemsFor

theorem Progress.entries_names : state.entries.map (fun e => e.sha) = ids := by
  apply ext_getElem?
  intro i
  rw [getElem?_map]
  cases here : ids[i]? with
  | none =>
    have past := getElem?_eq_none_iff.1 here
    rw [getElem?_eq_none (by rw [progress.sized]; exact past)]
    rfl
  | some id =>
    obtain ⟨item, member, rfl, rfl⟩ := itemsFor.all i id here
    obtain ⟨entry, -, written⟩ := progress.written_of_mem member
    rw [written.entered, Option.map_some, written.named]

theorem Progress.entry_known {entry : IdxEntry} (member : entry ∈ state.entries) : entry ∈ known := by
  obtain ⟨i, found⟩ := mem_iff_getElem?.1 member
  have name : ids[i]? = some entry.sha := by
    rw [← progress.entries_names itemsFor, getElem?_map, found]
    rfl
  obtain ⟨item, inside, rfl, -⟩ := itemsFor.all i _ name
  obtain ⟨other, listed, written⟩ := progress.written_of_mem inside
  rw [written.entered] at found
  cases found
  exact listed

end

end Writing

/-! ## The round trip -/

section RoundTrip
variable {prim : Primitives} {read : Objects} {ids : Ids} {ofsOk : Bool} {built : Built}

/-- What a built pack is: its entries name the ids in order, and each object lies where its entry says. -/
structure Built.Packs (prim : Primitives) (read : Objects) (ids : Ids) (built : Built) :
    Prop where
  names : built.entries.map (fun e => e.sha) = ids
  offsets : ∀ e ∈ built.entries, e.off < addressSpace
  objects : ∀ e ∈ built.entries, ∃ object depth, read e.sha = some object ∧ depth ≤ packDepth ∧
    Laid prim built.entries built.pack e.off depth (object.type, object.content)

theorem packBuildDeltas_packs (made : packBuildDeltas prim read ids ofsOk = some built) :
    built.Packs prim read ids := by
  obtain ⟨items, found, rest⟩ := Option.bind_eq_some_iff.1 made
  obtain ⟨header, headed, rest⟩ := Option.bind_eq_some_iff.1 rest
  obtain ⟨state, ran, rest⟩ := Option.bind_eq_some_iff.1 rest
  obtain ⟨pack, sealed, rest⟩ := Option.bind_eq_some_iff.1 rest
  obtain ⟨rfl, -⟩ := bufAppend_eq_some sealed
  cases rest
  have itemsFor := packItems_itemsFor found
  obtain ⟨known, progress⟩ := writeItems_progress itemsFor (bufAppend_eq_some headed).2 (by simp) rfl ran
  refine ⟨progress.entries_names itemsFor, ?_, ?_⟩
  · intro e member
    exact (progress.known_entered (progress.entry_known itemsFor member)).2
  · intro e member
    obtain ⟨i, place⟩ := mem_iff_getElem?.1 member
    have name : ids[i]? = some e.sha := by
      rw [← progress.entries_names itemsFor, getElem?_map, place]
      rfl
    obtain ⟨item, inside, rfl, id⟩ := itemsFor.all i _ name
    obtain ⟨entry, -, written⟩ := progress.written_of_mem inside
    rw [written.entered] at place
    cases place
    obtain ⟨object, depth, readable, shallow, laid⟩ := written.laid
    refine ⟨object, depth, id ▸ readable, shallow, laid.grow _ ?_⟩
    intro other listed
    exact (progress.known_entered listed).1

theorem Built.Packs.reads {idx : Bytes} (packs : built.Packs prim read ids) (distinct : ids.Nodup)
    (written : writeIdxV2 prim built.entries built.checksum = some idx) {id : ObjectId} (listed : id ∈ ids) :
    ∃ object, read id = some object ∧ lookupOffset idx id ≠ notFound ∧ ∀ loose address,
      (readObjectAt prim loose { address, bytes := built.pack } idx (lookupOffset idx id) 0 empty).1 =
        some (object.type, object.content) := by
  have nodup : (built.entries.map (fun e => e.sha)).Nodup := by rw [packs.names]; exact distinct
  have indexed : ∀ e ∈ built.entries, lookupOffset idx e.sha = e.off ∧ e.off ≠ notFound := by
    intro e member
    have bound := packs.offsets e member
    refine ⟨lookupOffset_listed written nodup (fun e member => below_word (packs.offsets e member)) member, ?_⟩
    simp only [addressSpace] at bound
    simp only [notFound]
    omega
  rw [← packs.names] at listed
  obtain ⟨e, member, rfl⟩ := mem_map.1 listed
  obtain ⟨object, depth, readable, shallow, laid⟩ := packs.objects e member
  obtain ⟨found, known⟩ := indexed e member
  refine ⟨object, readable, found ▸ known, fun loose address => ?_⟩
  have allowed : depth < maxDeltaDepth + 1 - 0 := by
    simp only [packDepth] at shallow
    simp only [maxDeltaDepth]
    omega
  rw [readObjectAt, found]
  exact readObjectAtFrom_holds (laid.holds indexed) allowed empty_right

/-- Packing and reading back: whatever the objects, whichever way bases are named, every id asked for is found
in the index, and what is read there is the object that went in. -/
theorem pack_round_trip (prim : Primitives) (read : ObjectId → Option Object) (ids : List ObjectId) (ofsOk : Bool)
    (built : Built) (idx : Bytes) (loose : ObjectId → Option (ObjectType × Bytes)) (address : Nat)
    (distinct : ids.Nodup) (made : packBuildDeltas prim read ids ofsOk = some built)
    (written : writeIdxV2 prim built.entries built.checksum = some idx) :
    ∀ id ∈ ids, ∃ object, read id = some object ∧ lookupOffset idx id ≠ notFound ∧
      (readObjectAt prim loose { address, bytes := built.pack } idx (lookupOffset idx id) 0 Cache.empty).1
        = some (object.type, object.content) := by
  intro id listed
  obtain ⟨object, readable, known, reads⟩ := (packBuildDeltas_packs made).reads distinct written listed
  exact ⟨object, readable, known, reads loose address⟩

/-! A compressor simple enough to evaluate: every byte is stored behind a 1, and a 0 ends the stream. -/

def storeInflate : Bytes → Option (Bytes × Nat)
  | 0 :: _ => some ([], 1)
  | 1 :: b :: rest => (storeInflate rest).map fun (plain, used) => (b :: plain, used + 2)
  | _ => none

def storing : Primitives where
  deflate plain := some (plain.flatMap (fun b => [1, b]) ++ [0])
  inflate := storeInflate
  crc32 _ := 0
  digest _ := zeroEntry.sha
  attacked _ := false
  inflate_deflate := by
    intro plain packed deflated tail
    cases deflated
    induction plain with
    | nil => rfl
    | cons b plain ih => simpa [storeInflate] using ih

def sampleId (b : UInt8) : ObjectId := .filled b

def sampleStore (id : ObjectId) : Option Object :=
  if id = sampleId 1 then some ⟨.blob, List.replicate 64 7, by simp [addressSpace]⟩
  else if id = sampleId 2 then some ⟨.blob, List.replicate 64 7 ++ [9], by simp [addressSpace]⟩
  else none

theorem sample_packed : ∃ built idx, [sampleId 1, sampleId 2].Nodup ∧
    packBuildDeltas storing sampleStore [sampleId 1, sampleId 2] true = some built ∧
    writeIdxV2 storing built.entries built.checksum = some idx ∧
    ∀ id ∈ [sampleId 1, sampleId 2], ∃ object, sampleStore id = some object ∧ lookupOffset idx id ≠ notFound ∧
      (readObjectAt storing (fun _ => none) { address := 0, bytes := built.pack } idx (lookupOffset idx id) 0
        Cache.empty).1 = some (object.type, object.content) := by
  have distinct : [sampleId 1, sampleId 2].Nodup := by decide
  have succeeds : ((packBuildDeltas storing sampleStore [sampleId 1, sampleId 2] true).bind fun built =>
      (writeIdxV2 storing built.entries built.checksum).map fun idx => (built, idx)).isSome = true := by
    decide +kernel
  obtain ⟨⟨built, idx⟩, both⟩ := Option.isSome_iff_exists.1 succeeds
  obtain ⟨made, packed, rest⟩ := Option.bind_eq_some_iff.1 both
  obtain ⟨index, written, same⟩ := Option.map_eq_some_iff.1 rest
  cases same
  exact ⟨built, idx, distinct, packed, written,
    pack_round_trip storing sampleStore _ true built idx (fun _ => none) 0 distinct packed written⟩

/-! ## The index by itself -/

/-- A written index gives each id it lists the offset listed with it, and no offset for any other. -/
theorem idx_answers (prim : Primitives) (ents : List IdxEntry) (packSha : ObjectId) (idx : Bytes)
    (distinct : (ents.map fun e => e.sha).Nodup) (wide : ∀ e ∈ ents, e.off < 2 ^ 64)
    (written : writeIdxV2 prim ents packSha = some idx) :
    (∀ e ∈ ents, lookupOffset idx e.sha = e.off) ∧
      ∀ sha, (∀ e ∈ ents, e.sha ≠ sha) → lookupOffset idx sha = notFound :=
  ⟨fun _ listed => lookupOffset_listed written distinct wide listed, fun sha unlisted =>
    lookupOffset_unlisted written sha unlisted⟩

def sampleEntries : List IdxEntry :=
  [⟨sampleId 2, 0x80000010, 0⟩, ⟨⟨2 :: List.replicate 19 1, by simp⟩, 12, 0⟩, ⟨sampleId 255, 0x7fffffff, 0⟩]

theorem idx_answers_sample : ∃ idx, writeIdxV2 storing sampleEntries (sampleId 0) = some idx ∧
    (∀ e ∈ sampleEntries, lookupOffset idx e.sha = e.off) ∧
      ∀ sha, (∀ e ∈ sampleEntries, e.sha ≠ sha) → lookupOffset idx sha = notFound := by
  have succeeds : (writeIdxV2 storing sampleEntries (sampleId 0)).isSome = true := by decide +kernel
  obtain ⟨idx, written⟩ := Option.isSome_iff_exists.1 succeeds
  exact ⟨idx, written, idx_answers storing sampleEntries (sampleId 0) idx (by decide +kernel)
    (by decide +kernel) written⟩

end RoundTrip

end BashOs.Git.Pack

import Mathlib.Data.List.DropRight
import BashOs.Lib.Decimal
import BashOs.Lib.Loop
import BashOs.Lib.LowerBound
import BashOs.Git.IndexFile.Views

/-!
The entries of an index while a command changes them, and `update-index --index-info`, which puts in one entry a line.
Whatever is put in and taken out, the index stays in order. A path that is put in stands there once, at the stage it was
put in at: of the stages of a conflict, the last one given stays.
-/

namespace BashOs.Git.IndexFile
open BashOs.Lib List

/-! ## The calls -/

def indexPlace (entries : List DiskEntry) (path : CString) :
    Nat := keyPlace (fun entry => entry.path.bytes) entries path.bytes

/-- `git_index_lookup` -/
def indexLookup (entries : List DiskEntry) (path : CString) : Option DiskEntry :=
  (entries[indexPlace entries path]?).filter fun entry => entry.path.bytes = path.bytes

/-- `git_index_put`. An entry at stage zero is replaced; when any is at another stage, they all go. -/
def indexPut (entries : List DiskEntry) (entry : DiskEntry) : List DiskEntry :=
  putKeyed (fun other => other.path.bytes) (fun other => other.stage = 0) entries entry

/-- `bgit_index_remove_path` -/
def removePath (entries : List DiskEntry) (path : CString) : List DiskEntry :=
  entries.filter fun entry => entry.path.bytes ≠ path.bytes

inductive IndexCall where
  | put (entry : DiskEntry)
  | remove (path : CString)
deriving DecidableEq

namespace IndexCall

def path : IndexCall → CString
  | put entry => entry.path
  | remove path => path

def run (entries : List DiskEntry) : IndexCall → List DiskEntry
  | put entry => indexPut entries entry
  | remove path => removePath entries path

/-- The entries of its path that a call leaves. -/
def left : IndexCall → List DiskEntry
  | put entry => [entry]
  | remove _ => []

end IndexCall

def runCalls (entries : List DiskEntry) (calls : List IndexCall) : List DiskEntry := calls.foldl IndexCall.run entries

/-! ## The order -/

/-- In order of path and stage, nothing twice, and no path both settled and in conflict. -/
structure IndexOrder (entries : List DiskEntry) : Prop where
  sorted : entries.Pairwise (KeyOrder (fun entry => entry.path.bytes) fun a b => a.stage < b.stage)
  settled : ∀ a ∈ entries, ∀ b ∈ entries, a.path.bytes = b.path.bytes → a.stage = 0 → b.stage = 0

def entriesAt (entries : List DiskEntry) (path : CString) : List DiskEntry :=
  entries.filter fun entry => entry.path.bytes = path.bytes

section
variable {entries : List DiskEntry}

theorem stage_strict (a b : DiskEntry) (less : a.stage < b.stage) : decide (b.stage = 0) = false :=
  decide_eq_false (ne_of_gt (Nat.zero_lt_of_lt less))

section
variable (order : IndexOrder entries)
include order

theorem IndexOrder.entriesAt_run (call : IndexCall) (path : CString) :
    entriesAt (call.run entries) path = if call.path.bytes = path.bytes then call.left else entriesAt entries path := by
  cases call with
  | put entry => exact filter_putKeyed order.sorted stage_strict entry path.bytes
  | remove other =>
    rw [IndexCall.run, removePath, entriesAt, filter_filter, IndexCall.path]
    split
    next same =>
      rw [same]
      simp [IndexCall.left]
    next other =>
      refine filter_congr fun entry _ => ?_
      by_cases here : entry.path.bytes = path.bytes
      · simp [here, Ne.symm other]
      · simp [here]

theorem IndexOrder.run (call : IndexCall) : IndexOrder (call.run entries) := by
  cases call with
  | remove path =>
    exact ⟨order.sorted.filter _, fun a inside b inside' =>
      order.settled a (mem_of_mem_filter inside) b (mem_of_mem_filter inside')⟩
  | put entry =>
    refine ⟨putKeyed_sorted order.sorted stage_strict entry, fun a inside b inside' same settled => ?_⟩
    obtain rfl | ⟨inside, apart⟩ := (mem_putKeyed order.sorted stage_strict entry a).1 inside <;>
      obtain rfl | ⟨inside', apart'⟩ := (mem_putKeyed order.sorted stage_strict _ b).1 inside'
    · exact settled
    · exact absurd same.symm apart'
    · exact absurd same apart
    · exact order.settled a inside b inside' same settled

/-! ## Whole runs -/

theorem IndexOrder.runCalls (calls : List IndexCall) : IndexOrder (runCalls entries calls) :=
  foldl_invariant (fun _ entries => IndexOrder entries) order fun _ call _ _ _ order => order.run call

/-- What stands at a path is what its last call left there. -/
theorem IndexOrder.entriesAt_runCalls (calls : List IndexCall) (path : CString) :
    entriesAt (IndexFile.runCalls entries calls) path =
      match (calls.filter fun call => call.path.bytes = path.bytes).getLast? with
      | some call => call.left
      | none => entriesAt entries path := by
  induction calls using reverseRecOn with
  | nil => rfl
  | append_singleton calls call ih =>
    have after : IndexFile.runCalls entries (calls ++ [call]) = call.run (IndexFile.runCalls entries calls) := by
      simp [IndexFile.runCalls]
    rw [after, (order.runCalls calls).entriesAt_run, filter_append]
    by_cases here : call.path.bytes = path.bytes
    · simp [here]
    · simp [here, ih]

end

/-- Calls keep the order, leave the entries of paths they do not name, and a path is then found just if it is there. -/
theorem index_order_kept (entries : List DiskEntry) (calls : List IndexCall) (order : IndexOrder entries) :
    IndexOrder (runCalls entries calls) ∧
    (∀ path, (∀ call ∈ calls, call.path.bytes ≠ path.bytes) →
      entriesAt (runCalls entries calls) path = entriesAt entries path) ∧
    ∀ path, indexLookup (runCalls entries calls) path = (entriesAt (runCalls entries calls) path).head? := by
  refine ⟨order.runCalls calls, fun path others => ?_, fun path => ?_⟩
  · have none : (calls.filter fun call => decide (call.path.bytes = path.bytes)) = [] :=
      filter_eq_nil_iff.2 fun call member => by simpa using others call member
    rw [order.entriesAt_runCalls, none]
    rfl
  · rw [entriesAt, head?_filter]
    exact keyed_found (order.runCalls calls).sorted path.bytes

end

/-! ## Lines of `--index-info` -/

/-- `bgit_index_parse_mode`: `strtoul` in base eight, to the end of the text. -/
def parseMode (text : Bytes) : Option UInt32 :=
  let (negative, digits) := signOf (text.dropWhile leadsNumber)
  let size := digits.foldl (fun value b => value * 8 + (b.toNat - 0x30)) 0
  let value := if negative then (2 ^ 64 - size) % 2 ^ 64 else size
  if digits = [] ∨ (digits.any fun b => b < 0x30 || 0x37 < b) ∨ 2 ^ 64 ≤ size ∨ 2 ^ 32 ≤ value then none
  else some (UInt32.ofNat value)

/-- `bgit_index_parse_stage` -/
def parseStage (text : Bytes) : Option Nat :=
  let (value, rest) := strtol text
  if text ≠ [] ∧ rest = [] ∧ 0 ≤ value ∧ value ≤ 3 then some value.toNat else none

def infoEntry (mode : UInt32) (sha : ObjectId) (stage : Nat) (path : CString) : DiskEntry where
  ctimeSec := 0
  ctimeNsec := 0
  mtimeSec := 0
  mtimeNsec := 0
  dev := 0
  ino := 0
  mode
  uid := 0
  gid := 0
  size := 0
  sha
  flags := UInt16.ofNat (stage <<< 12 ||| min path.bytes.length 0xfff)
  flags2 := 0
  path

/-- `bgit_index_info_line_to_entry`. The loop over the words takes a fourth one off before it stops, and only a fifth is
too many. -/
def infoLine (line : Bytes) : Option IndexCall := do
  let text := line.takeWhile (· ≠ 0)
  let path := CString.ofBytes ((afterFirst 0x09 text).rdropWhile fun b => b = 0x0a || b = 0x0d)
  let words := ((text.takeWhile (· ≠ 0x09)).splitOn 0x20).filter (· ≠ [])
  if 0x09 ∉ text ∨ pathValid path.bytes = false ∨ words.length < 2 ∨ 4 < words.length then none
  else
    let mode ← parseMode (words.getD 0 [])
    let staged := if (words.getD 1 []).length = 40 then parseStage (words.getD 2 []) else none
    let sha ← hexToSha (if words.length = 2 ∨ staged.isSome then words.getD 1 [] else words.getD 2 [])
    some (if mode = 0 then .remove path else .put (infoEntry mode sha (staged.getD 0) path))

/-- The loop of `git_cmd_update_index` over its input, which ends the command at a line that is malformed. -/
def indexInfo (entries : List DiskEntry) (lines : List Bytes) : Option (List DiskEntry) :=
  lines.foldlM (fun entries line => (infoLine line).map (IndexCall.run entries)) entries

def callsAt (lines : List Bytes) (path : CString) : List IndexCall :=
  (lines.filterMap infoLine).filter fun call => call.path.bytes = path.bytes

/-- The entries that the lines give for a path. -/
def givenAt (lines : List Bytes) (path : CString) : List DiskEntry := (callsAt lines path).flatMap IndexCall.left

theorem indexInfo_eq_some {entries after : List DiskEntry} {lines : List Bytes}
    (ran : indexInfo entries lines = some after) :
    after = runCalls entries (lines.filterMap infoLine) := by
  induction lines generalizing entries with
  | nil =>
    cases ran
    rfl
  | cons line lines ih =>
    obtain ⟨next, first, ran⟩ := Option.bind_eq_some_iff.1 ran
    obtain ⟨call, parsed, rfl⟩ := Option.map_eq_some_iff.1 first
    rw [filterMap_cons_some parsed]
    exact ih ran

theorem map_put_left {calls : List IndexCall} (puts : ∀ call ∈ calls, call.left ≠ []) :
    (calls.flatMap IndexCall.left).map .put = calls := by
  induction calls with
  | nil => rfl
  | cons call calls ih =>
    obtain ⟨own, others⟩ := forall_mem_cons.1 puts
    cases call with
    | put entry => simp [IndexCall.left, ih others]
    | remove path => exact absurd rfl own

/-- Of the stages that lines give for one path, each is there afterwards just if there is but one. -/
theorem conflict_stages_iff (entries after : List DiskEntry) (lines : List Bytes) (path : CString)
    (order : IndexOrder entries)
    (ran : indexInfo entries lines = some after)
    (puts : ∀ call ∈ callsAt lines path, call.left ≠ []) (distinct : ((givenAt lines path).map DiskEntry.stage).Nodup) :
    (∀ entry ∈ givenAt lines path, ∃ held ∈ entriesAt after path, held.stage = entry.stage ∧ held.mode = entry.mode ∧
      held.sha = entry.sha) ↔ (givenAt lines path).length ≤ 1 := by
  have calls : (lines.filterMap infoLine).filter _ = (givenAt lines path).map .put := (map_put_left puts).symm
  rw [indexInfo_eq_some ran, order.entriesAt_runCalls, calls, getLast?_map]
  cases found : (givenAt lines path).getLast? with
  | none => simp [getLast?_eq_none_iff.1 found]
  | some last =>
    simp only [Option.map_some, IndexCall.left, mem_singleton, exists_eq_left]
    constructor
    · intro all
      have same : (givenAt lines path).map DiskEntry.stage = replicate (givenAt lines path).length last.stage :=
        eq_replicate_iff.2 ⟨length_map _, fun stage member => by
          obtain ⟨entry, inside, rfl⟩ := mem_map.1 member
          exact (all entry inside).1.symm⟩
      rwa [same, nodup_replicate] at distinct
    · intro few entry inside
      obtain ⟨only, alone⟩ := length_eq_one_iff.1 (le_antisymm few (length_pos_of_mem inside))
      rw [alone] at inside found
      rw [mem_singleton.1 inside, ← Option.some.inj found]
      exact ⟨rfl, rfl, rfl⟩

def infoText (stage : String) :
    Bytes := ascii "100644 0123456789012345678901234567890123456789 " ++ ascii stage ++ ascii "\tf\n"

def pathF : CString := ⟨ascii "f", by decide +kernel⟩

theorem indexOrder_nil : IndexOrder [] := ⟨List.Pairwise.nil, nofun⟩

/-- An index that has `f` merged. -/
def startF : List DiskEntry := runCalls [] ([infoText "0"].filterMap infoLine)

theorem index_order_kept_sample : startF.length = 1 ∧ IndexOrder startF ∧
    IndexOrder (runCalls startF ([infoText "1", infoText "2"].filterMap infoLine)) := by
  have start : IndexOrder startF := indexOrder_nil.runCalls _
  exact ⟨by decide +kernel, start, (index_order_kept startF _ start).1⟩

theorem conflict_stage_alone : (givenAt [infoText "2"] pathF).length = 1 ∧
    ∃ after, indexInfo [] [infoText "2"] = some after ∧
    ∀ entry ∈ givenAt [infoText "2"] pathF, ∃ held ∈ entriesAt after pathF, held.stage = entry.stage ∧
      held.mode = entry.mode ∧
      held.sha = entry.sha := by
  have one : (givenAt [infoText "2"] pathF).length = 1 := by decide +kernel
  have runs : (indexInfo [] [infoText "2"]).isSome = true := by decide +kernel
  obtain ⟨after, ran⟩ := Option.isSome_iff_exists.1 runs
  refine ⟨one, after, ran, (conflict_stages_iff [] after [infoText "2"] pathF indexOrder_nil ran ?_ ?_).2
    (le_of_eq one)⟩
  · decide +kernel
  · decide +kernel

/-- A conflict given stage by stage: only the last of them is there. -/
theorem conflict_stages_lost :
    (indexInfo [] [infoText "1", infoText "2", infoText "3"]).map (fun after => after.map DiskEntry.stage) =
    some [3] := by
  decide +kernel

end BashOs.Git.IndexFile

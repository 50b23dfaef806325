import BashOs.Git.Refs.Files

/-!
What reading a ref depends on: its own file, and the lines of `packed-refs` while it has none. A line that is taken
out of `packed-refs` takes no other ref with it.
-/

namespace BashOs.Git.Refs
open BashOs.Lib BashOs.Git.WorkTree List

/-- What `bgit_ref_check_old` says to a value. -/
def RefValue.check : RefValue → Option Bytes → Option (Option Bytes)
  | .broken, _ => none
  | .absent, none => some none
  | .absent, some [] => some none
  | .absent, some _ => none
  | .found current, none => some (some current)
  | .found _, some [] => none
  | .found current, some expected =>
    if current.map lowerByte = expected.map lowerByte then some (some current) else none

/-- What `bgit_ref_read` makes of the first line of a ref's file. -/
def lineValue (line : Bytes) : RefValue :=
  if (ascii "ref:").isPrefixOf line then .broken
  else if line.length < 40 || !allHex line then .broken
  else .found (line.take 40)

section
variable (dirs : GitDirs) (disk : RefDisk)

/-- The loop of `bgit_ref_resolve`, with as many turns left. -/
def refResolveFrom : Nat → Bytes → Option Bytes
  | 0, _ => none
  | left + 1, name =>
    match symrefTarget dirs disk name with
    | some target => refResolveFrom left target
    | none => (refValue dirs disk name).id

def refResolve (name : Bytes) : Option Bytes :=
  if allHex name && name.length = 40 then some name else refResolveFrom dirs disk symrefDepth name

end

section
variable {dirs : GitDirs} {disk after : RefDisk} {name : Bytes} {place : Place}

theorem checkOld_eq (old : Option Bytes) : checkOld dirs disk name old = (refValue dirs disk name).check old := by
  unfold checkOld
  cases refValue dirs disk name with
  | broken => rfl
  | absent | found current =>
    cases old with
    | none => rfl
    | some old => cases old <;> rfl

theorem refValue_congr (found : namePlace (dirs.base name) name = some place)
    (file : after.leaf place = disk.leaf place)
    (packed : refFileLine dirs disk name = none → after.leaf (packedRefs :: dirs.commonDir) =
      disk.leaf (packedRefs :: dirs.commonDir)) :
    refFileLine dirs after name = refFileLine dirs disk name ∧ refValue dirs after name = refValue dirs disk name := by
  have line : refFileLine dirs after name = refFileLine dirs disk name := by
    rw [refFileLine_eq found, refFileLine_eq found, file]
  refine ⟨line, ?_⟩
  rw [refValue, refValue, line]
  split
  · rfl
  split
  next none => rw [packedRefsRead, packedRefsRead, packed none]
  · rfl

theorem refResolve_of_no_file (plain : (allHex name && name.length = 40) = false) (path : (refPath dirs name).isSome)
    (none : refFileLine dirs disk name = none) : refResolve dirs disk name = (packedRefsRead dirs disk name).id := by
  rw [← Option.not_isNone, Bool.not_eq_true'] at path
  have target : symrefTarget dirs disk name = Option.none := by simp [symrefTarget, none]
  have value : refValue dirs disk name = packedRefsRead dirs disk name := by simp [refValue, path, none]
  rw [refResolve, if_neg (by rw [plain]; simp), symrefDepth, refResolveFrom, target]
  rw [value]

end

/-! ## Lines of a file -/

def WholeLine (line : Bytes) : Prop := ∃ text, line = text ++ [0x0a] ∧ 0x0a ∉ text

structure Lines (lines : List Bytes) : Prop where
  each : ∀ line ∈ lines, WholeLine line ∨ line ≠ [] ∧ 0x0a ∉ line
  follow : lines.Pairwise fun line _ => WholeLine line

section
variable {line text content : Bytes} {lines some : List Bytes}

theorem Lines.sublist (cut : Lines lines) (part : some.Sublist lines) : Lines some :=
  ⟨fun line member => cut.each line (part.subset member), cut.follow.sublist part⟩

theorem fileLines_append (whole : 0x0a ∉ text) (rest : Bytes) :
    fileLines (text ++ 0x0a :: rest) = (text ++ [0x0a]) :: fileLines rest := by
  induction text with
  | nil => simp [fileLines]
  | cons b text ih =>
    rw [mem_cons, not_or] at whole
    rw [cons_append, fileLines, if_neg (Ne.symm whole.1), ih whole.2, cons_append]

theorem fileLines_single (some : text ≠ []) (whole : 0x0a ∉ text) : fileLines text = [text] := by
  induction text with
  | nil => exact (some rfl).elim
  | cons b text ih =>
    rw [mem_cons, not_or] at whole
    rw [fileLines, if_neg (Ne.symm whole.1)]
    cases text with
    | nil => rfl
    | cons c text => rw [ih (cons_ne_nil _ _) whole.2]

theorem lines_fileLines (content : Bytes) : Lines (fileLines content) := by
  induction content with
  | nil => exact ⟨by simp [fileLines], List.Pairwise.nil⟩
  | cons b rest ih =>
    rw [fileLines]
    split
    next newline =>
      subst newline
      have whole : WholeLine [0x0a] := ⟨[], rfl, by simp⟩
      exact ⟨forall_mem_cons.2 ⟨.inl whole, ih.each⟩, pairwise_cons.2 ⟨fun _ _ => whole, ih.follow⟩⟩
    rename_i other
    split
    · exact ⟨by simp [Ne.symm other], pairwise_singleton _ _⟩
    rename_i line lines same
    rw [same] at ih
    have longer : WholeLine line → WholeLine (b :: line) := by
      rintro ⟨text, rfl, whole⟩
      exact ⟨b :: text, rfl, by simpa using ⟨Ne.symm other, whole⟩⟩
    obtain ⟨first, others⟩ := forall_mem_cons.1 ih.each
    obtain ⟨head, tail⟩ := pairwise_cons.1 ih.follow
    refine ⟨forall_mem_cons.2 ⟨first.imp longer ?_, others⟩, pairwise_cons.2 ⟨?_, tail⟩⟩
    · rintro ⟨-, whole⟩
      exact ⟨cons_ne_nil _ _, by simpa using ⟨Ne.symm other, whole⟩⟩
    · exact fun next member => longer (head next member)

theorem fileLines_flatten (cut : Lines lines) : fileLines lines.flatten = lines := by
  induction lines with
  | nil => rfl
  | cons line lines ih =>
    have rest := ih (cut.sublist (sublist_cons_self line lines))
    rw [flatten_cons]
    by_cases whole : WholeLine line
    · obtain ⟨text, rfl, clean⟩ := whole
      rw [append_assoc, singleton_append, fileLines_append clean, rest]
    -- a line without its newline is the last
    cases lines with
    | nil =>
      obtain ⟨some, clean⟩ := (cut.each line (.head _)).resolve_left whole
      rw [flatten_nil, append_nil, fileLines_single some clean]
    | cons next more => exact (whole ((pairwise_cons.1 cut.follow).1 next (.head _))).elim

theorem flatten_fileLines (content : Bytes) : (fileLines content).flatten = content := by
  induction content with
  | nil => rfl
  | cons b rest ih =>
    rw [fileLines]
    split
    next newline => simp [ih]
    split
    next none => simpa [none] using ih
    next line lines same => simpa [same] using ih

end

theorem hex_bytes {text : Bytes} (hex : allHex text = true) : ∀ b ∈ text, b ≠ 0 ∧ b ≠ 0x0a ∧ b ≠ 0x0d := by
  intro b member
  have digit := all_eq_true.1 (Bool.and_eq_true_iff.1 hex).2 b member
  refine ⟨?_, ?_, ?_⟩ <;> rintro rfl <;> exact absurd digit (by decide)

theorem firstLine_id {text : Bytes} (id : text.length = 40 ∧ allHex text = true) :
    firstLine (text ++ [0x0a]) = some text := by
  have bytes := hex_bytes id.2
  have kept : cString (text ++ [0x0a]) = text ++ [0x0a] := by
    refine takeWhile_eq_self_iff.2 fun b member => ?_
    obtain digit | newline := mem_append.1 member
    · simpa using (bytes b digit).1
    · rw [mem_singleton.1 newline]
      decide
  have stripped : stripLineEnd (text ++ [0x0a]) = text := by
    rw [stripLineEnd, reverse_append, reverse_singleton, singleton_append, dropWhile_cons_of_pos (by decide)]
    cases reversed : text.reverse with
    | nil => exact (reverse_eq_nil_iff.1 reversed).symm
    | cons b rest =>
      have digit := bytes b (mem_reverse.1 (by rw [reversed]; exact .head _))
      rw [dropWhile_cons_of_neg (by simp [digit]), ← reversed, reverse_reverse]
  have lines : fileLines (text ++ [0x0a]) = [text ++ [0x0a]] :=
    fileLines_append (fun member => (bytes _ member).2.1 rfl) []
  have short : (text ++ [0x0a]).take 4095 = text ++ [0x0a] := take_of_length_le (by simp [id.1])
  rw [firstLine, lines, head?_cons, Option.map_some, short, kept, stripped]

/-! ## Lines of packed refs -/

/-- `packed-refs` gives a ref of this name. -/
def Packs (content name : Bytes) : Prop := ∃ line ∈ fileLines content, packedLineOf name line = true

theorem packs_iff (content name : Bytes) : Packs content name ↔ ((packedRefLines content).lookup name).isSome := by
  unfold Packs packedRefLines
  induction fileLines content with
  | nil => simp
  | cons line lines ih =>
    rw [exists_mem_cons_iff, ih, filterMap_cons]
    by_cases skipped : line.head? = some 0x23 ∨ line.head? = some 0x5e
    · have other : packedLineOf name line = false := by
        obtain comment | peeled := skipped <;> simp [packedLineOf, *]
      simp [skipped, other]
    rw [not_or] at skipped
    by_cases short : (stripLineEnd (cString line)).length < 42 ∨ (stripLineEnd (cString line))[40]? ≠ some 0x20
    · have other : packedLineOf name line = false := by
        obtain short | wrong := short
        · have few : ¬ 41 < (stripLineEnd (cString line)).length := by omega
          simp [packedLineOf, few]
        · simp [packedLineOf, wrong]
      simp [short, other]
    rw [not_or, not_not] at short
    have long : 41 < (stripLineEnd (cString line)).length := by omega
    have same : packedLineOf name line = decide ((stripLineEnd (cString line)).drop 41 = name) := by
      simp [packedLineOf, skipped, long, short.2]
    rw [same]
    simp only [skipped, or_self, if_false, Nat.not_lt.2 long, short.2, ne_eq, not_true, lookup_cons, decide_eq_true_iff]
    by_cases named : name = (stripLineEnd (cString line)).drop 41
    · simp [named]
    · have differs : (name == (stripLineEnd (cString line)).drop 41) = false := by simpa using named
      rw [differs]
      simp only [Ne.symm named, false_or]

/-- The lines that `bgit_packed_refs_remove` keeps. -/
def keptLines (name : Bytes) : Bool → List Bytes → List Bytes
  | _, [] => []
  | dropPeel, line :: rest =>
    if dropPeel && line.head? = some 0x5e then keptLines name false rest
    else if packedLineOf name line then keptLines name true rest
    else line :: keptLines name false rest

section
variable {name other content : Bytes} {dropPeel : Bool} {lines : List Bytes} {line : Bytes}

theorem packedKept_eq (clean : ∀ line ∈ lines, 0 ∉ line) :
    packedKept name dropPeel lines = (keptLines name dropPeel lines).flatten := by
  induction lines generalizing dropPeel with
  | nil => rfl
  | cons line lines ih =>
    obtain ⟨first, others⟩ := forall_mem_cons.1 clean
    rw [packedKept, keptLines]
    split
    · exact ih others
    split
    · exact ih others
    have whole : cString line = line := by
      refine takeWhile_eq_self_iff.2 fun b member => ?_
      have nonzero : b ≠ 0 := fun zero => first (zero ▸ member)
      simpa using nonzero
    rw [flatten_cons, whole, ih others]

theorem keptLines_sublist : (keptLines name dropPeel lines).Sublist lines := by
  induction lines generalizing dropPeel with
  | nil => exact List.Sublist.slnil
  | cons line lines ih =>
    rw [keptLines]
    split
    · exact ih.cons line
    split
    · exact ih.cons line
    · exact ih.cons_cons line

theorem not_packedLineOf_of_kept (kept : line ∈ keptLines name dropPeel lines) : packedLineOf name line = false := by
  induction lines generalizing dropPeel with
  | nil => cases kept
  | cons first lines ih =>
    rw [keptLines] at kept
    split at kept
    · exact ih kept
    split at kept
    · exact ih kept
    rename_i plain
    obtain rfl | later := mem_cons.1 kept
    · simpa using plain
    · exact ih later

theorem mem_keptLines (unpeeled : line.head? ≠ some 0x5e) (unnamed : packedLineOf name line = false)
    (among : line ∈ lines) :
    line ∈ keptLines name dropPeel lines := by
  induction lines generalizing dropPeel with
  | nil => cases among
  | cons first lines ih =>
    rw [keptLines]
    split
    next peeled =>
      obtain rfl | later := mem_cons.1 among
      · simp [unpeeled] at peeled
      · exact ih later
    split
    next named =>
      obtain rfl | later := mem_cons.1 among
      · simp [unnamed] at named
      · exact ih later
    · obtain rfl | later := mem_cons.1 among
      · exact .head _
      · exact .tail _ (ih later)

section
variable (clean : 0 ∉ content)
include clean

theorem fileLines_clean : ∀ line ∈ fileLines content, 0 ∉ line := by
  intro line member zero
  apply clean
  rw [← flatten_fileLines content]
  exact mem_flatten.2 ⟨line, member, zero⟩

theorem fileLines_packedKept :
    fileLines (packedKept name false (fileLines content)) = keptLines name false (fileLines content) := by
  rw [packedKept_eq (fileLines_clean clean)]
  exact fileLines_flatten ((lines_fileLines content).sublist keptLines_sublist)

theorem packedKept_clean : 0 ∉ packedKept name false (fileLines content) := by
  rw [packedKept_eq (fileLines_clean clean)]
  intro zero
  obtain ⟨line, kept, zero⟩ := mem_flatten.1 zero
  exact fileLines_clean clean line (keptLines_sublist.subset kept) zero

theorem not_packs_packedKept : ¬ Packs (packedKept name false (fileLines content)) name := by
  rintro ⟨line, member, named⟩
  rw [fileLines_packedKept clean] at member
  rw [not_packedLineOf_of_kept member] at named
  cases named

theorem packs_packedKept (apart : other ≠ name) :
    Packs (packedKept name false (fileLines content)) other ↔ Packs content other := by
  unfold Packs
  rw [fileLines_packedKept clean]
  constructor
  · rintro ⟨line, member, named⟩
    exact ⟨line, keptLines_sublist.subset member, named⟩
  · rintro ⟨line, member, named⟩
    simp only [packedLineOf, Bool.and_eq_true, decide_eq_true_eq] at named
    refine ⟨line, mem_keptLines named.1.1.1.1 ?_ member, by simpa [packedLineOf] using named⟩
    rw [← Bool.not_eq_true]
    intro bad
    simp only [packedLineOf, Bool.and_eq_true, decide_eq_true_eq] at bad
    exact apart (named.2.symm.trans bad.2)

end

end

end BashOs.Git.Refs

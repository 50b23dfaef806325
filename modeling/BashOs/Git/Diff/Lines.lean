import Mathlib.Data.List.DropRight
import BashOs.Lib.Bytes
import BashOs.Lib.Loop

/-!
A text as a diff sees it: its lines without their newlines, the form of a line in which whitespace is overlooked,
and the tail that two texts share and that is set aside before they are compared.
-/

namespace BashOs.Git.Diff
open BashOs.Lib List

def newline : UInt8 := 10

/-! ## Lines -/

/-- The lines of a text, of which the first has begun with `line`. -/
def linesFrom (line : Bytes) : Bytes → List Bytes
  | [] => if line = [] then [] else [line]
  | byte :: rest => if byte = newline then line :: linesFrom [] rest else linesFrom (line ++ [byte]) rest

structure XdiffFile where
  text : Bytes
  lines : List Bytes
  missingNewline : Bool
  binary : Bool
deriving DecidableEq

def load (text : Bytes) : XdiffFile :=
  if 0 ∈ text.take 8000 then { text, lines := [], missingNewline := false, binary := true }
  else { text, lines := linesFrom [] text, missingNewline := text ≠ [] ∧ text.getLast? ≠ some newline, binary := false }

/-- A text that is loaded as lines. Its lines' arrays fit in memory, which holds them one word a line. -/
structure LineFile where
  text : Bytes
  plain : 0 ∉ text.take 8000
  fits : (linesFrom [] text).length < 2 ^ 60

def LineFile.file (source : LineFile) : XdiffFile := load source.text

namespace XdiffFile

def line (file : XdiffFile) (i : Nat) : Bytes := file.lines.getD i []

def complete (file : XdiffFile) (i : Nat) : Bool := !(i + 1 == file.lines.length && file.missingNewline)

def entry (file : XdiffFile) (i : Nat) : Bytes × Bool := (file.line i, file.complete i)

def entries (file : XdiffFile) : List (Bytes × Bool) := (List.range file.lines.length).map file.entry

end XdiffFile

def lineHash (line : Bytes) : UInt64 := line.foldl (fun hash byte => hash * 33 + byte.toUInt64) 5381

def lineSame (a : XdiffFile) (i : Nat) (b : XdiffFile) (j : Nat) : Bool :=
  lineHash (a.line i) == lineHash (b.line j) && (a.line i).length == (b.line j).length && a.line i == b.line j

variable {i j : Nat} {text line : Bytes}

theorem lineSame_iff {a b : XdiffFile} : lineSame a i b j = true ↔ a.line i = b.line j := by
  simp only [lineSame, Bool.and_eq_true, beq_iff_eq]
  constructor
  · exact fun same => same.2
  · intro same
    rw [same]
    exact ⟨⟨rfl, rfl⟩, rfl⟩

theorem load_lines (plain : (load text).binary = false) : (load text).lines = linesFrom [] text := by
  unfold load at plain ⊢
  split at plain
  · cases plain
  next clean => rw [if_neg clean]

theorem LineFile.binary_file (source : LineFile) : source.file.binary = false := by
  unfold LineFile.file load
  rw [if_neg source.plain]

theorem LineFile.fits_file (source : LineFile) : source.file.lines.length < 2 ^ 60 := by
  rw [LineFile.file, load_lines source.binary_file]
  exact source.fits

theorem newline_not_mem_linesFrom {part : Bytes} (clean : newline ∉ line) (member : part ∈ linesFrom line text) :
    newline ∉ part := by
  induction text generalizing line with
  | nil =>
    rw [linesFrom] at member
    split at member
    · cases member
    · rwa [mem_singleton.1 member]
  | cons byte rest ih =>
    rw [linesFrom] at member
    split at member
    · obtain rfl | later := mem_cons.1 member
      · exact clean
      · exact ih not_mem_nil later
    next other =>
      refine ih ?_ member
      rw [mem_append, mem_singleton, not_or]
      exact ⟨clean, Ne.symm other⟩

theorem linesFrom_append (line a b : Bytes) :
    linesFrom line (a ++ newline :: b) = linesFrom line (a ++ [newline]) ++ linesFrom [] b := by
  induction a generalizing line with
  | nil => simp [linesFrom]
  | cons byte a ih =>
    rw [cons_append, cons_append, linesFrom, linesFrom]
    split
    · rw [ih, cons_append]
    · exact ih _

theorem linesFrom_flatMap {lines : List Bytes} (clean : ∀ line ∈ lines, newline ∉ line) :
    linesFrom [] (lines.flatMap (· ++ [newline])) = lines := by
  have one (line begun : Bytes) (clean : newline ∉ line) : linesFrom begun (line ++ [newline]) = [begun ++ line] := by
    induction line generalizing begun with
    | nil => simp [linesFrom]
    | cons byte line ih =>
      rw [mem_cons, not_or] at clean
      rw [cons_append, linesFrom, if_neg (Ne.symm clean.1), ih _ clean.2, append_assoc, singleton_append]
  induction lines with
  | nil => rfl
  | cons line lines ih =>
    rw [flatMap_cons, append_assoc, singleton_append, linesFrom_append,
      one line [] (clean line (.head _)), ih fun part member => clean part (.tail _ member)]
    rfl

def lineStart (lines : List Bytes) (i : Nat) : Nat := ((lines.take i).map (·.length + 1)).sum

theorem lineStart_lt {lines : List Bytes} (before : i < j) (inside : j ≤ lines.length) :
    lineStart lines i < lineStart lines j := by
  have step : ∀ k, k < lines.length → lineStart lines k < lineStart lines (k + 1) := by
    intro k below
    rw [lineStart, lineStart, take_add_one, getElem?_eq_getElem below, map_append, sum_append]
    simp only [Option.toList_some, map_cons, sum_cons]
    omega
  induction j with
  | zero => cases before
  | succ j ih =>
    have last := step j (by omega)
    obtain less | rfl := Nat.lt_succ_iff_lt_or_eq.1 before
    · exact lt_trans (ih less (by omega)) last
    · exact last

theorem sum_linesFrom (line a : Bytes) :
    ((linesFrom line (a ++ [newline])).map (·.length + 1)).sum = line.length + a.length + 1 := by
  induction a generalizing line with
  | nil => simp [linesFrom]
  | cons byte a ih =>
    rw [cons_append, linesFrom]
    split
    · rw [map_cons, sum_cons, ih]
      simp
      omega
    · rw [ih]
      simp
      omega

/-! ## Overlooking whitespace -/

structure Flags where
  indentHeuristic : Bool
  trimTail : Bool
  ignoreWs : Bool
  ignoreWsChange : Bool
  ignoreWsAtEol : Bool
  ignoreCrAtEol : Bool
  functionContext : Bool
  ignoreBlankLines : Bool
  minimal : Bool
  patience : Bool
  histogram : Bool
deriving DecidableEq, Repr

/-- The flags of a plain diff, and of those that a merge makes. -/
def plainFlags : Flags where
  indentHeuristic := true
  trimTail := false
  ignoreWs := false
  ignoreWsChange := false
  ignoreWsAtEol := false
  ignoreCrAtEol := false
  functionContext := false
  ignoreBlankLines := false
  minimal := false
  patience := false
  histogram := false

def Flags.whitespace (flags : Flags) : Bool :=
  flags.ignoreWs || flags.ignoreWsChange || flags.ignoreWsAtEol || flags.ignoreCrAtEol

-- what is whitespace depends on the locale
variable (isspace : CharClass)

def squeeze : Bytes → Bytes
  | [] => []
  | [byte] => if isspace byte then [] else [byte]
  | byte :: next :: rest =>
    if !isspace byte then byte :: squeeze (next :: rest)
    else if isspace next then squeeze (next :: rest)
    else 32 :: squeeze (next :: rest)

def lineCanonical (flags : Flags) (complete : Bool) (line : Bytes) : Bytes :=
  if flags.ignoreWs then line.filter (!isspace ·)
  else if flags.ignoreWsChange then squeeze isspace line
  else if flags.ignoreWsAtEol then line.rdropWhile isspace
  else if complete && line.getLast? == some 13 then line.dropLast
  else line

def canonicalLines (flags : Flags) (file : XdiffFile) : List Bytes :=
  (List.range file.lines.length).map fun i => lineCanonical isspace flags (file.complete i) (file.line i)

def canonicalFile (flags : Flags) (file : XdiffFile) : Option XdiffFile :=
  let out := load ((canonicalLines isspace flags file).flatMap (· ++ [newline]))
  if out.binary ∨ out.lines.length ≠ file.lines.length then none else some out

/-- The files that are compared: those with their whitespace taken out, unless one of them has come to look binary. -/
def keyFiles (flags : Flags) (old new : XdiffFile) : XdiffFile × XdiffFile :=
  if flags.whitespace then
    match canonicalFile isspace flags old, canonicalFile isspace flags new with
    | some old, some new => (old, new)
    | _, _ => (old, new)
  else (old, new)

def SameLine (flags : Flags) (old new : Bytes × Bool) : Prop :=
  old.1 = new.1 ∨ flags.whitespace = true ∧
    lineCanonical isspace flags old.2 old.1 = lineCanonical isspace flags new.2 new.1

section
variable {isspace} {flags : Flags}

theorem mem_squeeze {byte : UInt8} (member : byte ∈ squeeze isspace line) : byte ∈ line ∨ byte = 32 := by
  fun_induction squeeze isspace line with
  | case1 => cases member
  | case2 => cases member
  | case3 => exact .inl member
  | case4 first next rest _ ih =>
    obtain rfl | member := mem_cons.1 member
    · exact .inl (.head _)
    · exact (ih member).imp_left (mem_cons_of_mem first)
  | case5 first next rest _ _ ih => exact (ih member).imp_left (mem_cons_of_mem first)
  | case6 first next rest _ _ ih =>
    obtain rfl | member := mem_cons.1 member
    · exact .inr rfl
    · exact (ih member).imp_left (mem_cons_of_mem first)

theorem newline_not_mem_lineCanonical {complete : Bool} (clean : newline ∉ line) :
    newline ∉ lineCanonical isspace flags complete line := by
  intro member
  unfold lineCanonical at member
  split at member
  · exact clean (mem_filter.1 member).1
  split at member
  · obtain member | space := mem_squeeze member
    · exact clean member
    · exact absurd space (by decide)
  split at member
  · have front := rdropWhile_prefix isspace line
    exact clean (front.subset member)
  split at member
  · exact clean (dropLast_subset line member)
  · exact clean member

theorem newline_not_mem_line {text : Bytes} (i : Nat) : newline ∉ (load text).line i := by
  unfold XdiffFile.line
  rw [getD_eq_getElem?_getD]
  cases found : (load text).lines[i]? with
  | none => exact not_mem_nil
  | some line =>
    have member := mem_of_getElem? found
    unfold load at member
    split at member
    · cases member
    · exact newline_not_mem_linesFrom not_mem_nil member

theorem canonicalFile_line {out : XdiffFile} (made : canonicalFile isspace flags (load text) = some out)
    (inside : i < (load text).lines.length) :
    out.line i = lineCanonical isspace flags ((load text).complete i) ((load text).line i) := by
  have clean : ∀ line ∈ canonicalLines isspace flags (load text), newline ∉ line := by
    intro line member
    obtain ⟨k, -, rfl⟩ := mem_map.1 member
    exact newline_not_mem_lineCanonical (newline_not_mem_line k)
  unfold canonicalFile at made
  dsimp only at made
  split at made
  · cases made
  rename_i good
  cases made
  rw [not_or] at good
  have lines : (load ((canonicalLines isspace flags (load text)).flatMap (· ++ [newline]))).lines =
      canonicalLines isspace flags (load text) := by
    rw [load_lines (Bool.eq_false_iff.2 good.1), linesFrom_flatMap clean]
  rw [XdiffFile.line, lines, canonicalLines, getD_eq_getElem?_getD, getElem?_map, getElem?_range inside]
  rfl

theorem keyFiles_same {a b : Bytes} (inside : i < (load a).lines.length) (inside' : j < (load b).lines.length)
    (same : (keyFiles isspace flags (load a) (load b)).1.line i = (keyFiles isspace flags (load a) (load b)).2.line j) :
    SameLine isspace flags ((load a).entry i) ((load b).entry j) := by
  unfold keyFiles at same
  split at same
  next overlooked =>
    split at same
    next old new madeOld madeNew =>
      rw [canonicalFile_line madeOld inside, canonicalFile_line madeNew inside'] at same
      exact .inr ⟨overlooked, same⟩
    · exact .inl same
  · exact .inl same

end

/-! ## The shared tail -/

def trimBlock : Nat := 1024

def trimmedTail (old new : Bytes) : Nat :=
  let block (text : Bytes) (k : Nat) : Bytes := (text.drop (text.length - trimBlock * (k + 1))).take trimBlock
  let trimmed := trimBlock * scan (fun k => block old k == block new k) (min old.length new.length / trimBlock)
  let tail := old.drop (old.length - trimmed)
  let recovered := min trimmed (scan (fun k => tail.getD k 0 != newline) trimmed + 1)
  trimmed - recovered

def linesWithin (file : XdiffFile) (bytes : Nat) :
    Nat := scan (fun n => lineStart file.lines n < bytes) file.lines.length

def comparedLines (flags : Flags) (old new : XdiffFile) : Nat × Nat :=
  let cut := trimmedTail old.text new.text
  if flags.trimTail ∧ cut ≠ 0 then (linesWithin old (old.text.length - cut), linesWithin new (new.text.length - cut))
  else (old.lines.length, new.lines.length)

section
variable {old new : Bytes}

theorem drop_blocks {count : Nat} (fits : trimBlock * count ≤ old.length) (fits' : trimBlock * count ≤ new.length)
    (blocks : ∀ k < count, (old.drop (old.length - trimBlock * (k + 1))).take trimBlock =
      (new.drop (new.length - trimBlock * (k + 1))).take trimBlock) :
    old.drop (old.length - trimBlock * count) = new.drop (new.length - trimBlock * count) := by
  induction count with
  | zero => simp
  | succ count ih =>
    have width : trimBlock * (count + 1) = trimBlock * count + trimBlock := Nat.mul_succ _ _
    -- one block more, and what follows it
    have cut (text : Bytes) (fits : trimBlock * (count + 1) ≤ text.length) :
      text.drop (text.length - trimBlock * (count + 1)) =
        (text.drop (text.length - trimBlock * (count + 1))).take trimBlock ++
          text.drop (text.length - trimBlock * count) := by
      have rest : text.drop (text.length - trimBlock * count) =
          (text.drop (text.length - trimBlock * (count + 1))).drop trimBlock := by
        rw [drop_drop]
        congr 1
        omega
      rw [rest, take_append_drop]
    rw [cut old fits, cut new fits', blocks count (Nat.lt_succ_self _),
      ih (by omega) (by omega) fun k below => blocks k (Nat.lt_succ_of_lt below)]

theorem trimmedTail_spec (trimmed : trimmedTail old new ≠ 0) :
    ∃ a b tail, old = a ++ newline :: tail ∧ new = b ++ newline :: tail ∧ tail.length = trimmedTail old new := by
  unfold trimmedTail at trimmed ⊢
  dsimp only at trimmed ⊢
  generalize blocks : scan (fun k => (old.drop (old.length - trimBlock * (k + 1))).take trimBlock ==
    (new.drop (new.length - trimBlock * (k + 1))).take trimBlock) (min old.length new.length / trimBlock) =
      count at trimmed ⊢
  have within : trimBlock * count ≤ min old.length new.length := by
    have bound : count ≤ min old.length new.length / trimBlock := blocks ▸ scan_le
    exact Nat.le_trans (Nat.mul_le_mul_left _ bound) (Nat.mul_div_le _ _)
  have shared : old.drop (old.length - trimBlock * count) = new.drop (new.length - trimBlock * count) := by
    refine drop_blocks (by omega) (by omega) fun k below => ?_
    have same := scan_holds (blocks ▸ below)
    exact beq_iff_eq.1 same
  generalize trimBlock * count = size at trimmed shared within ⊢
  have length : (old.drop (old.length - size)).length = size := by
    rw [length_drop]
    omega
  generalize whole : old.drop (old.length - size) = tail at trimmed shared length ⊢
  generalize first : scan (fun k => tail.getD k 0 != newline) size = before at trimmed ⊢
  have inside : before < size := by omega
  have mark : tail[before]? = some newline := by
    have stops : (tail.getD before 0 != newline) = false := by
      have stops := scan_stops (first.symm ▸ inside)
      rwa [first] at stops
    rw [List.getElem?_eq_getElem (by omega)]
    rw [getD_eq_getElem?_getD, List.getElem?_eq_getElem (by omega)] at stops
    simpa using stops
  -- the tail from its first line on
  have split : tail = tail.take before ++ newline :: tail.drop (before + 1) := by
    obtain ⟨below, here⟩ := List.getElem?_eq_some_iff.1 mark
    rw [← here, ← drop_eq_getElem_cons, take_append_drop]
  refine ⟨old.take (old.length - size) ++ tail.take before, new.take (new.length - size) ++ tail.take before,
    tail.drop (before + 1), ?_, ?_, ?_⟩
  · rw [append_assoc, ← split, ← whole, take_append_drop]
  · rw [append_assoc, ← split, shared, take_append_drop]
  · rw [length_drop]
    omega

theorem linesWithin_spec {a tail : Bytes} (plain : (load (a ++ newline :: tail)).binary = false) :
    linesWithin (load (a ++ newline :: tail)) (a.length + 1) = (linesFrom [] (a ++ [newline])).length ∧
      (load (a ++ newline :: tail)).lines = linesFrom [] (a ++ [newline]) ++ linesFrom [] tail := by
  have lines : (load (a ++ newline :: tail)).lines = linesFrom [] (a ++ [newline]) ++ linesFrom [] tail := by
    rw [load_lines plain, linesFrom_append]
  refine ⟨?_, lines⟩
  have starts : lineStart (load (a ++ newline :: tail)).lines (linesFrom [] (a ++ [newline])).length =
      a.length + 1 := by
    rw [lineStart, lines, take_left, sum_linesFrom, length_nil, zero_add]
  have inside : (linesFrom [] (a ++ [newline])).length ≤ (load (a ++ newline :: tail)).lines.length := by
    rw [lines, length_append]
    exact Nat.le_add_right _ _
  refine scan_eq inside (fun k below => ?_) fun _ => ?_
  · rw [decide_eq_true_eq, ← starts]
    exact lineStart_lt below inside
  · rw [decide_eq_false_iff_not, starts]
    exact lt_irrefl _

theorem load_text (text : Bytes) : (load text).text = text := by
  unfold load
  split <;> rfl

theorem comparedLines_spec (flags : Flags) (plain : (load old).binary = false) (plain' : (load new).binary = false) :
    (comparedLines flags (load old) (load new)).1 ≤ (load old).lines.length ∧
    (comparedLines flags (load old) (load new)).2 ≤ (load new).lines.length ∧
    (load old).lines.drop (comparedLines flags (load old) (load new)).1 =
      (load new).lines.drop (comparedLines flags (load old) (load new)).2 := by
  unfold comparedLines
  rw [load_text, load_text]
  dsimp only
  split
  next cut =>
    obtain ⟨a, b, tail, rfl, rfl, length⟩ := trimmedTail_spec cut.2
    obtain ⟨within, lines⟩ := linesWithin_spec plain
    obtain ⟨within', lines'⟩ := linesWithin_spec plain'
    rw [← length]
    have front (a : Bytes) : (a ++ newline :: tail).length - tail.length = a.length + 1 := by
      simp
      omega
    rw [front, front, within, within', lines, lines']
    simp
  · simp

/-- Where lines are left out of the comparison, the texts end alike. -/
theorem comparedLines_ends (flags : Flags) (plain : (load old).binary = false) (plain' : (load new).binary = false)
    (fewer : (comparedLines flags (load old) (load new)).1 < (load old).lines.length) :
    (load old).missingNewline = (load new).missingNewline := by
  unfold comparedLines at fewer
  rw [load_text, load_text] at fewer
  dsimp only at fewer
  split at fewer
  next cut =>
    obtain ⟨a, b, tail, rfl, rfl, -⟩ := trimmedTail_spec cut.2
    have last (front : Bytes) : (front ++ newline :: tail).getLast? = (newline :: tail).getLast? :=
      getLast?_append_of_ne_nil _ (cons_ne_nil _ _)
    have missing {text : Bytes} (plain : (load text).binary = false) :
        (load text).missingNewline = decide (text ≠ [] ∧ text.getLast? ≠ some newline) := by
      unfold load at plain ⊢
      split at plain
      · cases plain
      next lines => rw [if_neg lines]
    rw [missing plain, missing plain', last, last]
    simp
  · exact absurd fewer (lt_irrefl _)

/-- The lines that are left out of the comparison are the same, newlines included. -/
theorem comparedLines_entries (flags : Flags) (plain : (load old).binary = false) (plain' : (load new).binary = false) :
    (load old).entries.drop (comparedLines flags (load old) (load new)).1 =
      (load new).entries.drop (comparedLines flags (load old) (load new)).2 := by
  obtain ⟨few, few', same⟩ := comparedLines_spec flags plain plain'
  have ends := comparedLines_ends flags plain plain'
  generalize (comparedLines flags (load old) (load new)).1 = m at few same ends
  generalize (comparedLines flags (load old) (load new)).2 = n at few' same
  have size := congrArg length same
  rw [length_drop, length_drop] at size
  refine ext_getElem (by simp [XdiffFile.entries]; omega) fun k below below' => ?_
  simp only [XdiffFile.entries, length_drop, length_map, length_range] at below below'
  have line : (load old).line (m + k) = (load new).line (n + k) := by
    rw [XdiffFile.line, XdiffFile.line, getD_eq_getElem?_getD, getD_eq_getElem?_getD, ← getElem?_drop,
      ← getElem?_drop, same]
  have complete : (load old).complete (m + k) = (load new).complete (n + k) := by
    rw [XdiffFile.complete, XdiffFile.complete, ends (by omega)]
    congr 2
    rw [Bool.eq_iff_iff, beq_iff_eq, beq_iff_eq]
    omega
  simp only [XdiffFile.entries, getElem_drop, getElem_map, getElem_range, XdiffFile.entry, line, complete]

end

end BashOs.Git.Diff

import BashOs.Git.Diff.Runs
import BashOs.Git.Diff.Lines

/-!
Text that is built line by line. A line is copied with the newline it had, so a file whose lines are all copied
comes out as it was, and text whose lines all end in a newline, the last one apart, is read again as those lines.
-/

namespace BashOs.Git.Merge
open BashOs.Lib BashOs.Git.Diff List XdiffFile

def render (lines : List (Bytes × Bool)) : Bytes :=
    lines.flatMap fun line => if line.2 then line.1 ++ [newline] else line.1

/-- The lines that `bgit_text_lines` copies -/
def copied (file : XdiffFile) (first last : Nat) :
    List (Bytes × Bool) := (upTo first (min last file.lines.length)).map file.entry

def textLines (file : XdiffFile) (first last : Nat) : Bytes := render (copied file first last)

section
variable {file : XdiffFile} {first last : Nat} {text : Bytes}

theorem render_append (a b : List (Bytes × Bool)) : render (a ++ b) = render a ++ render b := flatMap_append

theorem render_cons (line : Bytes × Bool) (rest : List (Bytes × Bool)) :
    render (line :: rest) = (if line.2 then line.1 ++ [newline] else line.1) ++ render rest := flatMap_cons

theorem copied_eq : copied file first last = (file.entries.drop first).take (last - first) := by
  rw [entries, drop_map_range, copied, ← map_take, upTo, upTo]
  obtain short | long := le_total last file.lines.length
  · rw [min_eq_left short, take_range'_of_length_ge (by omega)]
  · rw [min_eq_right long, take_range'_of_length_le (by omega)]

/-! ## What a file's lines come to -/

/-- The lines of a text with whether each ends in a newline, of which the first has begun with `line`. -/
def entriesFrom (line : Bytes) : Bytes → List (Bytes × Bool)
  | [] => if line = [] then [] else [(line, false)]
  | byte :: rest => if byte = newline then (line, true) :: entriesFrom [] rest else entriesFrom (line ++ [byte]) rest

theorem render_entriesFrom (line text : Bytes) : render (entriesFrom line text) = line ++ text := by
  induction text generalizing line with
  | nil =>
    rw [entriesFrom]
    split
    next none => rw [none]; rfl
    · simp [render]
  | cons byte rest ih =>
    rw [entriesFrom]
    split
    next ends => rw [render_cons, ih, ends, if_pos rfl, append_assoc, singleton_append, nil_append]
    · rw [ih, append_assoc, singleton_append]

theorem map_fst_entriesFrom (line text : Bytes) : (entriesFrom line text).map Prod.fst = linesFrom line text := by
  induction text generalizing line with
  | nil =>
    rw [entriesFrom, linesFrom]
    split <;> rfl
  | cons byte rest ih =>
    rw [entriesFrom, linesFrom]
    split
    · rw [map_cons, ih]
    · exact ih _

theorem entriesFrom_eq_nil {line text : Bytes} : entriesFrom line text = [] ↔ line = [] ∧ text = [] := by
  constructor
  · intro none
    have whole := render_entriesFrom line text
    rw [none] at whole
    exact append_eq_nil_iff.1 whole.symm
  · rintro ⟨rfl, rfl⟩
    rfl

theorem entriesFrom_complete {line text : Bytes} (clean : newline ∉ line) {i : Nat} {entry : Bytes × Bool}
    (found : (entriesFrom line text)[i]? = some entry) :
    entry.2 = false ↔ i + 1 = (entriesFrom line text).length ∧ (line ++ text).getLast? ≠ some newline := by
  induction text generalizing line i with
  | nil =>
    rw [entriesFrom] at found ⊢
    split at found
    · cases found
    rename_i some
    rw [if_neg some]
    cases i with
    | zero =>
      cases found
      rw [append_nil]
      exact iff_of_true rfl ⟨rfl, fun last => clean (mem_of_getLast? last)⟩
    | succ i => cases found
  | cons byte rest ih =>
    rw [entriesFrom] at found ⊢
    split at found
    next ends =>
      rw [if_pos ends, length_cons, Nat.add_right_cancel_iff]
      cases i with
      | zero =>
        cases found
        refine iff_of_false (by simp) fun ⟨alone, ragged⟩ => ragged ?_
        obtain ⟨-, rfl⟩ := entriesFrom_eq_nil.1 (length_eq_zero_iff.1 alone.symm)
        rw [ends, getLast?_append]
        rfl
      | succ i =>
        rw [ih not_mem_nil found]
        have more : rest ≠ [] := by
          rintro rfl
          cases found
        have same : (line ++ byte :: rest).getLast? = ([] ++ rest).getLast? := by
          rw [nil_append, getLast?_append, getLast?_cons, getLast?_eq_some_getLast more]
          rfl
        rw [same]
    next other =>
      rw [if_neg other]
      have clean' : newline ∉ line ++ [byte] := by
        rw [mem_append, mem_singleton, not_or]
        exact ⟨clean, Ne.symm other⟩
      rw [ih clean' found, append_assoc, singleton_append]

theorem entries_load (plain : (load text).binary = false) : (load text).entries = entriesFrom [] text := by
  have lines := load_lines plain
  have missing : (load text).missingNewline = decide (text ≠ [] ∧ text.getLast? ≠ some newline) := by
    unfold load at plain ⊢
    split at plain
    · cases plain
    next clean => rw [if_neg clean]
  have length : (load text).lines.length = (entriesFrom [] text).length := by
    rw [lines, ← map_fst_entriesFrom, length_map]
  apply ext_getElem?
  intro i
  rw [entries, getElem?_map, length]
  by_cases inside : i < (entriesFrom [] text).length
  · have found := getElem?_eq_getElem inside
    generalize (entriesFrom [] text)[i] = entry at found
    rw [found, getElem?_range inside, Option.map_some, Option.some_inj, XdiffFile.entry]
    have content : (load text).line i = entry.1 := by
      rw [line, lines, ← map_fst_entriesFrom, getD_eq_getElem?_getD, getElem?_map, found]
      rfl
    have some : text ≠ [] := by
      rintro rfl
      cases found
    have flag := entriesFrom_complete not_mem_nil found
    rw [nil_append] at flag
    refine Prod.ext content ?_
    rw [complete, length, missing]
    cases complete : entry.2 with
    | true =>
      rw [complete] at flag
      simpa [some, imp_iff_not_or] using flag
    | false =>
      obtain ⟨last, ragged⟩ := flag.1 complete
      simp [some, last, ragged]
  · rw [getElem?_eq_none (by simpa using inside), getElem?_eq_none (Nat.le_of_not_lt inside)]
    rfl

theorem render_entries (plain : (load text).binary = false) : render (load text).entries = text := by
  rw [entries_load plain, render_entriesFrom, nil_append]

def WellEnded (line : Bytes × Bool) : Prop := newline ∉ line.1 ∧ (line.2 = false → line.1 ≠ [])

theorem wellEnded_entriesFrom {line text : Bytes} (clean : newline ∉ line) :
    ∀ entry ∈ entriesFrom line text, WellEnded entry := by
  induction text generalizing line with
  | nil =>
    rw [entriesFrom]
    split
    · exact nofun
    rename_i some
    intro entry member
    rw [mem_singleton.1 member]
    exact ⟨clean, fun _ => some⟩
  | cons byte rest ih =>
    rw [entriesFrom]
    split
    · exact forall_mem_cons.2 ⟨⟨clean, nofun⟩, ih not_mem_nil⟩
    rename_i other
    refine ih ?_
    rw [mem_append, mem_singleton, not_or]
    exact ⟨clean, Ne.symm other⟩

theorem wellEnded_copied (text : Bytes) (first last : Nat) :
    ∀ entry ∈ copied (load text) first last, WellEnded entry := by
  intro entry member
  rw [copied_eq] at member
  have entries : entry ∈ (load text).entries := mem_of_mem_drop (mem_of_mem_take member)
  cases plain : (load text).binary with
  | false =>
    rw [entries_load plain] at entries
    exact wellEnded_entriesFrom not_mem_nil entry entries
  | true =>
    have none : (load text).lines = [] := by
      unfold load at plain ⊢
      split at plain
      next binary => rw [if_pos binary]
      · cases plain
    rw [XdiffFile.entries, none] at entries
    cases entries

/-! ## Lines that are read again -/

def Tidy (lines : List (Bytes × Bool)) : Prop := ∀ line ∈ lines.dropLast, line.2 = true

theorem tidy_append {a b : List (Bytes × Bool)} (complete : ∀ line ∈ a, line.2 = true) (tidy : Tidy b) :
    Tidy (a ++ b) := by
  unfold Tidy
  rw [dropLast_append]
  split
  · exact fun line member => complete line (dropLast_subset a member)
  · exact forall_mem_append.2 ⟨complete, tidy⟩

theorem complete_copied (early : last < file.lines.length ∨ file.missingNewline = false) :
    ∀ line ∈ copied file first last, line.2 = true := by
  intro line member
  obtain ⟨i, range, rfl⟩ := mem_map.1 member
  have range := mem_upTo.1 range
  obtain before | complete := early
  · have inner : i + 1 ≠ file.lines.length := by omega
    simp [entry, complete, inner]
  · simp [XdiffFile.entry, XdiffFile.complete, complete]

theorem tidy_copied (file : XdiffFile) (first last : Nat) : Tidy (copied file first last) := by
  intro line member
  rw [copied, ← map_dropLast] at member
  obtain ⟨i, range, rfl⟩ := mem_map.1 member
  have inner : i + 1 ≠ file.lines.length := by
    rw [upTo, dropLast_eq_take, length_range', take_range'_of_length_ge (Nat.sub_le _ _), mem_range'_1] at range
    omega
  simp [entry, complete, inner]

theorem linesFrom_alone {line : Bytes} (clean : newline ∉ line) (begun : Bytes) :
    linesFrom begun line = if begun ++ line = [] then [] else [begun ++ line] := by
  induction line generalizing begun with
  | nil => rw [linesFrom, append_nil]
  | cons byte line ih =>
    rw [mem_cons, not_or] at clean
    rw [linesFrom, if_neg (Ne.symm clean.1), ih clean.2, append_assoc, singleton_append]

theorem linesFrom_render {lines : List (Bytes × Bool)} (tidy : Tidy lines) (ended : ∀ line ∈ lines, WellEnded line) :
    linesFrom [] (render lines) = lines.map Prod.fst := by
  induction lines with
  | nil => rfl
  | cons line rest ih =>
    obtain ⟨⟨clean, some⟩, others⟩ := forall_mem_cons.1 ended
    have one : linesFrom [] (line.1 ++ [newline]) = [line.1] := by
      have alone := @linesFrom_flatMap [line.1] (by simpa using clean)
      simpa using alone
    cases rest with
    | nil =>
      cases complete : line.2 with
      | true => simpa [render, complete] using one
      | false => simp [render, complete, linesFrom_alone clean, some complete]
    | cons next rest =>
      have complete : line.2 = true := tidy line (by simp)
      have later : Tidy (next :: rest) := fun line member => tidy line (by simp [member])
      rw [render_cons, if_pos complete, append_assoc, singleton_append, linesFrom_append, one, ih later others]
      rfl

end

end BashOs.Git.Merge

import BashOs.Git.Merge.Content

/-!
What a merge comes to when one side has not changed, or both have changed alike: the base with the runs of change to the
other text applied. That is the other text just if the lines that the comparison leaves in place agree in their newlines
too, which it does not look at.
-/

namespace BashOs.Git.Merge
open BashOs.Lib BashOs.Git.Diff List Change XdiffFile

/-! ## The regions -/

section
variable {base our their new : XdiffFile} {runs all done : List Change} {list : List Region} {place turns : Nat}

section
variable (takes : List.Forall₂ (Takes our their new) runs list)
include takes

theorem written_takes : written base our their place list = applyFrom base.entries new.entries place runs := by
  induction takes generalizing place with
  | nil =>
    rw [written, copied_eq]
    exact take_of_length_le (by simp [entries])
  | cons first rest ih =>
    rw [written, ih, first.start, first.stop, first.lines, copied_eq, copied_eq, newStop, Nat.add_sub_cancel_left]
    rfl

theorem kind_of_takes : ∀ region ∈ list, region.kind ≠ .conflict := by
  induction takes with
  | nil => exact nofun
  | cons first rest ih => exact forall_mem_cons.2 ⟨first.clean, ih⟩

end

theorem regions_ours (our their : XdiffFile) (runs : List Change) :
    List.Forall₂ (Takes our their our) runs (regions our their runs []) := by
  have from_here (all rest : List Change) : List.Forall₂ (Takes our their our) rest
      (regionsFrom our their all [] rest.length rest []) := by
    induction rest with
    | nil => exact .nil
    | cons change rest ih => exact .cons (takes_ours our their change) ih
  exact from_here runs runs

theorem regions_theirs (our their : XdiffFile) (runs : List Change) :
    List.Forall₂ (Takes our their their) runs (regions our their [] runs) := by
  have from_here (all rest : List Change) : List.Forall₂ (Takes our their their) rest
      (regionsFrom our their [] all rest.length [] rest) := by
    induction rest with
    | nil => exact .nil
    | cons change rest ih => exact .cons (takes_theirs our their change) ih
  have same := from_here runs runs
  rwa [← zero_add runs.length] at same

theorem regionsFrom_same {nBase n low i j : Nat} {rest : List Change} (side : Side nBase n low i j all done rest)
    (enough : rest.length ≤ turns) : List.Forall₂ (Takes our our our) rest
      (regionsFrom our our all all turns rest rest) := by
  induction rest generalizing turns low i j done with
  | nil =>
    cases turns with
    | zero => exact .nil
    | succ turns => exact .nil
  | cons change rest ih =>
    cases turns with
    | zero => cases enough
    | succ turns =>
      obtain ⟨low_le, onward⟩ := side.alone
      have high : change.oldStart ≤ change.oldStop := Nat.le_add_right _ _
      -- the next change does not reach this one, so nothing is taken in
      have apart : ∀ turns, Overlap.absorb turns ⟨[change], change, rest, [change], change, rest⟩ =
          ⟨[change], change, rest, [change], change, rest⟩ := by
        intro turns
        cases turns with
        | zero => rfl
        | succ turns =>
          cases rest with
          | nil => rfl
          | cons next rest =>
            have gap : change.oldStop + 1 ≤ next.oldStart := onward.first next rfl
            have far : ¬ next.oldStart ≤ change.oldStop := by omega
            simp only [Overlap.absorb, Overlap.takeOurs, Overlap.takeTheirs, if_neg far]
      rw [regionsFrom, if_neg (by omega), if_neg (by omega)]
      dsimp only
      rw [apart]
      have start : mapBefore all change.oldStart = change.newStart := by
        have here := side.mapBefore_eq low_le (by rintro _ ⟨⟩; exact le_rfl)
        have step := side.held.2.1
        omega
      have stop : ((change.newStart + (change.oldStop - change.oldStart) : Nat) + deltaOver [change]).toNat =
          change.newStop := by
        simp [deltaOver, grows, oldStop, newStop]
        omega
      have same : linesEqual our change.newStart change.newStop our change.newStart change.newStop = true := by
        simp [linesEqual]
      have region : overlapRegion our our all all change change ⟨[change], change, rest, [change], change, rest⟩ =
          ⟨change.oldStart, change.oldStop, change.newStart, change.newStop, change.newStart, change.newStop,
            .takeEither⟩ := by
        simp only [overlapRegion, Nat.min_self, Nat.max_self, start, stop, same, if_true]
      rw [region]
      exact .cons ⟨rfl, rfl, by rintro ⟨⟩, rfl⟩ (ih onward (by simpa using enough))

end

/-! ## The text -/

section
variable {out : List (Bytes × Bool)} (isspace isalpha : CharClass) (ourLabel theirLabel : Bytes)

theorem length_render (lines : List (Bytes × Bool)) :
    (render lines).length = ((lines.map Prod.fst).map List.length).sum + lines.countP Prod.snd := by
  induction lines with
  | nil => rfl
  | cons line rest ih =>
    rw [render_cons, length_append, map_cons, map_cons, sum_cons, countP_cons]
    cases line.2 with
    | true =>
      simp only [if_true, length_append, length_singleton]
      omega
    | false =>
      simp only [Bool.false_eq_true, if_false]
      omega

theorem eq_of_complete {lines : List (Bytes × Bool)} (contents : out.map Prod.fst = lines.map Prod.fst)
    (complete : ∀ line ∈ lines, line.2 = true) (count : out.countP Prod.snd = lines.countP Prod.snd) : out = lines := by
  have length : out.length = lines.length := by simpa using congrArg length contents
  have complete' : ∀ line ∈ out, line.2 = true := by
    rwa [← countP_eq_length, count, length, countP_eq_length]
  have rebuild (list : List (Bytes × Bool)) (complete : ∀ line ∈ list, line.2 = true) :
      list = (list.map Prod.fst).map (·, true) := by
    have same : list.map (fun line => (line.1, true)) = list.map fun line => line :=
      map_congr_left fun line member => Prod.ext rfl (complete line member).symm
    rw [map_map]
    exact (same.trans (map_id' list)).symm
  rw [rebuild out complete', rebuild lines complete, contents]

theorem render_inj_contents {text : Bytes} (contents : out.map Prod.fst = (entriesFrom [] text).map Prod.fst)
    (same : render out = text) : out = entriesFrom [] text := by
  have whole := render_entriesFrom [] text
  rw [nil_append] at whole
  have count : out.countP Prod.snd = (entriesFrom [] text).countP Prod.snd := by
    have length := length_render out
    have length' := length_render (entriesFrom [] text)
    rw [same] at length
    rw [whole, ← contents] at length'
    omega
  have flags : ∀ i entry, (entriesFrom [] text)[i]? = some entry →
      (entry.2 = false ↔ i + 1 = (entriesFrom [] text).length ∧ text.getLast? ≠ some newline) :=
    fun i entry found => entriesFrom_complete not_mem_nil found
  generalize entriesFrom [] text = lines at *
  obtain rfl | ⟨init, last, rfl⟩ := eq_nil_or_concat' lines
  · simpa using contents
  have early : ∀ line ∈ init, line.2 = true := by
    intro line member
    obtain ⟨i, inside, rfl⟩ := mem_iff_getElem.1 member
    have flag := flags i init[i] (by rw [getElem?_append_left inside, getElem?_eq_getElem inside])
    rw [length_append, length_singleton] at flag
    exact Bool.eq_true_of_not_eq_false fun ragged => absurd (flag.1 ragged).1 (by omega)
  cases ended : last.2 with
  | true =>
    exact eq_of_complete contents (forall_mem_append.2 ⟨early, forall_mem_singleton.2 ended⟩) count
  | false =>
    -- the text does not end in a newline, so neither does the last line
    obtain ⟨-, ragged⟩ := (flags init.length last (by simp)).1 ended
    rw [map_append] at contents
    obtain ⟨init', others, rfl, fronts, alone⟩ := map_eq_append_iff.1 contents
    obtain ⟨last', rfl, content⟩ := map_eq_singleton_iff.1 alone
    have ended' : last'.2 = false := by
      refine Bool.eq_false_of_not_eq_true fun complete => ragged ?_
      rw [← same, render_append, render_cons, if_pos complete]
      simp [render]
    rw [countP_append, countP_append, countP_singleton, countP_singleton, ended, ended'] at count
    rw [eq_of_complete fronts early (Nat.add_right_cancel count), Prod.ext content (ended'.trans ended.symm)]

/-- A merge of a text with its base, from either side, and of two sides that are the same gives the text, just if the
lines the comparison leaves in place agree in their newlines. -/
theorem merge_laws_iff (b x : LineFile) :
    (mergeContent isspace isalpha ourLabel theirLabel b.text x.text b.text = some (x.text, 0) ∧
      mergeContent isspace isalpha ourLabel theirLabel b.text b.text x.text = some (x.text, 0) ∧
      mergeContent isspace isalpha ourLabel theirLabel b.text x.text x.text = some (x.text, 0)) ↔
    ∀ marks, xdiffMarks isspace plainFlags b.file x.file = some marks →
      b.file.unmarked marks.old = x.file.unmarked marks.new := by
  obtain ⟨marks, runs, found, compared⟩ := changesTo_spec isspace isalpha b.fits_file x.fits_file
  have unchanged := changesTo_self isspace isalpha b.fits_file
  have same : List.Forall₂ (Takes (load x.text) (load x.text) (load x.text)) runs
      (regions (load x.text) (load x.text) runs runs) :=
    regionsFrom_same (Side.of_runs compared.held) (Nat.le_add_right _ _)
  -- all three merges come to the base with the runs applied
  have ours := (mergeContent_spec isspace isalpha ourLabel theirLabel found unchanged).1
    (kind_of_takes (regions_ours _ _ runs))
  have theirs := (mergeContent_spec isspace isalpha ourLabel theirLabel unchanged found).1
    (kind_of_takes (regions_theirs _ _ runs))
  have both := (mergeContent_spec isspace isalpha ourLabel theirLabel found found).1 (kind_of_takes same)
  rw [written_takes (regions_ours _ _ runs)] at ours
  rw [written_takes (regions_theirs _ _ runs)] at theirs
  rw [written_takes same] at both
  rw [ours, theirs, both, and_self, and_self, Option.some_inj, Prod.ext_iff, and_iff_left rfl]
  have contents : (applyFrom b.file.entries x.file.entries 0 runs).map Prod.fst =
      (entriesFrom [] x.text).map Prod.fst := by
    have step := (@applyFrom_eq_iff _ _ _ _ _ _ b.file.line x.file.line compared.held).2 compared.same
    rw [← entries_load x.binary_file, map_applyFrom, entries, entries, map_map, map_map,
      entries, map_map]
    exact step
  calc render (applyFrom b.file.entries x.file.entries 0 runs) = x.text
      ↔ applyFrom b.file.entries x.file.entries 0 runs = x.file.entries := by
        constructor
        · intro text
          exact (render_inj_contents contents text).trans (entries_load x.binary_file).symm
        · intro lines
          rw [lines]
          exact render_entries x.binary_file
    _ ↔ InStep b.file.lines.length (fun p q => b.file.entry p = x.file.entry q) 0 0 runs :=
      applyFrom_eq_iff compared.held
    _ ↔ b.file.unmarked marks.old = x.file.unmarked marks.new := by
        rw [← compared.inStep, forall₂_keys_iff, ← kept_range, ← kept_range]
        rfl
    _ ↔ _ := by
        constructor
        · intro agree marks' ran
          rw [compared.ran] at ran
          cases ran
          exact agree
        · exact fun agree => agree marks compared.ran

end

theorem merge_adds_newline :
    mergeContent (fun _ => false) (fun _ => false) (ascii "ours") (ascii "theirs") (ascii "a\n") (ascii "a")
      (ascii "a\n") =
      some (ascii "a\n", 0) ∧
    mergeContent (fun _ => false) (fun _ => false) (ascii "ours") (ascii "theirs") (ascii "a") (ascii "a\nb\n")
      (ascii "a") =
      some (ascii "ab\n", 0) := by
  decide +kernel

end BashOs.Git.Merge

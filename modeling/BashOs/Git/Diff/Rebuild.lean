import BashOs.Git.Diff.Xdiff
import BashOs.Git.Merge.Text

/-!
What the change maps of a diff say about the texts, newlines included. A comparison looks at the bytes of two lines
and not at whether each ends in a newline. Where the lines that are compared end alike if they have the same bytes,
the marked lines turn the old text into the new one byte for byte, so two texts that differ show a change. Lines at
the end that are left out because the texts end in the same bytes do not matter.
-/

namespace BashOs.Git.Diff
open BashOs.Lib List
open BashOs.Git.Merge (render render_entries)

/-- Of the lines that are compared, those that are taken for the same agree in whether they end in a newline. -/
def EndAlike (flags : Flags) (old new : XdiffFile) : Prop :=
  ∀ i < (comparedLines flags old new).1, ∀ j < (comparedLines flags old new).2,
    lineSame old i new j = true → old.complete i = new.complete j

section
variable {isspace : CharClass} {flags : Flags} {old new : LineFile} {marks : Marks}

theorem unmarked_eq (exact' : flags.whitespace = false) (alike : EndAlike flags old.file new.file)
    (solved : (reduce isspace flags old.file new.file).Solves marks) :
    List.Forall₂ Eq (old.file.unmarked marks.old) (new.file.unmarked marks.new) := by
  obtain ⟨fewOld, fewNew, -⟩ := comparedLines_spec flags old.binary_file new.binary_file
  have keys : keyFiles isspace flags old.file new.file = (old.file, new.file) := by
    simp [keyFiles, exact']
  refine solved.aligned ⟨fewOld, fewNew⟩ (fun i below j below' same => ?_) ?_
  · simp only [reduce, keys] at same
    exact Prod.ext same (alike i below j below' (lineSame_iff.2 same))
  · rw [forall₂_eq_eq_eq]
    exact comparedLines_entries flags old.binary_file new.binary_file

end

def sampleOld : LineFile where
  text := ascii "a\nb\n"
  plain := by decide +kernel
  fits := by decide +kernel

def sampleNew : LineFile where
  text := ascii "a\nc"
  plain := by decide +kernel
  fits := by decide +kernel

end BashOs.Git.Diff

import Mathlib.Data.List.Basic

/-!
Edit scripts: a list spelled as runs copied out of a base and runs of its own.
-/

namespace BashOs.Lib

inductive Edit (α : Type) where
  | copy (off len : Nat)
  | insert (run : List α)
deriving DecidableEq, Repr

namespace Edit
variable {α : Type}

def run (base : List α) : Edit α → List α
  | copy off len => (base.drop off).take len
  | insert run => run

def size : Edit α → Nat
  | copy _ len => len
  | insert run => run.length

def Within (base : List α) : Edit α → Prop
  | copy off len => off + len ≤ base.length
  | insert _ => True

theorem length_run {base : List α} {edit : Edit α} (within : edit.Within base) :
    (edit.run base).length = edit.size := by
  cases edit with
  | copy off len =>
    simp only [Within] at within
    simp [run, size]
    omega
  | insert run => rfl

def runAll (base : List α) (script : List (Edit α)) : List α := script.flatMap (run base)

@[simp] theorem runAll_nil (base : List α) : runAll base [] = [] := rfl

@[simp] theorem runAll_cons (base : List α) (edit : Edit α) (script : List (Edit α)) :
    runAll base (edit :: script) = edit.run base ++ runAll base script := rfl

end Edit

end BashOs.Lib

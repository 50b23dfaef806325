import BashOs.Git.Refs.Files

/-!
Where a ref's lock stands: beside the ref's file, under the same name with `.lock` behind it.
-/

namespace BashOs.Git.Refs
open BashOs.Lib BashOs.Git.WorkTree List Option Bool

theorem ne_of_cutAt_none {needle text : Bytes} (some : needle ≠ []) (never : cutAt needle text = none)
    (before after : Bytes) :
    text ≠ before ++ needle ++ after := by
  induction text generalizing before with
  | nil =>
    intro same
    simp [some] at same
  | cons first rest ih =>
    rw [cutAt] at never
    split at never
    · cases never
    rename_i early
    intro same
    cases before with
    | nil => exact early <| isPrefixOf_iff_prefix.2 ⟨after, same.symm⟩
    | cons b before => exact ih (map_eq_none_iff.1 never) before (cons.inj same).2

theorem cutAt_none_of_append {needle text more : Bytes} (some : needle ≠ [])
    (never : cutAt needle (text ++ more) = none) :
    cutAt needle text = none := by
  rw [eq_none_iff_forall_not_mem]
  rintro ⟨before, after⟩ cut
  refine ne_of_cutAt_none some never before (after ++ more) ?_
  rw [(cutAt_spec cut).1, append_assoc _ after]

theorem componentsOk_of_append {start : Bool} {text more : Bytes} (good : componentsOk start (text ++ more) = true) :
    componentsOk start text = true := by
  induction text generalizing start with
  | nil => rfl
  | cons b text ih =>
    rw [cons_append, componentsOk, and_eq_true] at good
    rw [componentsOk, and_eq_true]
    exact ⟨good.1, ih good.2⟩

theorem componentsOk_dot {start : Bool} {text more : Bytes}
    (ends : text.getLast? = some 0x2f ∨ text = [] ∧ start = true) :
    componentsOk start (text ++ 0x2e :: more) = false := by
  induction text generalizing start with
  | nil =>
    obtain bad | ⟨-, rfl⟩ := ends
    · cases bad
    · simp [componentsOk]
  | cons b text ih =>
    rw [cons_append, componentsOk, ih, Bool.and_false]
    obtain last | ⟨bad, -⟩ := ends
    · cases text with
      | nil => exact .inr ⟨rfl, by simpa using last⟩
      | cons c text => exact .inl (by simpa using last)
    · cases bad

/-- A name with `.lock/` behind it starts a good name, so it is good itself, unless it ends in `.lock`. -/
theorem nameOk_front {front back : Bytes} (good : nameOk (front ++ (ascii ".lock/" ++ back)) = true)
    (other : ¬ ascii ".lock" <:+ front) : nameOk front = true := by
  unfold nameOk at good ⊢
  simp only [and_eq_true, decide_eq_true_eq, not_eq_true', ← not_eq_true, isSuffixOf_iff_suffix,
    isNone_iff_eq_none] at good ⊢
  obtain ⟨⟨⟨⟨⟨⟨⟨⟨-, head⟩, -⟩, -⟩, dots⟩, braces⟩, slashes⟩, -⟩, parts⟩ := good
  have dotted : ascii ".lock/" ++ back = 0x2e :: (ascii "lock/" ++ back) := rfl
  have start : front ≠ [] := by
    rintro rfl
    rw [dotted, componentsOk_dot (.inr ⟨rfl, rfl⟩)] at parts
    cases parts
  refine ⟨⟨⟨⟨⟨⟨⟨⟨start, ?_⟩, fun slash => ?_⟩, fun dot => ?_⟩, cutAt_none_of_append (by decide +kernel) dots⟩,
    cutAt_none_of_append (by decide +kernel) braces⟩, cutAt_none_of_append (by decide +kernel) slashes⟩, other⟩,
      componentsOk_of_append parts⟩
  · rwa [head?_append_of_ne_nil _ start] at head
  · rw [dotted, componentsOk_dot (.inl slash)] at parts
    cases parts
  · obtain ⟨most, rfl⟩ := getLast?_eq_some_iff.1 dot
    refine ne_of_cutAt_none (by decide +kernel) dots most (ascii "lock/" ++ back) ?_
    rw [dotted, append_assoc, append_assoc]
    rfl

/-! ## Paths -/

section
variable (dirs : GitDirs)

def refText (name : Bytes) : Bytes := rootText (dirs.base name) ++ 0x2f :: name

def lockText (name : Bytes) : Bytes := refText dirs name ++ ascii ".lock"

/-- The lock of the first ref is the file of the second or a directory on the way to it. -/
def InTheWay (locked other : Bytes) : Prop :=
  lockText dirs locked = refText dirs other ∨ lockText dirs locked ++ [0x2f] <+: refText dirs other

/-- Each component but the last that ends in `.lock` ends in it twice. -/
def LocksDoubled (text : Bytes) : Prop := ∀ front back, text = front ++ (ascii ".lock/" ++ back) →
    ascii ".lock" <:+ front

end

theorem suffix_of_text {root name : Bytes} (ends : ascii ".lock" <:+ root ++ 0x2f :: name) :
    ascii ".lock" <:+ name := by
  have slash : 0x2f ∉ ascii ".lock" := by decide +kernel
  obtain ends | ends := suffix_or_suffix_of_suffix ends (suffix_append root (0x2f :: name))
  · exact (suffix_cons_iff.1 ends).resolve_left fun same => slash (same ▸ (.head _))
  · exact absurd (ends.subset (.head _)) slash

theorem nameOk_not_lock {name : Bytes} (good : nameOk name = true) : ¬ ascii ".lock" <:+ name := by
  unfold nameOk at good
  simp only [and_eq_true, not_eq_true', ← not_eq_true, isSuffixOf_iff_suffix] at good
  exact good.1.2

theorem apart_of_doubled {locked other : Bytes} (first : ¬ ascii ".lock" <:+ locked)
    (second : ¬ ascii ".lock" <:+ other)
    (doubled : LocksDoubled other) :
    ¬ (locked ++ ascii ".lock" = other ∨ locked ++ ascii ".lock" ++ [0x2f] <+: other) := by
  rintro (same | ⟨back, same⟩)
  · exact second ⟨locked, same⟩
  · refine first (doubled locked back ?_)
    rw [← same, append_assoc, append_assoc]
    rfl

variable {dirs : GitDirs} {other : Bytes}

/-- No ref's lock is in the way of this one, if each component of its path but the last that ends in `.lock` ends in
it twice; with one directory for all refs, if and only if each such component of its name does. -/
theorem locks_apart_iff (good : nameOk other = true) :
    (LocksDoubled (refText dirs other) → ∀ locked, nameOk locked = true → ¬ InTheWay dirs locked other) ∧
      (dirs.gitDir = dirs.commonDir →
        ((∀ locked, nameOk locked = true → ¬ InTheWay dirs locked other) ↔ LocksDoubled other)) := by
  refine ⟨fun doubled locked good' => ?_, fun one => ⟨fun free front back whole => ?_, fun doubled locked good' => ?_⟩⟩
  · exact apart_of_doubled (fun ends => nameOk_not_lock good' (suffix_of_text ends))
      (fun ends => nameOk_not_lock good (suffix_of_text ends)) doubled
  · by_contra single
    subst whole
    refine free front (nameOk_front good single) (.inr ⟨back, ?_⟩)
    simp [lockText, refText, GitDirs.base, one]
    rfl
  · have apart := apart_of_doubled (nameOk_not_lock good') (nameOk_not_lock good) doubled
    have base : dirs.base locked = dirs.base other := by simp [GitDirs.base, one]
    simpa [InTheWay, lockText, refText, base] using apart

/-- The lock of `a` is a directory on the way to `a.lock/b`. -/
theorem lock_in_the_way : nameOk (ascii "a") = true ∧ nameOk (ascii "a.lock/b") = true ∧
    InTheWay ⟨[refsDir], [refsDir]⟩ (ascii "a") (ascii "a.lock/b") :=
  ⟨by decide +kernel, by decide +kernel, .inr ⟨ascii "b", by decide +kernel⟩⟩

theorem locks_apart_sample : nameOk (ascii "refs/heads/a") = true ∧ ∀ locked, nameOk locked = true →
    ¬ InTheWay ⟨[refsDir], [refsDir]⟩ locked (ascii "refs/heads/a") := by
  refine ⟨by decide +kernel, ((locks_apart_iff (by decide +kernel)).2 rfl).2 fun front back whole => ?_⟩
  have never : cutAt (ascii ".lock/") (ascii "refs/heads/a") = none := by decide +kernel
  exact absurd (whole.trans (append_assoc _ _ _).symm) (ne_of_cutAt_none (by decide +kernel) never front back)

end BashOs.Git.Refs

import Mathlib.Data.List.Infix
import Mathlib.Data.List.TakeWhile
import BashOs.Lib.Bytes

/-!
Text that ends at a NUL, and the searches of `string.h`: for a text in a text, and for the first or the last of
a character.
-/

namespace BashOs.Lib
open List Option

section Search
variable {α : Type} [DecidableEq α]

/-- What stands before the first place where `needle` stands in a text, and what follows it there. -/
def cutAt (needle : List α) : List α → Option (List α × List α)
  | [] => if needle = [] then some ([], []) else none
  | first :: rest =>
    if needle.isPrefixOf (first :: rest) then some ([], (first :: rest).drop needle.length)
    else (cutAt needle rest).map fun (before, after) => (first :: before, after)

/-- What follows the first `mark`, or the whole text if there is none. -/
def afterFirst (mark : α) (text : List α) : List α :=
  match text.dropWhile (· ≠ mark) with
  | [] => text
  | _ :: rest => rest

/-- What stands before the last `mark`, or the whole text if there is none. -/
def beforeLast (mark : α) (text : List α) : List α := (afterFirst mark text.reverse).reverse

/-- What follows the last `mark`, or the whole text if there is none. -/
def afterLast (mark : α) (text : List α) : List α := (text.reverse.takeWhile (· ≠ mark)).reverse

variable {needle text before after : List α} {mark : α}

section
variable (cut : cutAt needle text = some (before, after))
include cut

theorem cutAt_spec :
    text = before ++ needle ++ after ∧ ∀ other, cutAt needle (before ++ needle ++ other) = some (before, other) := by
  induction text generalizing before with
  | nil =>
    rw [cutAt] at cut
    split at cut
    next empty =>
      cases cut
      subst empty
      exact ⟨rfl, fun other => by cases other <;> rfl⟩
    · cases cut
  | cons first rest ih =>
    rw [cutAt] at cut
    split at cut
    next here =>
      obtain ⟨more, whole⟩ := isPrefixOf_iff_prefix.1 here
      cases cut
      refine ⟨by rw [← whole, drop_left, nil_append], fun other => ?_⟩
      cases needle with
      | nil => cases other <;> rfl
      | cons head tail => simp [cutAt]
    rename_i here
    obtain ⟨⟨before', after'⟩, found, same⟩ := map_eq_some_iff.1 cut
    cases same
    obtain ⟨whole, again⟩ := ih found
    refine ⟨by rw [whole, cons_append, cons_append], fun other => ?_⟩
    have fewer : needle.length ≤ (first :: (before' ++ needle)).length := by
      rw [length_cons, length_append]
      omega
    -- an earlier place would lie within what the two texts share
    have early : ¬ needle.isPrefixOf (first :: (before' ++ needle ++ other)) := by
      intro begins
      refine here <| isPrefixOf_iff_prefix.2 ?_
      rw [whole, ← cons_append, isPrefix_append_of_length fewer]
      rw [← cons_append, isPrefixOf_iff_prefix, isPrefix_append_of_length fewer] at begins
      exact begins
    rw [cons_append, cons_append, cutAt, if_neg early, again]
    rfl

theorem cutAt_unique {text' before' after' rest rest' : List α}
    (cut' : cutAt needle text' = some (before', after'))
    (same : before ++ needle ++ rest = before' ++ needle ++ rest') :
    before = before' ∧ rest = rest' := by
  have first := (cutAt_spec cut).2 rest
  rw [same, (cutAt_spec cut').2 rest'] at first
  cases first
  exact ⟨rfl, rfl⟩

end

omit [DecidableEq α] in
theorem take_takeWhile (stop : α → Bool) {count : Nat} (short : count ≤ (text.takeWhile stop).length) :
    text.take count = (text.takeWhile stop).take count := by
  obtain ⟨rest, whole⟩ := takeWhile_prefix (l := text) stop
  have cut : (text.takeWhile stop ++ rest).take count = (text.takeWhile stop).take count :=
    take_append_of_le_length short
  rwa [whole] at cut

theorem part_of_splitOn {part : List α} (member : part ∈ text.splitOn mark) : mark ∉ part ∧ part ⊆ text := by
  induction text generalizing part with
  | nil =>
    rw [splitOn_nil, mem_singleton] at member
    simp [member]
  | cons first rest ih =>
    rw [splitOn_cons_eq_if_modifyHead] at member
    split at member
    · obtain rfl | member := mem_cons.1 member
      · exact ⟨not_mem_nil, nil_subset _⟩
      · exact (ih member).imp_right (subset_cons_of_subset _)
    rename_i other
    obtain ⟨head, parts, split⟩ := exists_cons_of_ne_nil (splitOn_ne_nil mark rest)
    rw [split] at ih
    rw [split] at member
    obtain rfl | member := mem_cons.1 member
    · have fresh := ih (.head _)
      simp only [beq_iff_eq] at other
      exact ⟨by simpa [Ne.symm other] using fresh.1, cons_subset_cons _ fresh.2⟩
    · exact (ih (.tail _ member)).imp_right (subset_cons_of_subset _)

theorem splitOn_append_mark (mark : α) (a b : List α) :
    (a ++ mark :: b).splitOn mark = a.splitOn mark ++ b.splitOn mark := by
  induction a with
  | nil => simp [splitOn_cons_eq_if_modifyHead]
  | cons first a ih =>
    rw [cons_append, splitOn_cons_eq_if_modifyHead, splitOn_cons_eq_if_modifyHead, ih]
    split
    · rfl
    · obtain ⟨head, parts, split⟩ := exists_cons_of_ne_nil (splitOn_ne_nil mark a)
      simp [split]

theorem splitOn_append_dropLast (mark : α) (a b : List α) :
    ∃ rest, (a ++ b).splitOn mark = (a.splitOn mark).dropLast ++ rest := by
  induction a with
  | nil => exact ⟨b.splitOn mark, by simp⟩
  | cons first a ih =>
    obtain ⟨rest, split⟩ := ih
    obtain ⟨head, parts, split'⟩ := exists_cons_of_ne_nil (splitOn_ne_nil mark a)
    rw [cons_append, splitOn_cons_eq_if_modifyHead, splitOn_cons_eq_if_modifyHead, split]
    split
    · exact ⟨rest, by rw [dropLast_cons_of_ne_nil (splitOn_ne_nil mark a), cons_append]⟩
    · rw [split']
      cases parts with
      | nil => exact ⟨_, rfl⟩
      | cons second parts => exact ⟨rest, rfl⟩

theorem empty_part (single : cutAt [mark, mark] text = none) (member : [] ∈ (text.splitOn mark).tail) :
    text.getLast? = some mark := by
  induction text with
  | nil => cases member
  | cons first rest ih =>
    rw [cutAt] at single
    split at single
    · cases single
    rename_i apart
    rw [splitOn_cons_eq_if_modifyHead] at member
    have later : [] ∈ (rest.splitOn mark).tail → (first :: rest).getLast? = some mark := by
      intro member
      have last := ih (map_eq_none_iff.1 single) member
      rw [getLast?_cons, last]
      rfl
    split at member
    next same =>
      cases rest with
      | nil => simpa using same
      | cons second rest =>
        rw [splitOn_cons_eq_if_modifyHead] at member
        split at member
        next double =>
          simp [beq_iff_eq.1 same, beq_iff_eq.1 double] at apart
        next other =>
          apply later
          rw [splitOn_cons_eq_if_modifyHead, if_neg other]
          obtain ⟨part, parts, split⟩ := exists_cons_of_ne_nil (splitOn_ne_nil mark rest)
          simpa [split] using member
    · exact later (by simpa using member)

theorem splitOn_cons_cons {first second : List α} {more : List (List α)}
    (split : text.splitOn mark = first :: second :: more) :
    ∃ rest, text = first ++ mark :: rest ∧ rest.splitOn mark = second :: more := by
  have whole : [mark].intercalate (text.splitOn mark) = text := intercalate_splitOn mark
  rw [split] at whole
  have text_eq : text = first ++ mark :: List.intercalate [mark] (second :: more) := by
    rw [← whole]
    simp
  refine ⟨_, text_eq, ?_⟩
  have single : mark ∉ first := (part_of_splitOn (split ▸ mem_cons_self)).1
  rw [text_eq, splitOn_append_mark, splitOn_eq_singleton single] at split
  exact (List.cons.inj split).2

theorem takeWhile_append_stop (first rest : List α) {stop : α} (absent : stop ∉ first) :
    (first ++ stop :: rest).takeWhile (fun b => decide (b ≠ stop)) = first ∧
      (first ++ stop :: rest).dropWhile (fun b => decide (b ≠ stop)) = stop :: rest := by
  have pass : ∀ b ∈ first, decide (b ≠ stop) = true := fun b inside => decide_eq_true fun same => absent (same ▸ inside)
  rw [takeWhile_append_of_pos pass, dropWhile_append_of_pos pass]
  simp

theorem takeWhile_ne_of_not_mem (absent : mark ∉ text) : text.takeWhile (· ≠ mark) = text := by
  apply takeWhile_eq_self_iff.2
  intro x member
  simpa using fun same : x = mark => absent (same ▸ member)

theorem afterFirst_suffix (mark : α) (text : List α) : afterFirst mark text <:+ text := by
  unfold afterFirst
  split
  · exact suffix_refl text
  rename_i first rest found
  have whole := dropWhile_suffix (l := text) (· ≠ mark)
  rw [found] at whole
  exact (suffix_cons first rest).trans whole

theorem afterFirst_append (member : mark ∈ text) (more : List α) :
    afterFirst mark (text ++ more) = afterFirst mark text ++ more := by
  have stops : text.dropWhile (· ≠ mark) ≠ [] := by
    intro empty
    rw [dropWhile_eq_nil_iff] at empty
    simpa using empty mark member
  obtain ⟨first, rest, split⟩ := exists_cons_of_ne_nil stops
  have longer : (text ++ more).dropWhile (· ≠ mark) = first :: (rest ++ more) := by
    rw [dropWhile_append, if_neg (by simpa using member), split, cons_append]
  simp only [afterFirst, split, longer]

theorem beforeLast_cons {first : α} (member : mark ∈ text) :
    beforeLast mark (first :: text) = first :: beforeLast mark text := by
  rw [beforeLast, reverse_cons, afterFirst_append (mem_reverse.2 member), reverse_append]
  rfl

theorem beforeLast_begins (mark : α) (text : List α) : beforeLast mark text <+: text := by
  have part := reverse_prefix.2 (afterFirst_suffix mark text.reverse)
  rwa [reverse_reverse] at part

end Search

structure CString where
  bytes : Bytes
  clean : 0 ∉ bytes
deriving DecidableEq

def CString.ofBytes (buffer : Bytes) : CString where
  bytes := buffer.takeWhile (· ≠ 0)
  clean := fun member => by simpa using mem_takeWhile_imp member

theorem CString.ofBytes_of_clean {buffer : Bytes} (clean : 0 ∉ buffer) : (CString.ofBytes buffer).bytes = buffer :=
  takeWhile_ne_of_not_mem clean

/-!
## Texts in parts

What begins with the parts of another text is what begins with that text and the mark, and in dictionary order such
texts stand together.
-/

section
variable {α : Type} {mark : α} {xs ys : List (List α)}

theorem intercalate_append_parts (left : xs ≠ []) (right : ys ≠ []) :
    [mark].intercalate (xs ++ ys) = [mark].intercalate xs ++ mark :: [mark].intercalate ys := by
  induction xs with
  | nil => exact (left rfl).elim
  | cons x rest ih =>
    cases rest with
    | nil =>
      obtain ⟨y, more, rfl⟩ := exists_cons_of_ne_nil right
      simp
    | cons next rest =>
      rw [cons_append, cons_append, intercalate_cons_cons, ← cons_append, ih (cons_ne_nil _ _)]
      simp

theorem length_le_join {part : List α} (member : part ∈ xs) : part.length ≤ ([mark].intercalate xs).length := by
  induction xs with
  | nil => cases member
  | cons x rest ih =>
    cases rest with
    | nil =>
      rw [mem_singleton] at member
      rw [member, intercalate_singleton]
    | cons next rest =>
      rw [intercalate_cons_cons, length_append, length_append]
      obtain rfl | later := mem_cons.1 member
      · omega
      · have := ih later
        omega

theorem join_prefix_iff [DecidableEq α] (some : xs ≠ []) (plain : ∀ x ∈ xs, mark ∉ x) (plain' : ∀ y ∈ ys, mark ∉ y) :
    [mark].intercalate xs ++ [mark] <+: [mark].intercalate ys ↔ xs <+: ys ∧ xs ≠ ys := by
  constructor
  · rintro ⟨rest, whole⟩
    have parts : ys = xs ++ rest.splitOn mark := by
      cases ys with
      | nil => simp at whole
      | cons y more =>
        rw [← splitOn_intercalate mark plain' (cons_ne_nil _ _), ← whole, append_assoc,
          singleton_append, splitOn_append_mark, splitOn_intercalate mark plain some]
    have others := splitOn_ne_nil mark rest
    refine ⟨⟨_, parts.symm⟩, fun same => others ?_⟩
    rw [← same] at parts
    exact self_eq_append_right.1 parts
  · rintro ⟨⟨rest, rfl⟩, unlike⟩
    have more : rest ≠ [] := fun none => unlike (by rw [none, append_nil])
    rw [intercalate_append_parts some more]
    exact ⟨[mark].intercalate rest, by simp⟩

end

theorem prefix_of_between {α : Type} [LT α] [Std.Asymm fun a b : α => a < b] {front a b c : List α}
    (first : front <+: a) (last : front <+: c)
    (above : a < b) (below : b < c) : front <+: b := by
  induction front generalizing a b c with
  | nil => exact nil_prefix
  | cons x front ih =>
    obtain ⟨a, rfl⟩ := first
    obtain ⟨c, rfl⟩ := last
    cases b with
    | nil => exact (not_lt_nil _ above).elim
    | cons y b =>
      have same : x = y := by
        obtain less | ⟨same, -⟩ := cons_lt_cons_iff.1 above
        · obtain more | ⟨same, -⟩ := cons_lt_cons_iff.1 below
          · exact (Std.Asymm.asymm x y less more).elim
          · exact same.symm
        · exact same
      subst same
      have above : front ++ a < b := (cons_lt_cons_iff.1 above).elim (fun less => (irrefl _ less).elim) And.right
      have below : b < front ++ c := (cons_lt_cons_iff.1 below).elim (fun less => (irrefl _ less).elim) And.right
      exact (prefix_cons_inj x).2 (ih (prefix_append _ _) (prefix_append _ _) above below)

end BashOs.Lib

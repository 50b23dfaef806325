import Mathlib.Data.List.Nodup

/-!
Marks on the elements of two sequences, and when what is left unmarked on both sides is the same. A search settles a
part of the two sequences: it leaves the marks outside the part alone, and what it leaves unmarked inside matches.
Parts that follow each other are settled one by one.
-/

namespace BashOs.Lib
open List

variable {κ : Type}

def kept (key : Nat → κ) (changed : Nat → Bool) (lines : List Nat) : List κ := (lines.filter (!changed ·)).map key

section
variable {key : Nat → κ} {changed other : Nat → Bool} {lines more : List Nat} {i first last : Nat}

@[simp] theorem kept_nil : kept key changed [] = [] := rfl

theorem kept_append : kept key changed (lines ++ more) = kept key changed lines ++ kept key changed more := by
  rw [kept, filter_append, map_append]
  rfl

theorem kept_congr (agree : ∀ i ∈ lines, changed i = other i) : kept key changed lines = kept key other lines := by
  unfold kept
  congr 1
  exact filter_congr fun i member => by rw [agree i member]

theorem kept_unmarked (unmarked : ∀ i ∈ lines, changed i = false) : kept key changed lines = lines.map key := by
  unfold kept
  rw [filter_eq_self.2]
  intro i member
  rw [unmarked i member]
  rfl

theorem kept_marked (marked : ∀ i ∈ lines, changed i = true) : kept key changed lines = [] := by
  unfold kept
  rw [filter_eq_nil_iff.2]
  · rfl
  · intro i member
    simp [marked i member]

theorem kept_filter (choose : Nat → Bool) (dropped : ∀ i ∈ lines, choose i = false → changed i = true) :
    kept key changed (lines.filter choose) = kept key changed lines := by
  unfold kept
  rw [filter_filter]
  congr 1
  apply filter_congr
  intro i member
  cases chosen : choose i with
  | true => rw [Bool.and_true]
  | false => rw [dropped i member chosen, Bool.and_false, Bool.not_true]

theorem kept_map (element : Nat → Nat) :
    kept key changed (lines.map element) = kept (fun i => key (element i)) (fun i => changed (element i)) lines := by
  unfold kept
  rw [filter_map, map_map]
  rfl

theorem not_mem_filter_map (choose : Nat → Bool) {positions : List Nat} {element : Nat → Nat}
    (nodup : (positions.map element).Nodup) (member : i ∈ positions) (dropped : choose i = false) :
    element i ∉ (positions.filter choose).map element := by
  intro chosen
  obtain ⟨k, found, same⟩ := mem_map.1 chosen
  obtain ⟨inside, kept⟩ := mem_filter.1 found
  rw [inj_on_of_nodup_map nodup inside member same, dropped] at kept
  cases kept

def upTo (first last : Nat) : List Nat := List.range' first (last - first)

theorem mem_upTo : i ∈ upTo first last ↔ first ≤ i ∧ i < last := by
  unfold upTo
  rw [mem_range'_1]
  omega

theorem upTo_append {middle : Nat} (low : first ≤ middle) (high : middle ≤ last) :
    upTo first last = upTo first middle ++ upTo middle last := by
  unfold upTo
  obtain ⟨a, rfl⟩ := Nat.exists_eq_add_of_le low
  obtain ⟨b, rfl⟩ := Nat.exists_eq_add_of_le high
  rw [Nat.add_sub_cancel_left, Nat.add_sub_cancel_left, Nat.add_assoc first, Nat.add_sub_cancel_left,
    ← List.range'_append_1]

@[simp] theorem upTo_self (first : Nat) : upTo first first = [] := by
  simp [upTo]

theorem upTo_singleton (first : Nat) : upTo first (first + 1) = [first] := by
  simp [upTo]

theorem range_eq_upTo (n : Nat) : List.range n = upTo 0 n := by
  rw [upTo, Nat.sub_zero, range_eq_range']

theorem kept_slide {n p q : Nat} (before : p < q) (inside : q < n) (same : key p = key q)
    (between : ∀ i, p < i → i < q → changed i = true ∧ other i = true)
    (elsewhere : ∀ i, i < p ∨ q < i → changed i = other i) (left : changed p = false ∧ other p = true)
    (right : changed q = true ∧ other q = false) :
    kept key changed (List.range n) = kept key other (List.range n) := by
  have parts : range n = upTo 0 p ++ ([p] ++ (upTo (p + 1) q ++ ([q] ++ upTo (q + 1) n))) := by
    rw [range_eq_upTo, upTo_append (Nat.zero_le p) (by omega), upTo_append (Nat.le_succ p) (by omega),
      upTo_append (show p + 1 ≤ q by omega) (by omega), upTo_append (Nat.le_succ q) (by omega),
      upTo_singleton, upTo_singleton]
  have outer : ∀ i ∈ upTo 0 p, changed i = other i := fun i member => elsewhere i (.inl (mem_upTo.1 member).2)
  have upper : ∀ i ∈ upTo (q + 1) n, changed i = other i := fun i member => elsewhere i (.inr (mem_upTo.1 member).1)
  have inner (marks : Nat → Bool) (marked : ∀ i, p < i → i < q → marks i = true) :
      kept key marks (upTo (p + 1) q) = [] :=
    kept_marked fun i member => marked i (mem_upTo.1 member).1 (mem_upTo.1 member).2
  rw [parts]
  simp only [kept_append]
  rw [kept_congr outer, kept_congr upper, inner changed fun i low high => (between i low high).1,
    inner other fun i low high => (between i low high).2]
  simp [kept, left.1, left.2, right.1, right.2, same]

end

/-! ## Two sides -/

structure Marks where
  old : Nat → Bool
  new : Nat → Bool

namespace Marks

def markOld (lines : List Nat) (marks : Marks) : Marks := { marks with old := fun i => i ∈ lines || marks.old i }

def markNew (lines : List Nat) (marks : Marks) : Marks := { marks with new := fun i => i ∈ lines || marks.new i }

structure Fresh (marks : Marks) (a b : List Nat) : Prop where
  old : ∀ i ∈ a, marks.old i = false
  new : ∀ j ∈ b, marks.new j = false

structure Settled (keyA keyB : Nat → κ) (a b : List Nat) (before after : Marks) : Prop where
  old : ∀ i ∉ a, after.old i = before.old i
  new : ∀ j ∉ b, after.new j = before.new j
  same : kept keyA after.old a = kept keyB after.new b

section
variable {marks before middle after : Marks} {keyA keyB : Nat → κ} {a a' b b' : List Nat}

theorem Fresh.mono (fresh : marks.Fresh a b) (fewer : a' ⊆ a) (less : b' ⊆ b) : marks.Fresh a' b' :=
  ⟨fun i member => fresh.old i (fewer member), fun j member => fresh.new j (less member)⟩

theorem Settled.of_same (fresh : marks.Fresh a b) (same : a.map keyA = b.map keyB) :
    Settled keyA keyB a b marks marks where
  old _ _ := rfl
  new _ _ := rfl
  same := by rw [kept_unmarked fresh.old, kept_unmarked fresh.new, same]

theorem Settled.of_all (marks : Marks) : Settled keyA keyB a b marks ((marks.markOld a).markNew b) where
  old i other := by simp [markOld, markNew, other]
  new j other := by simp [markOld, markNew, other]
  same := by
    rw [kept_marked, kept_marked]
    · intro j member
      simp [markNew, member]
    · intro i member
      simp [markOld, markNew, member]

theorem Settled.append (first : Settled keyA keyB a b before middle) (second : Settled keyA keyB a' b' middle after)
    (apart : a.Disjoint a') (apart' : b.Disjoint b') : Settled keyA keyB (a ++ a') (b ++ b') before after where
  old i other := by
    rw [mem_append, not_or] at other
    rw [second.old i other.2, first.old i other.1]
  new j other := by
    rw [mem_append, not_or] at other
    rw [second.new j other.2, first.new j other.1]
  same := by
    have left : kept keyA after.old a = kept keyA middle.old a :=
      kept_congr fun i member => second.old i fun other => apart member other
    have right : kept keyB after.new b = kept keyB middle.new b :=
      kept_congr fun j member => second.new j fun other => apart' member other
    rw [kept_append, kept_append, left, right, first.same, second.same]

section
variable {atA atB : List Nat} {elementA elementB : Nat → Nat} (chooseA chooseB : Nat → Bool)
  (nodupA : (atA.map elementA).Nodup) (nodupB : (atB.map elementB).Nodup)

include nodupA nodupB

/-- Elements can be left out of a search when they are marked before it. The elements stand at positions, and it is
positions that are chosen. -/
theorem Fresh.of_filter (fresh : marks.Fresh (atA.map elementA) (atB.map elementB)) :
    ((marks.markOld ((atA.filter (!chooseA ·)).map elementA)).markNew ((atB.filter (!chooseB ·)).map elementB)).Fresh
      ((atA.filter chooseA).map elementA) ((atB.filter chooseB).map elementB) where
  old i member := by
    obtain ⟨k, found, rfl⟩ := mem_map.1 member
    obtain ⟨inside, chosen⟩ := mem_filter.1 found
    have apart := not_mem_filter_map (!chooseA ·) nodupA inside (by simp [chosen])
    simp [markOld, markNew, apart, fresh.old _ (mem_map_of_mem inside)]
  new j member := by
    obtain ⟨k, found, rfl⟩ := mem_map.1 member
    obtain ⟨inside, chosen⟩ := mem_filter.1 found
    have apart := not_mem_filter_map (!chooseB ·) nodupB inside (by simp [chosen])
    simp [markOld, markNew, apart, fresh.new _ (mem_map_of_mem inside)]

theorem Settled.of_filter
    (settled : Settled keyA keyB ((atA.filter chooseA).map elementA) ((atB.filter chooseB).map elementB)
      ((before.markOld ((atA.filter (!chooseA ·)).map elementA)).markNew
        ((atB.filter (!chooseB ·)).map elementB)) after) :
    Settled keyA keyB (atA.map elementA) (atB.map elementB) before after := by
  have within (choose : Nat → Bool) (positions : List Nat) (element : Nat → Nat) :
      (positions.filter choose).map element ⊆ positions.map element :=
    map_subset element (filter_subset_self positions)
  refine ⟨fun i other => ?_, fun j other => ?_, ?_⟩
  · have left : i ∉ (atA.filter (!chooseA ·)).map elementA := fun member => other (within _ _ _ member)
    rw [settled.old i fun member => other (within _ _ _ member)]
    simp [markOld, markNew, left]
  · have left : j ∉ (atB.filter (!chooseB ·)).map elementB := fun member => other (within _ _ _ member)
    rw [settled.new j fun member => other (within _ _ _ member)]
    simp [markOld, markNew, left]
  · have left : kept keyA after.old ((atA.filter chooseA).map elementA) = kept keyA after.old (atA.map elementA) := by
      rw [kept_map, kept_map]
      apply kept_filter
      intro i member dropped
      have marked : elementA i ∈ (atA.filter (!chooseA ·)).map elementA :=
        mem_map_of_mem (mem_filter.2 ⟨member, by simp [dropped]⟩)
      rw [settled.old _ (not_mem_filter_map chooseA nodupA member dropped)]
      simp [markOld, markNew, marked]
    have right : kept keyB after.new ((atB.filter chooseB).map elementB) = kept keyB after.new (atB.map elementB) := by
      rw [kept_map, kept_map]
      apply kept_filter
      intro j member dropped
      have marked : elementB j ∈ (atB.filter (!chooseB ·)).map elementB :=
        mem_map_of_mem (mem_filter.2 ⟨member, by simp [dropped]⟩)
      rw [settled.new _ (not_mem_filter_map chooseB nodupB member dropped)]
      simp [markNew, marked]
    rw [← left, ← right, settled.same]

end

end

end Marks

end BashOs.Lib

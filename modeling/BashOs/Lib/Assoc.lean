import Mathlib.Data.List.Basic

/-!
Association lists read with `List.lookup`: the first pair of a key is the one that counts.
-/

namespace BashOs.Lib
open List

section
variable {α β : Type} [BEq α] [LawfulBEq α] {pairs : List (α × β)}

theorem lookup_cons_ne {a key : α} (other : a ≠ key) (b : β) (rest : List (α × β)) :
    ((key, b) :: rest).lookup a = rest.lookup a := by
  rw [lookup_cons, beq_eq_false_iff_ne.2 other]

theorem mem_keys_iff (pairs : List (α × β)) (a : α) : a ∈ pairs.map Prod.fst ↔ (pairs.lookup a).isSome := by
  induction pairs with
  | nil => simp
  | cons pair rest ih =>
    obtain ⟨key, b⟩ := pair
    by_cases same : a = key
    · subst same
      simp
    · rw [lookup_cons_ne same]
      simp [same]

theorem mem_iff_lookup (distinct : (pairs.map Prod.fst).Nodup) (a : α) (b : β) :
    (a, b) ∈ pairs ↔ pairs.lookup a = some b := by
  induction pairs with
  | nil => simp
  | cons pair rest ih =>
    obtain ⟨key, value⟩ := pair
    rw [map_cons, nodup_cons] at distinct
    by_cases same : a = key
    · subst same
      have alone : (a, b) ∉ rest := fun member => distinct.1 (mem_map.2 ⟨(a, b), member, rfl⟩)
      simp [alone, eq_comm]
    · rw [lookup_cons_ne same, mem_cons, ih distinct.2]
      simp [same]

theorem lookup_filter (keep : α → Bool) (pairs : List (α × β)) (a : α) :
    (pairs.filter fun pair => keep pair.1).lookup a = if keep a then pairs.lookup a else none := by
  induction pairs with
  | nil => simp
  | cons pair rest ih =>
    obtain ⟨key, b⟩ := pair
    by_cases same : a = key
    · subst same
      cases kept : keep a with
      | true => simp [kept]
      | false => simp [kept, ih]
    · rw [lookup_cons_ne same, ← ih]
      cases kept : keep key with
      | true => simp [kept, lookup_cons_ne same]
      | false => simp [kept]

omit [BEq α] [LawfulBEq α] in
theorem nodup_keys_filter (distinct : (pairs.map Prod.fst).Nodup) (keep : α × β → Bool) :
    ((pairs.filter keep).map Prod.fst).Nodup :=
  (filter_sublist.map Prod.fst).nodup distinct

end

end BashOs.Lib

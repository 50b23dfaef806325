import Mathlib.Data.Set.Finite.Basic
import Mathlib.Order.WellFounded

/-!
Ancestry in a finite graph without cycles: what two sides have in common, and the best of it, which nothing else
they have in common leads to.
-/

namespace BashOs.Lib
open Relation List

section Ancestry
variable {α : Type} (parents : α → List α)

def Reaches : α → α → Prop := ReflTransGen fun x y => y ∈ parents x

def Descends : α → α → Prop := TransGen fun x y => y ∈ parents x

def Common (one : α) (twos : List α) (x : α) : Prop :=
  Reaches parents one x ∧ ∃ two ∈ twos, Reaches parents two x

def Best (one : α) (twos : List α) (x : α) : Prop :=
  Common parents one twos x ∧ ∀ y, Common parents one twos y → ¬ Descends parents y x

structure Acyclic (nodes : Finset α) : Prop where
  closed : ∀ x ∈ nodes, ∀ y ∈ parents x, y ∈ nodes
  loopless : ∀ x ∈ nodes, ¬ Descends parents x x

variable {parents} {nodes : Finset α} {one : α} {twos : List α}

section
variable (graph : Acyclic parents nodes)
include graph

theorem Reaches.mem {x y : α} (path : Reaches parents x y) (inside : x ∈ nodes) : y ∈ nodes := by
  induction path with
  | refl => exact inside
  | tail _ link ih => exact graph.closed _ ih _ link

theorem Common.mem (inside : one ∈ nodes) {x : α} (common : Common parents one twos x) : x ∈ nodes :=
  Reaches.mem graph common.1 inside

theorem descends_wellFounded : WellFounded fun x y : nodes => Descends parents x.val y.val := by
  have : IsTrans nodes fun x y => Descends parents x.val y.val := ⟨fun _ _ _ before after => before.trans after⟩
  have : Std.Irrefl fun x y : nodes => Descends parents x.val y.val := ⟨fun x => graph.loopless x.val x.property⟩
  exact Finite.wellFounded_of_trans_of_irrefl _

theorem Common.exists_best (inside : one ∈ nodes) {x : α}
    (common : Common parents one twos x) : ∃ y, Best parents one twos y ∧ Reaches parents y x := by
  let above : Set nodes := { y | Common parents one twos y.val ∧ Reaches parents y.val x }
  have here : (⟨x, common.mem graph inside⟩ : nodes) ∈ above := ⟨common, .refl⟩
  obtain ⟨y, ⟨shared, path⟩, first⟩ := (descends_wellFounded graph).has_min above ⟨_, here⟩
  refine ⟨y.val, ⟨shared, ?_⟩, path⟩
  intro z also down
  exact first ⟨z, also.mem graph inside⟩ ⟨also, down.to_reflTransGen.trans path⟩ down

theorem best_iff_of_common (inside : one ∈ nodes) (itself : Common parents one twos one) (x : α) :
    Best parents one twos x ↔ x = one := by
  constructor
  · intro best
    rcases reflTransGen_iff_eq_or_transGen.1 best.1.1 with same | down
    · exact same
    · exact absurd down (best.2 one itself)
  · rintro rfl
    refine ⟨itself, fun y also down => ?_⟩
    exact graph.loopless x inside (TransGen.trans_right also.1 down)

end

end Ancestry

section Sieve
variable {α : Type} (below : α → α → Option Bool)

/-- The elements of a list that lie below none of the others: each in turn is compared with those kept so far and
those still to come. -/
def sieve : List α → List α → Option (List α)
  | kept, [] => some kept
  | kept, x :: rest => do
    if ← (kept ++ rest).anyM (below x) then sieve kept rest else sieve (kept ++ [x]) rest

variable {below}

theorem anyM_eq_some {test : α → Option Bool} {holds : α → Prop} (xs : List α)
    (exact : ∀ x ∈ xs, ∃ b, test x = some b ∧ (b = true ↔ holds x)) :
    ∃ b, xs.anyM test = some b ∧ (b = true ↔ ∃ x ∈ xs, holds x) := by
  induction xs with
  | nil => exact ⟨false, rfl, by simp⟩
  | cons x xs ih =>
    obtain ⟨b, ran, means⟩ := exact x (.head _)
    cases b with
    | true =>
      refine ⟨true, by simp [ran], ?_⟩
      exact ⟨fun _ => ⟨x, .head _, means.1 rfl⟩, fun _ => rfl⟩
    | false =>
      obtain ⟨c, later, rest⟩ := ih fun y member => exact y (.tail _ member)
      refine ⟨c, by simp [ran, later], rest.trans ?_⟩
      have not : ¬ holds x := fun h => Bool.false_ne_true (means.2 h)
      simp [not]

/-- Where the sieve stands over a list: nothing kept lies below what is left, and what was dropped does. -/
structure Sieved (order : α → α → Prop) (whole kept rest : List α) : Prop where
  distinct : (kept ++ rest).Nodup
  inside : ∀ x ∈ kept ++ rest, x ∈ whole
  dropped : ∀ x ∈ whole, x ∈ kept ++ rest ∨ ∃ y ∈ kept ++ rest, order x y
  maximal : ∀ x ∈ kept, ∀ y ∈ kept ++ rest, ¬ order x y

namespace Sieved
open List
variable {order : α → α → Prop} {whole kept rest : List α} {x : α}

theorem keep (now : Sieved order whole kept (x :: rest)) (loopless : ¬ order x x)
    (free : ¬ ∃ y ∈ kept ++ rest, order x y) : Sieved order whole (kept ++ [x]) rest := by
  have same : kept ++ [x] ++ rest = kept ++ x :: rest := by simp
  refine ⟨same ▸ now.distinct, same ▸ now.inside, same ▸ now.dropped, ?_⟩
  intro y member z other below
  rw [same] at other
  rcases mem_append.1 member with old | new
  · exact now.maximal y old z other below
  obtain rfl := mem_singleton.1 new
  rcases mem_cons.1 (perm_middle.mem_iff.1 other) with rfl | left
  · exact loopless below
  · exact free ⟨z, left, below⟩

theorem drop (now : Sieved order whole kept (x :: rest)) (trans : ∀ a b c, order a b → order b c → order a c)
    (found : ∃ y ∈ kept ++ rest, order x y) : Sieved order whole kept rest := by
  obtain ⟨y, listed, below⟩ := found
  have middle {z : α} : z ∈ kept ++ x :: rest ↔ z = x ∨ z ∈ kept ++ rest := perm_middle.mem_iff.trans mem_cons
  refine ⟨?_, fun z member => now.inside z (middle.2 (.inr member)), ?_, fun z member w other => ?_⟩
  · exact (nodup_middle.1 now.distinct).of_cons
  · intro z member
    rcases now.dropped z member with left | ⟨w, left, order'⟩
    · rcases middle.1 left with rfl | left
      · exact .inr ⟨y, listed, below⟩
      · exact .inl left
    · rcases middle.1 left with rfl | left
      · exact .inr ⟨y, listed, trans _ _ _ order' below⟩
      · exact .inr ⟨w, left, order'⟩
  · exact now.maximal z member w (middle.2 (.inr other))

theorem mem_iff (done : Sieved order whole kept []) (trans : ∀ a b c, order a b → order b c → order a c) (x : α) :
    x ∈ kept ↔ x ∈ whole ∧ ∀ y ∈ whole, ¬ order x y := by
  have kept' : kept ++ [] = kept := append_nil kept
  constructor
  · intro member
    refine ⟨done.inside x (kept'.symm ▸ member), fun y other below => ?_⟩
    rcases done.dropped y other with left | ⟨z, left, above⟩
    · exact done.maximal x member y left below
    · exact done.maximal x member z left (trans _ _ _ below above)
  · rintro ⟨member, maximal⟩
    rcases done.dropped x member with left | ⟨y, left, below⟩
    · exact kept' ▸ left
    · exact absurd below (maximal y (done.inside y left))

end Sieved

theorem sieve_exact (order : α → α → Prop) {whole : List α} (distinct : whole.Nodup)
    (loopless : ∀ x ∈ whole, ¬ order x x) (trans : ∀ a b c, order a b → order b c → order a c)
    (exact : ∀ x ∈ whole, ∀ y ∈ whole, x ≠ y → ∃ b, below x y = some b ∧ (b = true ↔ order x y)) :
    ∃ kept, sieve below [] whole = some kept ∧ kept.Nodup ∧ ∀ x, x ∈ kept ↔ x ∈ whole ∧ ∀ y ∈ whole, ¬ order x y := by
  suffices run : ∀ rest kept, Sieved order whole kept rest →
      ∃ last, sieve below kept rest = some last ∧ Sieved order whole last [] by
    have start : Sieved order whole [] whole := ⟨distinct, fun _ member => member, fun _ member => .inl member, nofun⟩
    obtain ⟨last, ran, done⟩ := run whole [] start
    exact ⟨last, ran, by simpa using done.distinct, done.mem_iff trans⟩
  intro rest
  induction rest with
  | nil => exact fun kept done => ⟨kept, rfl, done⟩
  | cons x rest ih =>
    intro kept now
    have here : x ∈ whole := now.inside x (mem_append_right _ (.head _))
    have apart := nodup_cons.1 (nodup_middle.1 now.distinct)
    obtain ⟨b, ran, means⟩ := anyM_eq_some (kept ++ rest) fun y member => exact x here y
        (now.inside y (perm_middle.mem_iff.2 (.tail _ member))) (fun same => apart.1 (same ▸ member))
    cases b with
    | true =>
      obtain ⟨last, later, done⟩ := ih kept (now.drop trans (means.1 rfl))
      exact ⟨last, by simp [sieve, ran, later], done⟩
    | false =>
      have free : ¬ ∃ y ∈ kept ++ rest, order x y := fun found => Bool.false_ne_true (means.2 found)
      obtain ⟨last, later, done⟩ := ih (kept ++ [x]) (now.keep (loopless x here) free)
      exact ⟨last, by simp [sieve, ran, later], done⟩

end Sieve

end BashOs.Lib

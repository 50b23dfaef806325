import BashOs.Lib.Bytes

/-!
The patterns of ignore rules. A star stops at a slash and two do not, but two take whole directories only. Whether a
second star is read as one depends on what stands before it: it may end a pair, follow a backslash or stand in
brackets.
-/

namespace BashOs.Git.Ignore
open BashOs.Lib List Bool

/-- The loop over a bracket expression: whether it has the byte, and how much of it there was if it is closed. -/
def wildClass (c : UInt8) : Bool → Bool → Nat → Bytes → Option (Bool × Nat)
  | _, _, _, [] => none
  | first, matched, read, x :: 0x2d :: high :: rest =>
    if x = 0x5d && !first then some (matched, read + 1)
    else if high = 0x5d then wildClass c false (matched || x = c) (read + 1) (0x2d :: high :: rest)
    else wildClass c false (matched || x ≤ c && c ≤ high) (read + 3) rest
  | first, matched, read, x :: rest =>
    if x = 0x5d && !first then some (matched, read + 1) else wildClass c false (matched || x = c) (read + 1) rest

/-- A bracket expression behind its bracket: whether it takes the byte, and its length if it is closed. -/
def wildBracket (c : UInt8) (rest : Bytes) : Option (Bool × Nat) :=
  if rest.head? = some 0x21 || rest.head? = some 0x5e then
    (wildClass c true false 1 rest.tail).map fun (matched, read) => (!matched, read)
  else wildClass c true false 0 rest

/-- Where a star goes on. -/
def starPoints : Bytes → List Bytes
  | [] => [[]]
  | c :: s => (c :: s) :: if c = 0x2f then [] else starPoints s

def afterSlashes : Bytes → List Bytes
  | [] => []
  | c :: s => if c = 0x2f then s :: afterSlashes s else afterSlashes s

/-- `bgit_wild` -/
def wild : Bytes → Bytes → Bool
  | [], s => s = []
  | 0x2a :: 0x2a :: rest, s =>
    let rest := if rest.head? = some 0x2f then rest.tail else rest
    rest = [] || (s :: afterSlashes s).any (wild rest)
  | 0x2a :: rest, s => (starPoints s).any (wild rest)
  | 0x3f :: rest, s =>
    match s with
    | [] => false
    | c :: s => c ≠ 0x2f && wild rest s
  | 0x5b :: rest, s =>
    match s with
    | [] => false
    | c :: s =>
      match wildBracket c rest with
      | none => false
      | some (taken, read) => c ≠ 0x2f && taken && wild (rest.drop read) s
  | 0x5c :: x :: rest, s => s.head? = some x && wild rest s.tail
  | x :: rest, s => s.head? = some x && wild rest s.tail
termination_by pattern => pattern.length
decreasing_by all_goals grind

/-! ## Patterns in front of a star -/

/-- A pattern that is read to its end, whatever comes behind it, with no star alone there. -/
inductive Whole : Bytes → Prop
  | nil : Whole []
  | byte {c : UInt8} {rest : Bytes} (plain : c ≠ 0x2a ∧ c ≠ 0x5b ∧ c ≠ 0x5c) (whole : Whole rest) : Whole (c :: rest)
  | escape {c : UInt8} {rest : Bytes} (whole : Whole rest) : Whole (0x5c :: c :: rest)
  | star {c : UInt8} {rest : Bytes} (plain : c ≠ 0x2a) (whole : Whole (c :: rest)) : Whole (0x2a :: c :: rest)
  | stars {rest : Bytes} (whole : Whole rest) : Whole (0x2a :: 0x2a :: rest)
  | bracket {body rest : Bytes} (closed : ∀ c, ∃ taken, ∀ more, wildBracket c (body ++ more) = some (taken, body.length))
      (whole : Whole rest) : Whole (0x5b :: (body ++ rest))

/-- Having read such a pattern, the matcher stands at this rest of a text. -/
inductive Reads : Bytes → Bytes → Bytes → Prop
  | nil {s : Bytes} : Reads [] s s
  | byte {c x : UInt8} {rest s t : Bytes} (plain : c ≠ 0x2a ∧ c ≠ 0x5b ∧ c ≠ 0x5c)
      (here : if c = 0x3f then x ≠ 0x2f else x = c) (reads : Reads rest s t) : Reads (c :: rest) (x :: s) t
  | escape {c : UInt8} {rest s t : Bytes} (reads : Reads rest s t) : Reads (0x5c :: c :: rest) (c :: s) t
  | star {c : UInt8} {rest s t point : Bytes} (plain : c ≠ 0x2a) (start : point ∈ starPoints s)
      (reads : Reads (c :: rest) point t) : Reads (0x2a :: c :: rest) s t
  | stars {rest s t point : Bytes} (start : point ∈ s :: afterSlashes s)
      (reads : Reads (if rest.head? = some 0x2f then rest.tail else rest) point t) : Reads (0x2a :: 0x2a :: rest) s t
  | bracket {c : UInt8} {body rest s t : Bytes} (name : c ≠ 0x2f)
      (taken : ∀ more, wildBracket c (body ++ more) = some (true, body.length)) (reads : Reads rest s t) :
      Reads (0x5b :: (body ++ rest)) (c :: s) t

theorem wild_byte {c : UInt8} (plain : c ≠ 0x2a ∧ c ≠ 0x5b ∧ c ≠ 0x5c) (rest s : Bytes) :
    wild (c :: rest) s ↔ ∃ x t, s = x :: t ∧ (if c = 0x3f then x ≠ 0x2f else x = c) ∧ wild rest t := by
  obtain ⟨star, bracket, escape⟩ := plain
  by_cases any : c = 0x3f
  · subst any
    cases s <;> simp [wild]
  · cases s <;> simp [wild, any, star, escape]

theorem wild_star {rest : Bytes} (alone : rest.head? ≠ some 0x2a) (s : Bytes) :
    wild (0x2a :: rest) s = (starPoints s).any (wild rest) := by
  rw [wild]
  rintro more rfl
  exact alone rfl

theorem Whole.strip {rest : Bytes} (whole : Whole rest) :
    Whole (if rest.head? = some 0x2f then rest.tail else rest) := by
  split
  next slash =>
    obtain ⟨rest, rfl⟩ := head?_eq_some_iff.1 slash
    cases whole with
    | byte plain whole => exact whole
  · exact whole

theorem wild_bracket {body : Bytes} {c : UInt8} {taken : Bool}
    (reads : ∀ more, wildBracket c (body ++ more) = some (taken, body.length)) (more s : Bytes) :
    wild (0x5b :: (body ++ more)) (c :: s) = (c ≠ 0x2f && taken && wild more s) := by
  simp [wild, reads]

section
variable {front more : Bytes} (unended : more ≠ [] ∧ more.head? ≠ some 0x2f)
include unended

/-- The slash behind two stars is the pattern's own. -/
theorem strip_append (rest : Bytes) :
    (if (rest ++ more).head? = some 0x2f then (rest ++ more).tail else rest ++ more) =
      (if rest.head? = some 0x2f then rest.tail else rest) ++ more := by
  cases rest with
  | nil => simp [unended.2]
  | cons c rest =>
    by_cases slash : c = 0x2f
    · simp [slash]
    · simp [slash]

theorem wild_stars_append (rest s : Bytes) : wild (0x2a :: 0x2a :: (rest ++ more)) s =
    (s :: afterSlashes s).any (wild ((if rest.head? = some 0x2f then rest.tail else rest) ++ more)) := by
  rw [wild, strip_append unended]
  simp [unended.1]

theorem wild_of_reads {s t : Bytes} (reads : Reads front s t) (matched : wild more t) : wild (front ++ more) s := by
  induction reads with
  | nil => exact matched
  | byte plain here reads ih => exact (wild_byte plain _ _).2 ⟨_, _, rfl, here, ih matched⟩
  | escape reads ih => simpa [wild] using ih matched
  | star plain start reads ih =>
    rw [cons_append, wild_star (by simpa using plain)]
    exact any_eq_true.2 ⟨_, start, ih matched⟩
  | stars start reads ih =>
    rw [cons_append, cons_append, wild_stars_append unended]
    exact any_eq_true.2 ⟨_, start, ih matched⟩
  | bracket name taken reads ih =>
    rw [cons_append, append_assoc, wild_bracket taken, ih matched]
    simpa using name

theorem reads_of_wild (whole : Whole front) {s : Bytes} (matched : wild (front ++ more) s) :
    ∃ t, Reads front s t ∧ wild more t := by
  induction long : front.length using Nat.strong_induction_on generalizing front s with
  | _ n ih =>
  subst long
  cases whole with
  | nil => exact ⟨s, .nil, matched⟩
  | byte plain whole =>
    obtain ⟨x, t, rfl, here, rest⟩ := (wild_byte plain _ _).1 matched
    obtain ⟨u, reads, last⟩ := ih _ (by simp) whole rest rfl
    exact ⟨u, .byte plain here reads, last⟩
  | @escape c rest whole =>
    simp only [cons_append, wild, and_eq_true] at matched
    obtain ⟨s, rfl⟩ := head?_eq_some_iff.1 (of_decide_eq_true matched.1)
    obtain ⟨u, reads, last⟩ := ih _ (by simp only [length_cons]; omega) whole matched.2 rfl
    exact ⟨u, .escape reads, last⟩
  | star plain whole =>
    rw [cons_append, wild_star (by simpa using plain)] at matched
    obtain ⟨point, start, matched⟩ := any_eq_true.1 matched
    obtain ⟨u, reads, last⟩ := ih _ (by simp) whole matched rfl
    exact ⟨u, .star plain start reads, last⟩
  | @stars rest whole =>
    rw [cons_append, cons_append, wild_stars_append unended] at matched
    obtain ⟨point, start, matched⟩ := any_eq_true.1 matched
    have shorter : (if rest.head? = some 0x2f then rest.tail else rest).length < (0x2a :: 0x2a :: rest).length := by
      simp only [length_cons]
      split
      · rw [length_tail]; omega
      · omega
    obtain ⟨u, reads, last⟩ := ih _ shorter whole.strip matched rfl
    exact ⟨u, .stars start reads, last⟩
  | @bracket body rest closed whole =>
    cases s with
    | nil => simp [wild] at matched
    | cons c s =>
      obtain ⟨taken, reads⟩ := closed c
      rw [cons_append, append_assoc, wild_bracket reads, and_eq_true, and_eq_true] at matched
      obtain ⟨u, goes, last⟩ := ih _ (by simp only [length_cons, length_append]; omega) whole matched.2 rfl
      exact ⟨u, .bracket (of_decide_eq_true matched.1.1) (matched.1.2 ▸ reads) goes, last⟩

end

/-! ## What a second star does -/

theorem starPoints_slash {s t : Bytes} (point : 0x2f :: t ∈ starPoints s) : t ∈ afterSlashes s := by
  induction s with
  | nil => simp [starPoints] at point
  | cons c s ih => grind [starPoints, afterSlashes]

theorem self_mem_starPoints (s : Bytes) : s ∈ starPoints s := by
  cases s <;> simp [starPoints]

theorem wild_star_of_wild {q s : Bytes} (alone : q.head? ≠ some 0x2a) (matched : wild q s) : wild (0x2a :: q) s := by
  rw [wild_star alone]
  exact any_eq_true.2 ⟨s, self_mem_starPoints s, matched⟩

/-- Nothing, or a slash, so that two stars in front of it take what one takes. -/
def EndsName (q : Bytes) : Prop := q = [] ∨ q.head? = some 0x2f

theorem wild_double {q s : Bytes} (next : EndsName q) (matched : wild (0x2a :: q) s) : wild (0x2a :: 0x2a :: q) s := by
  obtain rfl | slash := next
  · simp [wild]
  obtain ⟨q, rfl⟩ := head?_eq_some_iff.1 slash
  rw [wild_star (by simp)] at matched
  obtain ⟨_, point, here⟩ := any_eq_true.1 matched
  obtain ⟨x, t, rfl, same, rest⟩ := (wild_byte (by decide) _ _).1 here
  obtain rfl : x = 0x2f := same
  have behind := starPoints_slash point
  simp only [wild, or_eq_true]
  exact .inr (any_eq_true.2 ⟨t, mem_cons_of_mem _ behind, rest⟩)

/-- A star more in front of a pattern takes no less: a star that is not followed by one can take nothing, and two are as
good as one where a name ends. -/
def Widens (q : Bytes) : Prop := q.head? ≠ some 0x2a ∨ ∃ r, q = 0x2a :: r ∧ EndsName r

theorem wild_widened {q s : Bytes} (widens : Widens q) (matched : wild q s) : wild (0x2a :: q) s := by
  obtain alone | ⟨r, rfl, next⟩ := widens
  · exact wild_star_of_wild alone matched
  · exact wild_double next matched

/-- What stands before the star, where the pattern in front of that is read to its end: nothing, a star, a
backslash, or a bracket that is open. -/
inductive Keeps (front q s : Bytes) : Bytes → Prop
  | star (next : EndsName q) : Keeps front q s []
  | stars (next : q.head? ≠ some 0x2f) (widens : Widens q) : Keeps front q s [0x2a]
  | escape (widens : Widens q) : Keeps front q s [0x5c]
  | bracket (body : Bytes) (same : ∀ c t read, Reads front s (c :: t) →
      wildBracket c (body ++ 0x2a :: q) = some (true, read) → wild ((body ++ 0x2a :: q).drop read) t →
      body.length < read ∧ wildBracket c (body ++ 0x2a :: 0x2a :: q) = some (true, read + 1)) :
      Keeps front q s (0x5b :: body)

theorem exists_last_name (s : Bytes) : ∃ t ∈ s :: afterSlashes s, wild [0x2a] t := by
  induction s with
  | nil => exact ⟨[], mem_cons_self, by simp [wild, starPoints]⟩
  | cons c s ih =>
    obtain ⟨t, member, matched⟩ := ih
    by_cases slash : c = 0x2f
    · exact ⟨t, by simp only [afterSlashes, if_pos slash]; exact mem_cons_of_mem _ member, matched⟩
    obtain rfl | behind := mem_cons.1 member
    · refine ⟨c :: t, mem_cons_self, ?_⟩
      rw [wild_star (by simp)] at matched ⊢
      simp only [starPoints, if_neg slash, any_cons, matched, Bool.or_true]
    · exact ⟨t, by simp only [afterSlashes, if_neg slash]; exact mem_cons_of_mem _ behind, matched⟩

theorem wild_kept {front tail q s t : Bytes} (keeps : Keeps front q s tail) (reads : Reads front s t)
    (matched : wild (tail ++ 0x2a :: q) t) : wild (tail ++ 0x2a :: 0x2a :: q) t := by
  cases keeps with
  | star next => exact wild_double next matched
  | stars next widens =>
    rw [singleton_append, wild, if_neg next, or_eq_true] at matched
    rw [singleton_append, wild, if_neg (by simp), or_eq_true]
    refine .inr (any_eq_true.2 ?_)
    obtain none | found := matched
    · rw [of_decide_eq_true none]
      exact exists_last_name t
    · obtain ⟨u, point, here⟩ := any_eq_true.1 found
      exact ⟨u, point, wild_widened widens here⟩
  | escape widens =>
    simp only [singleton_append, wild, and_eq_true] at matched ⊢
    exact ⟨matched.1, wild_widened widens matched.2⟩
  | bracket body same =>
    cases t with
    | nil => simp [wild] at matched
    | cons c t =>
      simp only [cons_append, wild] at matched ⊢
      split at matched
      · cases matched
      next taken read closed =>
        rw [and_eq_true, and_eq_true] at matched
        obtain ⟨⟨name, rfl⟩, rest⟩ := matched
        obtain ⟨past, wide⟩ := same c t read reads closed rest
        obtain ⟨k, rfl⟩ := Nat.exists_eq_add_of_lt past
        rw [wide]
        have drops : (body ++ 0x2a :: 0x2a :: q).drop (body.length + k + 1 + 1) =
            (body ++ 0x2a :: q).drop (body.length + k + 1) := by
          rw [show body.length + k + 1 + 1 = body.length + (k + 2) from rfl, drop_length_add_append,
            show body.length + k + 1 = body.length + (k + 1) from rfl, drop_length_add_append]
          rfl
        dsimp only
        rw [drops, rest]
        simpa using name

end BashOs.Git.Ignore

import Mathlib.Data.List.Basic

/-!
Loops over a list. An invariant speaks of the elements already done and of the state; a step that keeps it
carries it to the end of the loop. A loop that runs until its body says so has a measure besides, and ends when as
many turns are allowed as the measure says. A loop that only counts how long a test holds is a scan.
-/

namespace BashOs.Lib
open List Option

section
variable {α σ : Type}

theorem foldlM_invariant (Inv : List α → σ → Prop) {step : σ → α → Option σ} {xs : List α} {s t : σ}
    (ran : xs.foldlM step s = some t) (start : Inv [] s)
    (keeps : ∀ done x rest s t, xs = done ++ x :: rest → Inv done s → step s x = some t → Inv (done ++ [x]) t) :
    Inv xs t := by
  suffices run : ∀ done rest s, xs = done ++ rest → Inv done s → rest.foldlM step s = some t → Inv xs t from
    run [] xs s rfl start ran
  intro done rest
  induction rest generalizing done with
  | nil =>
    intro s whole holds ended
    rw [append_nil] at whole
    cases ended
    exact whole ▸ holds
  | cons x rest ih =>
    intro s whole holds ended
    obtain ⟨u, stepped, ended⟩ := bind_eq_some_iff.1 ended
    exact ih (done ++ [x]) u (by simpa using whole) (keeps done x rest s u whole holds stepped) ended

theorem foldl_invariant (Inv : List α → σ → Prop) {step : σ → α → σ} {xs : List α} {s : σ} (start : Inv [] s)
    (keeps : ∀ done x rest s, xs = done ++ x :: rest → Inv done s → Inv (done ++ [x]) (step s x)) :
    Inv xs (xs.foldl step s) := by
  have ran : xs.foldlM (fun s x => some (step s x)) s = some (xs.foldl step s) := foldlM_pure
  refine foldlM_invariant Inv ran start fun done x rest s t whole holds stepped => ?_
  cases stepped
  exact keeps done x rest s whole holds

end

theorem mem_of_mapM {α β : Type} {f : α → Option β} {xs : List α} {ys : List β} {y : β} (ran : xs.mapM f = some ys)
    (member : y ∈ ys) : ∃ x ∈ xs, f x = some y := by
  induction xs generalizing ys with
  | nil =>
    cases ran
    cases member
  | cons x rest ih =>
    rw [mapM_cons] at ran
    obtain ⟨first, done, ran⟩ := bind_eq_some_iff.1 ran
    obtain ⟨others, more, same⟩ := bind_eq_some_iff.1 ran
    cases same
    obtain rfl | later := mem_cons.1 member
    · exact ⟨x, .head _, done⟩
    · obtain ⟨x', inside, done'⟩ := ih more later
      exact ⟨x', .tail _ inside, done'⟩

theorem mem_of_mapM_ok {α β ε : Type} {f : α → Except ε β} {xs : List α} {ys : List β} {y : β}
    (ran : xs.mapM f = .ok ys)
    (member : y ∈ ys) : ∃ x ∈ xs, f x = .ok y := by
  induction xs generalizing ys with
  | nil =>
    cases ran
    cases member
  | cons x rest ih =>
    rw [mapM_cons] at ran
    cases done : f x with
    | error e =>
      rw [done] at ran
      cases ran
    | ok first =>
      cases more : rest.mapM f with
      | error e =>
        rw [done, more] at ran
        cases ran
      | ok others =>
        rw [done, more] at ran
        cases ran
        obtain rfl | later := mem_cons.1 member
        · exact ⟨x, .head _, done⟩
        · obtain ⟨x', inside, done'⟩ := ih more later
          exact ⟨x', .tail _ inside, done'⟩

/-! ## Loops that run until they are done -/

section
variable {σ : Type}

def repeatUntil (body : σ → Option (ForInStep σ)) : Nat → σ → Option σ
  | 0, _ => none
  | turns + 1, s =>
    match body s with
    | none => none
    | some (.done t) => some t
    | some (.yield t) => repeatUntil body turns t

def Turns (Inv Post : σ → Prop) (measure : σ → Nat) (before : σ) : ForInStep σ → Prop
  | .done after => Post after
  | .yield after => Inv after ∧ measure after < measure before

theorem repeatUntil_spec {body : σ → Option (ForInStep σ)} (Inv Post : σ → Prop) (measure : σ → Nat)
    (step : ∀ s, Inv s → ∃ turn, body s = some turn ∧ Turns Inv Post measure s turn) {turns : Nat} {s : σ}
      (holds : Inv s)
    (enough : measure s < turns) : ∃ t, repeatUntil body turns s = some t ∧ Post t := by
  induction turns generalizing s with
  | zero => exact absurd enough (Nat.not_lt_zero _)
  | succ turns ih =>
    obtain ⟨turn, ran, turned⟩ := step s holds
    rw [repeatUntil, ran]
    cases turn with
    | done t => exact ⟨t, rfl, turned⟩
    | yield t => exact ih turned.1 (Nat.lt_of_lt_of_le turned.2 (Nat.lt_succ_iff.1 enough))

end

/-! ## Scans -/

/-- For how many numbers from `first` on a test holds, at most `bound` of them. -/
def scanFrom (test : Nat → Bool) (first : Nat) : Nat → Nat
  | 0 => 0
  | bound + 1 => if test first then scanFrom test (first + 1) bound + 1 else 0

def scan (test : Nat → Bool) (bound : Nat) : Nat := scanFrom test 0 bound

section
variable {test : Nat → Bool} {bound : Nat}

theorem scanFrom_spec (first bound : Nat) :
    scanFrom test first bound ≤ bound ∧ (∀ k < scanFrom test first bound, test (first + k) = true) ∧
      (scanFrom test first bound < bound → test (first + scanFrom test first bound) = false) := by
  induction bound generalizing first with
  | zero => exact ⟨Nat.le_refl 0, nofun, fun less => absurd less (Nat.lt_irrefl 0)⟩
  | succ bound ih =>
    obtain ⟨within, holds, stops⟩ := ih (first + 1)
    rw [scanFrom]
    split
    next here =>
      refine ⟨Nat.succ_le_succ within, fun k below => ?_, fun less => ?_⟩
      · cases k with
        | zero => exact here
        | succ k =>
          have later := holds k (Nat.lt_of_succ_lt_succ below)
          rwa [Nat.add_right_comm] at later
      · have ended := stops (Nat.lt_of_succ_lt_succ less)
        rwa [Nat.add_right_comm] at ended
    next fails => exact ⟨Nat.zero_le _, nofun, fun _ => by simpa using fails⟩

theorem scan_le : scan test bound ≤ bound := (scanFrom_spec 0 bound).1

theorem scan_holds {k : Nat} (below : k < scan test bound) : test k = true := by
  have holds := (scanFrom_spec 0 bound).2.1 k below
  rwa [Nat.zero_add] at holds

theorem scan_stops (less : scan test bound < bound) : test (scan test bound) = false := by
  have stops := (scanFrom_spec 0 bound).2.2 less
  rwa [Nat.zero_add] at stops

theorem scan_pos (some : 0 < bound) (first : test 0 = true) : 0 < scan test bound := by
  refine Nat.pos_of_ne_zero fun none => ?_
  have stops := scan_stops (none.symm ▸ some)
  rw [none, first] at stops
  cases stops

theorem scan_eq {count : Nat} (within : count ≤ bound) (holds : ∀ k < count, test k = true)
    (stops : count < bound → test count = false) : scan test bound = count := by
  obtain less | same | more := Nat.lt_trichotomy (scan test bound) count
  · have here := holds _ less
    rw [scan_stops (Nat.lt_of_lt_of_le less within)] at here
    cases here
  · exact same
  · have here := scan_holds more
    rw [stops (Nat.lt_of_lt_of_le more scan_le)] at here
    cases here

end

end BashOs.Lib

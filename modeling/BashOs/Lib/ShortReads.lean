import BashOs.Lib.Bytes

/-!
A stream that arrives in pieces, and a buffer that is filled from it. Each read answers with what has arrived, or with
as much of it as there is room for; it may be interrupted before anything has. However the stream is cut, a buffer
that asks for some bytes gets them if the stream has that many left, and what is in hand and what is still to come are
together what they were.
-/

namespace BashOs.Lib
open List

inductive Arrival where
  | interrupted
  | data (first : UInt8) (more : Bytes)

def Arrival.bytes : Arrival → Bytes
  | .interrupted => []
  | .data first more => first :: more

def streamBytes (source : List Arrival) : Bytes := source.flatMap Arrival.bytes

def leftOver (bytes : Bytes) (source : List Arrival) : List Arrival :=
  match bytes with
  | [] => source
  | first :: more => .data first more :: source

def readsLeft (source : List Arrival) : Nat := (source.map fun arrival => arrival.bytes.length + 1).sum

@[simp] theorem streamBytes_nil : streamBytes [] = [] := rfl

@[simp] theorem streamBytes_data (first : UInt8) (more : Bytes) (source : List Arrival) :
    streamBytes (.data first more :: source) = first :: more ++ streamBytes source := rfl

@[simp] theorem streamBytes_leftOver (bytes : Bytes) (source : List Arrival) :
    streamBytes (leftOver bytes source) = bytes ++ streamBytes source := by
  cases bytes with
  | nil => rfl
  | cons first more => rfl

theorem readsLeft_leftOver_le (bytes : Bytes) (source : List Arrival) :
    readsLeft (leftOver bytes source) ≤ bytes.length + 1 + readsLeft source := by
  cases bytes with
  | nil =>
    rw [leftOver]
    omega
  | cons first more => simp [leftOver, readsLeft, Arrival.bytes]

theorem readsLeft_read {room : Nat} (some : 0 < room) (first : UInt8) (more : Bytes) (source : List Arrival) :
    readsLeft (leftOver ((first :: more).drop room) source) < readsLeft (.data first more :: source) := by
  have bound := readsLeft_leftOver_le ((first :: more).drop room) source
  have whole : readsLeft (.data first more :: source) = more.length + 2 + readsLeft source := by
    simp [readsLeft, Arrival.bytes]
  rw [length_drop, length_cons] at bound
  omega

/-! ### Room -/

def doubled (want : Nat) : Nat → Nat → Nat
  | 0, next => next
  | rounds + 1, next => if next < want then doubled want rounds (next * 2) else next

theorem le_doubled (want rounds next : Nat) (positive : 0 < next) (enough : want ≤ next + rounds) :
    want ≤ doubled want rounds next := by
  induction rounds generalizing next with
  | zero => exact enough
  | succ rounds ih =>
    rw [doubled]
    split
    · exact ih (next * 2) (by omega) (by omega)
    next reached => exact not_lt.1 reached

/-- The capacity of a buffer that is to take `block` bytes more. -/
def grown (block first cap len : Nat) : Nat :=
  if len + block > cap then doubled (len + block) (len + block) (if cap = 0 then first else cap * 2) else cap

theorem le_grown (block first cap len : Nat) (positive : 0 < first) : len + block ≤ grown block first cap len := by
  rw [grown]
  split
  · apply le_doubled
    · split <;> omega
    · exact Nat.le_add_left _ _
  next enough => exact not_lt.1 enough

/-! ### Filling -/

/-- What a buffer and its stream have come to: whether the buffer has what was wanted, what it holds, its capacity,
and what is still to come. -/
structure Filled where
  ok : Bool
  held : Bytes
  cap : Nat
  source : List Arrival

/-- Read until `want` bytes are held or the stream ends, in at most as many turns as are given. -/
def fillLoop (block first want : Nat) : Nat → Bytes → Nat → List Arrival → Filled
  | 0, held, cap, source => { ok := decide (want ≤ held.length), held, cap, source }
  | turns + 1, held, cap, source =>
    if want ≤ held.length then { ok := true, held, cap, source }
    else
      let cap := grown block first cap held.length
      match source with
      | [] => { ok := false, held, cap, source := [] }
      | .interrupted :: rest => fillLoop block first want turns held cap rest
      | .data byte more :: rest =>
        let room := cap - held.length
        fillLoop block first want turns (held ++ (byte :: more).take room) cap
          (leftOver ((byte :: more).drop room) rest)

/-- Nothing is lost, and the loop stops short of what was wanted only when nothing is left to come. -/
theorem fillLoop_spec {block first : Nat} (positive : 0 < block) (positive' : 0 < first) (want turns : Nat)
    (held : Bytes) (cap : Nat) (source : List Arrival) (enough : readsLeft source < turns) :
    let after := fillLoop block first want turns held cap source
    after.held ++ streamBytes after.source = held ++ streamBytes source ∧ (after.ok ↔ want ≤ after.held.length) ∧
      (after.ok = false → streamBytes after.source = []) := by
  induction turns generalizing held cap source with
  | zero => omega
  | succ turns ih =>
    rw [fillLoop]
    split
    next reached => exact ⟨rfl, iff_of_true rfl reached, fun short => by cases short⟩
    rename_i short
    split
    · exact ⟨rfl, iff_of_false Bool.false_ne_true short, fun _ => rfl⟩
    next rest =>
      simp only [readsLeft, Arrival.bytes, map_cons, sum_cons] at enough ih
      exact ih held _ rest (by omega)
    next byte more rest =>
      have wide := le_grown block first cap held.length positive'
      have room : 0 < grown block first cap held.length - held.length := by omega
      have fewer := readsLeft_read room byte more rest
      obtain ⟨whole, done, ended⟩ := ih (held ++ (byte :: more).take (grown block first cap held.length - held.length))
        (grown block first cap held.length)
        (leftOver ((byte :: more).drop (grown block first cap held.length - held.length)) rest) (by omega)
      refine ⟨?_, done, ended⟩
      rw [whole, streamBytes_leftOver, streamBytes_data, append_assoc, ← append_assoc (take _ _), take_append_drop]

end BashOs.Lib

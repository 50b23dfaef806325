import Mathlib.Logic.Basic

/-!
A store whose keys are computed from the values. Putting a value in where its key is taken changes nothing, so what
is read back is the value only if no other known value has the key. Which values are known is a parameter: no
statement here is about values that are never stored.
-/

namespace BashOs.Lib.ContentStore

section
variable {Key Value : Type} [DecidableEq Key] (name : Value → Option Key)

def put (store : Key → Option Value) (value : Value) : Option (Key × (Key → Option Value)) :=
  (name value).map fun key => (key, fun other => if other = key then (store key).or (some value) else store other)

def putAll (store : Key → Option Value) : List Value → Option (Key → Option Value)
  | [] => some store
  | value :: rest => (put name store value).bind fun (_, after) => putAll after rest

structure Apart (known : Value → Prop) : Prop where
  named : ∀ value, known value → (name value).isSome
  apart : ∀ key a b, known a → known b → name a = some key → name b = some key → a = b

def Within (known : Value → Prop) (store : Key → Option Value) : Prop :=
  ∀ key value, store key = some value → known value ∧ name value = some key

end

def Grows {Key Value : Type} (store after : Key → Option Value) : Prop :=
  ∀ key value, store key = some value → after key = some value

section
variable {Key Value : Type} {store mid after : Key → Option Value}

theorem Grows.refl (store : Key → Option Value) : Grows store store := fun _ _ found => found

theorem Grows.trans (first : Grows store mid) (second : Grows mid after) : Grows store after :=
  fun key value found => second key value (first key value found)

variable [DecidableEq Key] {name : Value → Option Key} {known : Value → Prop} {key : Key} {value : Value}
  {values : List Value}

section
variable (done : put name store value = some (key, after))
include done

theorem put_name : name value = some key := by
  obtain ⟨key', same, done⟩ := Option.map_eq_some_iff.1 done
  cases done
  exact same

theorem put_grows : Grows store after := by
  obtain ⟨key', -, done⟩ := Option.map_eq_some_iff.1 done
  cases done
  intro other held found
  dsimp only
  split
  next same => rw [← same, found]; rfl
  · exact found

end

theorem put_held (done : put name store value = some (key, after)) (found : after other = some held) :
    store other = some held ∨ held = value ∧ name value = some other := by
  obtain ⟨key', named, done⟩ := Option.map_eq_some_iff.1 done
  cases done
  dsimp only at found
  split at found
  next here =>
    subst here
    cases taken : store other with
    | none =>
      rw [taken] at found
      cases found
      exact .inr ⟨rfl, named⟩
    | some old =>
      rw [taken] at found
      exact .inl found
  · exact .inl found

theorem put_within (inside : Within name known store) (member : known value)
    (done : put name store value = some (key, after)) : Within name known after := by
  intro other held found
  obtain old | ⟨rfl, same⟩ := put_held done found
  · exact inside other held old
  · exact ⟨member, same⟩

section
variable (unlike : Apart name known)
include unlike

theorem put_read (inside : Within name known store) (member : known value)
    (done : put name store value = some (key, after)) : after key = some value := by
  have named := put_name done
  obtain ⟨key', -, done⟩ := Option.map_eq_some_iff.1 done
  cases done
  dsimp only
  rw [if_pos rfl]
  cases taken : store key with
  | none => rfl
  | some old =>
    obtain ⟨met, same⟩ := inside key old taken
    rw [unlike.apart key old value met member same named]
    rfl

theorem put_isSome (store : Key → Option Value) (member : known value) :
    ∃ key after, put name store value = some (key, after) := by
  obtain ⟨key, named⟩ := Option.isSome_iff_exists.1 (unlike.named value member)
  exact ⟨key, _, by simp [put, named]; rfl⟩

theorem putAll_reads (inside : Within name known store) (members : ∀ value ∈ values, known value) :
    ∃ after, putAll name store values = some after ∧ Grows store after ∧ Within name known after ∧
      ∀ value ∈ values, ∃ key, name value = some key ∧ after key = some value := by
  induction values generalizing store with
  | nil => exact ⟨store, rfl, .refl store, inside, by simp⟩
  | cons first rest ih =>
    have member := members first (by simp)
    obtain ⟨key, mid, done⟩ := put_isSome unlike store member
    obtain ⟨after, ran, grows, within, reads⟩ :=
      ih (put_within inside member done) fun value there => members value (by simp [there])
    refine ⟨after, by simp [putAll, done, ran], (put_grows done).trans grows, within, fun value there => ?_⟩
    cases there with
    | head => exact ⟨key, put_name done, grows key first (put_read unlike inside member done)⟩
    | tail _ there => exact reads value there

end

theorem putAll_mem (ran : putAll name store values = some after) (found : after key = some value) :
    store key = some value ∨ value ∈ values := by
  induction values generalizing store with
  | nil =>
    cases ran
    exact .inl found
  | cons first rest ih =>
    obtain ⟨⟨key', mid⟩, done, ran⟩ := Option.bind_eq_some_iff.1 ran
    obtain held | member := ih ran
    · obtain old | ⟨rfl, -⟩ := put_held done held
      · exact .inl old
      · exact .inr List.mem_cons_self
    · exact .inr (List.mem_cons_of_mem _ member)

end

end BashOs.Lib.ContentStore

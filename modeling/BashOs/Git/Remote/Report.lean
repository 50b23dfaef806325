import BashOs.Git.Remote.Packet
import BashOs.Git.Remote.Receive

/-!
What `git receive-pack` answers. The report is put together in a buffer, and a line that does not fit is left out.
-/

namespace BashOs.Git.Remote
open BashOs.Lib BashOs.Git.Refs List

abbrev Answers := List (PushCommand × Option Refusal)

def answerLine (answer : PushCommand × Option Refusal) : Bytes :=
  match answer.2 with
  | some reason => ascii "ng " ++ answer.1.name ++ 0x20 :: ascii reason.text ++ [0x0a]
  | none => ascii "ok " ++ answer.1.name ++ [0x0a]

/-- `git_pkt_into`, in the 65000 bytes of the report. -/
def pktInto (buf text : Bytes) : Bytes :=
  if 65000 ≤ buf.length + text.length + 4 then buf else buf ++ hexLength (text.length + 4) ++ text

def report (answers : Answers) : Bytes :=
  let lines := (ascii "unpack ok\n" :: answers.map fun answer => (answerLine answer).take 4299).foldl pktInto []
  if lines.length + 4 < 65000 then lines ++ ascii "0000" else lines

/-- How much is said aside of branches that are checked out; nothing where another text would start behind the 8192
bytes there are for it. -/
def asideLength (answers : Answers) : Option Nat :=
  answers.foldlM (fun length answer =>
    if answer.2 ≠ some .checkedOut then some length
    else if 8192 < length then none
    else some (length + (ascii "error: refusing to update checked out branch: \n").length + answer.1.name.length)) 0

/-- What the far end is sent as the report, if no buffer was left on the way. -/
def sendReport (sideBand : Bool) (answers : Answers) : Option Bytes :=
  (asideLength answers).bind fun length => if sideBand ∧ 8192 < length then none else some (report answers)

/-- The packets that answer each command once. -/
def fullReport (answers : Answers) : List PktSent :=
  .packet (ascii "unpack ok\n") :: answers.map (.packet ∘ answerLine) ++ [.flush]

def framed (text : Bytes) : Bytes := hexLength (text.length + 4) ++ text

theorem length_pktInto {lines : List Bytes} {buf : Bytes} (short : buf.length < 65000) :
    (lines.foldl pktInto buf).length < 65000 := by
  induction lines generalizing buf with
  | nil => exact short
  | cons line lines ih =>
    apply ih
    unfold pktInto
    split
    · exact short
    · simp only [length_append, length_hexLength]
      omega

theorem foldl_pktInto {lines : List Bytes} {buf : Bytes} (fits : (buf ++ lines.flatMap framed).length < 65000) :
    lines.foldl pktInto buf = buf ++ lines.flatMap framed := by
  induction lines generalizing buf with
  | nil => exact (append_nil buf).symm
  | cons line lines ih =>
    rw [flatMap_cons, ← append_assoc] at fits ⊢
    have room : pktInto buf line = buf ++ framed line := by
      rw [pktInto, if_neg, framed, append_assoc]
      rw [framed] at fits
      simp only [length_append, length_hexLength] at fits
      omega
    rw [foldl_cons, room, ih fits]

theorem writeAll_framed {lines : List Bytes} (short : ∀ line ∈ lines, line.length < 4300) :
    writeAll (lines.map .packet ++ [.flush]) = some (lines.flatMap framed ++ ascii "0000") := by
  induction lines with
  | nil => rfl
  | cons line lines ih =>
    obtain ⟨first, rest⟩ := forall_mem_cons.1 short
    have sent : pktWrite line = some (framed line) := if_neg (by rw [packetMax]; omega)
    rw [map_cons, cons_append, writeAll, ih rest, PktSent.write, sent]
    simp

section
variable {far : Receiver} {disk : RefDisk} {stored : Bool} {packets : Packets} {answers : Answers}

theorem runCommands_answers (head : Option Bytes) (disk : RefDisk) (commands : List PushCommand) :
    (runCommands far head disk commands).2.map Prod.fst = commands := by
  induction commands generalizing disk with
  | nil => rfl
  | cons command rest ih => exact congrArg (command :: ·) (ih _)

theorem receivePack_answers (ran : (receivePack far disk stored packets).2 = some answers) :
    answers.map Prod.fst = pushCommands packets := by
  unfold receivePack at ran
  dsimp only at ran
  split at ran
  · cases ran
  · cases ran
    exact runCommands_answers _ _ _

theorem length_answerLine (ran : (receivePack far disk stored packets).2 = some answers) : ∀ answer ∈ answers,
    (answerLine answer).length < 4300 := by
  intro answer member
  have command : answer.1 ∈ pushCommands packets := receivePack_answers ran ▸ mem_map_of_mem member
  obtain ⟨packet, -, read⟩ := mem_filterMap.1 command
  unfold pushCommand at read
  split at read
  · cases read
  have name : answer.1.name.length ≤ 4095 := by
    rw [← Option.some.inj read]
    dsimp only [commandName]
    split
    · exact length_take_le _ _
    · exact Nat.le_trans (takeWhile_sublist _).length_le (length_take_le _ _)
  have reason : ∀ reason : Refusal, (ascii reason.text).length ≤ 31 := by
    rintro (_ | _ | _ | _ | _) <;> decide +kernel
  unfold answerLine
  split
  next said _ =>
    have := reason said
    have word : (ascii "ng ").length = 3 := by decide +kernel
    simp only [length_append, length_cons, length_nil]
    omega
  · have word : (ascii "ok ").length = 3 := by decide +kernel
    simp only [length_append, length_cons, length_nil]
    omega

theorem report_eq (ran : (receivePack far disk stored packets).2 = some answers) :
    writeAll (fullReport answers) = some (report answers) ↔
      18 + ((answers.map answerLine).flatMap framed).length < 65000 := by
  have short := length_answerLine ran
  have cut : (answers.map fun answer => (answerLine answer).take 4299) = answers.map answerLine :=
    map_congr_left fun answer member => take_of_length_le (Nat.le_of_lt_succ (short answer member))
  have full : writeAll (fullReport answers) =
      some ((ascii "unpack ok\n" :: answers.map answerLine).flatMap framed ++ ascii "0000") := by
    rw [← writeAll_framed, map_cons, map_map]
    · rfl
    · rw [forall_mem_cons, forall_mem_map]
      exact ⟨by decide +kernel, short⟩
  have first : (framed (ascii "unpack ok\n")).length = 14 := by decide +kernel
  have mark : (ascii "0000").length = 4 := by decide +kernel
  have size : ((ascii "unpack ok\n" :: answers.map answerLine).flatMap framed).length =
      14 + ((answers.map answerLine).flatMap framed).length := by
    rw [flatMap_cons, length_append, first]
  unfold report
  rw [full, cut, Option.some.injEq]
  dsimp only
  constructor
  · intro same
    have less : (foldl pktInto [] (ascii "unpack ok\n" :: answers.map answerLine)).length < 65000 :=
      length_pktInto (by decide)
    have long := congrArg length same
    rw [length_append, size, mark] at long
    split at long
    · rw [length_append, mark] at long
      omega
    · omega
  · intro fits
    have whole : (ascii "unpack ok\n" :: answers.map answerLine).foldl pktInto [] = _ :=
      foldl_pktInto (by rw [nil_append, size]; omega)
    rw [whole, nil_append, if_pos (by omega)]

/-- The report answers each command once and ends with a flush packet if and only if it fits into its buffer, and
what is said of branches that are checked out into its own. -/
theorem report_complete_iff (sideBand : Bool) (ran : (receivePack far disk stored packets).2 = some answers) :
    answers.map Prod.fst = pushCommands packets ∧
      ((∃ sent, sendReport sideBand answers = some sent ∧ writeAll (fullReport answers) = some sent) ↔
        (∃ length, asideLength answers = some length ∧ (sideBand = true → length ≤ 8192)) ∧
          18 + ((answers.map answerLine).flatMap framed).length < 65000) := by
  refine ⟨receivePack_answers ran, ?_⟩
  rw [← report_eq ran, sendReport]
  cases asideLength answers with
  | none => simp
  | some length =>
    cases sideBand with
    | false => simp
    | true =>
      by_cases left : 8192 < length
      · simp [left]
      · simp [left, Nat.not_lt.1 left]

end

/-- A push of two refs that are not where the sender last saw them. -/
theorem report_complete_refused : ∃ packets answers, answers.length = 2 ∧
    (receivePack bareRoot noRefs true packets).2 = some answers ∧
    ∃ sent, sendReport true answers = some sent ∧ writeAll (fullReport answers) = some sent := by
  have ran : (receivePack bareRoot noRefs true [(ones ++ 0x20 :: ones ++ 0x20 :: [0x61], []),
        (ones ++ 0x20 :: ones ++ 0x20 :: [0x62], [])]).2 =
      some [(⟨ones, ones, [0x61]⟩, some .fetchFirst), (⟨ones, ones, [0x62]⟩, some .fetchFirst)] := by decide +kernel
  exact ⟨_, _, rfl, ran, (report_complete_iff true ran).2.2 ⟨⟨0, by decide +kernel, by decide⟩, by decide +kernel⟩⟩

theorem four_le_framed (lines : List Bytes) : lines.length * 4 ≤ (lines.flatMap framed).length := by
  induction lines with
  | nil => exact Nat.le_refl _
  | cons line lines ih =>
    rw [flatMap_cons, length_append, framed, length_append, length_hexLength, length_cons]
    omega

theorem report_loses_answers : ∃ packets answers, (receivePack bareRoot noRefs true packets).2 = some answers ∧
    ¬ ∃ sent, sendReport false answers = some sent ∧ writeAll (fullReport answers) = some sent := by
  have one := @pushCommand_create [0x61] (by decide) (by decide) []
  have commands (n : Nat) : (pushCommands (replicate n (createPacket [0x61], []))).length = n := by
    simp only [pushCommands, filterMap_replicate, one, length_replicate]
  obtain ⟨packets, many⟩ : ∃ packets, (pushCommands packets).length = 17000 := ⟨_, commands 17000⟩
  obtain ⟨answers, ran⟩ : ∃ answers, (receivePack bareRoot noRefs true packets).2 = some answers := by
    simp [receivePack]
  refine ⟨packets, answers, ran, ?_⟩
  rintro ⟨sent, given, full⟩
  have same : report answers = sent := by
    obtain ⟨_, -, given⟩ := Option.bind_eq_some_iff.1 given
    simpa using given
  have fits := (report_eq ran).1 (same ▸ full)
  have long := four_le_framed (answers.map answerLine)
  have each := congrArg length (receivePack_answers ran)
  rw [length_map] at long each
  omega

end BashOs.Git.Remote

import BashOs.Lib.ShortReads
import BashOs.Git.Store.Links

/-!
Packets on a wire: four hexadecimal digits give a packet's length, themselves included, and lengths too short to be one
are marks. The reader keeps what it has read and not yet used in a buffer and reads more when it needs it.
-/

namespace BashOs.Git.Remote
open BashOs.Lib List Option

/-! ## Writing -/

def packetMax : Nat := 65520

/-- `%04x`, of a number that four digits hold -/
def hexLength (n : Nat) : Bytes :=
  [hexDigit (n / 4096 % 16), hexDigit (n / 256 % 16), hexDigit (n / 16 % 16), hexDigit (n % 16)]

/-- `bgit_pkt_write`, answering what it puts on the wire -/
def pktWrite (payload : Bytes) : Option Bytes :=
  if payload.length + 4 > packetMax then none else some (hexLength (payload.length + 4) ++ payload)

/-- `bgit_pkt_write_band`. A packet goes out even when there is nothing to say. -/
def pktWriteBand (channel : UInt8) (data : Bytes) : Option Bytes :=
  let take := min data.length (packetMax - 4 - 1)
  match pktWrite (channel :: data.take take) with
  | none => none
  | some packet =>
    if data.drop take = [] then some packet else (pktWriteBand channel (data.drop take)).map (packet ++ ·)
termination_by data.length
decreasing_by
  rename_i more
  have some : 0 < data.length := length_pos_of_ne_nil fun none => more (by rw [none, drop_nil])
  rw [length_drop, packetMax]
  omega

inductive PktSent where
  | packet (payload : Bytes)
  | flush
  | delim

/-- `bgit_pkt_write`, `bgit_pkt_flush` and `bgit_pkt_delim` -/
def PktSent.write : PktSent → Option Bytes
  | .packet payload => pktWrite payload
  | .flush => some (ascii "0000")
  | .delim => some (ascii "0001")

def writeAll : List PktSent → Option Bytes
  | [] => some []
  | first :: rest => first.write.bind fun packet => (writeAll rest).map (packet ++ ·)

/-! ## Reading -/

/-- The buffer of `bgit_pkt_reader` up to `len`, how much of it is used, its capacity, and what is still to be read. A
reader over memory has no descriptor to read from. -/
structure PktReader where
  held : Bytes
  used : Nat
  cap : Nat
  live : Bool
  source : List Arrival

def PktReader.fromFd (source : List Arrival) : PktReader := { held := [], used := 0, cap := 0, live := true, source }

def PktReader.fromMemory (data : Bytes) : PktReader :=
  { held := data, used := 0, cap := 0, live := false, source := [] }

def pktFill (reader : PktReader) (want : Nat) : Bool × PktReader :=
  if want ≤ reader.held.length - reader.used then (true, reader)
  else if reader.live = false then (false, reader)
  else
    -- room is made by dropping what has been used
    let after := fillLoop 8192 16384 want (readsLeft reader.source + 1) (reader.held.drop reader.used) reader.cap
      reader.source
    (after.ok, { reader with held := after.held, used := 0, cap := after.cap, source := after.source })

def pktHex (four : Bytes) : Option Nat :=
  four.foldlM (fun value c => (hexAnyCase c).map fun digit => value * 16 + digit) 0

/-- What `bgit_pkt_read` answers -/
inductive Got where
  | packet (payload : Bytes)
  | flush
  | delim
  | finish
  | eof
  | error
deriving DecidableEq

def pktRead (reader : PktReader) : Got × PktReader :=
  match pktFill reader 4 with
  | (false, reader) => (if reader.used = reader.held.length then .eof else .error, reader)
  | (true, reader) =>
    match pktHex ((reader.held.drop reader.used).take 4) with
    | none => (.error, reader)
    | some length =>
      if length = 1 then (.delim, { reader with used := reader.used + 4 })
      else if length = 2 then (.finish, { reader with used := reader.used + 4 })
      else if length = 3 then (.error, reader)
      else if length = 0 then (.flush, { reader with used := reader.used + 4 })
      else
        match pktFill reader length with
        | (false, reader) => (.error, reader)
        | (true, reader) =>
          (.packet ((reader.held.drop (reader.used + 4)).take (length - 4)),
            { reader with used := reader.used + length })

def readPackets : Nat → PktReader → List Got
  | 0, _ => []
  | calls + 1, reader => (pktRead reader).1 :: readPackets calls (pktRead reader).2

/-! ## The buffer -/

def PktReader.rest (reader : PktReader) : Bytes := reader.held.drop reader.used ++ streamBytes reader.source

structure PktReader.Ok (reader : PktReader) : Prop where
  inside : reader.used ≤ reader.held.length
  memory : reader.live = false → reader.source = []

variable {reader : PktReader} {packet : Bytes} {sent : List PktSent} {n : Nat} {stream : Bytes}

/-- The bytes that are wanted are in hand afterwards, unless fewer are left. -/
theorem pktFill_spec (ok : reader.Ok) (want : Nat) : ∃ after : PktReader, after.Ok ∧ after.rest = reader.rest ∧
    (pktFill reader want = (true, after) ∧ want ≤ (after.held.drop after.used).length ∨
      pktFill reader want = (false, after) ∧ reader.rest.length < want ∧ after.held.drop after.used = reader.rest) := by
  rw [pktFill]
  split
  next enough => exact ⟨reader, ok, rfl, .inl ⟨rfl, by rwa [length_drop]⟩⟩
  rename_i short
  split
  next memory =>
    have rest : reader.rest = reader.held.drop reader.used := by
      rw [PktReader.rest, ok.memory memory, streamBytes_nil, append_nil]
    refine ⟨reader, ok, rfl, .inr ⟨rfl, ?_, rest.symm⟩⟩
    rw [rest, length_drop]
    exact not_le.1 short
  rename_i live
  obtain ⟨whole, done, ended⟩ := fillLoop_spec (show 0 < 8192 by decide) (show 0 < 16384 by decide) want
    (readsLeft reader.source + 1) (reader.held.drop reader.used) reader.cap reader.source (Nat.lt_succ_self _)
  generalize fillLoop _ _ _ _ _ _ _ = filled at *
  refine ⟨{ reader with held := filled.held, used := 0, cap := filled.cap, source := filled.source },
    ⟨Nat.zero_le _, fun memory => (live memory).elim⟩, whole, ?_⟩
  cases answer : filled.ok with
  | true => exact .inl ⟨Prod.ext answer rfl, done.1 answer⟩
  | false =>
    rw [ended answer, append_nil] at whole
    refine .inr ⟨Prod.ext answer rfl, ?_, whole⟩
    rw [PktReader.rest, ← whole]
    exact not_le.1 fun enough => by simp [done.2 enough] at answer

/-! ## A packet at a time -/

theorem pktHex_hexLength (n : Nat) (small : n < 65536) : pktHex (hexLength n) = some n := by
  have digit (k : Nat) : hexAnyCase (hexDigit (k % 16)) = some (k % 16) :=
    hexAnyCase_of_hexValue (hexValue_hexDigit _ (Nat.mod_lt _ (by decide)))
  simp [pktHex, hexLength, digit, Option.some.injEq]
  omega

theorem length_hexLength (n : Nat) : (hexLength n).length = 4 := rfl

def PktSent.got : PktSent → Got
  | .packet payload => .packet payload
  | .flush => .flush
  | .delim => .delim

/-- What `bgit_pkt_read` makes of bytes that are all there: its answer, and the bytes that are left. -/
def packetOf (bytes : Bytes) : Got × Bytes :=
  if bytes.length < 4 then (if bytes = [] then .eof else .error, bytes)
  else
    match pktHex (bytes.take 4) with
    | none => (.error, bytes)
    | some length =>
      if length = 1 then (.delim, bytes.drop 4)
      else if length = 2 then (.finish, bytes.drop 4)
      else if length = 3 then (.error, bytes)
      else if length = 0 then (.flush, bytes.drop 4)
      else if bytes.length < length then (.error, bytes)
      else (.packet ((bytes.take length).drop 4), bytes.drop length)

theorem packetOf_sent {sent : PktSent} (written : sent.write = some packet) (back : Bytes) :
    packetOf (packet ++ back) = (sent.got, back) := by
  cases sent with
  | packet payload =>
    rw [PktSent.write, pktWrite] at written
    split at written
    · cases written
    rename_i fits
    cases written
    have small : payload.length + 4 < 65536 := by
      rw [packetMax] at fits
      omega
    have long : (hexLength (payload.length + 4) ++ payload).length = payload.length + 4 := by
      rw [length_append, length_hexLength, add_comm]
    have digits : (hexLength (payload.length + 4) ++ payload ++ back).take 4 = hexLength (payload.length + 4) := by
      rw [append_assoc, take_left' (length_hexLength _)]
    rw [packetOf, digits, pktHex_hexLength _ small, length_append, long, if_neg (by omega)]
    dsimp only
    rw [if_neg (by omega), if_neg (by omega), if_neg (by omega), if_neg (by omega), if_neg (by omega), take_left' long,
      drop_left' long, drop_left' (length_hexLength _)]
    rfl
  | flush =>
    cases written
    simp [packetOf, ascii, PktSent.got, show pktHex [0x30, 0x30, 0x30, 0x30] = some 0 by decide]
  | delim =>
    cases written
    simp [packetOf, ascii, PktSent.got, show pktHex [0x30, 0x30, 0x30, 0x31] = some 1 by decide]

section
variable (ok : reader.Ok)
include ok

theorem PktReader.Ok.skip (enough : n ≤ (reader.held.drop reader.used).length) :
    ({ reader with used := reader.used + n } : PktReader).Ok ∧
      ({ reader with used := reader.used + n } : PktReader).rest = reader.rest.drop n ∧
      (reader.held.drop reader.used).take n = reader.rest.take n ∧ n ≤ reader.rest.length := by
  have inside := ok.inside
  rw [PktReader.rest, PktReader.rest, drop_append_of_le_length enough, drop_drop,
    take_append_of_le_length enough, length_append]
  refine ⟨⟨?_, ok.memory⟩, rfl, rfl, Nat.le_add_right_of_le enough⟩
  rw [length_drop] at enough
  dsimp only
  omega

/-- What a reader answers depends on the bytes that are left alone, in hand or still to come. -/
theorem pktRead_eq : (pktRead reader).1 = (packetOf reader.rest).1 ∧ (pktRead reader).2.Ok ∧
    (pktRead reader).2.rest = (packetOf reader.rest).2 := by
  obtain ⟨after, kept, same, ⟨filled, here⟩ | ⟨filled, short, all⟩⟩ := pktFill_spec ok 4
  · obtain ⟨kept', left, digits, enough⟩ := kept.skip here
    rw [same] at left digits enough
    rw [pktRead, packetOf, filled, if_neg (not_lt.2 enough), ← digits]
    dsimp only
    split
    next => exact ⟨rfl, kept, same⟩
    next length _ =>
      split
      · exact ⟨rfl, kept', left⟩
      split
      · exact ⟨rfl, kept', left⟩
      split
      · exact ⟨rfl, kept, same⟩
      split
      · exact ⟨rfl, kept', left⟩
      obtain ⟨last, kept, same', ⟨filled, here⟩ | ⟨filled, short, -⟩⟩ := pktFill_spec kept length
      · obtain ⟨kept', left, payload, enough⟩ := kept.skip here
        rw [same', same] at left payload enough
        rw [filled, if_neg (not_lt.2 enough), ← payload, drop_take, drop_drop]
        exact ⟨rfl, kept', left⟩
      · rw [same] at short same'
        rw [filled, if_pos short]
        exact ⟨rfl, kept, same'⟩
  · have used : after.used = after.held.length ↔ reader.rest = [] := by
      rw [← all, drop_eq_nil_iff]
      exact ⟨Nat.le_of_eq ∘ Eq.symm, le_antisymm kept.inside⟩
    rw [pktRead, packetOf, filled, if_pos short]
    simp only [used]
    exact ⟨trivial, kept, same⟩

theorem readPackets_writeAll (written : writeAll sent = some stream)
    (whole : reader.rest = stream) : readPackets (sent.length + 1) reader = sent.map PktSent.got ++ [.eof] := by
  induction sent generalizing reader stream with
  | nil =>
    cases written
    obtain ⟨got, -, -⟩ := pktRead_eq ok
    rw [whole] at got
    simp [readPackets, got, packetOf]
  | cons first rest ih =>
    obtain ⟨packet, one, more⟩ := bind_eq_some_iff.1 written
    obtain ⟨others, wrote, rfl⟩ := map_eq_some_iff.1 more
    obtain ⟨got, ok', left⟩ := pktRead_eq ok
    rw [whole, packetOf_sent one] at got left
    rw [length_cons, readPackets, got, ih ok' wrote left]
    rfl

theorem readPackets_congr {other : PktReader} (ok' : other.Ok) (same : reader.rest = other.rest) (calls : Nat) :
    readPackets calls reader = readPackets calls other := by
  induction calls generalizing reader other with
  | zero => rfl
  | succ calls ih =>
    obtain ⟨got, kept, left⟩ := pktRead_eq ok
    obtain ⟨got', kept', left'⟩ := pktRead_eq ok'
    rw [← same] at got' left'
    rw [readPackets, readPackets, got, got', ih kept kept' (left.trans left'.symm)]

end

/-- Whatever the bytes are, packets or not, and however they arrive: a reader of a stream answers each call as one does
that has them all in memory. -/
theorem packets_from_memory (source : List Arrival) (calls : Nat) :
    readPackets calls (.fromFd source) = readPackets calls (.fromMemory (streamBytes source)) := by
  refine readPackets_congr ⟨Nat.zero_le _, fun memory => by cases memory⟩ ⟨Nat.zero_le _, fun _ => rfl⟩ ?_ calls
  simp [PktReader.rest, PktReader.fromFd, PktReader.fromMemory]

/-! ## Bands -/

theorem write_of_writeAll (written : writeAll sent = some stream) {one : PktSent}
    (inside : one ∈ sent) : ∃ packet, one.write = some packet := by
  induction sent generalizing stream with
  | nil => cases inside
  | cons first rest ih =>
    obtain ⟨packet, here, more⟩ := bind_eq_some_iff.1 written
    obtain ⟨others, more, -⟩ := map_eq_some_iff.1 more
    obtain rfl | later := mem_cons.1 inside
    · exact ⟨packet, here⟩
    · exact ih more later

theorem length_pktWrite (written : pktWrite payload = some packet) : packet.length ≤ packetMax := by
  rw [pktWrite] at written
  split at written
  · cases written
  cases written
  rw [length_append, length_hexLength]
  omega

theorem pktWriteBand_parts (channel : UInt8) (data : Bytes) :
    ∃ parts : List Bytes, parts.flatten = data ∧ ∃ band, pktWriteBand channel data = some band ∧
      writeAll (parts.map fun part => .packet (channel :: part)) = some band := by
  induction long : data.length using Nat.strong_induction_on generalizing data with
  | _ n ih =>
    generalize size : min data.length (packetMax - 4 - 1) = take
    have fits : ¬ (channel :: data.take take).length + 4 > packetMax := by
      rw [length_cons, length_take]
      rw [packetMax] at size ⊢
      omega
    have written : pktWrite (channel :: data.take take) =
        some (hexLength ((channel :: data.take take).length + 4) ++ channel :: data.take take) := by
      rw [pktWrite, if_neg fits]
    rw [pktWriteBand]
    simp only [size, written]
    generalize hexLength ((channel :: data.take take).length + 4) ++ channel :: data.take take = packet at written ⊢
    split
    next last =>
      have whole : data.take take = data := take_of_length_le (drop_eq_nil_iff.1 last)
      rw [whole] at written
      exact ⟨[data], by simp, packet, rfl, by simp [writeAll, PktSent.write, written]⟩
    rename_i more
    have shorter : (data.drop take).length < n := by
      have some : 0 < data.length := length_pos_of_ne_nil fun none => more (by rw [none, drop_nil])
      rw [length_drop]
      rw [packetMax] at size
      omega
    obtain ⟨parts, joined, band, same, wrote⟩ := ih _ shorter (data.drop take) rfl
    refine ⟨data.take take :: parts, by rw [flatten_cons, joined, take_append_drop], packet ++ band, ?_, ?_⟩
    · rw [same, map_some]
    · simp [writeAll, PktSent.write, written, wrote]

/-! ## Framing -/

/-- What is written as packets, flushes and delimiters is read back as such, however the stream is cut into reads; and
data of any length goes out on a channel in packets that are short enough and hold it, one part after the other. -/
theorem packets_read_back (sent : List PktSent) (stream : Bytes) (written : writeAll sent = some stream)
    (source : List Arrival) (cut : streamBytes source = stream) (channel : UInt8) (data : Bytes) :
    readPackets (sent.length + 1) (PktReader.fromFd source) = sent.map PktSent.got ++ [.eof] ∧
      ∃ parts : List Bytes, parts.flatten = data ∧
        (∀ part ∈ parts, ∃ packet, pktWrite (channel :: part) = some packet ∧ packet.length ≤ 65520) ∧
        ∃ band, pktWriteBand channel data = some band ∧
          writeAll (parts.map fun part => .packet (channel :: part)) = some band := by
  constructor
  · exact readPackets_writeAll ⟨Nat.zero_le _, fun memory => by cases memory⟩ written cut
  · obtain ⟨parts, joined, band, same, wrote⟩ := pktWriteBand_parts channel data
    refine ⟨parts, joined, fun part inside => ?_, band, same, wrote⟩
    obtain ⟨packet, one⟩ := write_of_writeAll wrote (mem_map.2 ⟨part, inside, rfl⟩)
    exact ⟨packet, one, length_pktWrite one⟩

theorem packets_read_back_sample :
    readPackets 4 (PktReader.fromFd
      [.data 0x30 [0x30, 0x30], .interrupted, .data 0x36 (ascii "hi0000"), .data 0x30 (ascii "001")]) =
        [.packet (ascii "hi"), .flush, .delim, .eof] ∧
      ∃ parts : List Bytes, parts.flatten = ascii "data" ∧
        (∀ part ∈ parts, ∃ packet, pktWrite (1 :: part) = some packet ∧ packet.length ≤ 65520) ∧
        ∃ band, pktWriteBand 1 (ascii "data") = some band ∧
          writeAll (parts.map fun part => .packet (1 :: part)) = some band :=
  packets_read_back [.packet (ascii "hi"), .flush, .delim] (ascii "0006hi00000001") (by decide +kernel) _
    (by decide +kernel) 1 _

end BashOs.Git.Remote

import BashOs.Lib.Bytes
import BashOs.Lib.DigitOrder

/-!
Names as the resolver holds them: a text whose labels stand between dots, its wire form, and the canonical spelling
in which two names are compared. A label is copied out of a packet as it is, so that a dot or a NUL in one is not
told from the end of a label or of the text. Names inside the data of a record are written out in canonical form,
since that is what a signature is made over.
-/

namespace BashOs.Dns
open BashOs.Lib List

/-- `memcmp` over as many bytes as the shorter has; if those are the same, the shorter one comes first. -/
def bytesCmp : Bytes → Bytes → Ordering := lexCmp

def nameRoom : Nat := 256

def dot : UInt8 := 0x2e

def rootName : Bytes := [dot]

def canonOwner (name : Bytes) : Option Bytes :=
  if name.length + 1 > nameRoom then none
  else if name = [] ∨ name = rootName then some rootName
  else
    let lower := name.map lowerByte
    some (if lower.length > 1 ∧ lower.getLast? = some dot then lower.dropLast else lower)

def textLabels (text : Bytes) : List Bytes := (text.splitOn dot).filter (· ≠ [])

/-- The loop of `bd_name_to_wire`: each label behind its length, as long as the name fits. -/
def putLabels (room : Nat) (out : Bytes) : List Bytes → Option Bytes
  | [] => some (out ++ [0])
  | label :: rest =>
    if label.length > 255 then none
    else if out.length + 1 + label.length + 1 > room then none
    else putLabels room (out ++ UInt8.ofNat label.length :: label) rest

def nameToWire (name : Bytes) (room : Nat) : Option Bytes :=
  match canonOwner name with
  | none => none
  | some canon =>
    if canon = [] ∨ canon = rootName then if room < 1 then none else some [0]
    else putLabels room [] (textLabels canon)

def labelCount (name : Bytes) : Option Nat :=
  (canonOwner name).map fun canon => if canon = [] ∨ canon = rootName then 0 else canon.count dot + 1

def afterDot (text : Bytes) : Option Bytes :=
  match text.dropWhile (· ≠ dot) with
  | [] => none
  | _ :: rest => some rest

def dropLabels : Nat → Bytes → Option Bytes
  | 0, text => some text
  | n + 1, text => (afterDot text).bind (dropLabels n)

def suffixLabels (name : Bytes) (labels : Nat) : Option Bytes :=
  match canonOwner name with
  | none => none
  | some canon =>
    if labels = 0 then some rootName
    else
      match labelCount canon with
      | none => none
      | some total => if labels > total then none else dropLabels (total - labels) canon

def wildcardOwnerFromLabels (owner : Bytes) (labels : Nat) : Option Bytes :=
  match suffixLabels owner labels with
  | none => none
  | some suffix =>
    if suffix = rootName then some (ascii "*.")
    else
      let wildcard := ascii "*." ++ suffix
      if wildcard.length < nameRoom then some wildcard else none

/-! ## The order of names -/

/-- The labels of a name in wire form, the empty one of the root among them, for as many as there is room. -/
def wireLabels : Nat → Bytes → List Bytes
  | 0, _ => []
  | _ + 1, [] => []
  | room + 1, length :: rest =>
    if length = 0 then [[]] else rest.take length.toNat :: wireLabels room (rest.drop length.toNat)

def labelsCmp : List Bytes → List Bytes → Ordering
  | [], [] => .eq
  | [], _ :: _ => .lt
  | _ :: _, [] => .gt
  | a :: as, b :: bs =>
    match bytesCmp a b with
    | .eq => labelsCmp as bs
    | order => order

/-- `bd_name_wire_cmp`: from the root on, so from the right. -/
def nameWireCmp (a b : Bytes) : Ordering :=
  match nameToWire a nameRoom, nameToWire b nameRoom with
  | some aw, some bw =>
    let as := wireLabels 128 aw
    let bs := wireLabels 128 bw
    if as = [] ∨ bs = [] then .eq else labelsCmp as.reverse bs.reverse
  | _, _ => .eq

/-! ## Names in a packet -/

/-- The loop of `bd_decode_name`. `after` is where the name ends once a pointer has been followed, `jumps` how many
have. Each turn follows a pointer, of which there are at most ten, or adds a label to a text of less than `nameRoom`
bytes. -/
def decodeLoop (pkt : Bytes) : Nat → Nat → Nat → Option Nat → Bytes → Option (Bytes × Nat)
  | 0, _, _, _, _ => none
  | fuel + 1, pos, jumps, after, out =>
    match pkt[pos]? with
    | none => none
    | some b =>
      if b &&& 0xc0 = 0xc0 then
        match pkt[pos + 1]? with
        | none => none
        | some low =>
          let target := (b &&& 0x3f).toNat * 256 + low.toNat
          if jumps + 1 > 10 then none
          else decodeLoop pkt fuel target (jumps + 1) (some (after.getD (pos + 2))) out
      else if b &&& 0xc0 ≠ 0 then none
      else if b = 0 then some (out, after.getD (pos + 1))
      else if pos + 1 + b.toNat > pkt.length then none
      else if out.length + b.toNat + 1 ≥ nameRoom then none
      else
        let out := if out = [] then out else out ++ [dot]
        decodeLoop pkt fuel (pos + 1 + b.toNat) jumps after (out ++ (pkt.drop (pos + 1)).take b.toNat)

/-- `bd_decode_name`: the text up to a NUL in it, and where the name ends. -/
def decodeName (pkt : Bytes) (off : Nat) : Option (Bytes × Nat) :=
  (decodeLoop pkt 300 off 0 none []).map fun (text, after) => (text.takeWhile (· ≠ 0), after)

/-! ## Types -/

def typeA : Nat := 1
def typeNS : Nat := 2
def typeCNAME : Nat := 5
def typeSOA : Nat := 6
def typePTR : Nat := 12
def typeMX : Nat := 15
def typeTXT : Nat := 16
def typeAAAA : Nat := 28
def typeDNAME : Nat := 39
def typeDS : Nat := 43
def typeRRSIG : Nat := 46
def typeNSEC : Nat := 47
def typeDNSKEY : Nat := 48
def typeNSEC3 : Nat := 50
def typeNSEC3PARAM : Nat := 51
def typeSVCB : Nat := 64
def typeHTTPS : Nat := 65

def typeName (type : Nat) : Bytes :=
  if type = typeA then ascii "A"
  else if type = typeNS then ascii "NS"
  else if type = typeCNAME then ascii "CNAME"
  else if type = typeDNAME then ascii "DNAME"
  else if type = typeSOA then ascii "SOA"
  else if type = typePTR then ascii "PTR"
  else if type = typeMX then ascii "MX"
  else if type = typeTXT then ascii "TXT"
  else if type = typeAAAA then ascii "AAAA"
  else if type = typeDS then ascii "DS"
  else if type = typeRRSIG then ascii "RRSIG"
  else if type = typeNSEC then ascii "NSEC"
  else if type = typeDNSKEY then ascii "DNSKEY"
  else if type = typeNSEC3 then ascii "NSEC3"
  else if type = typeNSEC3PARAM then ascii "NSEC3PARAM"
  else if type = typeSVCB then ascii "SVCB"
  else if type = typeHTTPS then ascii "HTTPS"
  else ascii "TYPE"

/-! ## Records -/

structure RR where
  owner : Bytes
  type : Nat
  cls : Nat
  ttl : Nat
  rdata : Bytes
deriving DecidableEq, Repr

def rdataRoom : Nat := 2048

/-- `bd_rd16` and `bd_rd32` -/
def rd16 (bytes : Bytes) (off : Nat) : Nat := wordAt 2 bytes off
def rd32 (bytes : Bytes) (off : Nat) : Nat := wordAt 4 bytes off

def slice (pkt : Bytes) (start stop : Nat) : Bytes := (pkt.drop start).take (stop - start)

/-- A name in a record's data, in wire form behind what is there already, and where it ends in the packet. -/
def canonName (pkt : Bytes) (off : Nat) (out : Bytes) : Option (Bytes × Nat) :=
  match decodeName pkt off with
  | none => none
  | some (text, after) => (nameToWire text (rdataRoom - out.length)).map fun wire => (out ++ wire, after)

/-- What stands from `start` to the end of a record's data, behind what is there already. -/
def putRest (pkt : Bytes) (start stop : Nat) (out : Bytes) : Option Bytes :=
  if start > stop then none
  else if out.length + (stop - start) > rdataRoom then none
  else some (out ++ slice pkt start stop)

/-- The `switch` of `bd_collect_rrs`: the data of a record in canonical form. -/
def canonRdata (pkt : Bytes) (type off rdlen : Nat) : Option Bytes :=
  let stop := off + rdlen
  if type = typeNS ∨ type = typeCNAME ∨ type = typeDNAME ∨ type = typePTR then (canonName pkt off []).map Prod.fst
  else if type = typeMX then
    if rdlen < 3 then none else (canonName pkt (off + 2) (slice pkt off (off + 2))).map Prod.fst
  else if type = typeSOA then
    match canonName pkt off [] with
    | none => none
    | some (out, mid) =>
      match canonName pkt mid out with
      | none => none
      | some (out, tail) =>
        if tail + 20 > stop then none
        else if out.length + 20 > rdataRoom then none
        else some (out ++ slice pkt tail (tail + 20))
  else if type = typeSVCB ∨ type = typeHTTPS then
    if rdlen < 3 then none
    else
      match canonName pkt (off + 2) (slice pkt off (off + 2)) with
      | none => none
      | some (out, tail) => putRest pkt tail stop out
  else if type = typeRRSIG then
    if rdlen < 18 then none
    else
      match canonName pkt (off + 18) (slice pkt off (off + 18)) with
      | none => none
      | some (out, tail) => putRest pkt tail stop out
  else if rdlen > rdataRoom then none
  else some (slice pkt off stop)

/-- `bd_collect_rrs`: so many records from `off` on, those kept that are asked for, and where the section ends. What is
asked for is an owner and a type, or nothing for every record; signatures are kept always. -/
def collectRrs (pkt : Bytes) (wanted : Option (Bytes × Nat)) : Nat → Nat → Nat → Option (List RR × Nat)
  | 0, off, _ => some ([], off)
  | count + 1, off, room =>
    match decodeName pkt off with
    | none => none
    | some (name, off) =>
      if off + 10 > pkt.length then none
      else
        let type := rd16 pkt off
        let cls := rd16 pkt (off + 2)
        let ttl := rd32 pkt (off + 4)
        let rdlen := rd16 pkt (off + 8)
        let off := off + 10
        if off + rdlen > pkt.length then none
        else
          match canonOwner name with
          | none => none
          | some canon =>
            let want := type = typeRRSIG ∨ wanted = none ∨ wanted = some (canon, type)
            if want ∧ 0 < room then
              match canonRdata pkt type off rdlen with
              | none => none
              | some rdata =>
                (collectRrs pkt wanted count (off + rdlen) (room - 1)).map fun (rrs, stop) =>
                  (⟨canon, type, cls, ttl, rdata⟩ :: rrs, stop)
            else collectRrs pkt wanted count (off + rdlen) room

/-- `bd_skip_question` behind the header. -/
def skipQuestions (pkt : Bytes) : Nat → Nat → Option Nat
  | 0, off => some off
  | count + 1, off =>
    match decodeName pkt off with
    | none => none
    | some (_, off) => if off + 4 > pkt.length then none else skipQuestions pkt count (off + 4)

def rrMax : Nat := 64

def collectSections (pkt : Bytes) (wanted : Option (Bytes × Nat)) : Option (List RR) :=
  if pkt.length < 12 then none
  else
    match skipQuestions pkt (rd16 pkt 4) 12 with
    | none => none
    | some off =>
      match collectRrs pkt wanted (rd16 pkt 6) off rrMax with
      | none => none
      | some (answers, off) =>
        (collectRrs pkt wanted (rd16 pkt 8) off (rrMax - answers.length)).map fun (rest, _) => answers ++ rest

def collectRrset (pkt owner : Bytes) (type : Nat) : Option (List RR) :=
  match canonOwner owner with
  | none => none
  | some canon => collectSections pkt (some (canon, type))

def collectAnswerAuthority (pkt : Bytes) : Option (List RR) := collectSections pkt none

def findRrsig (rrs : List RR) (owner : Bytes) (type : Nat) : Option RR :=
  match canonOwner owner with
  | none => none
  | some canon =>
    rrs.find? fun rr => rr.type = typeRRSIG ∧ rr.owner = canon ∧ 18 ≤ rr.rdata.length ∧ rd16 rr.rdata 0 = type

def rdataName (rr : RR) : Option Bytes :=
  match decodeName rr.rdata 0 with
  | none => none
  | some (text, after) => if after ≠ rr.rdata.length then none else canonOwner text

end BashOs.Dns

import BashOs.Dns.Signature

/-!
Proofs about names that are not there. An NSEC record names the next owner in canonical order and an NSEC3 record
the next hash, and each lists the types of its own owner. `bd_negative_validate` takes them as proof that there is
no answer, and `bd_wildcard_validate` as proof that an answer was rightly made from a wildcard.
-/

namespace BashOs.Dns
open BashOs.Lib

/-! ## Reading the records -/

/-- Whether something lies strictly between two ends, the second of which may come first: then the range goes over
the end of the order. -/
def rangeCovers (cmp : Bytes → Bytes → Ordering) (owner next asked : Bytes) : Bool :=
  match cmp owner next with
  | .lt => cmp owner asked = .lt && cmp asked next = .lt
  | .gt => cmp owner asked = .lt || cmp asked next = .lt
  | .eq => false

def nsecRangeCovers (owner next qname : Bytes) : Bool := rangeCovers nameWireCmp owner next qname

/-- `bd_nsec3_range_covers_hash`, with `bd_nsec3_hash_cmp` for the order -/
def nsec3RangeCoversHash (owner next hash : Bytes) : Bool := rangeCovers bytesCmp owner next hash

def bitSet (octets : Bytes) (qtype : Nat) : Bool :=
  let low := qtype % 256
  match octets[low / 8]? with
  | none => false
  | some octet => octet.toNat &&& 0x80 >>> (low % 8) ≠ 0

/-- The loop of `bd_nsec_bitmap_has_type`, over the windows. -/
def bitmapLoop (qtype : Nat) : Nat → Int → Bytes → Bool → Option Bool
  | _, _, [], present => some present
  | 0, _, _, _ => none
  | _ + 1, _, [_], _ => none
  | fuel + 1, prev, window :: len :: rest, present =>
    if len < 1 ∨ 32 < len then none
    else if (window.toNat : Int) ≤ prev then none
    else if rest.length < len.toNat then none
    else
      let here := qtype / 256 = window.toNat ∧ bitSet (rest.take len.toNat) qtype = true
      bitmapLoop qtype fuel window.toNat (rest.drop len.toNat) (if here then true else present)

def nsecBitmapHasType (bitmap : Bytes) (qtype : Nat) : Option Bool := bitmapLoop qtype bitmap.length (-1) bitmap false

/-- `bd_nsec_parse`: the next owner, and the types. -/
def nsecParse (rr : RR) : Option (Bytes × Bytes) :=
  if rr.rdata.length < 2 then none
  else
    match decodeName rr.rdata 0 with
    | none => none
    | some (next, off) => if off ≥ rr.rdata.length then none else some (next, rr.rdata.drop off)

structure Nsec3 where
  alg : UInt8
  flags : UInt8
  iterations : Nat
  salt : Bytes
  next : Bytes
  bitmap : Bytes
deriving DecidableEq, Repr

def nsec3Parse (rr : RR) : Option Nsec3 :=
  if rr.rdata.length < 6 then none
  else
    let saltLen := (byteAt rr.rdata 4).toNat
    if 5 + saltLen + 1 > rr.rdata.length then none
    else
      let off := 5 + saltLen + 1
      let nextLen := (byteAt rr.rdata (5 + saltLen)).toNat
      if nextLen = 0 ∨ off + nextLen > rr.rdata.length then none
      else if off + nextLen ≥ rr.rdata.length then none
      else
        some ⟨byteAt rr.rdata 0, byteAt rr.rdata 1, rd16 rr.rdata 2, (rr.rdata.drop 5).take saltLen,
          (rr.rdata.drop off).take nextLen, rr.rdata.drop (off + nextLen)⟩

/-! ## Hashes -/

def base32Digit (n : Nat) : UInt8 := UInt8.ofNat (if n < 10 then 0x30 + n else 0x57 + n)

/-- The inner loop of `bd_nsec3_base32hex`: digits for as long as there are five bits. -/
def putDigits (room acc : Nat) : Nat → Nat → Bytes → Option (Nat × Bytes)
  | 0, bits, out => some (bits, out)
  | fuel + 1, bits, out =>
    if bits < 5 then some (bits, out)
    else if out.length + 1 ≥ room then none
    else putDigits room acc fuel (bits - 5) (out ++ [base32Digit (acc / 2 ^ (bits - 5) % 32)])

/-- The outer loop of `bd_nsec3_base32hex`, with what has been shifted in and how many bits of that are still to
come. -/
def base32Loop (room : Nat) : Nat → Nat → Bytes → Bytes → Option Bytes
  | acc, bits, out, [] =>
    if bits = 0 then some out
    else if out.length + 1 ≥ room then none
    else some (out ++ [base32Digit (acc * 2 ^ (5 - bits) % 2 ^ 32 % 32)])
  | acc, bits, out, b :: rest =>
    let acc := (acc * 256 + b.toNat) % 2 ^ 32
    match putDigits room acc 2 (bits + 8) out with
    | none => none
    | some (bits, out) => base32Loop room acc bits out rest

def nsec3Base32hex (bytes : Bytes) (room : Nat) : Option Bytes := base32Loop room 0 0 [] bytes

def nsec3MaxIterations : Nat := 150

def nsec3Verb (alg : UInt8) : Option (Bytes × Nat) :=
  if alg = 1 then some (ascii "sha1", 20)
  else if alg = 2 then some (ascii "sha256", 32)
  else if alg = 3 then some (ascii "sha512", 64)
  else none

variable (out : Outside)

def Outside.nsec3Round (verb : Bytes) (size : Nat) (input : Bytes) : Option Bytes :=
  if input.length > 512 then none
  else
    match out.hash verb input with
    | none => none
    | some digest => if digest.length ≠ size then none else some digest

/-- The further rounds of `bd_nsec3_hash_name`. -/
def Outside.nsec3Rounds (verb : Bytes) (size : Nat) (salt : Bytes) : Nat → Bytes → Option Bytes
  | 0, digest => some digest
  | rounds + 1, digest => (out.nsec3Round verb size (digest ++ salt)).bind (Outside.nsec3Rounds verb size salt rounds)

/-- The rounds of `bd_nsec3_hash_name` over a name in wire form. -/
def Outside.nsec3HashWire (wire : Bytes) (alg : UInt8) (salt : Bytes) (iterations : Nat) : Option Bytes :=
  if iterations > nsec3MaxIterations then none
  else
    match nsec3Verb alg with
    | none => none
    | some (verb, size) => (out.nsec3Round verb size (wire ++ salt)).bind (out.nsec3Rounds verb size salt iterations)

def Outside.nsec3HashName (name : Bytes) (alg : UInt8) (salt : Bytes) (iterations : Nat) : Option Bytes :=
  (nameToWire name nameRoom).bind fun wire => out.nsec3HashWire wire alg salt iterations

def Outside.nsec3Label (name : Bytes) (alg : UInt8) (salt : Bytes) (iterations room : Nat) : Option Bytes :=
  (out.nsec3HashName name alg salt iterations).bind fun hash => nsec3Base32hex hash room

def nsec3OwnerHashLabel (owner : Bytes) : Option Bytes :=
  let label := owner.takeWhile (· ≠ dot)
  if label.length = 0 ∨ label.length ≥ 128 then none else some label

/-! ## A reply without an answer -/

def isDenial (rr : RR) : Bool := rr.type = typeNSEC || rr.type = typeNSEC3

/-- The first loop of `bd_negative_validate` and of `bd_wildcard_validate`: each such record's set is signed. -/
def Outside.verifyDenials (rrs : List RR) (active : List Trust) (skew : Int) : List RR → Except (RR × Bytes) Unit
  | [] => .ok ()
  | rr :: rest =>
    if isDenial rr then
      match out.verifyRrset rrs rr.owner rr.type active skew with
      | .error text => .error (rr, text)
      | .ok () => Outside.verifyDenials rrs active skew rest
    else Outside.verifyDenials rrs active skew rest

/-- What an NSEC record says of a name: whether its range covers it, and whether it is the name's own and lists
neither the type nor an alias. Nothing if it cannot be read. -/
def nsecTells (qcanon : Bytes) (qtype : Nat) (rr : RR) : Option (Bool × Bool) :=
  match nsecParse rr with
  | none => none
  | some (next, bitmap) =>
    match nsecBitmapHasType bitmap qtype, nsecBitmapHasType bitmap typeCNAME with
    | some typed, some aliased => some (nsecRangeCovers rr.owner next qcanon, rr.owner = qcanon && !typed && !aliased)
    | _, _ => none

/-- `bd_negative_validate` where there are NSEC records. -/
def nsecDenies (rrs : List RR) (qname qcanon : Bytes) (qtype : Nat) : Except Bytes Bytes :=
  let told := (rrs.filter fun rr => rr.type = typeNSEC).map (nsecTells qcanon qtype)
  if none ∈ told then .error (ascii "NSEC bitmap malformed")
  else if told.any fun said => said.any fun (covered, bare) => covered || bare then
    .ok (ascii "NSEC negative proof " ++ qname ++ ascii "/" ++ typeName qtype)
  else .error (ascii "NSEC gap mismatch")

def Outside.enclosesLoop (alg : UInt8) (salt : Bytes) (iterations : Nat) (ownerHash : Bytes) :
    Nat → Bytes → Option Bool
  | 0, _ => some false
  | fuel + 1, suffix =>
    if suffix = [] then some false
    else
      match out.nsec3Label suffix alg salt iterations 128 with
      | none => none
      | some label =>
        if ownerHash = label then some true
        else
          match afterDot suffix with
          | none => some false
          | some suffix => Outside.enclosesLoop alg salt iterations ownerHash fuel suffix

/-- What an NSEC3 record says of a name: whether it is of a name that encloses it, and whether its range covers its
hash. -/
def Outside.nsec3Tells (qcanon : Bytes) (qtype : Nat) (rr : RR) : Except Bytes (Bool × Bool) :=
  match nsec3Parse rr with
  | none => .error (ascii "NSEC3 bitmap malformed")
  | some rec =>
    if rec.alg < 1 ∨ 3 < rec.alg then .error (ascii "NSEC3 unsupported hash algorithm " ++ decimalText rec.alg.toNat)
    else if rec.iterations > nsec3MaxIterations then
      .error (ascii "NSEC3 iteration count " ++ decimalText rec.iterations ++ ascii " exceeds RFC 9276 cap " ++
        decimalText nsec3MaxIterations)
    else if rec.flags ≠ 0 then .error (ascii "NSEC3 opt-out unsupported")
    else if nsecBitmapHasType rec.bitmap qtype = none then .error (ascii "NSEC3 bitmap malformed")
    else
      match nsec3OwnerHashLabel rr.owner with
      | none => .error (ascii "NSEC3 owner-name canonicalization failed")
      | some ownerHash =>
        match out.nsec3HashName qcanon rec.alg rec.salt rec.iterations with
        | none => .error (ascii "NSEC3 hash failed")
        | some qHash =>
          match nsec3Base32hex qHash 128, nsec3Base32hex rec.next 128 with
          | some qLabel, some nextLabel =>
            match out.enclosesLoop rec.alg rec.salt rec.iterations ownerHash qcanon.length qcanon with
            | none => .error (ascii "NSEC3 hash failed")
            | some encloses => .ok (encloses, nsec3RangeCoversHash ownerHash nextLabel qLabel)
          | _, _ => .error (ascii "NSEC3 owner-name canonicalization failed")

/-- `bd_negative_validate` where there are NSEC3 records, and no NSEC records. -/
def Outside.nsec3Denies (rrs : List RR) (qname qcanon : Bytes) (qtype : Nat) : Except Bytes Bytes :=
  match (rrs.filter fun rr => rr.type = typeNSEC3).mapM (out.nsec3Tells qcanon qtype) with
  | .error text => .error text
  | .ok told =>
    if !told.any Prod.fst then .error (ascii "NSEC3 missing closest-encloser")
    else if !told.any Prod.snd then .error (ascii "NSEC3 gap mismatch")
    else .ok (ascii "NSEC3 negative proof " ++ qname ++ ascii "/" ++ typeName qtype)

def Outside.negativeValidate (reply qname : Bytes) (qtype : Nat) (active : List Trust) (skew : Int) :
    Except Bytes Bytes :=
  match canonOwner qname with
  | none => .error (ascii "cannot canonicalise " ++ qname)
  | some qcanon =>
    match collectAnswerAuthority reply with
    | none => .error (ascii "negative response parse failed")
    | some rrs =>
      match out.verifyDenials rrs active skew rrs with
      | .error (rr, text) => .error (typeName rr.type ++ ascii " RRset for " ++ rr.owner ++ ascii ": " ++ text)
      | .ok () =>
        if rrs.any fun rr => rr.type = typeNSEC then nsecDenies rrs qname qcanon qtype
        else if rrs.any fun rr => rr.type = typeNSEC3 then out.nsec3Denies rrs qname qcanon qtype
        else .error (ascii "no signed NSEC/NSEC3 denial proof")

/-! ## An answer made from a wildcard -/

/-- What an NSEC record says of an answer made from a wildcard: whether its range covers the name, and whether it is
that of the closest name that is there. -/
def nsecTellsWild (qcanon suffix : Bytes) (rr : RR) : Option (Bool × Bool) :=
  match nsecParse rr with
  | none => none
  | some (next, bitmap) =>
    (nsecBitmapHasType bitmap typeNSEC).map fun listed =>
      (nsecRangeCovers rr.owner next qcanon, rr.owner = suffix && listed)

def nsecWild (rrs : List RR) (qcanon wildcard suffix : Bytes) : Except Bytes Unit :=
  let told := (rrs.filter fun rr => rr.type = typeNSEC).map (nsecTellsWild qcanon suffix)
  let covered := told.any fun said => said.any Prod.fst
  let enclosed := told.any fun said => said.any Prod.snd
  if none ∈ told then .error (ascii "wildcard NSEC bitmap malformed")
  else if enclosed ∧ covered then .ok ()
  else if !enclosed then
    .error (errText (ascii "wildcard closest-encloser proof missing for " ++ qcanon ++ ascii " via " ++ wildcard))
  else .error (errText (ascii "wildcard NSEC proof missing for " ++ qcanon ++ ascii " via " ++ wildcard))

/-- The labels of the hashes of the name, of the wildcard and of the closest name that is there, and the parameters they
were made with. -/
structure WildHashes where
  alg : UInt8
  flags : UInt8
  iterations : Nat
  salt : Bytes
  asked : Bytes
  wildcard : Bytes
  encloser : Bytes

/-- The room of the labels in `bd_wildcard_validate`. -/
def wildLabelRoom : Nat := 64

def Outside.wildHashes (qcanon wildcard suffix : Bytes) (rec : Nsec3) : Option WildHashes :=
  match out.nsec3Label qcanon rec.alg rec.salt rec.iterations wildLabelRoom,
      out.nsec3Label wildcard rec.alg rec.salt rec.iterations wildLabelRoom,
      out.nsec3Label suffix rec.alg rec.salt rec.iterations wildLabelRoom with
  | some asked, some wild, some encloser =>
    some ⟨rec.alg, rec.flags, rec.iterations, rec.salt, asked, wild, encloser⟩
  | _, _, _ => none

/-- What has been seen so far: the hashes, once the first record has said how they are made, and which of the three
proofs have been found. -/
structure WildSeen where
  hashes : Option WildHashes := none
  covered : Bool := false
  wildcard : Bool := false
  encloser : Bool := false

/-- One NSEC3 record in the last loop of `bd_wildcard_validate`. -/
def Outside.nsec3WildStep (qcanon wildcard suffix : Bytes) (seen : WildSeen) (rr : RR) : Except Bytes WildSeen :=
  match nsec3Parse rr with
  | none => .error (ascii "wildcard NSEC3 bitmap malformed")
  | some rec =>
    if rec.alg < 1 ∨ 3 < rec.alg then .error (ascii "NSEC3 unsupported hash algorithm " ++ decimalText rec.alg.toNat)
    else if rec.iterations > nsec3MaxIterations then
      .error (ascii "NSEC3 iteration count " ++ decimalText rec.iterations ++ ascii " exceeds RFC 9276 cap " ++
        decimalText nsec3MaxIterations)
    else if rec.flags ≠ 0 then .error (ascii "NSEC3 opt-out unsupported")
    else if nsecBitmapHasType rec.bitmap typeNSEC3 = none then .error (ascii "wildcard NSEC3 bitmap malformed")
    else
      let hashes : Except Bytes WildHashes :=
        match seen.hashes with
        | none =>
          match out.wildHashes qcanon wildcard suffix rec with
          | none => .error (ascii "wildcard NSEC3 hash failed")
          | some hashes => .ok hashes
        | some hashes =>
          if rec.alg ≠ hashes.alg ∨ rec.flags ≠ hashes.flags ∨ rec.iterations ≠ hashes.iterations ∨
              rec.salt ≠ hashes.salt then
            .error (ascii "wildcard NSEC3 parameter mismatch")
          else .ok hashes
      match hashes with
      | .error text => .error text
      | .ok hashes =>
        match nsec3OwnerHashLabel rr.owner, nsec3Base32hex rec.next 128 with
        | some ownerHash, some nextLabel =>
          .ok { hashes := some hashes, encloser := seen.encloser || ownerHash = hashes.encloser,
                wildcard := seen.wildcard || ownerHash = hashes.wildcard,
                covered := seen.covered || nsec3RangeCoversHash ownerHash nextLabel hashes.asked }
        | _, _ => .error (ascii "wildcard NSEC3 owner-name canonicalization failed")

def Outside.nsec3Wild (rrs : List RR) (qcanon wildcard suffix : Bytes) : Except Bytes Unit :=
  match (rrs.filter fun rr => rr.type = typeNSEC3).foldlM (out.nsec3WildStep qcanon wildcard suffix) {} with
  | .error text => .error text
  | .ok seen =>
    if seen.encloser && seen.wildcard && seen.covered then .ok ()
    else .error (errText (ascii "wildcard NSEC3 proof missing for " ++ qcanon ++ ascii " via " ++ wildcard))

def Outside.wildcardValidate (rrs : List RR) (qname : Bytes) (qtype : Nat) (active : List Trust) (skew : Int) :
    Except Bytes Unit :=
  match canonOwner qname with
  | none => .error (ascii "wildcard qname canonicalization failed")
  | some qcanon =>
    match findRrsig rrs qcanon qtype with
    | none => .ok ()
    | some rrsig =>
      if rrsig.rdata.length < 18 then .ok ()
      else
        let sigLabels := (byteAt rrsig.rdata 3).toNat
        match labelCount qcanon with
        | none => .error (ascii "wildcard qname label count failed")
        | some labels =>
          if labels ≤ sigLabels then .ok ()
          else
            match wildcardOwnerFromLabels qcanon sigLabels, suffixLabels qcanon sigLabels with
            | some wildcard, some suffix =>
              match out.verifyDenials rrs active skew rrs with
              | .error (_, text) => .error text
              | .ok () =>
                if rrs.any fun rr => rr.type = typeNSEC then nsecWild rrs qcanon wildcard suffix
                else if rrs.any fun rr => rr.type = typeNSEC3 then out.nsec3Wild rrs qcanon wildcard suffix
                else
                  .error (errText (ascii "wildcard expansion proof missing for " ++ qcanon ++ ascii " via " ++
                    wildcard))
            | _, _ => .error (ascii "wildcard owner reconstruction failed")

end BashOs.Dns

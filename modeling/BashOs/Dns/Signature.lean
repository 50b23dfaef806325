import Mathlib.Data.List.Sort
import BashOs.Dns.Record
import BashOs.Lib.Decimal

/-!
Keys and signatures: which key a signature names, what it was made over, and how a DS record points to a key. The
verifier and the hashes are programs of their own; what they answer is taken as it is.
-/

namespace BashOs.Dns
open BashOs.Lib

/-- What the checks ask from outside: the verifier with its arguments on a message, a hash by its name, and the time. -/
structure Outside where
  verifier : List Bytes → Bytes → Bool
  hash : Bytes → Bytes → Option Bytes
  now : Int

/-! ## The trust set -/

inductive TrustKind where
  | ds | dnskey
deriving DecidableEq, Repr

structure Trust where
  owner : Bytes
  kind : TrustKind
  keyTag : Nat := 0
  algorithm : UInt8 := 0
  digestType : UInt8 := 0
  digest : Bytes := []
  flags : Nat := 0
  protocol : UInt8 := 0
  rdata : Bytes := []
deriving DecidableEq, Repr

def trustMax : Nat := 16

def byteAt (bytes : Bytes) (i : Nat) : UInt8 := bytes.getD i 0

/-- The sum in `bd_dnskey_keytag`: bytes at even places count 256 times. -/
def keytagSum : Bytes → Nat
  | [] => 0
  | [high] => high.toNat * 256
  | high :: low :: rest => high.toNat * 256 + low.toNat + keytagSum rest

def dnskeyKeytag (rdata : Bytes) : Nat :=
  let ac := keytagSum rdata % 2 ^ 32
  (ac + ac / 2 ^ 16 % 2 ^ 16) % 2 ^ 32 % 2 ^ 16

def trustOfDnskey (owner rdata : Bytes) : Trust :=
  { owner, kind := .dnskey, keyTag := dnskeyKeytag rdata, algorithm := byteAt rdata 3, flags := rd16 rdata 0,
    protocol := byteAt rdata 2, rdata }

/-- `bd_install_dnskeys`: the keys among the records, as many as there is room for. -/
def installDnskeys (rrs : List RR) (zone : Bytes) : Option (List Trust) :=
  (canonOwner zone).map fun canon =>
    ((rrs.filter fun rr => rr.type = typeDNSKEY ∧ rr.owner = canon ∧ 4 ≤ rr.rdata.length ∧
      rr.rdata.length ≤ rdataRoom).map
      fun rr => trustOfDnskey canon rr.rdata).take trustMax

def findSigningKey (keys : List Trust) (owner : Bytes) (keyTag : Nat) (algorithm : UInt8) : Option Trust :=
  match canonOwner owner with
  | none => none
  | some canon =>
    keys.find? fun key => key.kind = .dnskey ∧ key.owner = canon ∧ key.keyTag = keyTag ∧ key.algorithm = algorithm

def digestRoom : Nat := 64

def trustOfDs (owner rdata : Bytes) : Trust :=
  { owner, kind := .ds, keyTag := rd16 rdata 0, algorithm := byteAt rdata 2, digestType := byteAt rdata 3,
    digest := (rdata.drop 4).take digestRoom }

/-! ## Digests -/

def dsHash (digestType : UInt8) : Option Bytes :=
  if digestType = 1 then some (ascii "sha1")
  else if digestType = 2 then some (ascii "sha256")
  else if digestType = 4 then some (ascii "sha384")
  else none

variable (out : Outside)

def Outside.hashMatch (verb msg want : Bytes) : Bool := out.hash verb msg = some want

/-- Whether an entry is a DS for a key with this owner, tag and algorithm, and its digest is that of `input`. -/
def Outside.dsMatches (owner : Bytes) (keyTag : Nat) (algorithm : UInt8) (input : Bytes) (entry : Trust) : Bool :=
  entry.kind = .ds && entry.owner = owner && entry.keyTag = keyTag && entry.algorithm = algorithm &&
    match dsHash entry.digestType with
    | none => false
    | some verb => out.hashMatch verb input entry.digest

def dsInputRoom : Nat := 3072

/-- `bd_ds_check`. The last step of the source, in which an entry that does not match is passed over, is `any`. -/
def Outside.dsCheck (owner : Bytes) (keyTag : Nat) (algorithm : UInt8) (rdata : Bytes) (trusted : List Trust) : Bool :=
  match nameToWire owner dsInputRoom with
  | none => false
  | some wire =>
    if wire.length + rdata.length > dsInputRoom then false
    else
      match canonOwner owner with
      | none => false
      | some canon => trusted.any (out.dsMatches canon keyTag algorithm (wire ++ rdata))

/-! ## Signatures -/

def hexDigit (n : Nat) : UInt8 := UInt8.ofNat (if n < 10 then 0x30 + n else 0x57 + n)

def toHex (bytes : Bytes) : Bytes := bytes.flatMap fun b => [hexDigit (b.toNat / 16), hexDigit (b.toNat % 16)]

/-- `bd_rsa_split`: modulus and exponent. -/
def rsaSplit (pubkey : Bytes) : Option (Bytes × Bytes) :=
  match pubkey with
  | [] => none
  | first :: _ =>
    if first = 0 ∧ pubkey.length < 3 then none
    else
      let (elen, off) := if first = 0 then (rd16 pubkey 1, 3) else (first.toNat, 1)
      if off + elen ≥ pubkey.length then none
      else some (pubkey.drop (off + elen), (pubkey.drop off).take elen)

def isRsa (algo : UInt8) : Bool := algo = 5 || algo = 7 || algo = 8 || algo = 10

/-- The algorithms that `bd_verify_rrset` lets pass. -/
def supported (algo : UInt8) : Bool := isRsa algo || algo = 13 || algo = 14 || algo = 15 || algo = 16

def Outside.verifyFixed (verb : Bytes) (keySize sigSize : Nat) (lead pk sig msg : Bytes) : Bool :=
  if pk.length ≠ keySize ∨ sig.length ≠ sigSize then false
  else out.verifier [verb, ascii "-k", toHex (lead ++ pk), ascii "-s", toHex sig] msg

def Outside.verifySig (algo : UInt8) (rdata sig msg : Bytes) : Bool :=
  if rdata.length < 4 then false
  else
    let pk := rdata.drop 4
    if isRsa algo then
      match rsaSplit pk with
      | none => false
      | some (modulus, exponent) =>
        let hash := if algo = 5 ∨ algo = 7 then ascii "sha1" else if algo = 8 then ascii "sha256" else ascii "sha512"
        out.verifier [ascii "rsa-verify", ascii "-n", toHex modulus, ascii "-e", toHex exponent, ascii "-s", toHex sig,
          ascii "-a", hash] msg
    else if algo = 13 then out.verifyFixed (ascii "ecdsa-p256-verify") 64 64 [0x04] pk sig msg
    else if algo = 14 then out.verifyFixed (ascii "ecdsa-p384-verify") 96 96 [] pk sig msg
    else if algo = 15 then out.verifyFixed (ascii "ed25519-verify") 32 64 [] pk sig msg
    else if algo = 16 then out.verifyFixed (ascii "ed448-verify") 57 114 [] pk sig msg
    else false

/-! ## What a signature is made over -/

def signerEnd (rdata : Bytes) : Nat → Nat → Except Bytes Nat
  | 0, pos => .ok pos
  | fuel + 1, pos =>
    match rdata[pos]? with
    | none => .ok pos
    | some label =>
      if label = 0 then .ok (pos + 1)
      else if label &&& 0xc0 ≠ 0 then .error (ascii "RRSIG signer name compression")
      else if pos + 1 + label.toNat > rdata.length then .error (ascii "RRSIG signer name overflow")
      else signerEnd rdata fuel (pos + 1 + label.toNat)

def rrCmp (a b : RR) : Ordering := bytesCmp a.rdata b.rdata

def msgRoom : Nat := 16384

def signedOwner (sigLabels : Nat) (rr : RR) : Option Bytes :=
  match labelCount rr.owner with
  | none => none
  | some labels => if labels > sigLabels then wildcardOwnerFromLabels rr.owner sigLabels else some rr.owner

def putRecords (sigLabels origTtl : Nat) : Bytes → List RR → Option Bytes
  | msg, [] => some msg
  | msg, rr :: rest =>
    match (signedOwner sigLabels rr).bind fun owner => nameToWire owner nameRoom with
    | none => none
    | some wire =>
      if msg.length + wire.length + 10 + rr.rdata.length > msgRoom then none
      else
        putRecords sigLabels origTtl
          (msg ++ wire ++ be 2 rr.type ++ be 2 rr.cls ++ be 4 origTtl ++ be 2 rr.rdata.length ++ rr.rdata) rest

def buildSignedMsg (rrsig : RR) (set : List RR) : Option Bytes :=
  if rrsig.rdata.length < 18 then none
  else
    match signerEnd rrsig.rdata rrsig.rdata.length 18 with
    | .error _ => none
    | .ok header =>
      if header > msgRoom then none
      else
        putRecords (byteAt rrsig.rdata 3).toNat (rd32 rrsig.rdata 4) (rrsig.rdata.take header)
          (set.insertionSort fun a b => rrCmp a b ≠ .gt)

def errText (text : Bytes) : Bytes := text.take 255

def decimalInt (n : Int) : Bytes := decimalText (n % 2 ^ 64).toNat

def rrset (rrs : List RR) (owner : Bytes) (type : Nat) : List RR :=
  (rrs.filter fun rr => rr.type = type ∧ rr.owner = owner).take rrMax

def Outside.verifyRrset (rrs : List RR) (owner : Bytes) (type : Nat) (keys : List Trust) (skew : Int) :
    Except Bytes Unit :=
  let named := owner ++ ascii "/" ++ typeName type
  match findRrsig rrs owner type with
  | none => .error (errText (ascii "no RRSIG covers " ++ named))
  | some rrsig =>
    if rrsig.rdata.length < 18 then .error (errText (ascii "RRSIG too short for " ++ named))
    else
      let algo := byteAt rrsig.rdata 2
      let expires := rd32 rrsig.rdata 8
      let inception := rd32 rrsig.rdata 12
      let keyTag := rd16 rrsig.rdata 16
      if !supported algo then .error (ascii "unsupported algorithm " ++ decimalText algo.toNat)
      else
        match signerEnd rrsig.rdata rrsig.rdata.length 18 with
        | .error text => .error text
        | .ok header =>
          match decodeName rrsig.rdata 18 with
          | none => .error (ascii "RRSIG signer name decode")
          | some (signer, _) =>
            let sig := rrsig.rdata.drop header
            if (inception : Int) - skew > out.now then
              .error (ascii "RRSIG not yet valid (inception " ++ decimalText inception ++ ascii " > now " ++
                decimalInt out.now ++ ascii ")")
            else if (expires : Int) + skew < out.now then
              .error (ascii "RRSIG expired (expiration " ++ decimalText expires ++ ascii " < now " ++
                decimalInt out.now ++
                ascii ")")
            else
              match findSigningKey keys signer keyTag algo with
              | none =>
                .error (errText (ascii "no DNSKEY for signer=" ++ signer ++ ascii " tag=" ++ decimalText keyTag ++
                  ascii " algo=" ++ decimalText algo.toNat ++ ascii " in trust set"))
              | some key =>
                let set := rrset rrs owner type
                if set = [] then .error (errText (ascii "RRset " ++ named ++ ascii " empty"))
                else
                  match buildSignedMsg rrsig set with
                  | none => .error (ascii "build signed-message overflow")
                  | some msg =>
                    if out.verifySig algo key.rdata sig msg then .ok ()
                    else
                      .error (ascii "RRSIG signature verification failed (algo=" ++ decimalText algo.toNat ++
                        ascii " tag=" ++ decimalText keyTag ++ ascii ")")

end BashOs.Dns

import BashOs.Dns.Denial

/-!
`bd_chain_validate`: from the root down to the asked name, the keys of each zone replace those of the zone above,
and the answer is checked with the keys that are left at the end.
-/

namespace BashOs.Dns
open BashOs.Lib

/-! ## Answers through a DNAME -/

def joinName (front target : Bytes) : Option Bytes :=
  let whole := if target = rootName then front else front ++ dot :: target
  if whole.length < nameRoom then some whole else none

def dnameExpectedCname (qname dnameOwner dnameTarget : Bytes) : Option Bytes :=
  match canonOwner qname, canonOwner dnameOwner, canonOwner dnameTarget with
  | some qcanon, some owner, some target =>
    if owner = rootName then if qcanon = rootName then none else joinName qcanon target
    else if qcanon.length ≤ owner.length then none
    else if qcanon.drop (qcanon.length - owner.length) ≠ owner then none
    else if qcanon[qcanon.length - owner.length - 1]? ≠ some dot then none
    else if qcanon.length - owner.length - 1 = 0 then none
    else joinName (qcanon.take (qcanon.length - owner.length - 1)) target
  | _, _, _ => none

/-- The first loop of `bd_dname_validate`: the DNAME with the longest owner that applies to the name, and what it makes
of it. -/
def bestDname (qcanon : Bytes) : List RR → Option (RR × Bytes) → Except Bytes (Option (RR × Bytes))
  | [], best => .ok best
  | rr :: rest, best =>
    if rr.type ≠ typeDNAME then bestDname qcanon rest best
    else
      match rdataName rr with
      | none => .error (errText (ascii "malformed DNAME RDATA at " ++ rr.owner))
      | some target =>
        match dnameExpectedCname qcanon rr.owner target with
        | none => bestDname qcanon rest best
        | some expected =>
          match best with
          | none => bestDname qcanon rest (some (rr, expected))
          | some (old, made) =>
            bestDname qcanon rest (if rr.owner.length > old.owner.length then some (rr, expected) else some (old, made))

/-- The second loop of `bd_dname_validate`: where the aliases at the name point. -/
def aliasTargets (rrs : List RR) (qcanon : Bytes) : Option (List Bytes) :=
  (rrs.filter fun rr => rr.type = typeCNAME ∧ rr.owner = qcanon).mapM rdataName

variable (out : Outside)

/-- `bd_dname_validate`: whether the answer goes through a DNAME. -/
def Outside.dnameValidate (rrs : List RR) (qname : Bytes) (qtype : Nat) (active : List Trust) (skew : Int) :
    Except Bytes Bool :=
  match canonOwner qname with
  | none => .error (errText (ascii "cannot canonicalise " ++ qname))
  | some qcanon =>
    match bestDname qcanon rrs none with
    | .error text => .error text
    | .ok none => .ok false
    | .ok (some (best, expected)) =>
      match out.verifyRrset rrs best.owner typeDNAME active skew with
      | .error text => .error (errText (ascii "answer DNAME RRset: " ++ text))
      | .ok () =>
        match aliasTargets rrs qcanon with
        | none => .error (errText (ascii "malformed synthesized CNAME at " ++ qcanon))
        | some targets =>
          if targets = [] then
            .error (errText (ascii "DNAME synthesis mismatch: expected " ++ expected ++ ascii " got <missing CNAME>"))
          else if expected ∉ targets then
            .error (errText (ascii "DNAME synthesis mismatch: expected " ++ expected ++ ascii " got " ++
              targets.getLastD []))
          else if qtype = typeCNAME then .ok true
          else if rrs.any fun rr => rr.type = qtype && rr.owner = expected then
            match out.verifyRrset rrs expected qtype active skew with
            | .error text =>
              .error (errText (ascii "DNAME target RRset " ++ expected ++ ascii "/" ++ typeName qtype ++
                ascii ": " ++ text))
            | .ok () => .ok true
          else .ok true

/-! ## From zone to zone -/

/-- `BD_CHAIN_MAX_DEPTH`, and the room of `label_starts`. -/
def chainMaxDepth : Nat := 16
def labelStartsRoom : Nat := 64

/-- How a validation ends without an answer: with a message, or in writing behind an array on the stack. -/
inductive Stop where
  | refused (text : Bytes)
  | overrun
deriving DecidableEq, Repr

def labelStarts (canon : Bytes) : List Nat :=
  ((List.range canon.length).reverse.filter fun i => canon[i]? = some dot).map (· + 1) ++ [0]

def descent (canon : Bytes) : Except Stop (List Bytes) :=
  let starts := labelStarts canon
  if starts.length > labelStartsRoom then .error .overrun
  else if 1 + starts.length > chainMaxDepth then .error (.refused (ascii "chain too deep"))
  else .ok (rootName :: starts.map canon.drop)

/-- What comes back when a name and a type are asked for. The number tells the questions of one validation apart:
one that is asked twice may be answered in two ways. -/
abbrev Network := Nat → Bytes → Nat → Option Bytes

/-- `bd_fetch_attempts`, where less than a header counts as nothing. -/
def Network.fetched (net : Network) (n : Nat) (name : Bytes) (type : Nat) : Option Bytes :=
  (net n name type).filter fun reply => 12 ≤ reply.length

def repliedRrset (reply name : Bytes) (type : Nat) : Option (List RR) :=
  (collectRrset reply name type).filter fun rrs => rrs ≠ []

def Outside.bridged (active cand : List Trust) : Bool :=
  (active.any fun entry =>
      entry.kind = .dnskey && (cand.head?.map Trust.owner = some entry.owner && cand.any fun key =>
        key.rdata = entry.rdata)) ||
    cand.any fun key => out.dsCheck key.owner key.keyTag key.algorithm key.rdata active

def dsEntries (rrs : List RR) : Option (List Trust) :=
  (rrs.filter fun rr => rr.type = typeDS ∧ 4 ≤ rr.rdata.length).mapM fun rr =>
    (canonOwner rr.owner).map fun owner => trustOfDs owner rr.rdata

variable (net : Network) (skew : Int)

def Outside.dsStep (zi : Nat) (child : Bytes) (active : List Trust) : Except Bytes (List Trust) :=
  match (net.fetched (2 * zi + 1) child typeDS).bind fun reply => repliedRrset reply child typeDS with
  | none => .ok active
  | some drr =>
    match out.verifyRrset drr child typeDS active skew with
    | .error text => .error (ascii "DS RRset for " ++ child ++ ascii ": " ++ text)
    | .ok () =>
      if active.length + drr.length > trustMax then .error (ascii "trust set overflow at zone " ++ child)
      else
        match dsEntries drr with
        | none => .error (ascii "DS owner canonicalise failed")
        | some entries => .ok (active ++ entries)

def Outside.keysStep (zi : Nat) (zone : Bytes) (child : Option Bytes) (active : List Trust) (rrs : List RR) :
    Except Bytes (List Trust) :=
  match installDnskeys rrs zone with
  | none => .error (ascii "DNSKEY install failed for zone " ++ zone)
  | some cand =>
    if cand = [] then .error (ascii "DNSKEY install failed for zone " ++ zone)
    else if !out.bridged active cand then
      .error (ascii "DS digest mismatch for zone " ++ zone ++ ascii " (no candidate DNSKEY hashes to any active DS)")
    else
      match out.verifyRrset rrs zone typeDNSKEY cand skew with
      | .error text => .error (ascii "DNSKEY RRset for " ++ zone ++ ascii ": " ++ text)
      | .ok () =>
        match child with
        | none => .ok cand
        | some child => out.dsStep net skew zi child cand

def Outside.zoneStep (zi : Nat) (zone : Bytes) (child : Option Bytes) (active : List Trust) :
    Except Bytes (List Trust) :=
  match net.fetched (2 * zi) zone typeDNSKEY with
  | none => if zi = 0 then .error (ascii "DNSKEY fetch failed for root zone") else .ok active
  | some reply =>
    match repliedRrset reply zone typeDNSKEY with
    | none => if zi = 0 then .error (ascii "no DNSKEY RRset for root zone") else .ok active
    | some rrs => out.keysStep net skew zi zone child active rrs

/-- The loop of `bd_chain_validate`. -/
def Outside.descend : Nat → List Bytes → List Trust → Except Bytes (List Trust)
  | _, [], active => .ok active
  | zi, zone :: rest, active =>
    match out.zoneStep net skew zi zone rest.head? active with
    | .error text => .error text
    | .ok active => Outside.descend (zi + 1) rest active

/-! ## The answer -/

def Positive (reply : Bytes) : Prop := (byteAt reply 3).toNat % 16 = 0 ∧ rd16 reply 6 ≠ 0

instance (reply : Bytes) : Decidable (Positive reply) := by unfold Positive; infer_instance

/-- The end of `bd_chain_validate`, for a reply that holds an answer. -/
def Outside.answerValidate (reply qname : Bytes) (qtype depth : Nat) (active : List Trust) : Except Bytes Bytes :=
  let named := qname ++ ascii "/" ++ typeName qtype
  match collectAnswerAuthority reply with
  | none => .error (ascii "answer parse failed for " ++ named)
  | some all =>
    match out.dnameValidate all qname qtype active skew with
    | .error text => .error (ascii "DNAME proof: " ++ text)
    | .ok true => .ok (ascii "chain depth " ++ decimalText depth ++ ascii ", DNAME proof " ++ named)
    | .ok false =>
      match repliedRrset reply qname qtype with
      | none => .error (ascii "VALIDATE-NEGATIVE-NOT-IMPLEMENTED (no answer RR for " ++ named ++ ascii ")")
      | some rrs =>
        if !rrs.any fun rr => rr.type = typeRRSIG then
          .error (ascii "VALIDATE-NEGATIVE-NOT-IMPLEMENTED (no RRSIG over " ++ named ++ ascii ")")
        else
          match out.verifyRrset rrs qname qtype active skew with
          | .error text => .error (ascii "answer RRset: " ++ text)
          | .ok () =>
            match out.wildcardValidate all qname qtype active skew with
            | .error text => .error (ascii "answer wildcard proof: " ++ text)
            | .ok () => .ok (ascii "chain depth " ++ decimalText depth ++ ascii ", leaf " ++ named)

def Outside.leafValidate (qname : Bytes) (qtype depth : Nat) (active : List Trust) : Except Bytes Bytes :=
  match net.fetched (2 * depth) qname qtype with
  | none => .error (ascii "answer fetch failed for " ++ qname ++ ascii "/" ++ typeName qtype)
  | some reply =>
    if Positive reply then out.answerValidate skew reply qname qtype depth active
    else out.negativeValidate reply qname qtype active skew

/-- `bd_chain_validate`, with the anchors that are loaded. -/
def Outside.chainValidate (anchors : List Trust) (qname : Bytes) (qtype : Nat) : Except Stop Bytes :=
  if anchors = [] then
    .error (.refused (ascii "no trust anchor loaded; call trust-anchor-load PATH first or set BASHDNS_TRUST_ANCHOR"))
  else
    match canonOwner qname with
    | none => .error (.refused (ascii "cannot canonicalise " ++ qname))
    | some canon =>
      match descent canon with
      | .error stop => .error stop
      | .ok zones =>
        match out.descend net skew 0 zones anchors with
        | .error text => .error (.refused text)
        | .ok active =>
          match out.leafValidate net skew qname qtype zones.length active with
          | .error text => .error (.refused text)
          | .ok text => .ok text

end BashOs.Dns

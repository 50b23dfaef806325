import BashOs.Dns.Chain
import BashOs.Lib.Loop

/-!
The chain of trust behind an answer. A key set is trusted because a key that an anchor or a signed DS record points
to has signed it, and the answer because a key of such a set has. `bd_chain_validate` checks that some key of a set
is pointed to and that some key of the set has signed it, but not that the two are one, so that whoever sends the
set may add a key to it. Where the key that a set's signature names is one that is pointed to, every answer that is
accepted has its chain.
-/

namespace BashOs.Dns
open BashOs.Lib List

/-! ## What a check establishes -/

variable {key : Trust} {rrs : List RR}

section
variable (out : Outside) (skew : Int)

def namedKey (rrs : List RR) (owner : Bytes) (type : Nat) (keys : List Trust) : Option Trust :=
  match findRrsig rrs owner type with
  | none => none
  | some rrsig =>
    match decodeName rrsig.rdata 18 with
    | none => none
    | some (signer, _) => findSigningKey keys signer (rd16 rrsig.rdata 16) (byteAt rrsig.rdata 2)

/-- A key has made the signature over a set: the signature names it, is in its time, and verifies under it. -/
def Outside.signs (rrs : List RR) (owner : Bytes) (type : Nat) (key : Trust) : Bool :=
  match findRrsig rrs owner type with
  | none => false
  | some rrsig =>
    match signerEnd rrsig.rdata rrsig.rdata.length 18, decodeName rrsig.rdata 18,
        buildSignedMsg rrsig (rrset rrs owner type) with
    | .ok header, some (signer, _), some msg =>
      key.kind = .dnskey && canonOwner signer = some key.owner && key.keyTag = rd16 rrsig.rdata 16 &&
        key.algorithm = byteAt rrsig.rdata 2 && (rd32 rrsig.rdata 12 : Int) - skew ≤ out.now &&
        out.now ≤ (rd32 rrsig.rdata 8 : Int) + skew && rrset rrs owner type ≠ [] &&
        out.verifySig (byteAt rrsig.rdata 2) key.rdata (rrsig.rdata.drop header) msg
    | _, _, _ => false

variable {out skew} {rrs : List RR} {owner : Bytes} {type : Nat} {keys : List Trust}

theorem findSigningKey_spec {signer : Bytes} {keyTag : Nat} {algo : UInt8}
    (found : findSigningKey keys signer keyTag algo = some key) :
    key ∈ keys ∧ key.kind = .dnskey ∧ canonOwner signer = some key.owner ∧ key.keyTag = keyTag ∧
      key.algorithm = algo := by
  unfold findSigningKey at found
  split at found
  · cases found
  rename_i canon named
  have test := find?_some found
  simp only [decide_eq_true_eq] at test
  obtain ⟨kind, same, tag, algorithm⟩ := test
  exact ⟨mem_of_find?_eq_some found, kind, by rw [named, same], tag, algorithm⟩

theorem verifyRrset_ok (verified : out.verifyRrset rrs owner type keys skew = .ok ()) :
    ∃ key ∈ keys, namedKey rrs owner type keys = some key ∧ out.signs skew rrs owner type key = true := by
  revert verified
  fun_cases Outside.verifyRrset out rrs owner type keys skew with
  | case11 _ found _ algo expires inception tag _ _ ends _ _ decoded sig begun lasts key named set filled _ built good =>
    intro _
    subst algo expires inception tag sig set
    obtain ⟨member, kind, same, tag, algorithm⟩ := findSigningKey_spec named
    refine ⟨key, member, ?_, ?_⟩
    · simp only [namedKey, found, decoded, named]
    · simp only [Outside.signs, found, ends, decoded, built, good, kind, same, tag, algorithm]
      simp [filled, not_lt.1 begun, not_lt.1 lasts]
  | _ => exact nofun

end

/-! ## The chain -/

section
variable (out : Outside) (net : Network) (skew : Int) (anchors : List Trust) (zones : List Bytes)

def keyRecords (zi : Nat) : Option (List RR) :=
  (zones[zi]?).bind fun zone => (net.fetched (2 * zi) zone typeDNSKEY).bind fun reply =>
    repliedRrset reply zone typeDNSKEY

def keySet (zi : Nat) : List Trust :=
  (((zones[zi]?).bind fun zone => (keyRecords net zones zi).bind fun rrs => installDnskeys rrs zone)).getD []

/-- The DS records that the network sends for the zone below. They are asked for once the zone itself has keys. -/
def dsRecords (zi : Nat) : Option (List RR) :=
  if keyRecords net zones zi = none then none
  else
    (zones[zi + 1]?).bind fun child =>
      (net.fetched (2 * zi + 1) child typeDS).bind fun reply => repliedRrset reply child typeDS

/-- The key set of a zone goes back to an anchor: its signature was made by a key in it that an anchor is or points
to, or that a DS record points to which was signed by a key from the set of the zone above, itself one that goes
back to an anchor. -/
inductive Chained : Nat → Prop
  | anchored {zi : Nat} {zone : Bytes} {rrs : List RR} {key anchor : Trust} (here : zones[zi]? = some zone)
      (sent : keyRecords net zones zi = some rrs) (member : key ∈ keySet net zones zi)
      (signed : out.signs skew rrs zone typeDNSKEY key = true) (configured : anchor ∈ anchors)
      (points : out.bridged [anchor] [key] = true) : Chained zi
  | delegated {zi : Nat} {zone : Bytes} {rrs drr : List RR} {key parent ds : Trust} {entries : List Trust}
      (above : Chained zi) (here : zones[zi + 1]? = some zone) (dsSent : dsRecords net zones zi = some drr)
      (dsSigner : parent ∈ keySet net zones zi) (dsSigned : out.signs skew drr zone typeDS parent = true)
      (listed : dsEntries drr = some entries) (entry : ds ∈ entries) (sent : keyRecords net zones (zi + 1) = some rrs)
      (member : key ∈ keySet net zones (zi + 1)) (signed : out.signs skew rrs zone typeDNSKEY key = true)
      (points : out.bridged [ds] [key] = true) : Chained (zi + 1)

/-- A key of the set has signed the answer: the records that were asked for, or a DNAME above the name, where what
it makes of the name is what the answer says, and the records there are signed as well if they were sent. -/
inductive Backed (keys : List Trust) (reply qname : Bytes) (qtype : Nat) : Prop
  | direct {rrs : List RR} {key : Trust} (sent : repliedRrset reply qname qtype = some rrs) (member : key ∈ keys)
      (signed : out.signs skew rrs qname qtype key = true)
  | redirected {rrs : List RR} {qcanon target expected : Bytes} {dname : RR} {targets : List Bytes} {key : Trust}
      (sent : collectAnswerAuthority reply = some rrs) (canon : canonOwner qname = some qcanon) (holds : dname ∈ rrs)
      (kind : dname.type = typeDNAME) (names : rdataName dname = some target)
      (makes : dnameExpectedCname qcanon dname.owner target = some expected) (member : key ∈ keys)
      (signed : out.signs skew rrs dname.owner typeDNAME key = true) (aliases : aliasTargets rrs qcanon = some targets)
      (told : expected ∈ targets)
      (followed : qtype ≠ typeCNAME → (∃ rr ∈ rrs, rr.type = qtype ∧ rr.owner = expected) →
        ∃ key ∈ keys, out.signs skew rrs expected qtype key = true)

/-- The key that each set's signature names is one that is pointed to: by an anchor, or by a DS record sent for the
zone. -/
def SignersBridged : Prop :=
  ∀ zi zone rrs key, zones[zi]? = some zone → keyRecords net zones zi = some rrs →
    namedKey rrs zone typeDNSKEY (keySet net zones zi) = some key →
    (∃ anchor ∈ anchors, out.bridged [anchor] [key] = true) ∨
      ∃ above drr entries, zi = above + 1 ∧ dsRecords net zones above = some drr ∧ dsEntries drr = some entries ∧
        ∃ ds ∈ entries, out.bridged [ds] [key] = true

end

/-! ## A turn, and the whole way down -/

section
variable {out : Outside} {net : Network} {skew : Int} {zi : Nat} {zone : Bytes} {child : Option Bytes}
  {active next : List Trust}

theorem dsStep_cases {child : Bytes} (stepped : out.dsStep net skew zi child active = .ok next) :
    (((net.fetched (2 * zi + 1) child typeDS).bind fun reply => repliedRrset reply child typeDS) = none ∧
      next = active) ∨
    ∃ drr entries, ((net.fetched (2 * zi + 1) child typeDS).bind fun reply => repliedRrset reply child typeDS) =
      some drr ∧
      out.verifyRrset drr child typeDS active skew = .ok () ∧ dsEntries drr = some entries ∧
        next = active ++ entries := by
  revert stepped
  fun_cases Outside.dsStep out net skew zi child active with
  | case1 none =>
    rintro ⟨⟩
    exact .inl ⟨none, rfl⟩
  | case5 drr sent verified _ entries listed =>
    rintro ⟨⟩
    exact .inr ⟨drr, entries, sent, verified, listed, rfl⟩
  | _ => exact nofun

theorem keysStep_ok (stepped : out.keysStep net skew zi zone child active rrs = .ok next) :
    ∃ cand, installDnskeys rrs zone = some cand ∧ out.verifyRrset rrs zone typeDNSKEY cand skew = .ok () ∧
      (child = none ∧ next = cand ∨ ∃ below, child = some below ∧ out.dsStep net skew zi below cand = .ok next) := by
  revert stepped
  fun_cases Outside.keysStep out net skew zi zone child active rrs with
  | case5 _ installed _ _ verified =>
    rintro ⟨⟩
    exact ⟨_, installed, verified, .inl ⟨rfl, rfl⟩⟩
  | case6 _ installed _ _ verified below => exact fun stepped => ⟨_, installed, verified, .inr ⟨below, rfl, stepped⟩⟩
  | _ => exact nofun

/-- A turn passes over a zone without keys, other than the root, and else puts the zone's keys in the place of all
others. -/
theorem zoneStep_cases (stepped : out.zoneStep net skew zi zone child active = .ok next) :
    (((net.fetched (2 * zi) zone typeDNSKEY).bind fun reply => repliedRrset reply zone typeDNSKEY) = none ∧ zi ≠ 0 ∧
      next = active) ∨
    ∃ rrs, ((net.fetched (2 * zi) zone typeDNSKEY).bind fun reply => repliedRrset reply zone typeDNSKEY) = some rrs ∧
      out.keysStep net skew zi zone child active rrs = .ok next := by
  unfold Outside.zoneStep at stepped
  split at stepped
  next lost =>
    split at stepped
    · cases stepped
    rename_i below
    cases stepped
    exact .inl ⟨by rw [lost]; rfl, below, rfl⟩
  rename_i reply came
  split at stepped
  next empty =>
    split at stepped
    · cases stepped
    rename_i below
    cases stepped
    exact .inl ⟨by rw [came]; exact empty, below, rfl⟩
  next rrs filled => exact .inr ⟨rrs, by rw [came]; exact filled, stepped⟩

theorem kind_of_signs {owner : Bytes} {type : Nat} (signed : out.signs skew rrs owner type key = true) :
    key.kind = .dnskey := by
  unfold Outside.signs at signed
  split at signed
  · cases signed
  split at signed
  · simp only [Bool.and_eq_true, decide_eq_true_eq] at signed
    exact signed.1.1.1.1.1.1.1
  · cases signed

end

section
variable (out : Outside) (net : Network) (skew : Int) (anchors : List Trust) (zones : List Bytes)

structure Vouched (zi : Nat) : Prop where
  chained : Chained out net skew anchors zones zi
  dsSigned : ∀ drr zone, dsRecords net zones zi = some drr → zones[zi + 1]? = some zone →
    ∃ parent ∈ keySet net zones zi, out.signs skew drr zone typeDS parent = true

/-- The zones before `zi` that have keys are vouched for, and the keys in the trust set are those of one of them. -/
structure Descended (zi : Nat) (active : List Trust) : Prop where
  vouched : ∀ above < zi, keyRecords net zones above ≠ none → Vouched out net skew anchors zones above
  keys : 0 < zi → ∃ above < zi, keyRecords net zones above ≠ none ∧
    ∀ entry ∈ active, entry.kind = .dnskey → entry ∈ keySet net zones above

variable {out net skew anchors zones} {zi : Nat} {zone : Bytes} {active next : List Trust}

section
variable (inv : Descended out net skew anchors zones zi active) (bridged : SignersBridged out net anchors zones)
  (here : zones[zi]? = some zone)
include inv bridged here

/-- The set of a zone whose signature names a key that is pointed to goes back to an anchor, if those before it do. -/
theorem chained_of_named (sent : keyRecords net zones zi = some rrs) (member : key ∈ keySet net zones zi)
    (named : namedKey rrs zone typeDNSKEY (keySet net zones zi) = some key)
    (signed : out.signs skew rrs zone typeDNSKEY key = true) : Chained out net skew anchors zones zi := by
  obtain ⟨anchor, configured, points⟩ | ⟨above, drr, entries, rfl, dsSent, listed, ds, entry, points⟩ :=
    bridged zi zone rrs key here sent named
  · exact .anchored here sent member signed configured points
  · have parent := inv.vouched above (Nat.lt_succ_self above) fun lacking => by
      rw [dsRecords, if_pos lacking] at dsSent
      cases dsSent
    obtain ⟨signer, dsSigner, dsSigned⟩ := parent.dsSigned drr zone dsSent here
    exact .delegated parent.chained here dsSent dsSigner dsSigned listed entry sent member signed points

theorem descended_step (stepped : out.zoneStep net skew zi zone zones[zi + 1]? active = .ok next) :
    Descended out net skew anchors zones (zi + 1) next := by
  have sentHere : keyRecords net zones zi =
      (net.fetched (2 * zi) zone typeDNSKEY).bind fun reply => repliedRrset reply zone typeDNSKEY := by
    rw [keyRecords, here]
    rfl
  obtain ⟨lost, below, rfl⟩ | ⟨rrs, came, stepped⟩ := zoneStep_cases stepped
  · rw [← sentHere] at lost
    refine ⟨fun above before has => ?_, fun _ => ?_⟩
    · have earlier : above ≠ zi := fun same => has (same ▸ lost)
      exact inv.vouched above (by omega) has
    · obtain ⟨above, before, has, keys⟩ := inv.keys (Nat.pos_of_ne_zero below)
      exact ⟨above, Nat.lt_succ_of_lt before, has, keys⟩
  rw [← sentHere] at came
  obtain ⟨cand, installed, verified, after⟩ := keysStep_ok stepped
  have set : keySet net zones zi = cand := by
    simp [keySet, here, came, installed]
  obtain ⟨key, member, named, signed⟩ := verifyRrset_ok verified
  rw [← set] at member named
  have has : keyRecords net zones zi ≠ none := by simp [came]
  have vouched : Vouched out net skew anchors zones zi := by
    refine ⟨chained_of_named inv bridged here came member named signed, fun drr child dsSent below => ?_⟩
    rw [dsRecords, if_neg has, below, Option.bind_some] at dsSent
    obtain ⟨alone, -⟩ | ⟨child', same, stepped⟩ := after
    · rw [alone] at below
      cases below
    rw [same] at below
    cases below
    obtain ⟨lost, -⟩ | ⟨drr', entries, sent, verified, -, -⟩ := dsStep_cases stepped
    · rw [lost] at dsSent
      cases dsSent
    · rw [sent] at dsSent
      cases dsSent
      obtain ⟨parent, member, -, signed⟩ := verifyRrset_ok verified
      exact ⟨parent, set ▸ member, signed⟩
  refine ⟨fun above before present => ?_, fun _ => ⟨zi, Nat.lt_succ_self zi, has, fun entry within kind => ?_⟩⟩
  · obtain earlier | rfl := Nat.lt_succ_iff_lt_or_eq.1 before
    · exact inv.vouched above earlier present
    · exact vouched
  · rw [set]
    obtain ⟨-, rfl⟩ | ⟨child, -, stepped⟩ := after
    · exact within
    obtain ⟨-, rfl⟩ | ⟨drr, entries, -, -, listed, rfl⟩ := dsStep_cases stepped
    · exact within
    · obtain key | ds := mem_append.1 within
      · exact key
      · obtain ⟨rr, -, made⟩ := mem_of_mapM listed ds
        obtain ⟨owner, -, rfl⟩ := Option.map_eq_some_iff.1 made
        cases kind

end

theorem descended_run (bridged : SignersBridged out net anchors zones) {rest : List Bytes}
    (left : zones.drop zi = rest) (inv : Descended out net skew anchors zones zi active)
    (ran : out.descend net skew zi rest active = .ok next) (inside : zi ≤ zones.length) :
    Descended out net skew anchors zones zones.length next := by
  induction rest generalizing zi active with
  | nil =>
    cases ran
    have done : zi = zones.length := Nat.le_antisymm inside (drop_eq_nil_iff.1 left)
    exact done ▸ inv
  | cons zone rest ih =>
    rw [Outside.descend] at ran
    split at ran
    · cases ran
    rename_i active' stepped
    have here : zones[zi]? = some zone := by rw [← List.head?_drop, left]; rfl
    have further : zones.drop (zi + 1) = rest := by rw [← tail_drop, left]; rfl
    have child : rest.head? = zones[zi + 1]? := by rw [← further, List.head?_drop]
    rw [child] at stepped
    have more : zi < zones.length := (List.getElem?_eq_some_iff.1 here).1
    exact ih further (descended_step inv bridged here stepped) ran more

/-- What is checked with the keys that are left was signed by a key of a set that goes back to an anchor. -/
theorem Descended.signer (inv : Descended out net skew anchors zones zi active) (some : 0 < zi) :
    ∃ above, Chained out net skew anchors zones above ∧ ∀ rrs owner type,
      out.verifyRrset rrs owner type active skew = .ok () →
      ∃ key ∈ keySet net zones above, out.signs skew rrs owner type key = true := by
  obtain ⟨above, before, has, keys⟩ := inv.keys some
  refine ⟨above, (inv.vouched above before has).chained, fun rrs owner type verified => ?_⟩
  obtain ⟨key, member, -, signed⟩ := verifyRrset_ok verified
  exact ⟨key, keys key member (kind_of_signs signed), signed⟩

end

/-! ## The answer -/

section
variable {out : Outside} {skew : Int} {active keys : List Trust} {qname : Bytes} {qtype : Nat}

theorem bestDname_spec {qcanon : Bytes} {all : List RR} {best : Option (RR × Bytes)} {found : RR × Bytes}
    (within : ∀ rr ∈ rrs, rr ∈ all)
    (soFar : ∀ rr made, best = some (rr, made) → rr ∈ all ∧ rr.type = typeDNAME ∧ ∃ target, rdataName rr = some
      target ∧ dnameExpectedCname qcanon rr.owner target = some made)
    (ran : bestDname qcanon rrs best = .ok (some found)) :
    found.1 ∈ all ∧ found.1.type = typeDNAME ∧
      ∃ target, rdataName found.1 = some target ∧ dnameExpectedCname qcanon found.1.owner target = some found.2 := by
  induction rrs generalizing best with
  | nil =>
    cases ran
    exact soFar _ _ rfl
  | cons rr rest ih =>
    have later : ∀ rr ∈ rest, rr ∈ all := fun rr member => within rr (.tail _ member)
    rw [bestDname] at ran
    split at ran
    · exact ih later soFar ran
    rename_i kind
    rw [Decidable.not_not] at kind
    split at ran
    · cases ran
    rename_i target named
    split at ran
    · exact ih later soFar ran
    rename_i expected made
    have here : rr ∈ all ∧ rr.type = typeDNAME ∧
        ∃ target, rdataName rr = some target ∧ dnameExpectedCname qcanon rr.owner target = some expected :=
      ⟨within rr (.head _), kind, target, named, made⟩
    split at ran
    · refine ih later (fun rr' made' same => ?_) ran
      cases same
      exact here
    refine ih later (fun rr' made' same => ?_) ran
    split at same
    · cases same
      exact here
    · exact soFar _ _ same

theorem answerValidate_ok {reply text : Bytes} {depth : Nat}
    (signer : ∀ rrs owner type, out.verifyRrset rrs owner type active skew = .ok () →
      ∃ key ∈ keys, out.signs skew rrs owner type key = true)
    (accepted : out.answerValidate skew reply qname qtype depth active = .ok text) :
    Backed out skew keys reply qname qtype := by
  revert accepted
  fun_cases Outside.answerValidate out skew reply qname qtype depth active with
  | case3 _ all sent through =>
    unfold Outside.dnameValidate at through
    split at through
    · cases through
    rename_i qcanon canon
    split at through
    · cases through
    · cases through
    rename_i best expected found
    obtain ⟨holds, kind, target, names, makes⟩ :=
      bestDname_spec (fun rr member => member) (fun rr made unset => by cases unset) found
    split at through
    · cases through
    rename_i verified
    obtain ⟨key, member, signed⟩ := signer _ _ _ verified
    split at through
    · cases through
    rename_i targets aliases
    split at through
    · cases through
    split at through
    · cases through
    rename_i told
    rw [Decidable.not_not] at told
    refine fun _ => .redirected sent canon holds kind names makes member signed aliases told fun typed
      ⟨rr, among, fits⟩ => ?_
    rw [if_neg typed, if_pos (any_eq_true.2 ⟨rr, among, by simpa using fits⟩)] at through
    split at through
    · cases through
    next verified => exact signer _ _ _ verified
  | case8 _ _ _ _ rrs replied _ verified =>
    intro _
    obtain ⟨key, member, signed⟩ := signer _ _ _ verified
    exact .direct replied member signed
  | _ => exact nofun

end

/-! ## Every answer that is accepted -/

def zonesOf (qname : Bytes) : List Bytes :=
  match canonOwner qname with
  | none => []
  | some canon =>
    match descent canon with
    | .error _ => []
    | .ok zones => zones

structure AcceptsAnswer (out : Outside) (net : Network) (skew : Int) (anchors : List Trust) (qname : Bytes)
    (qtype : Nat)
    (reply : Bytes) : Prop where
  sent : net.fetched (2 * (zonesOf qname).length) qname qtype = some reply
  positive : Positive reply
  accepted : ∃ text, out.chainValidate net skew anchors qname qtype = .ok text

theorem descent_ne_nil {canon : Bytes} {zones : List Bytes} (path : descent canon = .ok zones) : 0 < zones.length := by
  unfold descent at path
  dsimp only at path
  split at path
  · cases path
  split at path
  · cases path
  cases path
  exact Nat.succ_pos _

theorem accepted_has_chain (out : Outside) (net : Network) (skew : Int) (anchors : List Trust) (qname : Bytes)
    (qtype : Nat) (reply : Bytes) (accepts : AcceptsAnswer out net skew anchors qname qtype reply)
    (bridged : SignersBridged out net anchors (zonesOf qname)) :
    ∃ zi, Chained out net skew anchors (zonesOf qname) zi ∧
      Backed out skew (keySet net (zonesOf qname) zi) reply qname qtype := by
  obtain ⟨sent, positive, text, accepted⟩ := accepts
  unfold Outside.chainValidate at accepted
  split at accepted
  · cases accepted
  split at accepted
  · cases accepted
  rename_i canon canonical
  split at accepted
  · cases accepted
  rename_i zones path
  have same : zonesOf qname = zones := by simp only [zonesOf, canonical, path]
  rw [same] at sent bridged ⊢
  split at accepted
  · cases accepted
  rename_i active ran
  have start : Descended out net skew anchors zones 0 anchors := ⟨nofun, fun positive => absurd positive (lt_irrefl 0)⟩
  have inv := descended_run bridged (drop_zero ..) start ran (Nat.zero_le _)
  obtain ⟨above, chained, signer⟩ := inv.signer (descent_ne_nil path)
  refine ⟨above, chained, ?_⟩
  split at accepted
  · cases accepted
  rename_i text leaf
  simp only [Outside.leafValidate, sent, if_pos positive] at leaf
  exact answerValidate_ok signer leaf

/-! ## A key that was added -/

def sampleOutside : Outside where
  verifier argv _ := argv[2]? == argv[6]?
  hash _ _ := none
  now := 0

def sampleKey (modulus : UInt8) : Bytes := [1, 0, 3, 8, 1, 3, modulus]

def sampleRecord (owner : Bytes) (type : Nat) (rdata : Bytes) : Bytes :=
  owner ++ be 2 type ++ be 2 1 ++ be 4 0 ++ be 2 rdata.length ++ rdata

def sampleSignature (covered labels : Nat) (modulus : UInt8) : Bytes :=
  be 2 covered ++ [8] ++ be 1 labels ++ be 4 0 ++ be 4 0 ++ be 4 0 ++ be 2 (dnskeyKeytag (sampleKey modulus)) ++
    [0, modulus]

def sampleReply (answers : List Bytes) : Bytes :=
  be 2 0 ++ be 2 0x8000 ++ be 2 0 ++ be 2 answers.length ++ be 4 0 ++ answers.flatten

def sampleRoot (moduli : List UInt8) (signer : UInt8) : Bytes :=
  sampleReply ((moduli.map fun modulus => sampleRecord [0] typeDNSKEY (sampleKey modulus)) ++
    [sampleRecord [0] typeRRSIG (sampleSignature typeDNSKEY 0 signer)])

/-- An address for the name `a`, signed with a key of the root. -/
def sampleAnswer (signer : UInt8) : Bytes :=
  sampleReply [sampleRecord [1, 0x61, 0] typeA [10, 0, 0, 1],
    sampleRecord [1, 0x61, 0] typeRRSIG (sampleSignature typeA 1 signer)]

def sampleNet (moduli : List UInt8) (signer : UInt8) : Network := fun _ name type =>
  if name = rootName ∧ type = typeDNSKEY then some (sampleRoot moduli signer)
  else if name = [0x61] ∧ type = typeA then some (sampleAnswer signer)
  else none

def sampleAnchors : List Trust := [trustOfDnskey rootName (sampleKey 7)]

theorem zonesOf_sample : zonesOf [0x61] = [rootName, [0x61]] := by decide +kernel

theorem sample_keyRecords (moduli : List UInt8) (signer : UInt8) {zi : Nat}
    (sent : keyRecords (sampleNet moduli signer) (zonesOf [0x61]) zi = some rrs) : zi = 0 := by
  match zi with
  | 0 => rfl
  | 1 => cases sent

theorem sample_dsRecords (moduli : List UInt8) (signer : UInt8) (zi : Nat) :
    dsRecords (sampleNet moduli signer) (zonesOf [0x61]) zi = none := by
  rw [dsRecords]
  split
  · rfl
  match zi with
  | 0 => rfl
  | _ + 1 => rfl

theorem accepted_has_chain_sample :
    ∃ zi, Chained sampleOutside (sampleNet [7] 7) 0 sampleAnchors (zonesOf [0x61]) zi ∧
      Backed sampleOutside 0 (keySet (sampleNet [7] 7) (zonesOf [0x61]) zi) (sampleAnswer 7) [0x61] typeA := by
  refine accepted_has_chain sampleOutside (sampleNet [7] 7) 0 sampleAnchors [0x61] typeA (sampleAnswer 7)
    ⟨by decide +kernel, by decide +kernel, ascii "chain depth 2, leaf a/A", by decide +kernel⟩ ?_
  intro zi zone rrs key here sent named
  obtain rfl := sample_keyRecords [7] 7 sent
  have known : keySet (sampleNet [7] 7) (zonesOf [0x61]) 0 = sampleAnchors := by decide +kernel
  have member : key ∈ sampleAnchors := by
    unfold namedKey at named
    split at named
    · cases named
    split at named
    · cases named
    · exact (findSigningKey_spec named).1
  rw [sampleAnchors, mem_singleton] at member
  subst member
  exact .inl ⟨_, mem_singleton_self _, by decide +kernel⟩

/-- The root's key is the anchor, and another key was added to the set and made its signature and that of the answer. -/
theorem foreign_key_trusted :
    AcceptsAnswer sampleOutside (sampleNet [7, 9] 9) 0 sampleAnchors [0x61] typeA (sampleAnswer 9) ∧
      ¬ ∃ zi, Chained sampleOutside (sampleNet [7, 9] 9) 0 sampleAnchors (zonesOf [0x61]) zi ∧
        Backed sampleOutside 0 (keySet (sampleNet [7, 9] 9) (zonesOf [0x61]) zi) (sampleAnswer 9) [0x61] typeA := by
  refine ⟨⟨by decide +kernel, by decide +kernel, ascii "chain depth 2, leaf a/A", by decide +kernel⟩, ?_⟩
  rintro ⟨zi, chained, -⟩
  cases chained with
  | delegated above here dsSent =>
    rw [sample_dsRecords] at dsSent
    cases dsSent
  | anchored here sent member signed configured points =>
    obtain rfl := sample_keyRecords [7, 9] 9 sent
    rw [sampleAnchors, mem_singleton] at configured
    subst configured
    have known : keySet (sampleNet [7, 9] 9) (zonesOf [0x61]) 0 =
        [trustOfDnskey rootName (sampleKey 7), trustOfDnskey rootName (sampleKey 9)] := by decide +kernel
    have records : ∀ zone, (zonesOf [0x61])[0]? = some zone → ∀ rrs,
        keyRecords (sampleNet [7, 9] 9) (zonesOf [0x61]) 0 = some rrs →
        sampleOutside.signs 0 rrs zone typeDNSKEY (trustOfDnskey rootName (sampleKey 7)) = false := by
      rw [zonesOf_sample]
      rintro zone same rrs sent
      cases same
      have unsigned : (keyRecords (sampleNet [7, 9] 9) [rootName, [0x61]] 0).all (fun rrs =>
          sampleOutside.signs 0 rrs rootName typeDNSKEY (trustOfDnskey rootName (sampleKey 7)) = false) = true := by
        decide +kernel
      rw [sent] at unsigned
      simpa using unsigned
    rw [known] at member
    obtain rfl | other := mem_cons.1 member
    · rw [records _ here _ sent] at signed
      cases signed
    rw [mem_singleton] at other
    subst other
    cases points

end BashOs.Dns

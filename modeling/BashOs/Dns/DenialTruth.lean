import BashOs.Dns.Trust
import BashOs.Dns.Zone

/-!
What an accepted denial is worth. The records of a zone show that it has no record of the type at the name, whichever of
them a reply holds; but `bd_negative_validate` does not ask for one that denies the wildcard, so that a name the zone
answers for by a wildcard can be denied. The denial is true if the reply would pass for the wildcard as well.
-/

namespace BashOs.Dns
open BashOs.Lib List Option Name

structure Asked (zone : Zone) (qname : Bytes) (name : Name) : Prop where
  sized : Name.Sized name
  plain : Name.Plain name
  small : Name.lower name = name
  spelt : canonOwner qname = some (Name.canon name)
  inside : zone.apex <:+ name

def FromChain (out : Outside) (zone : Zone) (rrs : List RR) : Prop :=
  ∀ rr ∈ rrs, (rr.type = typeNSEC → Nonempty (ChainNsec zone rr)) ∧
    (rr.type = typeNSEC3 → Nonempty (ChainNsec3 out zone rr))

def PlainNames (zone : Zone) (rrs : List RR) : Prop :=
  ∀ rr ∈ rrs, rr.type = typeNSEC → ∃ chain : ChainNsec zone rr, Name.Plain chain.name ∧ Name.Plain chain.next

section
variable {out : Outside} {zone : Zone} {qname : Bytes} {name : Name} {qtype : Nat} {rr : RR}

theorem shownOwner_eq (sized : Name.Sized name) (plain : Name.Plain name) (small : lower name = name) :
    shownOwner name = canon name := by
  have clean : 0 ∉ text name := zero_not_mem_text plain
  rw [shownOwner, takeWhile_ne_of_not_mem clean, canonOwner_text sized.labels plain sized.short, small, getD_some]

/-! ## NSEC -/

section
variable (chain : ChainNsec zone rr)
include chain

theorem nsecParse_chain (plain : Name.Plain chain.next) {next bitmap : Bytes}
    (parsed : nsecParse rr = some (next, bitmap)) : next = text chain.next ∧ bitmap = chain.bitmap.bytes := by
  unfold nsecParse at parsed
  rw [chain.rdata, decodeName_wire chain.sized plain] at parsed
  dsimp only at parsed
  split at parsed
  · cases parsed
  split at parsed
  · cases parsed
  rw [drop_left] at parsed
  cases parsed
  exact ⟨rfl, rfl⟩

theorem not_owner_of_covered (plain : Name.Plain chain.name) (plainNext : Name.Plain chain.next)
    (asked : Asked zone qname name)
    (covers : nsecRangeCovers rr.owner (text chain.next) (canon name) = true) : ¬ zone.Owner name := by
  intro owner
  obtain ⟨type, has⟩ := chain.ring.ownerIn
  obtain ⟨-, sized, small⟩ := zone.within _ _ has
  have first : canonOwner rr.owner = some (canon chain.name) := by
    rw [chain.owner, shownOwner_eq sized plain small]
    exact canonOwner_canon sized plain small
  have second := canonOwner_text chain.sized.labels plainNext chain.sized.short
  have third := canonOwner_canon asked.sized asked.plain asked.small
  have sized' := chain.sized.lower
  have plain' := plainNext.lower
  have between := between_of_rangeCovers covers
  unfold Between at between
  rw [nameWireCmp_eq sized plain sized' plain' first second,
    nameWireCmp_eq sized plain asked.sized asked.plain first third,
    nameWireCmp_eq asked.sized asked.plain sized' plain' third second] at between
  exact chain.ring.empty name owner between

theorem nsecTells_sound (plain : Name.Plain chain.name ∧ Name.Plain chain.next)
    (asked : Asked zone qname name) {covered bare : Bool}
    (told : nsecTells (canon name) qtype rr = some (covered, bare)) (denies : covered = true ∨ bare = true) :
    ¬ zone.has name qtype ∧ ¬ zone.has name typeCNAME := by
  unfold nsecTells at told
  split at told
  · cases told
  rename_i next bitmap parsed
  obtain ⟨rfl, rfl⟩ := nsecParse_chain chain plain.2 parsed
  split at told
  next typed aliased isTyped isAliased =>
    cases told
    obtain covers | bare := denies
    · have none := not_owner_of_covered chain plain.1 plain.2 asked covers
      exact ⟨fun has => none ⟨_, has⟩, fun has => none ⟨_, has⟩⟩
    simp only [Bool.and_eq_true, decide_eq_true_eq, Bool.not_eq_true'] at bare
    obtain ⟨⟨same, untyped⟩, unaliased⟩ := bare
    obtain ⟨type, has⟩ := chain.ring.ownerIn
    obtain ⟨-, sized, small⟩ := zone.within _ _ has
    rw [chain.owner, shownOwner_eq sized plain.1 small] at same
    obtain rfl := canon_injective sized.labels plain.1 asked.sized.labels asked.plain same
    have unlisted {type : Nat} (told : nsecBitmapHasType chain.bitmap.bytes type = some false) :
        ¬ zone.has chain.name type := by
      intro has
      obtain ⟨found, ran, listed⟩ := chain.bitmap.has type
      rw [told] at ran
      cases ran
      cases listed.2 ((chain.types type).1 has)
    exact ⟨unlisted (untyped ▸ isTyped), unlisted (unaliased ▸ isAliased)⟩
  · cases told

/-! ## NSEC3 -/

end

theorem nsec3Parse_chain (chain : ChainNsec3 out zone rr) {rec : Nsec3} (parsed : nsec3Parse rr = some rec) :
    rec = ⟨chain.alg, chain.flags, chain.iterations, chain.salt, chain.next, chain.bitmap.bytes⟩ := by
  obtain ⟨high, low, pair⟩ : ∃ high low, be 2 chain.iterations = [high, low] := ⟨_, _, rfl⟩
  have layout : rr.rdata = chain.alg :: chain.flags :: high :: low :: UInt8.ofNat chain.salt.length ::
      (chain.salt ++ UInt8.ofNat chain.next.length :: (chain.next ++ chain.bitmap.bytes)) := by
    rw [chain.rdata, pair]
    simp
  have saltLen : (byteAt rr.rdata 4).toNat = chain.salt.length := by
    rw [layout]
    exact byte_ofNat_toNat chain.shortSalt
  have nextLen : (byteAt rr.rdata (5 + chain.salt.length)).toNat = chain.next.length := by
    have here : byteAt rr.rdata (5 + chain.salt.length) = UInt8.ofNat chain.next.length := by
      rw [layout, add_comm]
      simp [byteAt]
    rw [here, byte_ofNat_toNat chain.shortNext]
  have word : rd16 rr.rdata 2 = chain.iterations := by
    rw [layout, rd16, wordAt, drop_succ_cons, drop_succ_cons, drop_zero]
    have taken : (high :: low :: UInt8.ofNat chain.salt.length ::
        (chain.salt ++ UInt8.ofNat chain.next.length :: (chain.next ++ chain.bitmap.bytes))).take 2 =
          be 2 chain.iterations :=
      pair.symm
    rw [taken, valueBE_be 2 _ chain.fewIterations]
  have behind : rr.rdata.drop (5 + chain.salt.length + 1) = chain.next ++ chain.bitmap.bytes := by
    rw [layout, show 5 + chain.salt.length + 1 = (chain.salt.length + 1) + 5 by omega]
    simp
  have saltIs : (rr.rdata.drop 5).take chain.salt.length = chain.salt := by
    rw [layout]
    simp
  have nextIs : (rr.rdata.drop (5 + chain.salt.length + 1)).take chain.next.length = chain.next := by
    rw [behind, take_left]
  have rest : rr.rdata.drop (5 + chain.salt.length + 1 + chain.next.length) = chain.bitmap.bytes := by
    rw [← drop_drop, behind, drop_left]
  have first : byteAt rr.rdata 0 = chain.alg := by rw [layout]; rfl
  have second : byteAt rr.rdata 1 = chain.flags := by rw [layout]; rfl
  unfold nsec3Parse at parsed
  simp only [saltLen, nextLen, word, saltIs, nextIs, rest, first, second] at parsed
  split at parsed
  · cases parsed
  split at parsed
  · cases parsed
  split at parsed
  · cases parsed
  split at parsed
  · cases parsed
  cases parsed
  rfl

theorem nsec3Round_length {verb input hash : Bytes} {size : Nat} (ran : out.nsec3Round verb size input = some hash) :
    hash.length = size := by
  revert ran
  fun_cases Outside.nsec3Round out verb size input with
  | case4 _ _ _ same =>
    rintro ⟨⟩
    exact Decidable.not_not.1 same
  | _ => exact nofun

theorem nsec3Rounds_length {verb salt digest hash : Bytes} {size rounds : Nat} (start : digest.length = size)
    (ran : out.nsec3Rounds verb size salt rounds digest = some hash) : hash.length = size := by
  induction rounds generalizing digest with
  | zero =>
    cases ran
    exact start
  | succ rounds ih =>
    obtain ⟨next, done, ran⟩ := bind_eq_some_iff.1 ran
    exact ih (nsec3Round_length done) ran

theorem nsec3HashWire_length {a b salt salt' hash hash' : Bytes} {alg : UInt8} {rounds rounds' : Nat}
    (first : out.nsec3HashWire a alg salt rounds = some hash)
      (second : out.nsec3HashWire b alg salt' rounds' = some hash') :
    hash.length = hash'.length := by
  have size {wire salt hash : Bytes} {rounds : Nat} (ran : out.nsec3HashWire wire alg salt rounds = some hash) :
      ∃ verb size, nsec3Verb alg = some (verb, size) ∧ hash.length = size := by
    unfold Outside.nsec3HashWire at ran
    split at ran
    · cases ran
    split at ran
    · cases ran
    rename_i verb size known
    obtain ⟨digest, done, ran⟩ := bind_eq_some_iff.1 ran
    exact ⟨verb, size, known, nsec3Rounds_length (nsec3Round_length done) ran⟩
  obtain ⟨verb, length, known, here⟩ := size first
  obtain ⟨verb', length', known', there⟩ := size second
  rw [known] at known'
  cases known'
  rw [here, there]

theorem ownerHashLabel_chain (chain : ChainNsec3 out zone rr) {label : Bytes}
    (taken : nsec3OwnerHashLabel rr.owner = some label) :
    label = chain.label := by
  have plain : dot ∉ chain.label := dot_not_mem_nsec3Base32hex chain.labelled
  have first : rr.owner.takeWhile (· ≠ dot) = chain.label := by
    rw [chain.owner]
    split
    · rw [append_nil, takeWhile_ne_of_not_mem plain]
    · exact (takeWhile_append_stop chain.label _ plain).1
  unfold nsec3OwnerHashLabel at taken
  rw [first] at taken
  dsimp only at taken
  split at taken
  · cases taken
  cases taken
  rfl

theorem nsec3Tells_sound (chain : ChainNsec3 out zone rr) (asked : Asked zone qname name) {encloses : Bool}
    (told : out.nsec3Tells (canon name) qtype rr = .ok (encloses, true)) : ¬ zone.Exists name := by
  revert told
  fun_cases Outside.nsec3Tells out (canon name) qtype rr with
  | case9 rec parsed _ _ flags _ _ ownerIs qHash hashed _ _ nextIs qIs =>
    intro told
    injection told with told
    have covers := (Prod.mk.inj told).2
    obtain rfl := nsec3Parse_chain chain parsed
    have ring := chain.ring (Decidable.not_not.1 flags)
    obtain ⟨other, -, nextHashed⟩ := ring.nextIn
    have wire : nameToWire (canon name) nameRoom = some (wire name) :=
      nameToWire_eq asked.sized.labels asked.plain (canonOwner_canon asked.sized asked.plain asked.small)
        (le_trans asked.sized.fits (by decide))
    rw [Outside.nsec3HashName, wire] at hashed
    obtain rfl := ownerHashLabel_chain chain ownerIs
    have between := between_of_rangeCovers covers
    unfold Between at between
    rw [nsec3Base32hex_order (nsec3HashWire_length chain.hashed nextHashed) chain.labelled nextIs,
      nsec3Base32hex_order (nsec3HashWire_length chain.hashed hashed) chain.labelled qIs,
      nsec3Base32hex_order (nsec3HashWire_length hashed nextHashed) qIs nextIs] at between
    exact fun there => ring.empty qHash ⟨name, there, hashed⟩ between
  | _ => exact nofun

/-! ## The verdict -/

theorem negativeValidate_ok {reply text qcanon : Bytes} {active : List Trust} {skew : Int} {rrs : List RR}
    (spelt : canonOwner qname = some qcanon) (read : collectAnswerAuthority reply = some rrs)
    (accepted : out.negativeValidate reply qname qtype active skew = .ok text) :
    ∃ rr ∈ rrs, (rr.type = typeNSEC ∧ ∃ covered bare, nsecTells qcanon qtype rr = some (covered, bare) ∧
        (covered = true ∨ bare = true)) ∨
      (rr.type = typeNSEC3 ∧ ∃ encloses, out.nsec3Tells qcanon qtype rr = .ok (encloses, true)) := by
  simp only [Outside.negativeValidate, spelt, read] at accepted
  split at accepted
  · cases accepted
  split at accepted
  · unfold nsecDenies at accepted
    dsimp only at accepted
    split at accepted
    · cases accepted
    split at accepted
    next told =>
      obtain ⟨said, member, denies⟩ := any_eq_true.1 told
      obtain ⟨rr, among, tells⟩ := mem_map.1 member
      obtain ⟨inside, type⟩ := mem_filter.1 among
      cases said with
      | none => cases denies
      | some pair => exact ⟨rr, inside, .inl ⟨by simpa using type, pair.1, pair.2, tells, by simpa using denies⟩⟩
    · cases accepted
  split at accepted
  · unfold Outside.nsec3Denies at accepted
    split at accepted
    · cases accepted
    rename_i told each
    split at accepted
    · cases accepted
    split at accepted
    · cases accepted
    rename_i covered
    simp only [Bool.not_eq_true', Bool.not_eq_false] at covered
    obtain ⟨pair, member, covers⟩ := any_eq_true.1 covered
    obtain ⟨rr, among, tells⟩ := mem_of_mapM_ok each member
    obtain ⟨inside, type⟩ := mem_filter.1 among
    refine ⟨rr, inside, .inr ⟨by simpa using type, pair.1, ?_⟩⟩
    rw [tells, ← covers]
  · cases accepted

end

section
variable {out : Outside} {zone : Zone} {reply qname text : Bytes} {name encloser : Name} {qtype : Nat}
  {active : List Trust} {skew : Int} {rrs : List RR}

/-- What an accepted reply shows of the name it is accepted for. -/
theorem negativeValidate_sound (asked : Asked zone qname name) (read : collectAnswerAuthority reply = some rrs)
    (genuine : FromChain out zone rrs) (plain : PlainNames zone rrs)
    (accepted : out.negativeValidate reply qname qtype active skew = .ok text) :
    ¬ zone.has name qtype ∧ ¬ zone.has name typeCNAME := by
  obtain ⟨rr, member, ⟨type, covered, bare, told, denies⟩ | ⟨type, encloses, told⟩⟩ :=
    negativeValidate_ok asked.spelt read accepted
  · obtain ⟨chain, plain⟩ := plain rr member type
    exact nsecTells_sound chain plain asked told denies
  · obtain ⟨chain⟩ := (genuine rr member).2 type
    have missing := nsec3Tells_sound chain asked told
    exact ⟨fun has => missing (Zone.Owner.exists ⟨_, has⟩), fun has => missing (Zone.Owner.exists ⟨_, has⟩)⟩

/-- The wildcard of a name above the asked one can be asked for. -/
theorem asked_wildcard (asked : Asked zone qname name) (missing : ¬ zone.Exists name)
    (closest : zone.Closest encloser name) :
    Asked zone (canon (Zone.star :: encloser)) (Zone.star :: encloser) := by
  obtain ⟨front, rfl⟩ := closest.part
  obtain rfl | ⟨front, label, rfl⟩ := eq_nil_or_concat front
  · exact absurd closest.there missing
  have some := (asked.sized.labels label (by simp)).1
  have sized : Name.Sized (Zone.star :: encloser) := by
    refine ⟨forall_mem_cons.2 ⟨by decide, fun other inside => asked.sized.labels other (mem_append_right _ inside)⟩, ?_⟩
    have fits := asked.sized.fits
    have := length_pos_of_ne_nil some
    simp only [Name.wire, Zone.star, concat_eq_append, flatMap_append, flatMap_cons, length_append, length_cons,
      length_nil] at fits ⊢
    omega
  have plain : Name.Plain (Zone.star :: encloser) :=
    forall_mem_cons.2 ⟨by decide, fun other inside => asked.plain other (mem_append_right _ inside)⟩
  have small : Name.lower (Zone.star :: encloser) = Zone.star :: encloser := by
    have whole := asked.small
    rw [Name.lower, map_append] at whole
    exact congrArg _ (append_inj_right whole (length_map _))
  exact ⟨sized, plain, small, canonOwner_canon sized plain small, closest.there.1.trans (suffix_cons _ _)⟩

end

/-- A denial is true if the name is there, or if the reply is also accepted for the wildcard of the closest name
above it that is. -/
theorem denial_true (out : Outside) (zone : Zone) (reply qname text : Bytes) (name : Name) (qtype : Nat)
    (active : List Trust) (skew : Int) (rrs : List RR) (asked : Asked zone qname name)
    (read : collectAnswerAuthority reply = some rrs) (genuine : FromChain out zone rrs) (plain : PlainNames zone rrs)
    (accepted : out.negativeValidate reply qname qtype active skew = .ok text)
    (wildcard : zone.Exists name ∨ ∀ encloser, zone.Closest encloser name →
      ∃ text, out.negativeValidate reply (Name.canon (Zone.star :: encloser)) qtype active skew = .ok text) :
    ¬ zone.has name qtype ∧ ¬ zone.WildcardAnswers name qtype := by
  refine ⟨(negativeValidate_sound asked read genuine plain accepted).1, ?_⟩
  rintro ⟨missing, encloser, closest, wild⟩
  obtain ⟨text, denied⟩ := wildcard.resolve_left missing encloser closest
  obtain ⟨noType, noAlias⟩ := negativeValidate_sound (asked_wildcard asked missing closest) read genuine plain denied
  exact wild.elim noType noAlias

/-! ## A name that a wildcard answers for -/

def sampleZone (letter : UInt8) (small : lowerByte letter = letter) : Zone where
  apex := []
  has name type := (name = [] ∧ type ∈ [typeNS, typeSOA, typeRRSIG, typeNSEC, typeDNSKEY]) ∨
    (name = [[letter]] ∧ type ∈ [typeA, typeRRSIG, typeNSEC])
  apexHas := ⟨typeSOA, .inl ⟨rfl, by decide⟩⟩
  within := by
    rintro name type (⟨rfl, -⟩ | ⟨rfl, -⟩)
    · exact ⟨suffix_refl _, ⟨by simp, by decide⟩, rfl⟩
    · exact ⟨nil_suffix, ⟨by simp, by simp [Name.wire]⟩, by simp [Name.lower, small]⟩

def sampleBitmap : TypeBitmap where
  windows := [⟨0, [0x40, 0, 0, 0, 0, 0x03], by decide, by decide⟩]
  sorted := pairwise_singleton _ _

theorem sampleBitmap_lists (type : Nat) : type ∈ [typeA, typeRRSIG, typeNSEC] ↔ Listed sampleBitmap.windows type := by
  have meaning : Listed sampleBitmap.windows type ↔ type / 256 = 0 ∧ bitSet [0x40, 0, 0, 0, 0, 0x03] type = true := by
    simp [Listed, sampleBitmap]
  rw [meaning]
  obtain small | large := lt_or_ge type 48
  · have all : ∀ i : Fin 48, i.val ∈ [typeA, typeRRSIG, typeNSEC] ↔
        i.val / 256 = 0 ∧ bitSet [0x40, 0, 0, 0, 0, 0x03] i.val = true := by decide
    exact all ⟨type, small⟩
  constructor
  · intro member
    simp only [typeA, typeRRSIG, typeNSEC, mem_cons, not_mem_nil, or_false] at member
    omega
  · rintro ⟨window, set⟩
    have beyond : ([0x40, 0, 0, 0, 0, 0x03] : Bytes)[type % 256 / 8]? = none := by
      apply getElem?_eq_none
      simp
      omega
    simp [bitSet, beyond] at set

def sampleNsec (letter : UInt8) : RR := ⟨[letter], typeNSEC, 1, 0, 0 :: sampleBitmap.bytes⟩

def sampleChain (letter : UInt8) (small : lowerByte letter = letter) (plain : letter ≠ dot ∧ letter ≠ 0) :
    ChainNsec (sampleZone letter small) (sampleNsec letter) where
  name := [[letter]]
  next := []
  bitmap := sampleBitmap
  sized := ⟨by simp, by decide⟩
  ring := by
    refine ⟨⟨typeA, .inr ⟨rfl, by decide⟩⟩, ⟨typeSOA, .inl ⟨rfl, by decide⟩⟩, ?_⟩
    rintro asked ⟨type, ⟨rfl, -⟩ | ⟨rfl, -⟩⟩
    · simp [Between, nameCmp, labelsCmp, Name.lower]
    · simp [Between, nameCmp, labelsCmp, Name.lower, bytesCmp, lexCmp]
  types type := by
    rw [← sampleBitmap_lists]
    simp [sampleZone]
  owner := by
    have sized : Name.Sized [[letter]] := ⟨by simp, by simp [Name.wire]⟩
    have plain : Name.Plain [[letter]] := by
      simpa [Name.Plain] using ⟨plain.1.symm, plain.2.symm⟩
    rw [shownOwner_eq sized plain (by simp [Name.lower, small])]
    simp [sampleNsec, Name.canon, Name.text]
  rdata := rfl

def sampleDenial (letter : UInt8) (labels : Nat) : Bytes :=
  be 2 0 ++ be 2 0x8003 ++ be 2 0 ++ be 2 0 ++ be 2 2 ++ be 2 0 ++
    sampleRecord [1, letter, 0] typeNSEC (0 :: sampleBitmap.bytes) ++
    sampleRecord [1, letter, 0] typeRRSIG (sampleSignature typeNSEC labels 7)

def sampleDenialRecords (letter : UInt8) (labels : Nat) : List RR :=
  [sampleNsec letter, ⟨[letter], typeRRSIG, 1, 0, sampleSignature typeNSEC labels 7⟩]

section
variable (letter : UInt8) (labels : Nat) (small : lowerByte letter = letter) (plain : letter ≠ dot ∧ letter ≠ 0)
include letter labels small plain

theorem sample_fromChain : FromChain sampleOutside (sampleZone letter small) (sampleDenialRecords letter labels) := by
  intro rr member
  obtain rfl | member := mem_cons.1 member
  · exact ⟨fun _ => ⟨sampleChain letter small plain⟩, fun other => absurd other (show typeNSEC ≠ typeNSEC3 by decide)⟩
  · obtain rfl := mem_singleton.1 member
    exact ⟨fun other => absurd other (show typeRRSIG ≠ typeNSEC by decide),
      fun other => absurd other (show typeRRSIG ≠ typeNSEC3 by decide)⟩

theorem sample_plainNames : PlainNames (sampleZone letter small) (sampleDenialRecords letter labels) := by
  intro rr member type
  obtain rfl | member := mem_cons.1 member
  · refine ⟨sampleChain letter small plain, ?_, by simp [Name.Plain, sampleChain]⟩
    simpa [Name.Plain, sampleChain] using ⟨plain.1.symm, plain.2.symm⟩
  · obtain rfl := mem_singleton.1 member
    exact absurd type (show typeRRSIG ≠ typeNSEC by decide)

end

theorem sample_asked (letter : UInt8) (small : lowerByte letter = letter) :
    Asked (sampleZone letter small) [0x62] [[0x62]] where
  sized := ⟨by simp, by decide⟩
  plain := by simp [Name.Plain, dot]
  small := by decide
  spelt := by decide
  inside := nil_suffix

theorem sample_closest {letter : UInt8} {small : lowerByte letter = letter} (other : letter ≠ 0x62) {encloser : Name}
    (closest : (sampleZone letter small).Closest encloser [[0x62]]) : encloser = [] := by
  obtain _ | ⟨label, rest⟩ := encloser
  · rfl
  obtain ⟨-, owner, ⟨type, ⟨rfl, -⟩ | ⟨rfl, -⟩⟩, below⟩ := closest.there
  · cases eq_nil_of_suffix_nil below
  · have same := closest.part.eq_of_length (le_antisymm closest.part.length_le (by simp))
    have same' := below.eq_of_length (le_antisymm below.length_le (by simp))
    rw [same] at same'
    simp only [cons.injEq, and_true] at same'
    exact absurd same'.symm other

/-- In the range from an exclamation mark over the end of the zone lie the name and the wildcard. -/
theorem denial_true_sample :
    ¬ (sampleZone 0x21 (by decide)).has [[0x62]] typeA ∧
      ¬ (sampleZone 0x21 (by decide)).WildcardAnswers [[0x62]] typeA :=
  denial_true sampleOutside (sampleZone 0x21 (by decide)) (sampleDenial 0x21 1) [0x62]
    (ascii "NSEC negative proof b/A") [[0x62]] typeA sampleAnchors 0 (sampleDenialRecords 0x21 1)
    (sample_asked 0x21 (by decide)) (by decide +kernel) (sample_fromChain 0x21 1 (by decide) (by decide))
    (sample_plainNames 0x21 1 (by decide) (by decide)) (by decide +kernel)
    (.inr fun encloser closest => by
      rw [sample_closest (by decide) closest]
      exact ⟨ascii "NSEC negative proof */A", by decide +kernel⟩)

/-- The record of the wildcard itself, from `*` to the end of the zone, is taken to deny a name that the wildcard
answers for. -/
theorem wildcard_denied :
    FromChain sampleOutside (sampleZone 0x2a (by decide)) (sampleDenialRecords 0x2a 0) ∧
      Asked (sampleZone 0x2a (by decide)) [0x62] [[0x62]] ∧
      collectAnswerAuthority (sampleDenial 0x2a 0) = some (sampleDenialRecords 0x2a 0) ∧
      sampleOutside.negativeValidate (sampleDenial 0x2a 0) [0x62] typeA sampleAnchors 0 =
        .ok (ascii "NSEC negative proof b/A") ∧
      (sampleZone 0x2a (by decide)).WildcardAnswers [[0x62]] typeA := by
  refine ⟨sample_fromChain 0x2a 0 (by decide) (by decide), sample_asked 0x2a (by decide), by decide +kernel,
    by decide +kernel, ?_⟩
  have owners : ∀ owner, (sampleZone 0x2a (by decide)).Owner owner → owner = [] ∨ owner = [[0x2a]] := by
    rintro owner ⟨type, ⟨rfl, -⟩ | ⟨rfl, -⟩⟩
    · exact .inl rfl
    · exact .inr rfl
  refine ⟨?_, [], ⟨nil_suffix, Zone.apex_exists, ?_⟩, .inl (.inr ⟨rfl, by decide⟩)⟩
  · rintro ⟨-, owner, owns, part⟩
    obtain rfl | rfl := owners owner owns
    · exact absurd part (by decide)
    · exact absurd part (by decide)
  · rintro above sub ⟨-, owner, owns, part⟩
    obtain rfl | rfl := owners owner owns
    · exact part.length_le
    have length := part.length_le
    by_contra longer
    have one : above.length = [[(0x62 : UInt8)]].length := by
      simp only [length_cons] at length longer ⊢
      omega
    have first := sub.eq_of_length one
    have second := part.eq_of_length one
    rw [first] at second
    exact absurd second (by decide)

end BashOs.Dns

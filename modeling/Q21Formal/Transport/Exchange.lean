import Q21Formal.Transport.Records
import Mathlib.Data.List.SplitLengths

/-!
# The handshake

An initiator starts with an ephemeral key, a responder answers with a key, a ciphertext and a
signature over the transcript, and the initiator finishes with a ciphertext and its own signature.
The frames split back into their fields, the transcript determines those, and each call that returns
says what it checked and made.  ML-KEM-1024 is external; a secret encapsulated to a key is the one
its holder decapsulates.
-/

namespace Q21Formal.Transport
open Library.Codec Primitives List

def ekLen : Nat := 1568
def ctLen : Nat := 1568
def pkLen : Nat := SchemeId.mlDsa87.pubkeyLen
def sigLen : Nat := SchemeId.mlDsa87.sigLen
def legacyNodeIdLen : Nat := 16

def sTranscript : Bytes := ascii "Q21 channel transport v3 transcript"
def sSignature : Bytes := ascii "Q21 channel transport v3 signature"

/-- ML-KEM-1024; a decapsulation key is given by its seed. -/
class Kem where
  encapsulationKey : (seed : Bytes) → Bytes
  accepts : (key : Bytes) → Bool
  encapsulate : (key randomness : Bytes) → Bytes × Bytes
  decapsulate : (seed ciphertext : Bytes) → Bytes
  length_encapsulationKey (seed : Bytes) : (encapsulationKey seed).length = ekLen
  length_ciphertext (key randomness : Bytes) : (encapsulate key randomness).1.length = ctLen
  accepts_encapsulationKey (seed : Bytes) : accepts (encapsulationKey seed) = true
  correct (seed randomness : Bytes) :
    decapsulate seed (encapsulate (encapsulationKey seed) randomness).1 =
      (encapsulate (encapsulationKey seed) randomness).2

/-- A node's static identity: what it signs verifies under its key. -/
structure NodeIdentity [Crypto] where
  pubkey : Bytes
  legacyId : Bytes
  sign : Hash256 → Bytes
  length_pubkey : pubkey.length = pkLen
  length_legacyId : legacyId.length = legacyNodeIdLen
  length_sign (message : Hash256) : (sign message).length = sigLen
  verifies (message : Hash256) : verify .mlDsa87 pubkey message (sign message) = .ok ()

structure Context where
  network : Network
  initiatorNonce : UInt64
  responderNonce : UInt64
deriving DecidableEq

/-- The authenticated counterparty of a session. -/
structure Peer where
  pubkey : Bytes
  id : Hash256
  legacyId : Bytes
  binding : Bytes
deriving DecidableEq

/-- The labelled fields absorbed so far. -/
abbrev Transcript := List (UInt8 × Bytes)

def encodeField : UInt8 × Bytes → Bytes
  | (label, content) => label :: leBytes 4 content.length ++ content

def Transcript.new (ctx : Context) : Transcript :=
  [(0, [version]), (1, ctx.network.hrp), (2, writeU64 ctx.initiatorNonce),
    (3, writeU64 ctx.responderNonce)]

def Transcript.encode (transcript : Transcript) : Bytes := transcript.flatMap encodeField

/-- The byte a role signs under. -/
def Role.label : Role → UInt8
  | .initiator => 0x49
  | .responder => 0x52

section Functions
variable [Crypto] [Sponge] [Kem]

section
variable (pubkey : Bytes) (role : Role) (me : NodeIdentity) (ctx : Context)

def Transcript.value (transcript : Transcript) : Bytes :=
  cshake256 [] sTranscript transcript.encode 32

/-- What a role signs: the transcript so far, under the role's label. -/
def signedMessage (transcript : Bytes) : Hash256 :=
  ⟨cshake256 [] sSignature (role.label :: transcript) 32, cshake256_length _ _ _ _⟩

def verifyTranscript (transcript signature : Bytes) : Except TransportError Unit :=
  match verify .mlDsa87 pubkey (signedMessage role transcript) signature with
  | .ok () => .ok ()
  | .error _ => .error .badSignature

def nodeId : Hash256 := taggedHashText "Q21/channel/node-id/3" pubkey

/-- Splits a frame into fields of the given lengths after the version and the expected type. -/
def fields (frame : Bytes) (kind : UInt8) (lengths : List Nat) :
    Except TransportError (List Bytes) :=
  if frame.length ≠ 2 + lengths.sum ∨ frame[0]? ≠ some version ∨ frame[1]? ≠ some kind then
    .error .malformed
  else .ok (lengths.splitLengths (frame.drop 2))

structure Ephemeral where
  seed : Bytes
  ek : Bytes
deriving DecidableEq

/-- A fresh key pair from a drawn seed, if there is randomness. -/
def ephemeral : Option Bytes → Except TransportError Ephemeral
  | some seed => .ok ⟨seed, Kem.encapsulationKey seed⟩
  | none => .error .noRandomness

/-- The ciphertext and the secret encapsulated to a key. -/
def encapsulate (key : Bytes) (randomness : Option Bytes) : Except TransportError (Bytes × Bytes) :=
  if Kem.accepts key = true then
    match randomness with
    | some drawn => .ok (Kem.encapsulate key drawn)
    | none => .error .noRandomness
  else .error .badKey

structure Initiator where
  eph : Ephemeral
  transcript : Transcript
deriving DecidableEq

structure Responder where
  eph : Ephemeral
  transcript : Transcript
  ssR : Bytes
  peerPubkey : Bytes
  peerLegacy : Bytes
deriving DecidableEq

def Initiator.start (seed : Option Bytes) : Except TransportError (Initiator × Bytes) := do
  let eph ← ephemeral seed
  let transcript : Transcript := Transcript.new ctx ++ [(4, eph.ek), (5, me.pubkey), (6, me.legacyId)]
  .ok (⟨eph, transcript⟩, version :: tInit :: (eph.ek ++ me.pubkey ++ me.legacyId))

def initLens : List Nat := [ekLen, pkLen, legacyNodeIdLen]
def respLens : List Nat := [ekLen, ctLen, pkLen, legacyNodeIdLen, sigLen]
def finLens : List Nat := [ctLen, sigLen]

/-- The session of an initiator, its peer and its `Fin` frame. -/
def Initiator.tryFinish (initiator : Initiator) (me : NodeIdentity) (resp : Bytes)
    (randomness : Option Bytes) : Except TransportError (Session × Peer × Bytes) := do
  match ← fields resp tResp respLens with
  | [ekR, ctR, pkR, legacyR, sigR] =>
    if pkR = me.pubkey then .error .reflected
    else
      let second : Transcript := initiator.transcript ++ [(7, ekR), (8, ctR), (9, pkR), (10, legacyR)]
      verifyTranscript pkR .responder second.value sigR
      let (ctI, ssI) ← encapsulate ekR randomness
      let ssR := Kem.decapsulate initiator.eph.seed ctR
      let third : Transcript := second ++ [(11, sigR), (12, ctI)]
      let sigI := me.sign (signedMessage .initiator third.value)
      let final : Transcript := third ++ [(13, sigI)]
      let (trafficI, trafficR, binding) := sessionSecrets ssR ssI final.value
      .ok (Session.new trafficI trafficR binding, ⟨pkR, nodeId pkR, legacyR, binding⟩,
        version :: tFin :: (ctI ++ sigI))
  | _ => .error .malformed

def Responder.accept (init : Bytes) (randomness seed : Option Bytes) :
    Except TransportError (Responder × Bytes) := do
  match ← fields init tInit initLens with
  | [ekI, pkI, legacyI] =>
    if pkI = me.pubkey then .error .reflected
    else
      let (ctR, ssR) ← encapsulate ekI randomness
      let eph ← ephemeral seed
      let second : Transcript := Transcript.new ctx ++ [(4, ekI), (5, pkI), (6, legacyI)] ++
        [(7, eph.ek), (8, ctR), (9, me.pubkey), (10, me.legacyId)]
      let sigR := me.sign (signedMessage .responder second.value)
      .ok (⟨eph, second ++ [(11, sigR)], ssR, pkI, legacyI⟩,
        version :: tResp :: (eph.ek ++ ctR ++ me.pubkey ++ me.legacyId ++ sigR))
  | _ => .error .malformed

/-- The session of a responder and its peer. -/
def Responder.finish (responder : Responder) (fin : Bytes) :
    Except TransportError (Session × Peer) := do
  match ← fields fin tFin finLens with
  | [ctI, sigI] =>
    let third : Transcript := responder.transcript ++ [(12, ctI)]
    verifyTranscript responder.peerPubkey .initiator third.value sigI
    let ssI := Kem.decapsulate responder.eph.seed ctI
    let final : Transcript := third ++ [(13, sigI)]
    let (trafficI, trafficR, binding) := sessionSecrets responder.ssR ssI final.value
    .ok (Session.new trafficR trafficI binding,
      ⟨responder.peerPubkey, nodeId responder.peerPubkey, responder.peerLegacy, binding⟩)
  | _ => .error .malformed

end

end Functions

/-! ## Frames and transcripts -/

variable {parts : List Bytes} {lengths : List Nat} {frame : Bytes} {kind : UInt8}

theorem splitLengths_flatten (parts : List Bytes) (sized : parts.map List.length = lengths) :
    lengths.splitLengths parts.flatten = parts := by
  subst sized
  induction parts with
  | nil => rfl
  | cons part rest ih =>
    rw [map_cons, splitLengths_cons, flatten_cons, take_left, drop_left, ih]

theorem fields_eq_ok : fields frame kind lengths = .ok parts ↔
      frame = version :: kind :: parts.flatten ∧ parts.map List.length = lengths := by
  constructor
  · intro split
    unfold fields at split
    split_ifs at split with shape
    cases split
    simp only [not_or, not_not] at shape
    obtain ⟨size, first, second⟩ := shape
    match frame, first, second with
    | _ :: _ :: rest, rfl, rfl =>
      have whole : rest.length = lengths.sum := by
        simp only [length_cons] at size
        omega
      refine ⟨?_, map_splitLengths_length _ _ whole.ge⟩
      change _ = version :: kind :: (lengths.splitLengths rest).flatten
      rw [flatten_splitLengths _ _ whole.le]
  · rintro ⟨rfl, sized⟩
    have size : (version :: kind :: parts.flatten).length = 2 + lengths.sum := by
      rw [length_cons, length_cons, length_flatten, sized]
      omega
    unfold fields
    rw [if_neg (by simp [size])]
    exact congrArg Except.ok (splitLengths_flatten parts sized)

theorem fields_parts (split : fields frame kind lengths = .ok parts) :
    lengths.splitLengths (frame.drop 2) = parts := by
  unfold fields at split
  split_ifs at split
  cases split
  rfl

theorem encodeField_append_inj {first second : UInt8 × Bytes} {before after : Bytes}
    (firstFits : first.2.length < 2 ^ 32) (secondFits : second.2.length < 2 ^ 32)
    (same : encodeField first ++ before = encodeField second ++ after) :
    first = second ∧ before = after := by
  obtain ⟨label, content⟩ := first
  simp only [encodeField, cons_append, append_assoc, List.cons.injEq] at same
  obtain ⟨rfl, same⟩ := same
  obtain ⟨counts, rest⟩ := append_inj same (by rw [leBytes_length, leBytes_length])
  have lengths := leBytes_injective (by simpa using firstFits) (by simpa using secondFits) counts
  obtain ⟨rfl, tails⟩ := append_inj rest lengths
  exact ⟨rfl, tails⟩

theorem Transcript.encode_injective {first second : Transcript}
    (firstFits : ∀ entry ∈ first, entry.2.length < 2 ^ 32)
    (secondFits : ∀ entry ∈ second, entry.2.length < 2 ^ 32)
    (same : first.encode = second.encode) : first = second := by
  induction first generalizing second with
  | nil =>
    cases second with
    | nil => rfl
    | cons entry rest => simp [Transcript.encode, encodeField] at same
  | cons entry rest ih =>
    cases second with
    | nil => simp [Transcript.encode, encodeField] at same
    | cons other others =>
      obtain ⟨rfl, tails⟩ := encodeField_append_inj (firstFits _ (.head _))
        (secondFits _ (.head _)) same
      rw [ih (fun _ member => firstFits _ (.tail _ member))
        (fun _ member => secondFits _ (.tail _ member)) tails]

/-- All that two ends exchange, with what they know before. -/
structure Exchange where
  ctx : Context
  ekI : Bytes
  pkI : Bytes
  legacyI : Bytes
  ekR : Bytes
  ctR : Bytes
  pkR : Bytes
  legacyR : Bytes
  sigR : Bytes
  ctI : Bytes
  sigI : Bytes
deriving DecidableEq

namespace Exchange

section
variable (exchange : Exchange)

/-- What the responder signs. -/
def second : Transcript :=
  Transcript.new exchange.ctx ++ [(4, exchange.ekI), (5, exchange.pkI), (6, exchange.legacyI)] ++
    [(7, exchange.ekR), (8, exchange.ctR), (9, exchange.pkR), (10, exchange.legacyR)]

/-- What the initiator signs. -/
def third : Transcript :=
  exchange.second ++ [(11, exchange.sigR), (12, exchange.ctI)]

def final : Transcript := exchange.third ++ [(13, exchange.sigI)]

/-- The fields of each frame. -/
def initParts : List Bytes := [exchange.ekI, exchange.pkI, exchange.legacyI]

def respParts : List Bytes :=
  [exchange.ekR, exchange.ctR, exchange.pkR, exchange.legacyR, exchange.sigR]

def finParts : List Bytes := [exchange.ctI, exchange.sigI]

/-- The exchange that frames stand for. -/
def ofFrames (ctx : Context) (init resp fin : Bytes) : Exchange :=
  let inits := initLens.splitLengths (init.drop 2)
  let resps := respLens.splitLengths (resp.drop 2)
  let fins := finLens.splitLengths (fin.drop 2)
  { ctx := ctx
    ekI := inits.getD 0 []
    pkI := inits.getD 1 []
    legacyI := inits.getD 2 []
    ekR := resps.getD 0 []
    ctR := resps.getD 1 []
    pkR := resps.getD 2 []
    legacyR := resps.getD 3 []
    sigR := resps.getD 4 []
    ctI := fins.getD 0 []
    sigI := fins.getD 1 [] }

end

section Parts
variable {ctx : Context} {init resp fin : Bytes}

theorem initParts_eq {ekI pkI legacyI : Bytes}
    (split : fields init tInit initLens = .ok [ekI, pkI, legacyI]) :
    (ofFrames ctx init resp fin).initParts = [ekI, pkI, legacyI] := by
  rw [initParts, ofFrames, fields_parts split]
  rfl

theorem respParts_eq {ekR ctR pkR legacyR sigR : Bytes}
    (split : fields resp tResp respLens = .ok [ekR, ctR, pkR, legacyR, sigR]) :
    (ofFrames ctx init resp fin).respParts = [ekR, ctR, pkR, legacyR, sigR] := by
  rw [respParts, ofFrames, fields_parts split]
  rfl

theorem finParts_eq {ctI sigI : Bytes} (split : fields fin tFin finLens = .ok [ctI, sigI]) :
    (ofFrames ctx init resp fin).finParts = [ctI, sigI] := by
  rw [finParts, ofFrames, fields_parts split]
  rfl

end Parts

theorem new_inj {first second : Context} (same : Transcript.new first = Transcript.new second) :
    first = second := by
  obtain ⟨network, initiatorNonce, responderNonce⟩ := first
  obtain ⟨other, otherInitiator, otherResponder⟩ := second
  simp only [Transcript.new, List.cons.injEq, Prod.mk.injEq, true_and, and_true] at same
  obtain ⟨hrps, initiators, responders⟩ := same
  have networks : network = other := by
    cases network <;> cases other <;> first | rfl | simp [Network.hrp] at hrps
  rw [networks, writeU64_selfDelimiting.injective initiators,
    writeU64_selfDelimiting.injective responders]

variable {first other : Exchange}

theorem second_inj (same : first.second = other.second) :
    first.ctx = other.ctx ∧ first.initParts = other.initParts ∧
      (first.sigR = other.sigR → first.respParts = other.respParts) := by
  obtain ⟨front, back⟩ := append_inj same rfl
  obtain ⟨contexts, opening⟩ := append_inj front rfl
  simp only [List.cons.injEq, Prod.mk.injEq, true_and, and_true] at opening back
  obtain ⟨ekI, pkI, legacyI⟩ := opening
  obtain ⟨ekR, ctR, pkR, legacyR⟩ := back
  refine ⟨new_inj contexts, ?_, fun sigR => ?_⟩
  · rw [initParts, ekI, pkI, legacyI, initParts]
  · rw [respParts, ekR, ctR, pkR, legacyR, sigR, respParts]

theorem third_inj (same : first.third = other.third)
    (signed : first.sigI = other.sigI) : first = other := by
  obtain ⟨front, back⟩ := append_inj same rfl
  simp only [List.cons.injEq, Prod.mk.injEq, true_and, and_true] at back
  obtain ⟨ctx, inits, resps⟩ := second_inj front
  have answered := resps back.1
  simp only [initParts, respParts, List.cons.injEq, and_true] at inits answered
  obtain ⟨ekI, pkI, legacyI⟩ := inits
  obtain ⟨ekR, ctR, pkR, legacyR, sigR⟩ := answered
  cases first
  congr
  exact back.2

theorem final_inj (same : first.final = other.final) : first = other := by
  obtain ⟨front, back⟩ := append_inj same rfl
  simp only [List.cons.injEq, Prod.mk.injEq, true_and, and_true] at back
  exact third_inj front back

/-- Every field taken from a frame is short. -/
theorem length_part {lengths : List Nat} (short : ∀ length ∈ lengths, length < 2 ^ 32) (bytes : Bytes)
    (index : Nat) : ((lengths.splitLengths bytes).getD index []).length < 2 ^ 32 := by
  induction lengths generalizing bytes index with
  | nil => simp
  | cons length rest ih =>
    rw [splitLengths_cons]
    cases index with
    | zero =>
      have bound := short length (.head _)
      rw [getD_cons_zero, length_take]
      omega
    | succ index =>
      exact ih (fun other member => short other (.tail _ member)) _ index

theorem ofFrames_bounded (ctx : Context) (init resp fin : Bytes) :
    ∀ entry ∈ (ofFrames ctx init resp fin).final, entry.2.length < 2 ^ 32 := by
  have hrp : ctx.network.hrp.length < 2 ^ 32 := by
    cases ctx.network <;> decide
  have nonce : ∀ value : UInt64, (writeU64 value).length < 2 ^ 32 := fun value => by
    rw [writeU64, leBytes_length]
    decide
  have inits := @length_part initLens (by decide) (init.drop 2)
  have resps := @length_part respLens (by decide) (resp.drop 2)
  have fins := @length_part finLens (by decide) (fin.drop 2)
  have opening : ∀ entry ∈ Transcript.new ctx, entry.2.length < 2 ^ 32 := by
    simp only [Transcript.new, forall_mem_cons]
    exact ⟨by decide, hrp, nonce _, nonce _, fun _ absent => by cases absent⟩
  simp only [final, third, second, forall_mem_append, forall_mem_cons, not_mem_nil,
    false_implies, implies_true, and_true]
  exact ⟨⟨⟨⟨opening, inits 0, inits 1, inits 2⟩, resps 0, resps 1, resps 2, resps 3⟩, resps 4,
    fins 0⟩, fins 1⟩

end Exchange

section Calls
variable [Crypto] [Sponge] [Kem] {me : NodeIdentity} {ctx : Context}
  {seed randomness : Option Bytes} {initiator : Initiator} {init resp fin : Bytes}
  {responder : Responder}

/-! ## The calls of honest parties -/

/-- An initiator that was started. -/
structure Started where
  me : NodeIdentity
  ctx : Context
  initiator : Initiator
  init : Bytes

/-- A responder that answered. -/
structure Accepted where
  me : NodeIdentity
  ctx : Context
  init : Bytes
  responder : Responder
  resp : Bytes

/-- The session of an end. -/
def Keying.endSession (keying : Keying) (role : Role) : Session :=
  Session.new (keying.root role) (keying.root role.other) keying.binding

omit [Sponge] in
theorem Initiator.start_ok (ran : Initiator.start me ctx seed = .ok (initiator, init)) :
    initiator.eph.ek = Kem.encapsulationKey initiator.eph.seed ∧
      fields init tInit initLens = .ok [initiator.eph.ek, me.pubkey, me.legacyId] ∧
      initiator.transcript = Transcript.new ctx ++
        [(4, initiator.eph.ek), (5, me.pubkey), (6, me.legacyId)] := by
  cases seed with
  | none => cases ran
  | some seed =>
    cases ran
    refine ⟨rfl, fields_eq_ok.mpr ⟨by simp, ?_⟩, rfl⟩
    simp [Kem.length_encapsulationKey, me.length_pubkey, me.length_legacyId, initLens]

omit [Kem] in
theorem verifyTranscript_ok {pubkey transcript signature : Bytes} {role : Role}
    (checked : verifyTranscript pubkey role transcript signature = .ok ()) :
    verify .mlDsa87 pubkey (signedMessage role transcript) signature = .ok () := by
  unfold verifyTranscript at checked
  split at checked
  · assumption
  · cases checked

omit [Crypto] [Sponge] in
theorem encapsulate_ok {key ciphertext secret : Bytes}
    (ran : encapsulate key randomness = .ok (ciphertext, secret)) :
    ∃ drawn, randomness = some drawn ∧ Kem.encapsulate key drawn = (ciphertext, secret) := by
  unfold encapsulate at ran
  split_ifs at ran
  cases randomness with
  | none => cases ran
  | some drawn => exact ⟨drawn, rfl, Except.ok.inj ran⟩

/-- What an initiator that finished has checked and made. -/
structure InitiatorEnds (initiator : Initiator) (me : NodeIdentity) (exchange : Exchange)
    (resp fin drawn : Bytes) (session : Session) (peer : Peer) (keying : Keying) : Prop where
  resp : fields resp tResp respLens = .ok exchange.respParts
  fin : fields fin tFin finLens = .ok exchange.finParts
  other : exchange.pkR ≠ me.pubkey
  checked : verify .mlDsa87 exchange.pkR (signedMessage .responder exchange.second.value)
    exchange.sigR = .ok ()
  ciphertext : exchange.ctI = (Kem.encapsulate exchange.ekR drawn).1
  signed : exchange.sigI = me.sign (signedMessage .initiator exchange.third.value)
  keyed : keying = ⟨Kem.decapsulate initiator.eph.seed exchange.ctR,
    (Kem.encapsulate exchange.ekR drawn).2, exchange.final.value⟩
  session : session = keying.endSession .initiator
  peer : peer = ⟨exchange.pkR, nodeId exchange.pkR, exchange.legacyR, keying.binding⟩

theorem Initiator.tryFinish_ok {session : Session} {peer : Peer}
    (opening : initiator.transcript = Transcript.new ctx ++
      [(4, (Exchange.ofFrames ctx init resp fin).ekI), (5, (Exchange.ofFrames ctx init resp fin).pkI),
        (6, (Exchange.ofFrames ctx init resp fin).legacyI)])
    (ran : initiator.tryFinish me resp randomness = .ok (session, peer, fin)) :
    ∃ drawn keying, randomness = some drawn ∧
      InitiatorEnds initiator me (.ofFrames ctx init resp fin) resp fin drawn session peer keying := by
  unfold Initiator.tryFinish at ran
  cases split : fields resp tResp respLens with
  | error problem =>
    rw [split] at ran
    cases ran
  | ok parts =>
    rw [split] at ran
    simp only [bind, Except.bind] at ran
    split at ran
    · rename_i ekR ctR pkR legacyR sigR
      split_ifs at ran with same
      split at ran
      · cases ran
      · rename_i checked
        split at ran
        · cases ran
        · rename_i pair made
          obtain ⟨ctI, ssI⟩ := pair
          obtain ⟨drawn, rfl, encapsulated⟩ := encapsulate_ok made
          simp only [Except.ok.injEq, Prod.mk.injEq] at ran
          obtain ⟨sessioned, peered, finished⟩ := ran
          have sizes : [ctI, me.sign (signedMessage .initiator (Transcript.value
              (initiator.transcript ++ [(7, ekR), (8, ctR), (9, pkR), (10, legacyR)] ++
                [(11, sigR), (12, ctI)])))].map List.length = finLens := by
            have sized := Kem.length_ciphertext ekR drawn
            rw [encapsulated] at sized
            simp [sized, me.length_sign, finLens]
          have ends : fields fin tFin finLens = .ok [ctI, _] :=
            fields_eq_ok.mpr ⟨by rw [← finished]; simp, sizes⟩
          have resps : (Exchange.ofFrames ctx init resp fin).respParts = _ :=
            Exchange.respParts_eq split
          have fins : (Exchange.ofFrames ctx init resp fin).finParts = _ :=
            Exchange.finParts_eq ends
          have context : (Exchange.ofFrames ctx init resp fin).ctx = ctx := rfl
          generalize Exchange.ofFrames ctx init resp fin = exchange at opening resps fins context ⊢
          rw [← fins] at ends
          simp only [Exchange.respParts, Exchange.finParts, List.cons.injEq, and_true] at resps fins
          obtain ⟨rfl, rfl, rfl, rfl, rfl⟩ := resps
          obtain ⟨rfl, signed⟩ := fins
          have second : initiator.transcript ++ [(7, exchange.ekR), (8, exchange.ctR),
              (9, exchange.pkR), (10, exchange.legacyR)] = exchange.second := by
            rw [opening, ← context]
            rfl
          rw [second] at checked signed sessioned peered
          rw [← signed] at sessioned peered
          refine ⟨drawn, _, rfl, split, ends, same, verifyTranscript_ok checked, ?_, signed, rfl,
            ?_, ?_⟩
          · rw [encapsulated]
          · rw [encapsulated]
            exact sessioned.symm
          · rw [encapsulated]
            exact peered.symm
    · cases ran

/-- What a responder that answered has checked and made. -/
structure ResponderAnswers (me : NodeIdentity) (responder : Responder) (exchange : Exchange)
    (init resp drawn : Bytes) : Prop where
  init : fields init tInit initLens = .ok exchange.initParts
  resp : fields resp tResp respLens = .ok exchange.respParts
  other : exchange.pkI ≠ me.pubkey
  mine : exchange.pkR = me.pubkey
  key : exchange.ekR = responder.eph.ek
  drawnKey : responder.eph.ek = Kem.encapsulationKey responder.eph.seed
  encapsulated : Kem.encapsulate exchange.ekI drawn = (exchange.ctR, responder.ssR)
  signed : exchange.sigR = me.sign (signedMessage .responder exchange.second.value)
  transcript : responder.transcript = exchange.second ++ [(11, exchange.sigR)]
  peerPubkey : responder.peerPubkey = exchange.pkI
  peerLegacy : responder.peerLegacy = exchange.legacyI

theorem Responder.accept_ok
    (ran : Responder.accept me ctx init randomness seed = .ok (responder, resp)) :
    ∃ drawn, randomness = some drawn ∧ seed = some responder.eph.seed ∧ ∀ fin,
      ResponderAnswers me responder (.ofFrames ctx init resp fin) init resp drawn := by
  unfold Responder.accept at ran
  cases split : fields init tInit initLens with
  | error problem =>
    rw [split] at ran
    cases ran
  | ok parts =>
    rw [split] at ran
    simp only [bind, Except.bind] at ran
    split at ran
    · rename_i ekI pkI legacyI
      split_ifs at ran with same
      split at ran
      · cases ran
      · rename_i pair made
        obtain ⟨ctR, ssR⟩ := pair
        obtain ⟨drawn, rfl, encapsulated⟩ := encapsulate_ok made
        cases seed with
        | none => cases ran
        | some seed =>
          simp only [ephemeral, Except.ok.injEq, Prod.mk.injEq] at ran
          obtain ⟨made, answered⟩ := ran
          refine ⟨drawn, rfl, by rw [← made], fun fin => ?_⟩
          have sizes : [Kem.encapsulationKey seed, ctR, me.pubkey, me.legacyId,
              me.sign (signedMessage .responder (Transcript.value (Transcript.new ctx ++
                [(4, ekI), (5, pkI), (6, legacyI)] ++ [(7, Kem.encapsulationKey seed), (8, ctR),
                  (9, me.pubkey), (10, me.legacyId)])))].map List.length = respLens := by
            have sized := Kem.length_ciphertext ekI drawn
            rw [encapsulated] at sized
            simp [sized, me.length_sign, me.length_pubkey, me.length_legacyId, respLens,
              Kem.length_encapsulationKey]
          have ends : fields resp tResp respLens = .ok [Kem.encapsulationKey seed, ctR, me.pubkey,
              me.legacyId, _] := fields_eq_ok.mpr ⟨by rw [← answered]; simp, sizes⟩
          have inits : (Exchange.ofFrames ctx init resp fin).initParts = _ :=
            Exchange.initParts_eq split
          have resps : (Exchange.ofFrames ctx init resp fin).respParts = _ :=
            Exchange.respParts_eq ends
          have context : (Exchange.ofFrames ctx init resp fin).ctx = ctx := rfl
          generalize Exchange.ofFrames ctx init resp fin = exchange at inits resps context ⊢
          rw [← resps] at ends
          simp only [Exchange.respParts, Exchange.initParts, List.cons.injEq, and_true]
            at inits resps
          obtain ⟨rfl, rfl, rfl⟩ := inits
          obtain ⟨key, rfl, mine, legacy, signed⟩ := resps
          have second : Transcript.new ctx ++ [(4, exchange.ekI), (5, exchange.pkI),
              (6, exchange.legacyI)] ++ [(7, Kem.encapsulationKey seed), (8, exchange.ctR),
                (9, me.pubkey), (10, me.legacyId)] = exchange.second := by
            rw [← context, ← key, ← mine, ← legacy]
            rfl
          rw [second] at made signed
          rw [← signed] at made
          subst made
          exact ⟨split, ends, same, mine, key, rfl, encapsulated, signed, rfl, rfl, rfl⟩
    · cases ran

/-- What a responder's session is keyed with. -/
def Responder.keying (responder : Responder) (exchange : Exchange) : Keying :=
  ⟨responder.ssR, Kem.decapsulate responder.eph.seed exchange.ctI, exchange.final.value⟩

theorem Responder.finish_split {outcome : Session × Peer} (ran : responder.finish fin = .ok outcome) :
    ∃ ctI sigI, fields fin tFin finLens = .ok [ctI, sigI] := by
  unfold Responder.finish at ran
  cases split : fields fin tFin finLens with
  | error problem =>
    rw [split] at ran
    cases ran
  | ok parts =>
    rw [split] at ran
    simp only [bind, Except.bind] at ran
    split at ran
    · exact ⟨_, _, rfl⟩
    · cases ran

/-- A responder finishes exactly when the initiator's signature verifies. -/
theorem ResponderAnswers.finish_eq {exchange : Exchange} {drawn : Bytes}
    (answers : ResponderAnswers me responder exchange init resp drawn)
    (split : fields fin tFin finLens = .ok exchange.finParts) :
    responder.finish fin =
      (verifyTranscript exchange.pkI .initiator exchange.third.value exchange.sigI).map fun _ =>
        ((responder.keying exchange).endSession .responder,
          ⟨exchange.pkI, nodeId exchange.pkI, exchange.legacyI,
            (responder.keying exchange).binding⟩) := by
  have third : responder.transcript ++ [(12, exchange.ctI)] = exchange.third := by
    rw [answers.transcript, append_assoc]
    rfl
  rw [Responder.finish, split]
  simp only [bind, Except.bind, Exchange.finParts]
  rw [answers.peerPubkey, answers.peerLegacy, third]
  cases verifyTranscript exchange.pkI .initiator exchange.third.value exchange.sigI with
  | error | ok => rfl

end Calls

end Q21Formal.Transport

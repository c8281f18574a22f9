import Q21Formal.Transport.Exchange

/-!
# Agreement of the handshake

Honest parties run handshakes, and whatever reaches them comes from an adversary.  A history lists
their calls, the latest first.  A signature that verifies under an honest key was made earlier by
its holder; no two transcripts, signed messages or derived keys collide.  Each end's transcript then
pins down the call of the other end.
-/

namespace Q21Formal.Transport
open Library.Codec Primitives List

section Calls
variable [Crypto] [Sponge] [Kem] {event : Event} {initiator : Initiator} {me : NodeIdentity}
  {init fin drawn : Bytes} {session : Session} {peer : Peer}

/-- A call of an honest party that returned, or an answer it refused. -/
inductive Event where
  | started (opening : Started)
  | accepted (answer : Accepted)
  | initiated (opening : Started) (resp drawn fin : Bytes) (session : Session) (peer : Peer)
  | refused (opening : Started) (resp : Bytes) (error : TransportError)
  | responded (answer : Accepted) (fin : Bytes) (session : Session) (peer : Peer)

/-- A signature with its key, the role it is for and the transcript it is over. -/
structure Signed where
  pubkey : Bytes
  role : Role
  transcript : Bytes
  signature : Bytes

namespace Event

/-- The exchange up to the responder's signature. -/
def offer : Event → Option Exchange
  | .accepted answer => some (.ofFrames answer.ctx answer.init answer.resp [])
  | .initiated opening resp _ fin _ _ => some (.ofFrames opening.ctx opening.init resp fin)
  | .responded answer fin _ _ => some (.ofFrames answer.ctx answer.init answer.resp fin)
  | .started _ | .refused .. => none

/-- The whole exchange, as an end that finished knows it. -/
def exchange : Event → Option Exchange
  | .accepted _ => none
  | event => event.offer

/-- The signature a call made. -/
def signs : Event → Option Signed
  | .accepted answer =>
    let exchange := Exchange.ofFrames answer.ctx answer.init answer.resp []
    some ⟨answer.me.pubkey, .responder, exchange.second.value, exchange.sigR⟩
  | .initiated opening resp _ fin _ _ =>
    let exchange := Exchange.ofFrames opening.ctx opening.init resp fin
    some ⟨opening.me.pubkey, .initiator, exchange.third.value, exchange.sigI⟩
  | _ => none

/-- The signature a call accepted. -/
def checks : Event → Option Signed
  | .initiated opening resp _ fin _ _ =>
    let exchange := Exchange.ofFrames opening.ctx opening.init resp fin
    some ⟨exchange.pkR, .responder, exchange.second.value, exchange.sigR⟩
  | .responded answer fin _ _ =>
    let exchange := Exchange.ofFrames answer.ctx answer.init answer.resp fin
    some ⟨exchange.pkI, .initiator, exchange.third.value, exchange.sigI⟩
  | _ => none

/-- What the session of an end is keyed with. -/
def keying : Event → Option Keying
  | .initiated opening resp drawn fin _ _ =>
    let exchange := Exchange.ofFrames opening.ctx opening.init resp fin
    some ⟨Kem.decapsulate opening.initiator.eph.seed exchange.ctR,
      (Kem.encapsulate exchange.ekR drawn).2, exchange.final.value⟩
  | .responded answer fin _ _ =>
    some (answer.responder.keying (.ofFrames answer.ctx answer.init answer.resp fin))
  | _ => none

/-- The encapsulation key a call drew. -/
def drawnKey : Event → Option Bytes
  | .started opening => some opening.initiator.eph.ek
  | .accepted answer => some answer.responder.eph.ek
  | _ => none

/-- The ciphertext a call made. -/
def ciphertext : Event → Option Bytes
  | .accepted answer => some (Exchange.ofFrames answer.ctx answer.init answer.resp []).ctR
  | .initiated opening resp _ fin _ _ =>
    some (Exchange.ofFrames opening.ctx opening.init resp fin).ctI
  | _ => none

end Event

/-- A call an honest party can make after the calls of a history. -/
inductive Happens (honest : Set NodeIdentity) (history : List Event) : Event → Prop where
  | started {me : NodeIdentity} {ctx : Context} {seed : Option Bytes} {initiator : Initiator}
      {init : Bytes} (known : me ∈ honest)
      (ran : Initiator.start me ctx seed = .ok (initiator, init)) :
      Happens honest history (.started ⟨me, ctx, initiator, init⟩)
  | accepted {me : NodeIdentity} {ctx : Context} {init resp : Bytes}
      {randomness seed : Option Bytes} {responder : Responder} (known : me ∈ honest)
      (ran : Responder.accept me ctx init randomness seed = .ok (responder, resp)) :
      Happens honest history (.accepted ⟨me, ctx, init, responder, resp⟩)
  | initiated {opening : Started} {resp drawn fin : Bytes} {session : Session} {peer : Peer}
      (known : .started opening ∈ history)
      (ran : opening.initiator.tryFinish opening.me resp (some drawn) = .ok (session, peer, fin)) :
      Happens honest history (.initiated opening resp drawn fin session peer)
  | refused {opening : Started} {resp : Bytes} {randomness : Option Bytes} {error : TransportError}
      (known : .started opening ∈ history)
      (ran : opening.initiator.tryFinish opening.me resp randomness = .error error) :
      Happens honest history (.refused opening resp error)
  | responded {answer : Accepted} {fin : Bytes} {session : Session} {peer : Peer}
      (known : .accepted answer ∈ history)
      (unused : ∀ fin session peer, .responded answer fin session peer ∉ history)
      (ran : answer.responder.finish fin = .ok (session, peer)) :
      Happens honest history (.responded answer fin session peer)

/-- The signature a call accepted under an honest key was made by its holder. -/
def Unforged (honest : Set NodeIdentity) (history : List Event) (event : Event) : Prop :=
  ∀ checked, event.checks = some checked → ∀ me ∈ honest, checked.pubkey = me.pubkey →
    ∃ earlier ∈ history, ∃ made, earlier.signs = some made ∧ made.pubkey = checked.pubkey ∧
      signedMessage made.role made.transcript = signedMessage checked.role checked.transcript ∧
      made.signature = checked.signature

/-- The calls of honest parties, the latest first, none of them fooled by a forgery. -/
inductive History (honest : Set NodeIdentity) : List Event → Prop where
  | nil : History honest []
  | cons {history : List Event} {event : Event} (before : History honest history)
      (happens : Happens honest history event) (unforged : Unforged honest history event) :
      History honest (event :: history)

/-- Nothing hashed, signed or derived in a history collides, and no randomness comes twice. -/
structure Ideal (history : List Event) : Prop where
  offers : ∀ first ∈ history, ∀ second ∈ history, ∀ exchange other,
    first.offer = some exchange → second.offer = some other →
      exchange.second.value = other.second.value → exchange.second.encode = other.second.encode
  transcripts : ∀ first ∈ history, ∀ second ∈ history, ∀ exchange other,
    first.exchange = some exchange → second.exchange = some other →
      (exchange.third.value = other.third.value → exchange.third.encode = other.third.encode) ∧
      (exchange.final.value = other.final.value → exchange.final.encode = other.final.encode)
  messages : ∀ first ∈ history, ∀ second ∈ history, ∀ made checked,
    first.signs = some made → second.checks = some checked →
      signedMessage made.role made.transcript = signedMessage checked.role checked.transcript →
        made.role = checked.role ∧ made.transcript = checked.transcript
  keys : ∀ first ∈ history, ∀ second ∈ history, ∀ keying other,
    first.keying = some keying → second.keying = some other → ∀ role side,
      (keying.root role = other.root side → role = side ∧ keying = other) ∧
      (keying.binding = other.binding → keying = other) ∧ keying.root role ≠ other.binding
  drawnKeys : (history.filterMap Event.drawnKey).Nodup
  ciphertexts : (history.filterMap Event.ciphertext).Nodup

variable {exchange : Exchange}

omit [Sponge] [Kem] in
theorem Event.offer_bounded (known : event.offer = some exchange) :
    ∀ entry ∈ exchange.final, entry.2.length < 2 ^ 32 := by
  cases event with
  | started | refused => cases known
  | accepted answer =>
    cases known
    exact Exchange.ofFrames_bounded _ _ _ _
  | initiated opening resp drawn fin session peer =>
    cases known
    exact Exchange.ofFrames_bounded _ _ _ _
  | responded answer fin session peer =>
    cases known
    exact Exchange.ofFrames_bounded _ _ _ _

omit [Sponge] [Kem] in
theorem Event.offer_of_exchange (known : event.exchange = some exchange) :
    event.offer = some exchange := by
  cases event with
  | accepted answer => cases known
  | started | refused | initiated | responded => exact known

section Determined
variable {history : List Event} {first other : Event} {exchange exchange' : Exchange}

section
variable (ideal : Ideal history) (here : first ∈ history) (there : other ∈ history)
include ideal here there

theorem Ideal.second_eq (known : first.offer = some exchange)
    (known' : other.offer = some exchange') (same : exchange.second.value = exchange'.second.value) :
    exchange.second = exchange'.second :=
  Transcript.encode_injective
    (fun _ member => Event.offer_bounded known _ (by simp [Exchange.final, Exchange.third, member]))
    (fun _ member => Event.offer_bounded known' _ (by simp [Exchange.final, Exchange.third, member]))
    (ideal.offers _ here _ there _ _ known known' same)

section
variable (known : first.exchange = some exchange) (known' : other.exchange = some exchange')
include known known'

theorem Ideal.third_eq (same : exchange.third.value = exchange'.third.value) :
    exchange.third = exchange'.third :=
  Transcript.encode_injective (fun _ member => Event.offer_bounded (Event.offer_of_exchange known) _
      (by simp [Exchange.final, member]))
    (fun _ member => Event.offer_bounded (Event.offer_of_exchange known') _
      (by simp [Exchange.final, member]))
    ((ideal.transcripts _ here _ there _ _ known known').1 same)

theorem Ideal.exchange_eq (same : exchange.final.value = exchange'.final.value) :
    exchange = exchange' :=
  Exchange.final_inj (Transcript.encode_injective
    (Event.offer_bounded (Event.offer_of_exchange known))
    (Event.offer_bounded (Event.offer_of_exchange known'))
    ((ideal.transcripts _ here _ there _ _ known known').2 same))

end

end

omit [Crypto] [Sponge] [Kem] in
/-- Entries at different places pick different values. -/
theorem filterMap_apart {α β : Type} {pick : α → Option β} {items : List α}
    (nodup : (items.filterMap pick).Nodup) :
    items.Pairwise fun one two => ∀ value, pick one = some value → pick two ≠ some value := by
  refine (pairwise_filterMap.mp nodup).imp fun {one two} apart value drew drew' => ?_
  exact apart value drew value drew' rfl

/-- An encapsulation key was drawn by one call. -/
theorem Ideal.drawn_once (ideal : Ideal history) (here : first ∈ history) (there : other ∈ history)
    {key : Bytes} (drew : first.drawnKey = some key) (drew' : other.drawnKey = some key) :
    first = other := by
  by_contra distinct
  have apart := filterMap_apart ideal.drawnKeys
  have symmetric : Std.Symm fun one two : Event =>
      ∀ value, one.drawnKey = some value → two.drawnKey ≠ some value :=
    ⟨fun _ _ apart value drew drew' => apart value drew' drew⟩
  exact apart.forall here there distinct key drew drew'

end Determined

omit [Sponge] [Kem] [Crypto] in
theorem frame_eq {frame frame' : Bytes} {kind : UInt8} {lengths : List Nat} {parts : List Bytes}
    (split : fields frame kind lengths = .ok parts)
    (split' : fields frame' kind lengths = .ok parts) : frame = frame' := by
  rw [(fields_eq_ok.mp split).1, (fields_eq_ok.mp split').1]

/-! ## What the calls of a history have checked -/

namespace History

variable {honest : Set NodeIdentity} {history : List Event} {opening : Started} {answer : Accepted}

section
variable (run : History honest history)
include run

theorem happened {before : List Event} (now : event :: before <:+ history) :
    Happens honest before event ∧ Unforged honest before event := by
  induction run with
  | nil => cases suffix_nil.mp now
  | cons earlier happens unforged ih =>
    rcases suffix_cons_iff.mp now with same | old
    · cases same
      exact ⟨happens, unforged⟩
    · exact ih old

omit [Sponge] [Kem] run in
theorem exists_before (member : event ∈ history) : ∃ before, event :: before <:+ history := by
  obtain ⟨later, before, rfl⟩ := append_of_mem member
  exact ⟨before, suffix_append later _⟩

theorem started_ok (member : .started opening ∈ history) :
    opening.me ∈ honest ∧
      opening.initiator.eph.ek = Kem.encapsulationKey opening.initiator.eph.seed ∧
      ∀ resp fin, let exchange := Exchange.ofFrames opening.ctx opening.init resp fin
        fields opening.init tInit initLens = .ok exchange.initParts ∧
          exchange.ekI = opening.initiator.eph.ek ∧ exchange.pkI = opening.me.pubkey ∧
          exchange.legacyI = opening.me.legacyId ∧
          opening.initiator.transcript = Transcript.new opening.ctx ++
            [(4, exchange.ekI), (5, exchange.pkI), (6, exchange.legacyI)] := by
  obtain ⟨_, now⟩ := exists_before member
  cases (run.happened now).1 with
  | @started me ctx seed initiator init known ran =>
    obtain ⟨drawn, split, transcript⟩ := Initiator.start_ok ran
    refine ⟨known, drawn, fun resp fin => ?_⟩
    have inits : (Exchange.ofFrames ctx init resp fin).initParts = _ :=
      Exchange.initParts_eq split
    have parts := inits
    simp only [Exchange.initParts, List.cons.injEq, and_true] at parts
    obtain ⟨key, mine, legacy⟩ := parts
    exact ⟨split.trans (congrArg Except.ok inits.symm), key, mine, legacy,
      by rw [key, mine, legacy]; exact transcript⟩

theorem accepted_ok (member : .accepted answer ∈ history) :
    answer.me ∈ honest ∧ ∃ drawn, ∀ fin, ResponderAnswers answer.me answer.responder
        (.ofFrames answer.ctx answer.init answer.resp fin) answer.init answer.resp drawn := by
  obtain ⟨_, now⟩ := exists_before member
  cases (run.happened now).1 with
  | accepted known ran =>
    obtain ⟨drawn, -, -, answers⟩ := Responder.accept_ok ran
    exact ⟨known, drawn, answers⟩

theorem initiated_ok {resp drawn : Bytes}
    (member : .initiated opening resp drawn fin session peer ∈ history) :
    .started opening ∈ history ∧ ∃ keying,
      (Event.initiated opening resp drawn fin session peer).keying = some keying ∧
      InitiatorEnds opening.initiator opening.me (.ofFrames opening.ctx opening.init resp fin) resp
        fin drawn session peer keying := by
  obtain ⟨before, now⟩ := exists_before member
  have within : before ⊆ history := fun _ here => now.subset (.tail _ here)
  cases (run.happened now).1 with
  | initiated known ran =>
    obtain ⟨-, -, started⟩ := run.started_ok (within known)
    obtain ⟨_, keying, same, ends⟩ :=
      Initiator.tryFinish_ok (started resp fin).2.2.2.2 ran
    cases same
    exact ⟨within known, keying, congrArg some ends.keyed.symm, ends⟩

theorem responded_ok (member : .responded answer fin session peer ∈ history) :
    let exchange := Exchange.ofFrames answer.ctx answer.init answer.resp fin
    .accepted answer ∈ history ∧ fields fin tFin finLens = .ok exchange.finParts ∧
      session = (answer.responder.keying exchange).endSession .responder ∧
      peer = ⟨exchange.pkI, nodeId exchange.pkI, exchange.legacyI,
        (answer.responder.keying exchange).binding⟩ := by
  obtain ⟨before, now⟩ := exists_before member
  have within : before ⊆ history := fun _ here => now.subset (.tail _ here)
  cases (run.happened now).1 with
  | responded known unused ran =>
    obtain ⟨-, drawn, answers⟩ := run.accepted_ok (within known)
    obtain ⟨ctI, sigI, split⟩ := Responder.finish_split ran
    have fins : (Exchange.ofFrames answer.ctx answer.init answer.resp fin).finParts = _ :=
      Exchange.finParts_eq split
    rw [← fins] at split
    rw [(answers fin).finish_eq split] at ran
    cases checked : verifyTranscript (Exchange.ofFrames answer.ctx answer.init answer.resp fin).pkI
        .initiator (Exchange.ofFrames answer.ctx answer.init answer.resp fin).third.value
        (Exchange.ofFrames answer.ctx answer.init answer.resp fin).sigI with
    | error problem =>
      rw [checked] at ran
      cases ran
    | ok done =>
      rw [checked] at ran
      cases ran
      exact ⟨within known, split, rfl, rfl⟩

end

end History

variable {other : NodeIdentity} {keying : Keying}

/-- Both ends of one exchange key their sessions alike. -/
theorem keyings_agree {responder : Responder} {resp answered : Bytes}
    (ends : InitiatorEnds initiator me exchange resp fin drawn session peer keying)
    (answers : ResponderAnswers other responder exchange init resp answered)
    (key : exchange.ekI = Kem.encapsulationKey initiator.eph.seed) :
    responder.keying exchange = keying := by
  have ssR : Kem.decapsulate initiator.eph.seed exchange.ctR = responder.ssR := by
    have correct := Kem.correct initiator.eph.seed answered
    rwa [← key, answers.encapsulated] at correct
  have ssI : Kem.decapsulate responder.eph.seed exchange.ctI =
      (Kem.encapsulate exchange.ekR drawn).2 := by
    have correct := Kem.correct responder.eph.seed drawn
    rwa [← answers.drawnKey, ← answers.key, ← ends.ciphertext] at correct
  rw [ends.keyed, Responder.keying, ssR, ssI]

/-- The session of the other end. -/
def Session.mirror (session : Session) : Session :=
  { session with send := session.recv, recv := session.send }

omit [Crypto] [Kem] in
theorem Keying.mirror_endSession (keying : Keying) (role : Role) :
    (keying.endSession role).mirror = keying.endSession role.other := by
  cases role with
  | initiator | responder => rfl

variable {honest : Set NodeIdentity}

/-- The signature a call accepted under an honest key was made by its holder, in the same role and
over the same transcript. -/
theorem History.checked_signed {history before : List Event}
    (run : History honest history) (ideal : Ideal history) (now : event :: before <:+ history)
    {checked : Signed} (accepts : event.checks = some checked) (known : me ∈ honest)
    (mine : checked.pubkey = me.pubkey) : ∃ earlier ∈ before, earlier.signs = some checked := by
  obtain ⟨earlier, member, made, signs, pubkey, message, signature⟩ :=
    (run.happened now).2 checked accepts me known mine
  obtain ⟨role, transcript⟩ := ideal.messages _ (now.subset (.tail _ member)) _
    (now.subset (.head _)) _ _ signs accepts message
  refine ⟨earlier, member, ?_⟩
  obtain ⟨_, _, _, _⟩ := made
  cases pubkey
  cases role
  cases transcript
  cases signature
  exact signs

section Agreement
variable {honest : Set NodeIdentity} {history before : List Event} {other : NodeIdentity}
  {resp fin drawn : Bytes} {session : Session} {peer : Peer} {opening : Started} {answer : Accepted}

omit [Kem] in
theorem verifyTranscript_sign (me : NodeIdentity) (role : Role) (transcript : Bytes) :
    verifyTranscript me.pubkey role transcript (me.sign (signedMessage role transcript)) =
      .ok () := by
  rw [verifyTranscript, me.verifies]

/-- On the `Fin` frame of an initiator a responder of the same exchange mirrors its session. -/
theorem InitiatorEnds.finish_eq {initiator : Initiator} {responder : Responder}
    {me : NodeIdentity} {init answered : Bytes}
    (ends : InitiatorEnds initiator me exchange resp fin drawn session peer keying)
    (answers : ResponderAnswers other responder exchange init resp answered)
    (key : exchange.ekI = Kem.encapsulationKey initiator.eph.seed) (mine : exchange.pkI = me.pubkey) :
    responder.finish fin = .ok (session.mirror,
      ⟨me.pubkey, nodeId me.pubkey, exchange.legacyI, session.binding⟩) := by
  rw [answers.finish_eq ends.fin, keyings_agree ends answers key, ends.signed, mine,
    verifyTranscript_sign, ends.session, keying.mirror_endSession]
  rfl

section
variable (run : History honest history)
include run

/-- An initiator that finished with an honest peer took a frame that peer sent in answer to it. -/
theorem History.initiator_agrees (ideal : Ideal history)
    (now : .initiated opening resp drawn fin session peer :: before <:+ history)
    (known : other ∈ honest) (theirs : peer.pubkey = other.pubkey) :
    ∃ answer, .accepted answer ∈ before ∧ answer.me.pubkey = other.pubkey ∧
      answer.ctx = opening.ctx ∧ answer.init = opening.init ∧ answer.resp = resp ∧
      answer.responder.finish fin = .ok (session.mirror,
        ⟨opening.me.pubkey, nodeId opening.me.pubkey, opening.me.legacyId, session.binding⟩) := by
  have here := now.subset (.head _)
  obtain ⟨started, keying, keyed, ends⟩ := run.initiated_ok here
  obtain ⟨-, drawnKey, opened⟩ := run.started_ok started
  obtain ⟨split, ekI, pkI, legacyI, -⟩ := opened resp fin
  rw [ends.peer] at theirs
  obtain ⟨earlier, member, signs⟩ := run.checked_signed ideal now rfl known theirs
  cases earlier with
  | started | refused | responded => cases signs
  | initiated opening resp drawn fin session peer =>
    cases congrArg Signed.role (Option.some.inj signs)
  | accepted answer =>
    have there := now.subset (.tail _ member)
    obtain ⟨-, answered, answers⟩ := run.accepted_ok there
    simp only [Event.signs, Option.some.injEq, Signed.mk.injEq, true_and] at signs
    obtain ⟨pubkey, transcript, signature⟩ := signs
    obtain ⟨ctx, inits, resps⟩ :=
      Exchange.second_inj (ideal.second_eq there here rfl rfl transcript)
    have opens := (answers []).init
    have answer_resp := (answers []).resp
    rw [inits] at opens
    rw [resps signature] at answer_resp
    replace ctx : answer.ctx = opening.ctx := ctx
    replace opens := frame_eq opens split
    replace answer_resp := frame_eq answer_resp ends.resp
    have whole := answers fin
    rw [ctx, opens, answer_resp] at whole
    have finished := ends.finish_eq whole (ekI.trans drawnKey) pkI
    rw [legacyI] at finished
    exact ⟨answer, member, pubkey.trans theirs, ctx, opens, answer_resp, finished⟩

/-- A responder that finished with an honest peer took a frame that peer sent on its answer. -/
theorem History.responder_agrees (ideal : Ideal history)
    (now : .responded answer fin session peer :: before <:+ history) (known : other ∈ honest)
    (theirs : peer.pubkey = other.pubkey) :
    ∃ opening drawn session' peer',
      .initiated opening answer.resp drawn fin session' peer' ∈ before ∧
      opening.me.pubkey = other.pubkey ∧ opening.ctx = answer.ctx ∧ opening.init = answer.init ∧
      peer'.pubkey = answer.me.pubkey ∧ session' = session.mirror ∧
      peer'.binding = peer.binding := by
  have here := now.subset (.head _)
  obtain ⟨accepted, split, keyed, peered⟩ := run.responded_ok here
  obtain ⟨-, answered, answers⟩ := run.accepted_ok accepted
  rw [peered] at theirs
  obtain ⟨earlier, member, signs⟩ := run.checked_signed ideal now rfl known theirs
  cases earlier with
  | started | refused | responded => cases signs
  | accepted answer => cases congrArg Signed.role (Option.some.inj signs)
  | initiated opening resp drawn fin' session' peer' =>
    have there := now.subset (.tail _ member)
    obtain ⟨started, keying, -, ends⟩ := run.initiated_ok there
    obtain ⟨-, drawnKey, opened⟩ := run.started_ok started
    obtain ⟨opens, ekI, pkI, -⟩ := opened resp fin'
    simp only [Event.signs, Option.some.injEq, Signed.mk.injEq, true_and] at signs
    obtain ⟨pubkey, transcript, signature⟩ := signs
    have same := Exchange.third_inj (ideal.third_eq there here rfl rfl transcript) signature
    have ctx : opening.ctx = answer.ctx := congrArg Exchange.ctx same
    rw [same] at opens ends ekI
    have init := frame_eq opens (answers fin).init
    have resp_eq := frame_eq ends.resp (answers fin).resp
    have fin_eq := frame_eq ends.fin split
    subst resp_eq fin_eq
    have agreed := keyings_agree ends (answers _) (ekI.trans drawnKey)
    refine ⟨opening, drawn, session', peer', member, pubkey.trans theirs, ctx, init, ?_, ?_, ?_⟩
    · rw [ends.peer]
      exact (answers fin').mine
    · rw [ends.session, keyed, agreed, keying.mirror_endSession]
      rfl
    · rw [ends.peer, peered, agreed]

/-- An answer to an initiator's own frame in its context is accepted whenever it comes. -/
theorem History.answer_accepted (started : .started opening ∈ history)
    (accepted : .accepted answer ∈ history) (ctx : answer.ctx = opening.ctx)
    (init : answer.init = opening.init) (drawn : Bytes) :
    ∃ fin session peer, Happens honest history
      (.initiated opening answer.resp drawn fin session peer) := by
  obtain ⟨-, -, opened⟩ := run.started_ok started
  obtain ⟨-, -, pkI, -, transcript⟩ := opened answer.resp []
  obtain ⟨-, answered, answers⟩ := run.accepted_ok accepted
  have whole := answers []
  rw [ctx, init] at whole
  have context : (Exchange.ofFrames opening.ctx opening.init answer.resp []).ctx = opening.ctx := rfl
  generalize Exchange.ofFrames opening.ctx opening.init answer.resp [] = exchange
    at pkI transcript whole context
  have second : opening.initiator.transcript ++ [(7, exchange.ekR), (8, exchange.ctR),
      (9, exchange.pkR), (10, exchange.legacyR)] = exchange.second := by
    rw [transcript, ← context]
    rfl
  have apart : exchange.pkR ≠ opening.me.pubkey := by
    rw [whole.mine, ← pkI]
    exact whole.other.symm
  have checked : verifyTranscript exchange.pkR .responder exchange.second.value exchange.sigR =
      .ok () := by
    rw [whole.mine, whole.signed, verifyTranscript_sign]
  have made : encapsulate exchange.ekR (some drawn) = .ok (Kem.encapsulate exchange.ekR drawn) := by
    rw [encapsulate, if_pos (by rw [whole.key, whole.drawnKey, Kem.accepts_encapsulationKey])]
  have ran : ∃ outcome,
      opening.initiator.tryFinish opening.me answer.resp (some drawn) = .ok outcome := by
    rw [Initiator.tryFinish, whole.resp]
    simp only [bind, Except.bind, Exchange.respParts]
    rw [if_neg apart, second, checked, made]
    exact ⟨_, rfl⟩
  obtain ⟨⟨session, peer, fin⟩, ran⟩ := ran
  exact ⟨fin, session, peer, .initiated started ran⟩

/-- A responder finishes once. -/
theorem History.responded_once :
    history.Pairwise fun later earlier => ∀ answer fin session peer fin' session' peer',
      later = .responded answer fin session peer →
        earlier ≠ .responded answer fin' session' peer' := by
  induction run with
  | nil => exact .nil
  | cons earlier happens unforged ih =>
    refine .cons (fun event member answer fin session peer fin' session' peer' last same => ?_) ih
    subst last same
    cases happens with
    | responded known unused ran => exact unused _ _ _ member

end

end Agreement

/-- An end of a session, with the frames it took and sent. -/
structure SessionEnd where
  role : Role
  ctx : Context
  init : Bytes
  resp : Bytes
  fin : Bytes
  session : Session
deriving DecidableEq

namespace SessionEnd

/-- Both ends have a secret of the handshake in common. -/
def Shares (first second : SessionEnd) : Prop :=
  first.session.binding = second.session.binding ∨
    ∃ secret ∈ [first.session.send.secret, first.session.recv.secret],
      secret ∈ [second.session.send.secret, second.session.recv.secret]

/-- The two ends of one handshake. -/
structure Matches (first second : SessionEnd) : Prop where
  role : second.role = first.role.other
  ctx : second.ctx = first.ctx
  init : second.init = first.init
  resp : second.resp = first.resp
  fin : second.fin = first.fin
  session : second.session = first.session.mirror

end SessionEnd

omit [Sponge] [Kem] in
/-- The end a call reached. -/
def Event.sessionEnd : Event → Option SessionEnd
  | .initiated opening resp _ fin session _ =>
    some ⟨.initiator, opening.ctx, opening.init, resp, fin, session⟩
  | .responded answer fin session _ =>
    some ⟨.responder, answer.ctx, answer.init, answer.resp, fin, session⟩
  | _ => none

/-- What an end was keyed with, and the frames behind it. -/
theorem History.sessionEnd_ok {history : List Event}
    (run : History honest history) (member : event ∈ history) {ended : SessionEnd}
    (reached : event.sessionEnd = some ended) :
    let exchange := Exchange.ofFrames ended.ctx ended.init ended.resp ended.fin
    ∃ keying, event.keying = some keying ∧ event.exchange = some exchange ∧
      keying.tf = exchange.final.value ∧ ended.session = keying.endSession ended.role ∧
      fields ended.init tInit initLens = .ok exchange.initParts ∧
      fields ended.resp tResp respLens = .ok exchange.respParts ∧
      fields ended.fin tFin finLens = .ok exchange.finParts := by
  cases event with
  | started | accepted | refused => cases reached
  | initiated opening resp drawn fin session peer =>
    cases reached
    obtain ⟨started, keying, keyed, ends⟩ := run.initiated_ok member
    obtain ⟨-, -, opened⟩ := run.started_ok started
    exact ⟨keying, keyed, rfl, by rw [ends.keyed], ends.session, (opened resp fin).1, ends.resp,
      ends.fin⟩
  | responded answer fin session peer =>
    cases reached
    obtain ⟨accepted, split, keyed, -⟩ := run.responded_ok member
    obtain ⟨-, answered, answers⟩ := run.accepted_ok accepted
    exact ⟨_, rfl, rfl, rfl, keyed, (answers fin).init, (answers fin).resp, split⟩

section Shared
variable {honest : Set NodeIdentity} {history : List Event} {first second : Event}
  {ended ended' : SessionEnd}

/-- Ends with a secret in common were keyed alike. -/
theorem Ideal.keying_eq (ideal : Ideal history) (here : first ∈ history) (there : second ∈ history)
    {keying' : Keying} (keyed : first.keying = some keying)
    (keyed' : second.keying = some keying') (session : ended.session = keying.endSession ended.role)
    (session' : ended'.session = keying'.endSession ended'.role) (shared : ended.Shares ended') :
    keying = keying' := by
  have apart := ideal.keys _ here _ there _ _ keyed keyed'
  rcases shared with bindings | ⟨secret, sent, received⟩
  · rw [session, session'] at bindings
    exact (apart .initiator .initiator).2.1 bindings
  · rw [session] at sent
    rw [session'] at received
    have root : ∃ role, secret = keying.root role := by
      rcases mem_pair.mp sent with rfl | rfl
      · exact ⟨_, rfl⟩
      · exact ⟨_, rfl⟩
    have root' : ∃ role, secret = keying'.root role := by
      rcases mem_pair.mp received with rfl | rfl
      · exact ⟨_, rfl⟩
      · exact ⟨_, rfl⟩
    obtain ⟨role, rfl⟩ := root
    obtain ⟨side, same⟩ := root'
    exact ((apart role side).1 same).2

/-- Ends with a secret in common belong to one exchange, and are keyed alike. -/
theorem History.shared_eq (run : History honest history) (ideal : Ideal history)
    (here : first ∈ history) (there : second ∈ history) (reached : first.sessionEnd = some ended)
    (reached' : second.sessionEnd = some ended') (shared : ended.Shares ended') :
    ended' = { ended with role := ended'.role, session := ended'.session } ∧
      ∃ keying : Keying, ended.session = keying.endSession ended.role ∧
        ended'.session = keying.endSession ended'.role := by
  obtain ⟨keying, keyed, known, final, session, init, resp, fin⟩ := run.sessionEnd_ok here reached
  obtain ⟨keying', keyed', known', final', session', init', resp', fin'⟩ :=
    run.sessionEnd_ok there reached'
  have keyings := ideal.keying_eq here there keyed keyed' session session' shared
  subst keyings
  have same := ideal.exchange_eq here there known known' (final.symm.trans final')
  refine ⟨?_, keying, session, session'⟩
  have ctx : ended.ctx = ended'.ctx := congrArg Exchange.ctx same
  rw [← same] at init' resp' fin'
  rw [ctx, frame_eq init init', frame_eq resp resp', frame_eq fin fin']

/-- Two calls that reached ends with a secret in common reached the two ends of one handshake. -/
theorem History.ends_match (run : History honest history) (ideal : Ideal history) :
    history.Pairwise fun first second => ∀ ended ended', first.sessionEnd = some ended →
      second.sessionEnd = some ended' → ended.Shares ended' → ended.Matches ended' := by
  have apart := (filterMap_apart ideal.ciphertexts).and run.responded_once
  refine apart.imp_of_mem fun {first second} here there distinct ended ended' reached reached'
    shared => ?_
  obtain ⟨fresh, once⟩ := distinct
  obtain ⟨frames, keying, session, session'⟩ :=
    run.shared_eq ideal here there reached reached' shared
  rw [SessionEnd.mk.injEq] at frames
  obtain ⟨-, ctx, init, resp, fin, -⟩ := frames
  have opposite : ended'.role = ended.role.other → ended.Matches ended' := fun role =>
    ⟨role, ctx, init, resp, fin, by rw [session', session, keying.mirror_endSession, role]⟩
  cases first with
  | started | accepted | refused => cases reached
  | initiated opening resp drawn fin session peer =>
    cases second with
    | started | accepted | refused => cases reached'
    | responded answer fin session peer =>
      cases reached
      cases reached'
      exact opposite rfl
    | initiated opening' resp' drawn' fin' session' peer' =>
      -- Each of them encapsulated anew, to a ciphertext of its own.
      cases reached
      cases reached'
      cases fin
      exact absurd rfl (fresh _ rfl)
  | responded answer fin session peer =>
    cases second with
    | started | accepted | refused => cases reached'
    | initiated opening resp drawn fin session peer =>
      cases reached
      cases reached'
      exact opposite rfl
    | responded answer' fin' session' peer' =>
      -- The answers drew the same key, so that one responder would have finished twice.
      cases reached
      cases reached'
      obtain ⟨accepted, -⟩ := run.responded_ok here
      obtain ⟨accepted', -⟩ := run.responded_ok there
      obtain ⟨-, _, answers⟩ := run.accepted_ok accepted
      obtain ⟨-, _, answers'⟩ := run.accepted_ok accepted'
      have keys : answer'.responder.eph.ek = answer.responder.eph.ek := by
        rw [← (answers []).key, ← (answers' []).key]
        exact congrArg (fun frame => (Exchange.ofFrames answer.ctx answer.init frame []).ekR) resp
      cases ideal.drawn_once accepted' accepted (congrArg some keys) rfl
      exact absurd rfl (once _ _ _ _ _ _ _ rfl)

/-- The handshake gives agreement. -/
theorem handshake_agreement (run : History honest history) (ideal : Ideal history) :
    (∀ before opening resp drawn fin session peer,
      Event.initiated opening resp drawn fin session peer :: before <:+ history →
      ∀ other ∈ honest, peer.pubkey = other.pubkey →
        ∃ answer, .accepted answer ∈ before ∧ answer.me.pubkey = other.pubkey ∧
          answer.ctx = opening.ctx ∧ answer.init = opening.init ∧ answer.resp = resp ∧
          answer.responder.finish fin = .ok (session.mirror,
            ⟨opening.me.pubkey, nodeId opening.me.pubkey, opening.me.legacyId, session.binding⟩)) ∧
    (∀ before answer fin session peer,
      Event.responded answer fin session peer :: before <:+ history →
      ∀ other ∈ honest, peer.pubkey = other.pubkey →
        ∃ opening drawn session' peer',
          .initiated opening answer.resp drawn fin session' peer' ∈ before ∧
          opening.me.pubkey = other.pubkey ∧ opening.ctx = answer.ctx ∧
          opening.init = answer.init ∧ peer'.pubkey = answer.me.pubkey ∧
          session' = session.mirror ∧ peer'.binding = peer.binding) ∧
    (history.Pairwise fun first second => ∀ ended ended', first.sessionEnd = some ended →
      second.sessionEnd = some ended' → ended.Shares ended' → ended.Matches ended') ∧
    (∀ opening answer, .started opening ∈ history → .accepted answer ∈ history →
      answer.ctx = opening.ctx → answer.init = opening.init → ∀ drawn, ∃ fin session peer,
        Happens honest history (.initiated opening answer.resp drawn fin session peer)) ∧
    ∀ before event checked, event :: before <:+ history → event.checks = some checked →
      ∀ me ∈ honest, checked.pubkey = me.pubkey →
        (∃ earlier ∈ before, earlier.signs = some checked) ∧
        ∀ earlier ∈ history, ∀ made, earlier.signs = some made → made.role ≠ checked.role →
          signedMessage made.role made.transcript ≠
            signedMessage checked.role checked.transcript := by
  refine ⟨?_, ?_, run.ends_match ideal, ?_, ?_⟩
  · intro before opening resp drawn fin session peer now other known theirs
    exact run.initiator_agrees ideal now known theirs
  · intro before answer fin session peer now other known theirs
    exact run.responder_agrees ideal now known theirs
  · intro opening answer started accepted ctx init drawn
    exact run.answer_accepted started accepted ctx init drawn
  · intro before event checked now accepts me known mine
    refine ⟨run.checked_signed ideal now accepts known mine, ?_⟩
    intro earlier member made signs other same
    exact other (ideal.messages _ member _ (now.subset (.head _)) _ _ signs accepts same).1

end Shared

/-! ## A handshake that nothing disturbs -/

/-- A responder answers the frame of an initiator with another key. -/
theorem Responder.accept_started {ctx : Context} {seed : Option Bytes}
    (ran : Initiator.start me ctx seed = .ok (initiator, init)) (apart : me.pubkey ≠ other.pubkey)
    (answered seed' : Bytes) : ∃ outcome : Responder × Bytes,
      Responder.accept other ctx init (some answered) (some seed') = .ok outcome := by
  obtain ⟨drawn, split, -⟩ := Initiator.start_ok ran
  have made : encapsulate initiator.eph.ek (some answered) =
      .ok (Kem.encapsulate initiator.eph.ek answered) := by
    rw [encapsulate, if_pos (by rw [drawn, Kem.accepts_encapsulationKey])]
  rw [Responder.accept, split]
  simp only [bind, Except.bind]
  rw [if_neg apart, made]
  exact ⟨_, rfl⟩

/-- Two honest nodes shake hands with nobody between them. -/
theorem History.undisturbed (known : me ∈ honest)
    (known' : other ∈ honest) (apart : me.pubkey ≠ other.pubkey) (ctx : Context)
    (seed seed' answered drawn : Bytes) :
    ∃ (opening : Started) (answer : Accepted) (fin : Bytes) (session session' : Session)
      (peer peer' : Peer),
      History honest [.responded answer fin session' peer',
        .initiated opening answer.resp drawn fin session peer, .accepted answer,
        .started opening] ∧
      answer.ctx = opening.ctx ∧ answer.init = opening.init ∧ peer'.pubkey = me.pubkey ∧
      opening.initiator.eph.ek = Kem.encapsulationKey seed ∧
      answer.responder.eph.ek = Kem.encapsulationKey seed' ∧
      (Exchange.ofFrames answer.ctx answer.init answer.resp []).ctR =
        (Kem.encapsulate (Kem.encapsulationKey seed) answered).1 ∧
      (Exchange.ofFrames opening.ctx opening.init answer.resp fin).ctI =
        (Kem.encapsulate (Kem.encapsulationKey seed') drawn).1 := by
  obtain ⟨opening, ran, own, context⟩ : ∃ opening : Started,
      Initiator.start me ctx (some seed) = .ok (opening.initiator, opening.init) ∧
        opening.initiator.eph.ek = Kem.encapsulationKey seed ∧
        opening = ⟨me, ctx, opening.initiator, opening.init⟩ := ⟨⟨me, ctx, _, _⟩, rfl, rfl, rfl⟩
  have first : History honest [.started opening] := by
    rw [context]
    exact .cons .nil (.started known ran) fun _ checks => by cases checks
  obtain ⟨⟨responder, resp⟩, ran'⟩ := Responder.accept_started ran apart answered seed'
  obtain ⟨_, drew, seeded, answers⟩ := Responder.accept_ok ran'
  cases drew
  have second : History honest [.accepted ⟨other, ctx, opening.init, responder, resp⟩,
      .started opening] :=
    .cons first (.accepted known' ran') fun _ checks => by cases checks
  have mine : opening.me = me ∧ opening.ctx = ctx := by rw [context]; exact ⟨rfl, rfl⟩
  obtain ⟨rfl, rfl⟩ := mine
  obtain ⟨fin, session, peer, happens⟩ := second.answer_accepted (.tail _ (.head _)) (.head _) rfl
    rfl drawn
  have third := second.cons happens fun checked checks _ _ _ => by
    cases checks
    exact ⟨_, .head _, _, rfl, (answers fin).mine.symm, rfl, rfl⟩
  obtain ⟨started, keying, -, ends⟩ := third.initiated_ok (.head _)
  obtain ⟨-, drawnKey, opened⟩ := third.started_ok started
  obtain ⟨-, ekI, pkI, -⟩ := opened resp fin
  have finished := ends.finish_eq (answers fin) (ekI.trans drawnKey) pkI
  have fourth := third.cons (.responded (.tail _ (.head _)) (by simp) finished)
    fun checked checks _ _ _ => by
      cases checks
      exact ⟨_, .head _, _, rfl, pkI.symm, rfl, rfl⟩
  refine ⟨opening, _, fin, session, _, peer, _, fourth, rfl, rfl, rfl, own, ?_, ?_, ?_⟩
  · rw [(answers []).drawnKey, ← Option.some.inj seeded]
  · have encapsulated := congrArg Prod.fst (answers []).encapsulated
    have key : (Exchange.ofFrames opening.ctx opening.init resp []).ekI =
        Kem.encapsulationKey seed := ekI.trans own
    rw [key] at encapsulated
    exact encapsulated.symm
  · rw [ends.ciphertext, (answers fin).key, (answers fin).drawnKey, ← Option.some.inj seeded]

/-- The values of an undisturbed handshake do not collide if roles sign apart and session keys
differ. -/
theorem Ideal.undisturbed {opening : Started} {answer : Accepted}
    {session' : Session} {peer' : Peer} (run : History honest [.responded answer fin session' peer',
      .initiated opening answer.resp drawn fin session peer, .accepted answer, .started opening])
    (ctx : answer.ctx = opening.ctx) (init : answer.init = opening.init)
    (keys : answer.responder.eph.ek ≠ opening.initiator.eph.ek)
    (ciphertexts : (Exchange.ofFrames opening.ctx opening.init answer.resp fin).ctI ≠
      (Exchange.ofFrames answer.ctx answer.init answer.resp []).ctR)
    (signed : ∀ first second : Transcript,
      signedMessage .responder first.value ≠ signedMessage .initiator second.value)
    (derived : ∀ (keying : Keying) role side,
      (keying.root role = keying.root side → role = side) ∧ keying.root role ≠ keying.binding) :
    Ideal [.responded answer fin session' peer',
      .initiated opening answer.resp drawn fin session peer, .accepted answer,
      .started opening] := by
  obtain ⟨started, keying, keyed, ends⟩ := run.initiated_ok (.tail _ (.head _))
  obtain ⟨-, drawnKey, opened⟩ := run.started_ok started
  obtain ⟨-, ekI, -⟩ := opened answer.resp fin
  obtain ⟨-, answered, answers⟩ := run.accepted_ok (.tail _ (.tail _ (.head _)))
  have whole := answers fin
  rw [ctx, init] at whole
  have agreed := keyings_agree ends whole (ekI.trans drawnKey)
  generalize frames : Exchange.ofFrames opening.ctx opening.init answer.resp fin = exchange at *
  have each : ∀ {P : Event → Prop}, P (.responded answer fin session' peer') →
      P (.initiated opening answer.resp drawn fin session peer) → P (.accepted answer) →
      P (.started opening) → ∀ event ∈ [.responded answer fin session' peer',
        .initiated opening answer.resp drawn fin session peer, .accepted answer,
        .started opening], P event := by
    intro P last third second first
    simp only [forall_mem_cons]
    exact ⟨last, third, second, first, fun _ absent => by cases absent⟩
  have offers := @each (fun event => ∀ known, event.offer = some known →
      known.second = exchange.second)
    (by rintro _ ⟨⟩; rw [ctx, init, frames]) (by rintro _ ⟨⟩; rw [frames])
    (by rintro _ ⟨⟩; rw [ctx, init, ← frames]; rfl) (by rintro _ ⟨⟩)
  have exchanges := @each (fun event => ∀ known, event.exchange = some known → known = exchange)
    (by rintro _ ⟨⟩; rw [ctx, init, frames]) (by rintro _ ⟨⟩; rw [frames]) (by rintro _ ⟨⟩)
    (by rintro _ ⟨⟩)
  have keyings := @each (fun event => ∀ known, event.keying = some known → known = keying)
    (by rintro _ ⟨⟩; rw [ctx, init, frames, agreed])
    (fun known other => Option.some.inj (other.symm.trans keyed)) (by rintro _ ⟨⟩)
    (by rintro _ ⟨⟩)
  have signs := @each (fun event => ∀ made, event.signs = some made →
      made.role = .responder ∧ made.transcript = exchange.second.value ∨
        made.role = .initiator ∧ made.transcript = exchange.third.value)
    (by rintro _ ⟨⟩) (by rintro _ ⟨⟩; exact .inr ⟨rfl, by rw [frames]⟩)
    (by rintro _ ⟨⟩; exact .inl ⟨rfl, by rw [offers _ (.tail _ (.tail _ (.head _))) _ rfl]⟩)
    (by rintro _ ⟨⟩)
  have checks := @each (fun event => ∀ checked, event.checks = some checked →
      checked.role = .responder ∧ checked.transcript = exchange.second.value ∨
        checked.role = .initiator ∧ checked.transcript = exchange.third.value)
    (by rintro _ ⟨⟩; exact .inr ⟨rfl, by rw [ctx, init, frames]⟩)
    (by rintro _ ⟨⟩; exact .inl ⟨rfl, by rw [frames]⟩) (by rintro _ ⟨⟩) (by rintro _ ⟨⟩)
  refine ⟨?_, ?_, ?_, ?_, ?_, ?_⟩
  · intro first here second there known known' offered offered' _
    rw [offers _ here _ offered, offers _ there _ offered']
  · intro first here second there known known' held held'
    rw [exchanges _ here _ held, exchanges _ there _ held']
    exact ⟨fun _ => rfl, fun _ => rfl⟩
  · intro first here second there made checked makes accepts same
    rcases signs _ here _ makes with ⟨role, text⟩ | ⟨role, text⟩
    · rcases checks _ there _ accepts with ⟨role', text'⟩ | ⟨role', text'⟩
      · exact ⟨role.trans role'.symm, text.trans text'.symm⟩
      · rw [role, text, role', text'] at same
        exact absurd same (signed _ _)
    · rcases checks _ there _ accepts with ⟨role', text'⟩ | ⟨role', text'⟩
      · rw [role, text, role', text'] at same
        exact absurd same.symm (signed _ _)
      · exact ⟨role.trans role'.symm, text.trans text'.symm⟩
  · intro first here second there known known' held held' role side
    rw [keyings _ here _ held, keyings _ there _ held']
    obtain ⟨apart, bound⟩ := derived keying role side
    exact ⟨fun same => ⟨apart same, rfl⟩, fun _ => rfl, bound⟩
  · exact nodup_cons.mpr ⟨fun same => keys (mem_singleton.mp same), nodup_singleton _⟩
  · rw [← frames] at ciphertexts
    exact nodup_cons.mpr ⟨fun same => ciphertexts (mem_singleton.mp same), nodup_singleton _⟩

end Calls

/-- A sponge to evaluate with, told apart by the byte before the last 32. -/
@[reducible] def labelSponge : Sponge where
  squeeze absorbed _ length :=
    (range length).map fun place => absorbed.reverse.getD 32 0 + UInt8.ofNat (place / 32)
  length_squeeze absorbed _ length := by rw [length_map, length_range]

/-- A key encapsulation to evaluate with: the ciphertext is the secret, padded. -/
@[reducible] def openKem : Kem where
  encapsulationKey seed := (seed ++ replicate ekLen 0).take ekLen
  accepts _ := true
  encapsulate _ drawn :=
    ((drawn ++ replicate ctLen 0).take ctLen, (drawn ++ replicate ctLen 0).take 32)
  decapsulate _ ciphertext := ciphertext.take 32
  length_encapsulationKey seed := by simp
  length_ciphertext _ drawn := by simp
  accepts_encapsulationKey _ := rfl
  correct _ drawn := by
    rw [take_take]
    rfl

/-- A node of the given number, to evaluate with. -/
def numbered (number : UInt8) : @NodeIdentity checksumCrypto :=
  let _ := checksumCrypto
  { pubkey := replicate pkLen number
    legacyId := replicate legacyNodeIdLen number
    sign := fun message => replicate (sigLen - 32) 0 ++ message.bytes
    length_pubkey := length_replicate
    length_legacyId := length_replicate
    length_sign := fun message => by
      rw [length_append, length_replicate, message.length_bytes]
      rfl
    verifies := fun message => by
      have keyed : (replicate pkLen number).length = SchemeId.mlDsa87.pubkeyLen :=
        length_replicate
      have sized : (replicate (sigLen - 32) 0 ++ message.bytes).length =
          SchemeId.mlDsa87.sigLen := by
        rw [length_append, length_replicate, message.length_bytes]
        rfl
      have sizes : checkSizes .mlDsa87 (replicate pkLen number)
          (replicate (sigLen - 32) 0 ++ message.bytes) = .ok () := by
        rw [checkSizes, if_neg (not_not.mpr keyed), if_neg (not_not.mpr sized)]
      have ends : Crypto.mldsaVerify .mlDsa87 (replicate pkLen number) message
          (replicate (sigLen - 32) 0 ++ message.bytes) = some true :=
        congrArg some (isSuffixOf_iff_suffix.mpr (suffix_append _ _))
      simp only [verify, sizes, mldsaBackendVerify, ends]
      rfl }

theorem numbered_apart {first second : UInt8} (distinct : first ≠ second) :
    (@NodeIdentity.pubkey checksumCrypto (numbered first)) ≠
      @NodeIdentity.pubkey checksumCrypto (numbered second) := fun same =>
  distinct (replicate_right_injective (by decide : pkLen ≠ 0) same)

theorem labelSponge_apart (keying : Keying) (role side : Role) :
    letI : Sponge := labelSponge
    (keying.root role = keying.root side → role = side) ∧ keying.root role ≠ keying.binding := by
  let _ := labelSponge
  obtain ⟨start, blocks⟩ : ∃ start : UInt8, kmac256 (keying.ssR ++ keying.ssI) sSession keying.tf 96 =
      (range 96).map fun place => start + UInt8.ofNat (place / 32) := by
    rw [kmac256, cshake256]
    split
    · exact ⟨_, rfl⟩
    · exact ⟨_, rfl⟩
  have heads : (keying.root .initiator)[0]? = some start ∧
      (keying.root .responder)[0]? = some (start + 1) ∧ keying.binding[0]? = some (start + 2) := by
    simp [Keying.root, Keying.binding, sessionSecrets, blocks]
  have apart : keying.root .initiator ≠ keying.root .responder := fun same => by
    grind
  have bound : ∀ role, keying.root role ≠ keying.binding := by
    intro role same
    cases role with
    | initiator =>
      grind
    | responder =>
      grind
  refine ⟨fun same => ?_, bound role⟩
  cases role with
  | initiator =>
    cases side with
    | initiator => rfl
    | responder => exact absurd same apart
  | responder =>
    cases side with
    | initiator => exact absurd same.symm apart
    | responder => rfl

theorem labelSponge_signed {transcript other : Bytes} (sized : transcript.length = 32)
    (sized' : other.length = 32) :
    letI : Sponge := labelSponge
    signedMessage .responder transcript ≠ signedMessage .initiator other := by
  let _ := labelSponge
  have label : ∀ (role : Role) (value : Bytes), value.length = 32 →
      (signedMessage role value).bytes[0]? = some role.label := by
    intro role value sized
    simp only [signedMessage, cshake256]
    rw [if_neg (by decide)]
    generalize bytepad _ = padding
    have before : (padding ++ role.label :: value).reverse.getD 32 0 = role.label := by
      simp [sized]
    change ((range 32).map fun place =>
      (padding ++ role.label :: value).reverse.getD 32 0 + UInt8.ofNat (place / 32))[0]? = _
    rw [before]
    simp
  intro same
  have heads := congrArg (fun hash : Hash256 => hash.bytes[0]?) same
  simp only [label _ _ sized, label _ _ sized'] at heads
  exact absurd heads (by decide)

/-- Two nodes, and nobody between them. -/
theorem handshake_agreement_undisturbed :
    letI : Crypto := checksumCrypto
    letI : Sponge := labelSponge
    letI : Kem := openKem
    ∃ (history : List Event) (answer : Accepted) (fin : Bytes) (session : Session) (peer : Peer),
      History {numbered 1, numbered 2} history ∧ Ideal history ∧
      .responded answer fin session peer ∈ history ∧
      ∃ opening drawn peer',
        .initiated opening answer.resp drawn fin session.mirror peer' ∈ history ∧
        peer'.binding = peer.binding := by
  let _ := checksumCrypto
  let _ := labelSponge
  let _ := openKem
  obtain ⟨opening, answer, fin, session, session', peer, peer', run, ctx, init, mine, ekI, ekR, ctR,
    ctI⟩ := History.undisturbed (Set.mem_insert _ _) (Set.mem_insert_of_mem _ (Set.mem_singleton _))
      (numbered_apart (by decide : (1 : UInt8) ≠ 2)) ⟨.regtest, 5, 6⟩ [1] [2] [3] [4]
  have sized : ∀ transcript : Transcript, transcript.value.length = 32 := fun _ =>
    cshake256_length _ _ _ _
  have ideal := Ideal.undisturbed run ctx init (by rw [ekI, ekR]; decide)
    (by rw [ctI, ctR]; decide) (fun _ _ => labelSponge_signed (sized _) (sized _)) labelSponge_apart
  have agreed := (handshake_agreement run ideal).2.1 _ _ _ _ _ (suffix_refl _) _
    (Set.mem_insert _ _) mine
  obtain ⟨opening', drawn, session'', peer'', member, -, -, -, -, rfl, bindings⟩ := agreed
  exact ⟨_, answer, fin, session', peer', run, ideal, .head _, opening', drawn, peer'',
    .tail _ member, bindings⟩

end Q21Formal.Transport

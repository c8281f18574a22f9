import Q21Formal.Primitives.Crypto

/-!
# Records of a session, and what it delivers

The encodings of SP 800-185 over a Keccak sponge, whose permutation is external code: what absorbing,
padding and squeezing give is one function of the bytes absorbed.  Then `transport.rs` after the
handshake: each direction keeps a traffic secret, the record keys of its epoch and its counters,
seals at its next sequence number and opens nothing but the next one.  Two ends with mirrored
secrets face an adversary that presents any bytes; unforgeability is a condition on the run.
-/

namespace Q21Formal.Transport
open Library.Codec Primitives List

section
variable (value : Nat) (content : Bytes)

/-- The sponge: what it gives for the bytes absorbed, the closing bits and a length. -/
class Sponge where
  squeeze : (absorbed : Bytes) → (suffix : UInt8) → (length : Nat) → Bytes
  length_squeeze (absorbed : Bytes) (suffix : UInt8) (length : Nat) :
    (squeeze absorbed suffix length).length = length

/-- The `width` low bytes of `value`, most significant first. -/
def beBytes (width value : Nat) : Bytes := (leBytes width value).reverse

/-- The number a big-endian string stands for. -/
def beValue (bytes : Bytes) : Nat := leValue bytes.reverse

@[simp] theorem beBytes_length (width value : Nat) : (beBytes width value).length = width := by
  rw [beBytes, length_reverse, leBytes_length]

theorem beValue_beBytes {width value : Nat} (fits : value < 256 ^ width) :
    beValue (beBytes width value) = value := by
  rw [beValue, beBytes, reverse_reverse, leValue_leBytes, Nat.mod_eq_of_lt fits]

/-- The cSHAKE256 rate in bytes. -/
def rate : Nat := 136

/-- How many bytes a number takes, at least one. -/
def byteCount : Nat := Nat.log 256 value + 1

def leftEncode : Bytes :=
  UInt8.ofNat (byteCount value) :: beBytes (byteCount value) value

def rightEncode : Bytes :=
  beBytes (byteCount value) value ++ [UInt8.ofNat (byteCount value)]

def encodeString : Bytes := leftEncode (content.length * 8) ++ content

/-- Zeros up to the next multiple of the rate. -/
def bytepad : Bytes :=
  let filled := leftEncode rate ++ content
  filled ++ replicate ((rate - filled.length % rate) % rate) 0

/-- A key in blocks of its own. -/
def absorbKey (key : Bytes) : Bytes := bytepad (encodeString key)

end

section Functions
variable [Sponge]

def cshake256 (name customization message : Bytes) (length : Nat) : Bytes :=
  if name = [] ∧ customization = [] then Sponge.squeeze message 0x1F length
  else
    Sponge.squeeze (bytepad (encodeString name ++ encodeString customization) ++ message) 0x04 length

def kmac256 (key customization message : Bytes) (length : Nat) : Bytes :=
  cshake256 (ascii "KMAC") customization (absorbKey key ++ message ++ rightEncode (length * 8)) length

@[simp] theorem cshake256_length (name customization message : Bytes) (length : Nat) :
    (cshake256 name customization message length).length = length := by
  unfold cshake256
  split
  · exact Sponge.length_squeeze _ _ _
  · exact Sponge.length_squeeze _ _ _

@[simp] theorem kmac256_length (key customization message : Bytes) (length : Nat) :
    (kmac256 key customization message length).length = length := cshake256_length _ _ _ _

end Functions

/-- A sponge to evaluate with: blocks of 32 bytes counted up from a checksum of the input. -/
@[reducible] def checksumSponge : Sponge where
  squeeze absorbed suffix length :=
    ((range (length / 32 + 1)).flatMap fun block =>
      leBytes 32 (leValue (checksum (absorbed ++ [suffix])).bytes + block)).take length
  length_squeeze absorbed suffix length := by
    have blocks : ∀ (count start : Nat), ((range count).flatMap fun block =>
        leBytes 32 (start + block)).length = 32 * count := by
      intro count start
      simp [length_flatMap, Nat.mul_comm]
    rw [length_take, blocks]
    omega

/-- The transport version, first byte of every frame. -/
def version : UInt8 := 3

def tInit : UInt8 := 1
def tResp : UInt8 := 2
def tFin : UInt8 := 3
def tRecord : UInt8 := 4

def tagLen : Nat := 32
/-- Version, type and sequence number. -/
def recordHeader : Nat := 2 + 8
def recordOverhead : Nat := recordHeader + tagLen
def maxChannelMsg : Nat := 16 * 1024
/-- Largest record plaintext. -/
def maxRecord : Nat := maxChannelMsg - recordOverhead

def sSession : Bytes := ascii "Q21 channel transport v3 session"
def sRecordKeys : Bytes := ascii "Q21 channel transport v3 record keys"
def sRekey : Bytes := ascii "Q21 channel transport v3 rekey"
def sStream : Bytes := ascii "Q21 channel transport v3 record stream"
def sTag : Bytes := ascii "Q21 channel transport v3 record tag"

inductive TransportError where
  | malformed
  | badKey
  | badSignature
  | reflected
  | noRandomness
  | tooLarge
  | replayed
  | gap
  | badTag
  | exhausted
deriving DecidableEq, Repr

/-- When a direction rekeys. -/
structure Limits where
  records : Nat
  bytes : Nat
deriving DecidableEq

def Limits.default : Limits := ⟨2 ^ 20, 2 ^ 30⟩

def u64Bound : Nat := 2 ^ 64
def u32Bound : Nat := 2 ^ 32

structure Direction where
  secret : Bytes
  enc : Bytes
  mac : Bytes
  seq : Nat
  epoch : Nat
  records : Nat
  bytes : Nat
deriving DecidableEq

section Functions
variable [Sponge]

namespace Direction

section
variable (direction : Direction)

def loadKeys : Direction :=
  let okm := kmac256 direction.secret sRecordKeys [] 64
  { direction with enc := okm.take 32, mac := okm.drop 32 }

def new (secret : Bytes) : Direction :=
  loadKeys
    { secret := secret
      enc := replicate 32 0
      mac := replicate 32 0
      seq := 0
      epoch := 0
      records := 0
      bytes := 0 }

/-- The next traffic secret; `none` where the epoch counter overflows, which ends the process. -/
def rekey : Option Direction :=
  let next := loadKeys { direction with secret := kmac256 direction.secret sRekey [] 32 }
  if next.epoch + 1 < u32Bound then
    some { next with epoch := next.epoch + 1, records := 0, bytes := 0 }
  else none

/-- The keystream of a sequence number. -/
def keystream (seq length : Nat) : Bytes :=
  cshake256 [] sStream (absorbKey direction.enc ++ beBytes 8 seq) length

def applyStream (seq : Nat) (buffer : Bytes) : Bytes :=
  zipWith (· ^^^ ·) buffer (direction.keystream seq buffer.length)

def tag (authenticated : Bytes) : Bytes :=
  kmac256 direction.mac sTag authenticated tagLen

/-- Counts one record of `length` bytes, rekeying at the limits; `none` is an overflow. -/
def advance (length : Nat) (limits : Limits) : Option Direction :=
  if direction.seq + 1 < u64Bound ∧ direction.records + 1 < u64Bound then
    let counted := { direction with
      seq := direction.seq + 1
      records := direction.records + 1
      bytes := min (direction.bytes + length) (u64Bound - 1) }
    if limits.records ≤ counted.records ∨ limits.bytes ≤ counted.bytes then counted.rekey
    else some counted
  else none

end

end Direction

structure Session where
  send : Direction
  recv : Direction
  limits : Limits
  binding : Bytes
deriving DecidableEq

/-- Whether two tags differ, every byte looked at. -/
def differ (want given : Bytes) : Bool :=
  (zipWith (· ^^^ ·) want given).foldl (· ||| ·) 0 ≠ 0

namespace Session

def new (send recv binding : Bytes) : Session :=
  { send := Direction.new send
    recv := Direction.new recv
    limits := .default
    binding := binding }

/-- Encrypts and authenticates one record; `none` where the process ends. -/
def «seal» (session : Session) (plaintext : Bytes) :
    Option (Except TransportError Bytes × Session) :=
  if maxRecord < plaintext.length then some (.error .tooLarge, session)
  else if session.send.seq = u64Bound - 1 then some (.error .exhausted, session)
  else
    let seq := session.send.seq
    let out := version :: tRecord :: beBytes 8 seq ++ session.send.applyStream seq plaintext
    (session.send.advance plaintext.length session.limits).map fun send =>
      (.ok (out ++ session.send.tag out), { session with send })

/-- Authenticates and decrypts one record, which must be the next one. -/
def «open» (session : Session) (record : Bytes) :
    Option (Except TransportError Bytes × Session) :=
  if record.length < recordOverhead ∨ recordOverhead + maxRecord < record.length ∨
      record[0]? ≠ some version ∨ record[1]? ≠ some tRecord then
    some (.error .malformed, session)
  else
    let seq := beValue ((record.drop 2).take 8)
    if seq < session.recv.seq then some (.error .replayed, session)
    else if session.recv.seq < seq then some (.error .gap, session)
    else
      let body := record.take (record.length - tagLen)
      if differ (session.recv.tag body) (record.drop (record.length - tagLen)) = true then
        some (.error .badTag, session)
      else
        let plaintext := session.recv.applyStream seq (body.drop recordHeader)
        (session.recv.advance plaintext.length session.limits).map fun recv =>
          (.ok plaintext, { session with recv })

end Session

/-- The two traffic secrets and the binding, from both shared secrets and the final transcript. -/
def sessionSecrets (ssR ssI tf : Bytes) : Bytes × Bytes × Bytes :=
  let okm := kmac256 (ssR ++ ssI) sSession tf 96
  (okm.take 32, (okm.drop 32).take 32, okm.drop 64)

end Functions

theorem zipWith_xor_twice (buffer stream : Bytes) (enough : buffer.length ≤ stream.length) :
    zipWith (· ^^^ ·) (zipWith (· ^^^ ·) buffer stream) stream = buffer := by
  induction buffer generalizing stream with
  | nil => rfl
  | cons byte rest ih =>
    cases stream with
    | nil => exact absurd enough (Nat.not_succ_le_zero _)
    | cons mask masks =>
      have last : byte ^^^ mask ^^^ mask = byte := by
        rw [UInt8.xor_assoc, UInt8.xor_self, UInt8.xor_zero]
      rw [zipWith_cons_cons, zipWith_cons_cons, last,
        ih masks (Nat.le_of_succ_le_succ enough)]

theorem foldl_or_eq_zero (bytes : Bytes) (start : UInt8) :
    bytes.foldl (· ||| ·) start = 0 ↔ start = 0 ∧ ∀ byte ∈ bytes, byte = 0 := by
  induction bytes generalizing start with
  | nil => simp
  | cons byte rest ih => simp [ih, and_assoc]

/-- Tags of one length differ exactly when some byte does. -/
theorem differ_eq_false {want given : Bytes} (sized : want.length = given.length) :
    differ want given = false ↔ want = given := by
  have zero : differ want given = false ↔ ∀ byte ∈ zipWith (· ^^^ ·) want given, byte = 0 := by
    rw [differ, decide_eq_false_iff_not, not_not, foldl_or_eq_zero]
    simp
  rw [zero]
  clear zero
  induction want generalizing given with
  | nil =>
    cases given with
    | nil => simp
    | cons other others => cases sized
  | cons byte rest ih =>
    cases given with
    | nil => cases sized
    | cons other others =>
      have tail := ih (Nat.succ.inj sized)
      simp only [zipWith_cons_cons, forall_mem_cons, tail, UInt8.xor_eq_zero_iff,
        List.cons.injEq]

section Directions
variable [Sponge] {limits : Limits} {length count : Nat} {lengths : List Nat}

section
variable (direction : Direction) (seq : Nat) (buffer : Bytes)

theorem Direction.applyStream_length :
    (direction.applyStream seq buffer).length = buffer.length := by
  rw [applyStream, length_zipWith, keystream, cshake256_length, Nat.min_self]

theorem Direction.applyStream_twice :
    direction.applyStream seq (direction.applyStream seq buffer) = buffer := by
  have sized := direction.applyStream_length seq buffer
  rw [applyStream, sized, applyStream]
  exact zipWith_xor_twice _ _ (by rw [keystream, cshake256_length])

/-- The traffic secret of an epoch. -/
def chain (root : Bytes) : Nat → Bytes
  | 0 => root
  | epoch + 1 => kmac256 (chain root epoch) sRekey [] 32

/-- A direction after `count` records of a chain of secrets. -/
structure Direction.Stands (root : Bytes) (count : Nat) (direction : Direction) : Prop where
  seq : direction.seq = count
  inRange : count < u64Bound
  secret : direction.secret = chain root direction.epoch
  enc : direction.enc = (kmac256 direction.secret sRecordKeys [] 64).take 32
  mac : direction.mac = (kmac256 direction.secret sRecordKeys [] 64).drop 32

theorem Direction.Stands.new (root : Bytes) : (Direction.new root).Stands root 0 :=
  ⟨rfl, by decide, rfl, rfl, rfl⟩

section
variable {before after : Direction} (advanced : before.advance length limits = some after)
include advanced

/-- What counting a record does: the next sequence number, perhaps of the next epoch. -/
theorem Direction.advance_cases :
    after.seq = before.seq + 1 ∧ before.seq + 1 < u64Bound ∧
      ((after.secret = before.secret ∧ after.enc = before.enc ∧ after.mac = before.mac ∧
          after.epoch = before.epoch) ∨
        (after.secret = kmac256 before.secret sRekey [] 32 ∧
          after.enc = (kmac256 after.secret sRecordKeys [] 64).take 32 ∧
          after.mac = (kmac256 after.secret sRecordKeys [] 64).drop 32 ∧
          after.epoch = before.epoch + 1)) := by
  unfold Direction.advance at advanced
  split at advanced
  · rename_i room
    dsimp only at advanced
    split at advanced
    · unfold Direction.rekey at advanced
      dsimp only at advanced
      split at advanced
      · cases advanced
        exact ⟨rfl, room.1, .inr ⟨rfl, rfl, rfl, rfl⟩⟩
      · cases advanced
    · cases advanced
      exact ⟨rfl, room.1, .inl ⟨rfl, rfl, rfl, rfl⟩⟩
  · cases advanced

theorem Direction.advance_epoch_le : before.epoch ≤ after.epoch := by
  obtain ⟨-, -, ⟨-, -, -, same⟩ | ⟨-, -, -, later⟩⟩ := Direction.advance_cases advanced
  · exact same.ge
  · omega

end

theorem Direction.Stands.advance {root : Bytes} {before after : Direction}
    (stands : before.Stands root count) (advanced : before.advance length limits = some after) :
    after.Stands root (count + 1) := by
  obtain ⟨seq, room, kept⟩ := Direction.advance_cases advanced
  rw [stands.seq] at seq room
  rcases kept with ⟨secret, enc, mac, epoch⟩ | ⟨secret, enc, mac, epoch⟩
  · refine ⟨seq, room, ?_, ?_, ?_⟩
    · rw [secret, epoch, stands.secret]
    · rw [enc, secret, stands.enc]
    · rw [mac, secret, stands.mac]
  · refine ⟨seq, room, ?_, enc, mac⟩
    rw [secret, epoch, chain, stands.secret]

/-- A direction once records of these lengths are counted. -/
def Direction.after (limits : Limits) (start : Direction) (lengths : List Nat) : Option Direction :=
  lengths.foldlM (fun direction length => direction.advance length limits) start

theorem Direction.after_snoc (start : Direction) (lengths : List Nat) (length : Nat) :
    start.after limits (lengths ++ [length]) =
      (start.after limits lengths).bind fun direction => direction.advance length limits := by
  rw [after, after, foldlM_append]
  simp

theorem Direction.after_append (start : Direction) (lengths more : List Nat) :
    start.after limits (lengths ++ more) =
      (start.after limits lengths).bind fun direction => direction.after limits more := by
  rw [after, after, foldlM_append]
  rfl

theorem Direction.Stands.after {root : Bytes} {before after : Direction}
    (stands : before.Stands root count) (reached : before.after limits lengths = some after) :
    after.Stands root (count + lengths.length) := by
  induction lengths generalizing count before with
  | nil =>
    cases reached
    exact stands
  | cons length rest ih =>
    obtain ⟨middle, advanced, onward⟩ := Option.bind_eq_some_iff.mp reached
    have stood := ih (stands.advance advanced) onward
    rwa [length_cons, Nat.add_comm rest.length 1, ← Nat.add_assoc]

theorem Direction.after_epoch_le {before after : Direction}
    (reached : before.after limits lengths = some after) : before.epoch ≤ after.epoch := by
  induction lengths generalizing before with
  | nil =>
    cases reached
    exact le_refl _
  | cons length rest ih =>
    obtain ⟨middle, advanced, onward⟩ := Option.bind_eq_some_iff.mp reached
    exact (Direction.advance_epoch_le advanced).trans (ih onward)

end

end Directions

inductive Role where
  | initiator
  | responder
deriving DecidableEq, Repr

def Role.other : Role → Role
  | .initiator => .responder
  | .responder => .initiator

theorem Role.other_ne (role : Role) : role.other ≠ role := by
  cases role <;> decide

@[simp] theorem Role.other_other (role : Role) : role.other.other = role := by
  cases role <;> rfl

theorem Role.eq_other {first second : Role} (different : first ≠ second) : first = second.other := by
  cases first <;> cases second <;> first | rfl | exact absurd rfl different

/-- One value for each end. -/
structure Ends (α : Type) where
  initiator : α
  responder : α
deriving DecidableEq

namespace Ends

variable {α : Type}

section
variable (ends : Ends α) (role : Role)

def get : Role → α
  | .initiator => ends.initiator
  | .responder => ends.responder

def set (value : α) : Ends α :=
  match role with
  | .initiator => { ends with initiator := value }
  | .responder => { ends with responder := value }

@[simp] theorem get_set_self (value : α) : (ends.set role value).get role = value := by
  cases role <;> rfl

theorem get_set_ne {role query : Role} (value : α) (different : query ≠ role) :
    (ends.set role value).get query = ends.get query := by
  cases role <;> cases query <;> first | rfl | exact absurd rfl different

end

end Ends

/-- What was sealed: the plaintext, the record it became, and what it was made with. -/
structure Sealed where
  plaintext : Bytes
  record : Bytes
  authenticated : Bytes
  enc : Bytes
  mac : Bytes
  seq : Nat
deriving DecidableEq

/-- Two ends with what each has sealed and opened so far. -/
structure Link where
  sessions : Ends Session
  sealed : Ends (List Sealed)
  opened : Ends (List Bytes)
deriving DecidableEq

/-- A holder seals a plaintext, or the adversary presents some bytes. -/
inductive Action where
  | seal (role : Role) (plaintext : Bytes)
  | present (role : Role) (record : Bytes)
deriving DecidableEq

/-- What the secrets of a session are derived from. -/
structure Keying where
  ssR : Bytes
  ssI : Bytes
  tf : Bytes
deriving DecidableEq

section Links
variable [Sponge]

/-- The traffic secret an end sends under at first. -/
def Keying.root (keying : Keying) : Role → Bytes
  | .initiator => (sessionSecrets keying.ssR keying.ssI keying.tf).1
  | .responder => (sessionSecrets keying.ssR keying.ssI keying.tf).2.1

def Keying.binding (keying : Keying) : Bytes :=
  (sessionSecrets keying.ssR keying.ssI keying.tf).2.2

/-- The session an end holds after the handshake, with the limits both ends set. -/
def Keying.session (keying : Keying) (limits : Limits) (role : Role) : Session :=
  { Session.new (keying.root role) (keying.root role.other) keying.binding with limits }

namespace Link

def start (keying : Keying) (limits : Limits) : Link :=
  { sessions := ⟨keying.session limits .initiator, keying.session limits .responder⟩
    sealed := ⟨[], []⟩
    opened := ⟨[], []⟩ }

/-- One call; `none` where the process ends. -/
def step (link : Link) : Action → Option Link
  | .seal role plaintext =>
    ((link.sessions.get role).seal plaintext).map fun
      | (.ok record, session) =>
        { link with
          sessions := link.sessions.set role session
          sealed := link.sealed.set role (link.sealed.get role ++
            [{ plaintext := plaintext
               record := record
               authenticated := record.take (record.length - tagLen)
               enc := (link.sessions.get role).send.enc
               mac := (link.sessions.get role).send.mac
               seq := (link.sessions.get role).send.seq }]) }
      | (.error _, session) => { link with sessions := link.sessions.set role session }
  | .present role record =>
    ((link.sessions.get role).open record).map fun
      | (.ok plaintext, session) =>
        { link with
          sessions := link.sessions.set role session
          opened := link.opened.set role (link.opened.get role ++ [plaintext]) }
      | (.error _, session) => { link with sessions := link.sessions.set role session }

def run (link : Link) (actions : List Action) : Option Link := actions.foldlM step link

/-- The adversary presents a tag that verifies, over bytes neither end ever tagged with that key. -/
def Forges (link : Link) : Action → Prop
  | .seal .. => False
  | .present role record =>
    (link.sessions.get role).recv.tag (record.take (record.length - tagLen)) =
        record.drop (record.length - tagLen) ∧
      ∀ entry ∈ link.sealed.initiator ++ link.sealed.responder,
        ¬ (entry.mac = (link.sessions.get role).recv.mac ∧
          entry.authenticated = record.take (record.length - tagLen))

instance (link : Link) (action : Action) : Decidable (link.Forges action) :=
  match action with
  | .seal .. => inferInstanceAs (Decidable False)
  | .present .. => inferInstanceAs (Decidable (_ ∧ _))

/-- No tag is forged in a run. -/
def Unforged (link : Link) : List Action → Prop
  | [] => True
  | action :: rest =>
    ¬ link.Forges action ∧ ∀ after ∈ link.step action, after.Unforged rest

instance decidableUnforged (link : Link) (actions : List Action) :
    Decidable (link.Unforged actions) :=
  match actions with
  | [] => inferInstanceAs (Decidable True)
  | action :: rest =>
    have (after : Link) : Decidable (after.Unforged rest) := decidableUnforged after rest
    inferInstanceAs (Decidable (_ ∧ ∀ after ∈ link.step action, after.Unforged rest))

end Link

section
variable (keying : Keying) (link : Link) (direction : Direction) (plaintext : Bytes)

/-- A key and what it is derived from. -/
inductive Derivation where
  | traffic (role : Role) (keying : Keying)
  | binding (keying : Keying)
  | next (secret : Bytes)
  | enc (secret : Bytes)
  | mac (secret : Bytes)
deriving DecidableEq

def Derivation.value : Derivation → Bytes
  | .traffic role keying => keying.root role
  | .binding keying => keying.binding
  | .next secret => kmac256 secret sRekey [] 32
  | .enc secret => (kmac256 secret sRecordKeys [] 64).take 32
  | .mac secret => (kmac256 secret sRecordKeys [] 64).drop 32

/-- The derivations of a chain of secrets up to an epoch. -/
def chainDerivations (root : Bytes) (epoch : Nat) : List Derivation :=
  (range (epoch + 1)).flatMap (fun index =>
    [.enc (chain root index), .mac (chain root index)]) ++
    (range epoch).map fun index => .next (chain root index)

/-- The derivations made so far. -/
def Link.derivations : List Derivation :=
  [.traffic .initiator keying, .traffic .responder keying, .binding keying] ++
    chainDerivations (keying.root .initiator) link.sessions.initiator.send.epoch ++
    chainDerivations (keying.root .responder) link.sessions.responder.send.epoch

/-- No two derivations of the run give the same key. -/
def Link.CollisionFree : Prop :=
  ∀ first ∈ link.derivations keying, ∀ second ∈ link.derivations keying,
    first.value = second.value → first = second

instance (keying : Keying) (link : Link) : Decidable (link.CollisionFree keying) :=
  inferInstanceAs (Decidable (∀ first ∈ link.derivations keying,
    ∀ second ∈ link.derivations keying, first.value = second.value → first = second))

/-- The authenticated bytes of a record. -/
def Direction.frame : Bytes :=
  version :: tRecord :: beBytes 8 direction.seq ++ direction.applyStream direction.seq plaintext

theorem Direction.frame_length :
    (direction.frame plaintext).length = recordHeader + plaintext.length := by
  rw [frame, length_append, applyStream_length]
  simp [recordHeader]

theorem Direction.tag_length (authenticated : Bytes) :
    (direction.tag authenticated).length = tagLen := kmac256_length _ _ _ _

theorem take_sub_tag (authenticated body : Bytes) :
    (body ++ direction.tag authenticated).take
      ((body ++ direction.tag authenticated).length - tagLen) = body := by
  rw [length_append, Direction.tag_length, Nat.add_sub_cancel, take_left]

theorem drop_sub_tag (authenticated body : Bytes) :
    (body ++ direction.tag authenticated).drop
      ((body ++ direction.tag authenticated).length - tagLen) = direction.tag authenticated := by
  rw [length_append, Direction.tag_length, Nat.add_sub_cancel, drop_left]

end

namespace Session

variable {session after : Session} {plaintext record : Bytes} {error : TransportError}

theorem seal_ok (ran : session.seal plaintext = some (.ok record, after)) :
    plaintext.length ≤ maxRecord ∧
      record = session.send.frame plaintext ++ session.send.tag (session.send.frame plaintext) ∧
      ∃ send, session.send.advance plaintext.length session.limits = some send ∧
        after = { session with send } := by
  unfold Session.seal at ran
  split at ran
  · cases ran
  · rename_i short
    split at ran
    · cases ran
    · obtain ⟨send, advanced, same⟩ := Option.map_eq_some_iff.mp ran
      cases same
      exact ⟨Nat.le_of_not_lt short, rfl, send, advanced, rfl⟩

theorem seal_error (ran : session.seal plaintext = some (.error error, after)) :
    after = session := by
  unfold Session.seal at ran
  split at ran
  · cases ran
    rfl
  · split at ran
    · cases ran
      rfl
    · obtain ⟨send, advanced, same⟩ := Option.map_eq_some_iff.mp ran
      cases same

theorem open_error (ran : session.open record = some (.error error, after)) : after = session := by
  unfold Session.open at ran
  split at ran
  · cases ran
    rfl
  · dsimp only at ran
    split at ran
    · cases ran
      rfl
    · split at ran
      · cases ran
        rfl
      · split at ran
        · cases ran
          rfl
        · obtain ⟨recv, advanced, same⟩ := Option.map_eq_some_iff.mp ran
          cases same

theorem open_ok (ran : session.open record = some (.ok plaintext, after)) :
    beValue (((record.take (record.length - tagLen)).drop 2).take 8) = session.recv.seq ∧
      session.recv.tag (record.take (record.length - tagLen)) =
        record.drop (record.length - tagLen) ∧
      plaintext = session.recv.applyStream session.recv.seq
        ((record.take (record.length - tagLen)).drop recordHeader) ∧
      ∃ recv, session.recv.advance plaintext.length session.limits = some recv ∧
        after = { session with recv } := by
  unfold Session.open at ran
  split at ran
  · cases ran
  · rename_i shape
    have long : recordOverhead ≤ record.length := Nat.le_of_not_lt fun short => shape (.inl short)
    dsimp only at ran
    split at ran
    · cases ran
    · rename_i notBelow
      split at ran
      · cases ran
      · rename_i notAbove
        split at ran
        · cases ran
        · rename_i tagged
          obtain ⟨recv, advanced, same⟩ := Option.map_eq_some_iff.mp ran
          cases same
          have seq : beValue ((record.drop 2).take 8) = session.recv.seq := by omega
          have inside : ((record.take (record.length - tagLen)).drop 2).take 8 =
              (record.drop 2).take 8 := by
            rw [drop_take, take_take]
            congr 1
            simp only [recordOverhead, recordHeader, tagLen] at long ⊢
            omega
          have sized : (session.recv.tag (record.take (record.length - tagLen))).length =
              (record.drop (record.length - tagLen)).length := by
            rw [Direction.tag_length, length_drop]
            simp only [recordOverhead, recordHeader, tagLen] at long ⊢
            omega
          refine ⟨by rw [inside, seq], ?_, by rw [seq], recv, advanced, rfl⟩
          exact (differ_eq_false sized).mp (Bool.eq_false_of_not_eq_true tagged)

/-- The record made for the receiver's place in the stream opens. -/
theorem open_frame {recv : Direction} (room : session.recv.seq < u64Bound)
    (short : plaintext.length ≤ maxRecord)
    (advanced : session.recv.advance plaintext.length session.limits = some recv) :
    session.open (session.recv.frame plaintext ++
        session.recv.tag (session.recv.frame plaintext)) =
      some (.ok plaintext, { session with recv }) := by
  have total : (session.recv.frame plaintext ++
      session.recv.tag (session.recv.frame plaintext)).length =
        recordOverhead + plaintext.length := by
    rw [length_append, Direction.frame_length, Direction.tag_length]
    simp only [recordOverhead]
    omega
  have shape : ¬ ((session.recv.frame plaintext ++
      session.recv.tag (session.recv.frame plaintext)).length < recordOverhead ∨
      recordOverhead + maxRecord < (session.recv.frame plaintext ++
        session.recv.tag (session.recv.frame plaintext)).length ∨
      (session.recv.frame plaintext ++ session.recv.tag (session.recv.frame plaintext))[0]? ≠
        some version ∨
      (session.recv.frame plaintext ++ session.recv.tag (session.recv.frame plaintext))[1]? ≠
        some tRecord) := by
    rintro (less | more | first | second)
    · omega
    · omega
    · exact first rfl
    · exact second rfl
  have seq : beValue (((session.recv.frame plaintext ++
      session.recv.tag (session.recv.frame plaintext)).drop 2).take 8) = session.recv.seq := by
    have front : ((session.recv.frame plaintext ++
        session.recv.tag (session.recv.frame plaintext)).drop 2).take 8 =
          beBytes 8 session.recv.seq := by
      exact take_left' (beBytes_length 8 _)
    rw [front, beValue_beBytes room]
  unfold Session.open
  rw [if_neg shape]
  dsimp only
  rw [seq, if_neg (lt_irrefl _), if_neg (lt_irrefl _), take_sub_tag, drop_sub_tag,
    (differ_eq_false rfl).mpr rfl, if_neg Bool.false_ne_true]
  have body : (session.recv.frame plaintext).drop recordHeader =
      session.recv.applyStream session.recv.seq plaintext :=
    drop_left' (by simp [recordHeader])
  rw [body, Direction.applyStream_twice, advanced]
  rfl

end Session

/-! ## Both ends in step -/

/-- The entry of a record sealed by a direction as it was then. -/
structure Sealed.MadeBy (entry : Sealed) (direction : Direction) : Prop where
  short : entry.plaintext.length ≤ maxRecord
  authenticated : entry.authenticated = direction.frame entry.plaintext
  record : entry.record = direction.frame entry.plaintext ++
    direction.tag (direction.frame entry.plaintext)
  enc : entry.enc = direction.enc
  mac : entry.mac = direction.mac
  seq : entry.seq = direction.seq

/-- The direction that sealed these entries. -/
def Direction.sending (limits : Limits) (root : Bytes) (entries : List Sealed) : Option Direction :=
  (Direction.new root).after limits (entries.map fun entry => entry.plaintext.length)

theorem Direction.sending_snoc (limits : Limits) (root : Bytes) (entries : List Sealed)
    (entry : Sealed) : sending limits root (entries ++ [entry]) =
      (sending limits root entries).bind fun direction =>
        direction.advance entry.plaintext.length limits := by
  rw [sending, map_append, map_singleton, after_snoc]
  rfl

theorem Direction.sending_stands {limits : Limits} {root : Bytes} {entries : List Sealed}
    {direction : Direction} (reached : sending limits root entries = some direction) :
    direction.Stands root entries.length := by
  have stands := (Direction.Stands.new root).after reached
  rwa [Nat.zero_add, length_map] at stands

/-- The epoch only grows with the entries. -/
theorem Direction.sending_epoch_le {limits : Limits} {root : Bytes} {entries : List Sealed}
    {index : Nat} {early late : Direction}
    (before : sending limits root (entries.take index) = some early)
    (reached : sending limits root entries = some late) : early.epoch ≤ late.epoch := by
  have split : sending limits root (entries.take index ++ entries.drop index) = some late := by
    rwa [take_append_drop]
  rw [sending, map_append, after_append] at split
  obtain ⟨middle, first, onward⟩ := Option.bind_eq_some_iff.mp split
  cases Option.some.inj (before.symm.trans first)
  exact after_epoch_le onward

/-- One end's sending direction, the other's receiving one, and what passed between them. -/
structure Aligned (limits : Limits) (root : Bytes) (entries : List Sealed) (opened : List Bytes)
    (send recv : Direction) : Prop where
  sent : Direction.sending limits root entries = some send
  made : ∀ index entry, entries[index]? = some entry →
    ∃ direction, Direction.sending limits root (entries.take index) = some direction ∧
      entry.MadeBy direction
  inOrder : opened.length ≤ entries.length
  delivered : opened = (entries.take opened.length).map Sealed.plaintext
  received : Direction.sending limits root (entries.take opened.length) = some recv

namespace Aligned

variable {limits : Limits} {root : Bytes} {entries : List Sealed} {opened : List Bytes}
  {send recv : Direction} {entry : Sealed}

theorem start (limits : Limits) (root : Bytes) :
    Aligned limits root [] [] (Direction.new root) (Direction.new root) where
  sent := rfl
  made index entry found := by cases found
  inOrder := le_refl _
  delivered := rfl
  received := rfl

section
variable (aligned : Aligned limits root entries opened send recv)
include aligned

/-- The receiver is never in a later epoch than the sender. -/
theorem recv_epoch_le :
    recv.epoch ≤ send.epoch := Direction.sending_epoch_le aligned.received aligned.sent

theorem sealed {next : Direction} (made : entry.MadeBy send)
    (advanced : send.advance entry.plaintext.length limits = some next) :
    Aligned limits root (entries ++ [entry]) opened next recv where
  sent := by
    rwa [Direction.sending_snoc, aligned.sent]
  made index found at_ := by
    by_cases earlier : index < entries.length
    · rw [getElem?_append_left earlier] at at_
      rw [take_append_of_le_length earlier.le]
      exact aligned.made index found at_
    · rw [getElem?_append_right (Nat.le_of_not_lt earlier)] at at_
      obtain ⟨inside, same⟩ := List.getElem?_eq_some_iff.mp at_
      have last : index = entries.length := by
        rw [length_singleton] at inside
        omega
      subst last
      have same : entry = found := by simpa using same
      subst same
      rw [take_left]
      exact ⟨send, aligned.sent, made⟩
  inOrder := aligned.inOrder.trans (by rw [length_append]; exact Nat.le_add_right _ _)
  delivered := by
    rw [take_append_of_le_length aligned.inOrder]
    exact aligned.delivered
  received := by
    rw [take_append_of_le_length aligned.inOrder]
    exact aligned.received

section
variable (next : entries[opened.length]? = some entry)
include next

/-- The next entry was made by the direction the receiver stands in. -/
theorem next_made : entry.MadeBy recv := by
  obtain ⟨direction, reached, made⟩ := aligned.made _ _ next
  cases Option.some.inj (reached.symm.trans aligned.received)
  exact made

theorem deliver {later : Direction}
    (advanced : recv.advance entry.plaintext.length limits = some later) :
    Aligned limits root entries (opened ++ [entry.plaintext]) send later := by
  obtain ⟨inside, same⟩ := List.getElem?_eq_some_iff.mp next
  have longer : entries.take (opened ++ [entry.plaintext]).length =
      entries.take opened.length ++ [entry] := by
    rw [length_append, length_singleton, take_succ_eq_append_getElem inside, same]
  refine ⟨aligned.sent, aligned.made, ?_, ?_, ?_⟩
  · rwa [length_append, length_singleton]
  · rw [longer, map_append, ← aligned.delivered]
    rfl
  · rwa [longer, Direction.sending_snoc, aligned.received]

/-- The receiver of the next entry can count it: the sender did. -/
theorem next_advances : ∃ later, recv.advance entry.plaintext.length limits = some later := by
  obtain ⟨inside, same⟩ := List.getElem?_eq_some_iff.mp next
  have longer : entries.take (opened.length + 1) = entries.take opened.length ++ [entry] := by
    rw [take_succ_eq_append_getElem inside, same]
  have whole : Direction.sending limits root
      (entries.take (opened.length + 1) ++ entries.drop (opened.length + 1)) = some send := by
    rw [take_append_drop]
    exact aligned.sent
  rw [Direction.sending, map_append, Direction.after_append] at whole
  obtain ⟨later, reached, -⟩ := Option.bind_eq_some_iff.mp whole
  have reached : Direction.sending limits root (entries.take (opened.length + 1)) = some later :=
    reached
  rw [longer, Direction.sending_snoc, aligned.received] at reached
  exact ⟨later, reached⟩

end

theorem mem_made (member : entry ∈ entries) :
    ∃ index direction, entries[index]? = some entry ∧
      direction.Stands root index ∧ direction.epoch ≤ send.epoch ∧ entry.MadeBy direction := by
  obtain ⟨index, found⟩ := mem_iff_getElem?.mp member
  obtain ⟨direction, reached, made⟩ := aligned.made index entry found
  have stands := Direction.sending_stands reached
  obtain ⟨inside, -⟩ := List.getElem?_eq_some_iff.mp found
  rw [length_take, Nat.min_eq_left inside.le] at stands
  exact ⟨index, direction, found, stands, Direction.sending_epoch_le reached aligned.sent, made⟩

/-- The entries bear the sequence numbers from zero on. -/
theorem seqs : entries.map Sealed.seq = range entries.length := by
  refine ext_getElem (by rw [length_map, length_range]) fun index inside _ => ?_
  rw [length_map] at inside
  obtain ⟨direction, reached, made⟩ :=
    aligned.made index entries[index] (getElem?_eq_getElem inside)
  have stands := Direction.sending_stands reached
  rw [length_take, Nat.min_eq_left inside.le] at stands
  rw [getElem_map, getElem_range, made.seq, stands.seq]

end

end Aligned

/-- Both directions of a link in step, under the same limits. -/
structure Link.InStep (keying : Keying) (limits : Limits) (link : Link) : Prop where
  limited : ∀ role, (link.sessions.get role).limits = limits
  aligned : ∀ role, Aligned limits (keying.root role) (link.sealed.get role)
    (link.opened.get role.other) (link.sessions.get role).send (link.sessions.get role.other).recv

theorem mem_chainDerivations {root : Bytes} {epoch index : Nat} (inside : index ≤ epoch) :
    .enc (chain root index) ∈ chainDerivations root epoch ∧
      .mac (chain root index) ∈ chainDerivations root epoch := by
  have listed : index ∈ range (epoch + 1) := mem_range.mpr (Nat.lt_succ_of_le inside)
  constructor
  · exact mem_append_left _ (mem_flatMap.mpr ⟨index, listed, mem_cons_self⟩)
  · exact mem_append_left _ (mem_flatMap.mpr
      ⟨index, listed, mem_cons_of_mem _ (.head _)⟩)

theorem next_mem_chainDerivations {root : Bytes} {epoch index : Nat} (inside : index < epoch) :
    .next (chain root index) ∈ chainDerivations root epoch :=
  mem_append_right _ (mem_map.mpr ⟨index, mem_range.mpr inside, rfl⟩)

theorem chainDerivations_mono (root : Bytes) {early late : Nat} (grown : early ≤ late) :
    chainDerivations root early ⊆ chainDerivations root late := by
  intro derivation member
  rcases mem_append.mp member with keys | next
  · obtain ⟨index, listed, known⟩ := mem_flatMap.mp keys
    have listed : index < late + 1 := by
      have := mem_range.mp listed
      omega
    exact mem_append_left _ (mem_flatMap.mpr ⟨index, mem_range.mpr listed, known⟩)
  · obtain ⟨index, listed, rfl⟩ := mem_map.mp next
    exact next_mem_chainDerivations ((mem_range.mp listed).trans_le grown)

namespace Link

variable {keying : Keying} {limits : Limits} {link after : Link}

theorem mem_derivations {role : Role} {derivation : Derivation}
    (member : derivation ∈ chainDerivations (keying.root role) (link.sessions.get role).send.epoch) :
    derivation ∈ link.derivations keying := by
  cases role with
  | initiator => exact mem_append_left _ (mem_append_right _ member)
  | responder => exact mem_append_right _ member

theorem traffic_mem_derivations (role : Role) : .traffic role keying ∈ link.derivations keying := by
  cases role with
  | initiator => exact mem_append_left _ (mem_append_left _ (.head _))
  | responder =>
    exact mem_append_left _
      (mem_append_left _ (mem_cons_of_mem _ (.head _)))

/-- Whatever no collision is among now had none before. -/
theorem CollisionFree.before (free : after.CollisionFree keying)
    (grown : ∀ role, (link.sessions.get role).send.epoch ≤ (after.sessions.get role).send.epoch) :
    link.CollisionFree keying := by
  have subset : link.derivations keying ⊆ after.derivations keying := by
    intro derivation member
    rcases mem_append.mp member with front | responder
    · rcases mem_append.mp front with fixed | initiator
      · exact mem_append_left _ (mem_append_left _ fixed)
      · exact mem_append_left _ (mem_append_right _
          (chainDerivations_mono _ (grown .initiator) initiator))
    · exact mem_append_right _ (chainDerivations_mono _ (grown .responder) responder)
  exact fun first known second other => free first (subset known) second (subset other)

/-- The secrets of the two directions never meet. -/
theorem CollisionFree.chains_apart (free : link.CollisionFree keying) (role : Role)
    {ours theirs : Nat} (oursKnown : ours ≤ (link.sessions.get role).send.epoch)
    (theirsKnown : theirs ≤ (link.sessions.get role.other).send.epoch) :
    chain (keying.root role) ours ≠ chain (keying.root role.other) theirs := by
  have next : ∀ (side : Role) (epoch : Nat), epoch + 1 ≤ (link.sessions.get side).send.epoch →
      .next (chain (keying.root side) epoch) ∈ link.derivations keying := fun side epoch inside =>
    mem_derivations (next_mem_chainDerivations inside)
  induction ours generalizing theirs with
  | zero =>
    intro same
    cases theirs with
    | zero =>
      have equal := free (.traffic role keying) (traffic_mem_derivations role)
        (.traffic role.other keying) (traffic_mem_derivations role.other) same
      exact role.other_ne (Derivation.traffic.inj equal).1.symm
    | succ theirs =>
      cases free (.traffic role keying) (traffic_mem_derivations role) _
        (next role.other theirs theirsKnown) same
  | succ ours ih =>
    intro same
    cases theirs with
    | zero =>
      cases free _ (next role ours oursKnown) (.traffic role.other keying)
        (traffic_mem_derivations role.other) same
    | succ theirs =>
      have equal := free _ (next role ours oursKnown) _ (next role.other theirs theirsKnown) same
      exact ih (Nat.le_of_succ_le oursKnown) (Nat.le_of_succ_le theirsKnown)
        (Derivation.next.inj equal)

/-- Nor do their record keys. -/
theorem CollisionFree.keys_apart (free : link.CollisionFree keying) (role : Role)
    {ours theirs : Direction} {oursCount theirsCount : Nat}
    (oursStands : ours.Stands (keying.root role) oursCount)
    (theirsStands : theirs.Stands (keying.root role.other) theirsCount)
    (oursKnown : ours.epoch ≤ (link.sessions.get role).send.epoch)
    (theirsKnown : theirs.epoch ≤ (link.sessions.get role.other).send.epoch) :
    ours.enc ≠ theirs.enc ∧ ours.mac ≠ theirs.mac := by
  have apart := free.chains_apart role oursKnown theirsKnown
  obtain ⟨oursEnc, oursMac⟩ := @mem_chainDerivations _ (keying.root role) _ _ oursKnown
  obtain ⟨theirsEnc, theirsMac⟩ :=
    @mem_chainDerivations _ (keying.root role.other) _ _ theirsKnown
  rw [oursStands.enc, oursStands.mac, oursStands.secret, theirsStands.enc, theirsStands.mac,
    theirsStands.secret]
  constructor
  · intro same
    exact apart (Derivation.enc.inj
      (free _ (mem_derivations oursEnc) _ (mem_derivations theirsEnc) same))
  · intro same
    exact apart (Derivation.mac.inj
      (free _ (mem_derivations oursMac) _ (mem_derivations theirsMac) same))

/-! ## Steps -/

variable {role : Role} {plaintext record : Bytes} {action : Action} {actions : List Action}

theorem inStep_start (keying : Keying) (limits : Limits) :
    (start keying limits).InStep keying limits where
  limited role := by cases role <;> rfl
  aligned role := by cases role <;> exact Aligned.start limits _

/-- Epochs only grow. -/
theorem step_epoch_le (stepped : link.step action = some after) (side : Role) :
    (link.sessions.get side).send.epoch ≤ (after.sessions.get side).send.epoch := by
  have changed : ∃ role session, after.sessions = link.sessions.set role session ∧
      (link.sessions.get role).send.epoch ≤ session.send.epoch := by
    cases action with
    | «seal» role plaintext =>
      obtain ⟨⟨result, session⟩, ran, rfl⟩ := Option.map_eq_some_iff.mp stepped
      cases result with
      | ok record =>
        obtain ⟨-, -, send, advanced, rfl⟩ := Session.seal_ok ran
        exact ⟨role, _, rfl, Direction.advance_epoch_le advanced⟩
      | error error =>
        cases Session.seal_error ran
        exact ⟨role, _, rfl, le_refl _⟩
    | present role record =>
      obtain ⟨⟨result, session⟩, ran, rfl⟩ := Option.map_eq_some_iff.mp stepped
      cases result with
      | ok plaintext =>
        obtain ⟨-, -, -, recv, advanced, rfl⟩ := Session.open_ok ran
        exact ⟨role, _, rfl, le_refl _⟩
      | error error =>
        cases Session.open_error ran
        exact ⟨role, _, rfl, le_refl _⟩
  obtain ⟨role, session, sessions, grown⟩ := changed
  rw [sessions]
  by_cases same : side = role
  · rwa [same, Ends.get_set_self]
  · rw [Ends.get_set_ne _ _ same]

theorem run_epoch_le (ran : link.run actions = some after) (side : Role) :
    (link.sessions.get side).send.epoch ≤ (after.sessions.get side).send.epoch := by
  induction actions generalizing link with
  | nil =>
    cases ran
    exact le_refl _
  | cons action rest ih =>
    obtain ⟨middle, stepped, onward⟩ := Option.bind_eq_some_iff.mp ran
    exact (step_epoch_le stepped side).trans (ih onward)

section
variable (inStep : link.InStep keying limits)
include inStep

theorem InStep.limited_set {session : Session}
    (kept : session.limits = (link.sessions.get role).limits) (side : Role) :
    ((link.sessions.set role session).get side).limits = limits := by
  by_cases same : side = role
  · rw [same, Ends.get_set_self, kept]
    exact inStep.limited role
  · rw [Ends.get_set_ne _ _ same]
    exact inStep.limited side

/-- A session put back as it was. -/
theorem InStep.same (role : Role) :
    InStep keying limits { link with sessions := link.sessions.set role (link.sessions.get role) } := by
  have unchanged : link.sessions.set role (link.sessions.get role) = link.sessions := by
    cases role <;> rfl
  rwa [unchanged]

theorem InStep.seal {session : Session}
    (ran : (link.sessions.get role).seal plaintext = some (.ok record, session)) :
    InStep keying limits { link with
      sessions := link.sessions.set role session
      sealed := link.sealed.set role (link.sealed.get role ++
        [{ plaintext := plaintext
           record := record
           authenticated := record.take (record.length - tagLen)
           enc := (link.sessions.get role).send.enc
           mac := (link.sessions.get role).send.mac
           seq := (link.sessions.get role).send.seq }]) } := by
  obtain ⟨short, recorded, send, advanced, rfl⟩ := Session.seal_ok ran
  have ours := inStep.aligned role
  rw [inStep.limited role] at advanced
  refine ⟨inStep.limited_set rfl, fun side => ?_⟩
  by_cases same : side = role
  · subst same
    rw [Ends.get_set_self, Ends.get_set_self, Ends.get_set_ne _ _ side.other_ne]
    refine ours.sealed ⟨short, ?_, recorded, rfl, rfl, rfl⟩ advanced
    rw [recorded, take_sub_tag]
  · have mirrored := Role.eq_other same
    subst mirrored
    rw [Ends.get_set_ne _ _ same, Ends.get_set_ne _ _ same, Role.other_other, Ends.get_set_self]
    have theirs := inStep.aligned role.other
    rwa [Role.other_other] at theirs

/-- The next entry of the other end is taken in. -/
theorem InStep.deliver {entry : Sealed} {recv : Direction}
    (next : (link.sealed.get role.other)[(link.opened.get role).length]? = some entry)
    (advanced : (link.sessions.get role).recv.advance entry.plaintext.length limits = some recv) :
    InStep keying limits { link with
      sessions := link.sessions.set role { link.sessions.get role with recv }
      opened := link.opened.set role (link.opened.get role ++ [entry.plaintext]) } := by
  have theirs := inStep.aligned role.other
  rw [Role.other_other] at theirs
  refine ⟨inStep.limited_set rfl, fun side => ?_⟩
  by_cases same : side = role
  · subst same
    rw [Ends.get_set_self, Ends.get_set_ne _ _ side.other_ne, Ends.get_set_ne _ _ side.other_ne]
    exact inStep.aligned side
  · have mirrored := Role.eq_other same
    subst mirrored
    rw [Ends.get_set_ne _ _ same, Role.other_other, Ends.get_set_self, Ends.get_set_self]
    exact theirs.deliver next advanced

/-- A record that opens is the next one the other end sealed. -/
theorem InStep.opens_next (free : link.CollisionFree keying) {session : Session}
    (unforged : ¬ link.Forges (.present role record))
    (ran : (link.sessions.get role).open record = some (.ok plaintext, session)) :
    ∃ entry, (link.sealed.get role.other)[(link.opened.get role).length]? = some entry ∧
      entry.plaintext = plaintext := by
  obtain ⟨seq, tagged, decrypted, -⟩ := Session.open_ok ran
  have ours := inStep.aligned role
  have theirs := inStep.aligned role.other
  rw [Role.other_other] at theirs
  have recvStands := Direction.sending_stands theirs.received
  rw [length_take, Nat.min_eq_left theirs.inOrder] at recvStands
  have recvKnown := theirs.recv_epoch_le
  obtain ⟨entry, member, sameMac, sameBody⟩ : ∃ entry,
      entry ∈ link.sealed.initiator ++ link.sealed.responder ∧
        entry.mac = (link.sessions.get role).recv.mac ∧
        entry.authenticated = record.take (record.length - tagLen) := by
    by_contra missing
    refine unforged ⟨tagged, fun entry member same => missing ⟨entry, member, same⟩⟩
  have someone : entry ∈ link.sealed.get role ∨ entry ∈ link.sealed.get role.other := by
    rcases mem_append.mp member with mine | other
    · cases role with
      | initiator => exact .inl mine
      | responder => exact .inr mine
    · cases role with
      | initiator => exact .inr other
      | responder => exact .inl other
  rcases someone with reflected | genuine
  · obtain ⟨index, direction, -, stands, known, made⟩ := ours.mem_made reflected
    exact absurd (made.mac.symm.trans sameMac)
      (free.keys_apart role stands recvStands known recvKnown).2
  · obtain ⟨index, direction, found, stands, -, made⟩ := theirs.mem_made genuine
    have marked : beValue ((entry.authenticated.drop 2).take 8) = index := by
      have front : (entry.authenticated.drop 2).take 8 = beBytes 8 direction.seq := by
        rw [made.authenticated, Direction.frame]
        exact take_left' (beBytes_length 8 _)
      rw [front, stands.seq, beValue_beBytes stands.inRange]
    rw [sameBody, seq, recvStands.seq] at marked
    subst marked
    have made := theirs.next_made found
    refine ⟨entry, found, ?_⟩
    have body : entry.authenticated.drop recordHeader =
        (link.sessions.get role).recv.applyStream (link.sessions.get role).recv.seq
          entry.plaintext := by
      rw [made.authenticated, Direction.frame]
      exact drop_left' (by simp [recordHeader])
    rw [decrypted, ← sameBody, body, Direction.applyStream_twice]

/-- One call that forges nothing keeps both ends in step. -/
theorem InStep.step (free : link.CollisionFree keying) (unforged : ¬ link.Forges action)
    (stepped : link.step action = some after) : after.InStep keying limits := by
  cases action with
  | «seal» role plaintext =>
    obtain ⟨⟨result, session⟩, ran, rfl⟩ := Option.map_eq_some_iff.mp stepped
    cases result with
    | ok record => exact inStep.seal ran
    | error error =>
      cases Session.seal_error ran
      exact inStep.same role
  | present role record =>
    obtain ⟨⟨result, session⟩, ran, rfl⟩ := Option.map_eq_some_iff.mp stepped
    cases result with
    | ok plaintext =>
      obtain ⟨entry, next, rfl⟩ := inStep.opens_next free unforged ran
      obtain ⟨-, -, -, recv, advanced, rfl⟩ := Session.open_ok ran
      rw [inStep.limited role] at advanced
      exact inStep.deliver next advanced
    | error error =>
      cases Session.open_error ran
      exact inStep.same role

/-- Both ends are in step after every run without a forgery. -/
theorem InStep.run (ran : link.run actions = some after) (unforged : link.Unforged actions)
    (free : after.CollisionFree keying) : after.InStep keying limits := by
  induction actions generalizing link with
  | nil =>
    cases ran
    exact inStep
  | cons action rest ih =>
    have freeNow := free.before (run_epoch_le ran)
    obtain ⟨middle, stepped, onward⟩ := Option.bind_eq_some_iff.mp ran
    exact ih (inStep.step freeNow unforged.1 stepped) onward (unforged.2 middle stepped)

/-- The next record of the other end opens. -/
theorem InStep.next_opens {role : Role} {entry : Sealed}
    (next : (link.sealed.get role.other)[(link.opened.get role).length]? = some entry) :
    ∃ recv, (link.sessions.get role).recv.advance entry.plaintext.length limits = some recv ∧
      (link.sessions.get role).open entry.record =
        some (.ok entry.plaintext, { link.sessions.get role with recv }) := by
  have theirs := inStep.aligned role.other
  rw [Role.other_other] at theirs
  have made := theirs.next_made next
  obtain ⟨recv, advanced⟩ := theirs.next_advances next
  have stands := Direction.sending_stands theirs.received
  have room : (link.sessions.get role).recv.seq < u64Bound := stands.seq ▸ stands.inRange
  refine ⟨recv, advanced, ?_⟩
  rw [made.record]
  refine Session.open_frame room made.short ?_
  rwa [inStep.limited role]

/-- The records not yet opened, presented in order, all open. -/
theorem InStep.rest_opens (role : Role) :
    ∃ final, link.run (((link.sealed.get role.other).drop (link.opened.get role).length).map
        fun entry => .present role entry.record) = some final ∧
      final.opened.get role = (link.sealed.get role.other).map Sealed.plaintext := by
  induction left : (link.sealed.get role.other).drop (link.opened.get role).length
    generalizing link with
  | nil =>
    have theirs := inStep.aligned role.other
    rw [Role.other_other] at theirs
    refine ⟨link, rfl, ?_⟩
    rw [theirs.delivered, take_of_length_le (drop_eq_nil_iff.mp left)]
  | cons entry rest ih =>
    have next : (link.sealed.get role.other)[(link.opened.get role).length]? = some entry := by
      have head := congrArg head? left
      rwa [head?_drop] at head
    obtain ⟨recv, advanced, opens⟩ := inStep.next_opens next
    have delivered := inStep.deliver next advanced
    have dropped : (link.sealed.get role.other).drop
        ((link.opened.set role (link.opened.get role ++ [entry.plaintext])).get role).length =
          rest := by
      rw [Ends.get_set_self, length_append, length_singleton, ← drop_drop, left]
      rfl
    obtain ⟨final, ran, opened⟩ := ih delivered dropped
    refine ⟨final, ?_, opened⟩
    have stepped : link.step (.present role entry.record) = some { link with
        sessions := link.sessions.set role { link.sessions.get role with recv }
        opened := link.opened.set role (link.opened.get role ++ [entry.plaintext]) } := by
      rw [Link.step, opens]
      rfl
    rwa [map_cons, Link.run, foldlM_cons, stepped]

/-- The keys and sequence numbers that records were encrypted with. -/
def nonces (link : Link) : List (Bytes × Nat) :=
  (link.sealed.initiator ++ link.sealed.responder).map fun entry => (entry.enc, entry.seq)

theorem InStep.nonces_nodup (free : link.CollisionFree keying) : link.nonces.Nodup := by
  have once : ∀ role, ((link.sealed.get role).map fun entry => (entry.enc, entry.seq)).Nodup := by
    intro role
    have seqs := (inStep.aligned role).seqs
    refine Nodup.of_map Prod.snd ?_
    rw [map_map]
    exact seqs ▸ nodup_range
  have apart : ∀ first ∈ link.sealed.initiator, ∀ second ∈ link.sealed.responder,
      first.enc ≠ second.enc := by
    intro first ours second theirs
    obtain ⟨_, early, -, firstStands, firstKnown, firstMade⟩ :=
      (inStep.aligned .initiator).mem_made ours
    obtain ⟨_, late, -, secondStands, secondKnown, secondMade⟩ :=
      (inStep.aligned .responder).mem_made theirs
    rw [firstMade.enc, secondMade.enc]
    exact (free.keys_apart .initiator firstStands secondStands firstKnown secondKnown).1
  rw [nonces, map_append]
  refine (once .initiator).append (once .responder) ?_
  intro pair ours theirs
  obtain ⟨first, firstMember, rfl⟩ := mem_map.mp ours
  obtain ⟨second, secondMember, same⟩ := mem_map.mp theirs
  exact apart first firstMember second secondMember (congrArg Prod.fst same).symm

end

end Link

/-- The plaintexts an end opens are a prefix of those the other end sealed; a refused record changes
nothing and the genuine next one opens; and no key encrypts two records at one sequence number. -/
theorem session_delivers_in_order (keying : Keying) (limits : Limits) {actions : List Action}
    {link : Link} (ran : (Link.start keying limits).run actions = some link)
    (unforged : (Link.start keying limits).Unforged actions) (free : link.CollisionFree keying) :
    (∀ role, link.opened.get role <+: (link.sealed.get role.other).map Sealed.plaintext) ∧
    (∀ role record error session,
      (link.sessions.get role).open record = some (.error error, session) →
        session = link.sessions.get role) ∧
    (∀ role entry, (link.sealed.get role.other)[(link.opened.get role).length]? = some entry →
      ∃ session, (link.sessions.get role).open entry.record =
        some (.ok entry.plaintext, session)) ∧
    (∀ role, ∃ final, link.run (((link.sealed.get role.other).drop
        (link.opened.get role).length).map fun entry => .present role entry.record) = some final ∧
      final.opened.get role = (link.sealed.get role.other).map Sealed.plaintext) ∧
    link.nonces.Nodup := by
  have inStep := (Link.inStep_start keying limits).run ran unforged free
  refine ⟨fun role => ?_, fun role record error session => Session.open_error,
    fun role entry next => ?_, inStep.rest_opens, inStep.nonces_nodup free⟩
  · have theirs := inStep.aligned role.other
    rw [Role.other_other] at theirs
    rw [theirs.delivered, map_take]
    exact take_prefix _ _
  · obtain ⟨recv, -, opens⟩ := inStep.next_opens next
    exact ⟨_, opens⟩

end Links

/-- A record presented altered, then genuine, then to the end that sealed it. -/
def exchange [Sponge] (keying : Keying) : List Action :=
  let sender := Direction.new (keying.root .initiator)
  let record := sender.frame [5, 6] ++ sender.tag (sender.frame [5, 6])
  [.seal .initiator [5, 6], .present .responder (record.set 11 0), .present .responder record,
    .present .initiator record, .seal .initiator [7], .seal .responder [8]]

/-- The exchange, each direction rekeying after every record. -/
theorem session_delivers_in_order_rekeying :
    letI : Sponge := checksumSponge
    ∃ link, (Link.start ⟨[1], [2], [3]⟩ ⟨1, 100⟩).run (exchange ⟨[1], [2], [3]⟩) = some link ∧
      link.opened.responder = [[5, 6]] ∧ link.sealed.initiator.length = 2 ∧ link.nonces.Nodup := by
  let _ := checksumSponge
  have runs : ((Link.start ⟨[1], [2], [3]⟩ ⟨1, 100⟩).run (exchange ⟨[1], [2], [3]⟩)).isSome =
      true := by decide +kernel
  have unforged : (Link.start ⟨[1], [2], [3]⟩ ⟨1, 100⟩).Unforged (exchange ⟨[1], [2], [3]⟩) := by
    decide +kernel
  have free : (((Link.start ⟨[1], [2], [3]⟩ ⟨1, 100⟩).run (exchange ⟨[1], [2], [3]⟩)).all
      fun link => decide (link.CollisionFree ⟨[1], [2], [3]⟩ ∧
        link.opened.responder = [[5, 6]] ∧ link.sealed.initiator.length = 2)) = true := by
    decide +kernel
  obtain ⟨link, ran⟩ := Option.isSome_iff_exists.mp runs
  rw [ran, Option.all_some] at free
  obtain ⟨apart, opened, sealed⟩ := of_decide_eq_true free
  exact ⟨link, ran, opened, sealed,
    (session_delivers_in_order ⟨[1], [2], [3]⟩ ⟨1, 100⟩ ran unforged apart).2.2.2.2⟩

section Limits
variable [Sponge] {limits : Limits} {before after : Direction} {keying : Keying} {link : Link}

/-- A record counted under the keys in use leaves them below both limits. -/
theorem Direction.advance_limits {length : Nat}
    (advanced : before.advance length limits = some after) : before.epoch < after.epoch ∨
      (after.records = before.records + 1 ∧
        after.bytes = min (before.bytes + length) (u64Bound - 1) ∧
        after.records < limits.records ∧ after.bytes < limits.bytes) := by
  unfold Direction.advance at advanced
  split at advanced
  · dsimp only at advanced
    split at advanced
    · unfold Direction.rekey at advanced
      dsimp only at advanced
      split at advanced
      · cases advanced
        exact .inl (Nat.lt_succ_self _)
      · cases advanced
    · rename_i below
      cases advanced
      exact .inr ⟨rfl, rfl, (not_or.mp below).imp not_le.mp not_le.mp⟩
  · cases advanced

theorem Direction.after_limits {lengths : List Nat}
    (reached : before.after limits lengths = some after) : before.epoch < after.epoch ∨
      (before.records + lengths.length ≤ after.records ∧
        min (before.bytes + lengths.sum) (u64Bound - 1) ≤ after.bytes ∧
        (lengths ≠ [] → after.records < limits.records ∧ after.bytes < limits.bytes)) := by
  induction lengths using reverseRecOn generalizing after with
  | nil =>
    cases reached
    exact .inr ⟨le_rfl, min_le_left _ _, fun some' => absurd rfl some'⟩
  | append_singleton rest length ih =>
    rw [Direction.after_snoc] at reached
    obtain ⟨middle, onward, advanced⟩ := Option.bind_eq_some_iff.mp reached
    rcases ih onward with later | ⟨more, heavier, -⟩
    · exact .inl (later.trans_le (Direction.advance_epoch_le advanced))
    · rcases Direction.advance_limits advanced with rekeyed | ⟨records, bytes, below⟩
      · exact .inl ((Direction.after_epoch_le onward).trans_lt rekeyed)
      · rw [length_append, length_singleton, sum_append, sum_singleton]
        exact .inr ⟨by omega, by omega, fun _ => below⟩

/-- No secret of a direction comes back. -/
theorem Link.CollisionFree.epochs_apart (free : link.CollisionFree keying) {role : Role}
    {early late : Nat} (known : late ≤ (link.sessions.get role).send.epoch)
    (earlier : early < late) : chain (keying.root role) early ≠ chain (keying.root role) late := by
  have next {epoch : Nat} (inside : epoch < (link.sessions.get role).send.epoch) :
      .next (chain (keying.root role) epoch) ∈ link.derivations keying :=
    mem_derivations (next_mem_chainDerivations inside)
  induction late generalizing early with
  | zero => exact absurd earlier (Nat.not_lt_zero _)
  | succ late ih =>
    intro same
    cases early with
    | zero => cases free (.traffic role keying) (traffic_mem_derivations role) _ (next known) same
    | succ early =>
      have equal := free _ (next ((Nat.lt_of_succ_lt earlier).trans_le known)) _ (next known) same
      exact ih (Nat.le_of_succ_le known) (Nat.lt_of_succ_lt_succ earlier)
        (Derivation.next.inj equal)

/-- Of two records an end sealed, with as many records or bytes from one to the other as a key may
serve, no key protects both, however the calls interleave. -/
theorem keys_replaced_at_limits (keying : Keying) (limits : Limits) {actions : List Action}
    {link : Link} (ran : (Link.start keying limits).run actions = some link)
    (unforged : (Link.start keying limits).Unforged actions) (free : link.CollisionFree keying)
    (fits : limits.bytes < u64Bound) (role : Role) {before between after : List Sealed}
    {early late : Sealed}
    (sealed : link.sealed.get role = before ++ early :: between ++ late :: after)
    (spent : limits.records ≤ between.length + 1 ∨
      limits.bytes ≤ ((early :: between).map fun entry => entry.plaintext.length).sum) :
    early.enc ≠ late.enc ∧ early.mac ≠ late.mac := by
  have aligned := ((Link.inStep_start keying limits).run ran unforged free).aligned role
  rw [sealed] at aligned
  obtain ⟨first, start, firstMade⟩ := aligned.made before.length early (by simp)
  obtain ⟨second, reached, secondMade⟩ :=
    aligned.made (before ++ early :: between).length late (by simp)
  have known := Direction.sending_epoch_le reached aligned.sent
  have firstStands := Direction.sending_stands start
  have secondStands := Direction.sending_stands reached
  -- The second direction is the first one after the records in between.
  rw [append_assoc, take_left] at start
  rw [take_left, Direction.sending, map_append, Direction.after_append, ← Direction.sending, start]
    at reached
  have later : first.epoch < second.epoch := by
    rcases Direction.after_limits reached with later | ⟨records, bytes, below⟩
    · exact later
    · have below := below (cons_ne_nil _ _)
      rw [length_map, length_cons] at records
      omega
  have apart := free.epochs_apart known later
  have keys {epoch : Nat} (inside : epoch ≤ (link.sessions.get role).send.epoch) :=
    (@mem_chainDerivations _ (keying.root role) _ _ inside).imp
      Link.mem_derivations Link.mem_derivations
  have ours := keys (later.le.trans known)
  have theirs := keys known
  rw [firstMade.enc, firstMade.mac, secondMade.enc, secondMade.mac, firstStands.enc,
    firstStands.mac, firstStands.secret, secondStands.enc, secondStands.mac, secondStands.secret]
  exact ⟨fun same => apart (Derivation.enc.inj (free _ ours.1 _ theirs.1 same)),
    fun same => apart (Derivation.mac.inj (free _ ours.2 _ theirs.2 same))⟩

end Limits

theorem keys_replaced_at_limits_two_records : letI : Sponge := checksumSponge
    ∃ link, (Link.start ⟨[1], [2], [3]⟩ ⟨1, 100⟩).run (exchange ⟨[1], [2], [3]⟩) = some link ∧
      ∃ early late, link.sealed.initiator = [early, late] ∧ early.enc ≠ late.enc := by
  let _ := checksumSponge
  let keying : Keying := ⟨[1], [2], [3]⟩
  have unforged : (Link.start keying ⟨1, 100⟩).Unforged (exchange keying) := by decide +kernel
  have runs : ((Link.start keying ⟨1, 100⟩).run (exchange keying)).any (fun link =>
      decide (link.CollisionFree keying ∧ link.sealed.initiator.length = 2)) = true := by
    decide +kernel
  obtain ⟨link, ran, decided⟩ := (Option.any_eq_true _ _).mp runs
  obtain ⟨free, two⟩ := of_decide_eq_true decided
  obtain ⟨early, late, both⟩ := length_eq_two.mp two
  have split : link.sealed.get .initiator = [] ++ early :: [] ++ [late] := both
  exact ⟨link, ran, early, late, both, (keys_replaced_at_limits keying ⟨1, 100⟩ ran unforged free
    (by decide) .initiator split (.inl le_rfl)).1⟩

end Q21Formal.Transport

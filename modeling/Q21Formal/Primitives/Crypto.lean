import Q21Formal.Library.Refusal

/-!
# Hashes, schemes and networks

256-bit hashes, the signature schemes with their byte sizes, the networks, and the writers of the
wire format.  SHA-256 and the signature backends are external code, the fields of `Crypto`, and
nothing is assumed of them here.
-/

namespace Q21Formal.Primitives
open Library.Codec List Library.Parsing Library.Refusal

/-- A 256-bit hash. -/
structure Hash256 where
  bytes : Bytes
  length_bytes : bytes.length = 32
deriving DecidableEq

namespace Hash256

@[ext] theorem ext {first second : Hash256} (same : first.bytes = second.bytes) :
    first = second := by
  cases first
  cases same
  rfl

def zero : Hash256 := ⟨replicate 32 0, by decide⟩

/-- The hash whose first bytes are the little-endian numeral of `value`. -/
def ofNat (value : Nat) : Hash256 := ⟨leBytes 32 value, leBytes_length 32 value⟩

theorem bytes_injective : Function.Injective bytes := fun _ _ same => ext same

/-- The bytes as numbers, which hashes are ordered by. -/
def numerals (hash : Hash256) : List Nat := hash.bytes.map UInt8.toNat

theorem numerals_injective : Function.Injective numerals := fun _ _ same =>
  ext (map_injective_iff.mpr (fun _ _ => UInt8.toNat_inj.mp) same)

instance : LinearOrder Hash256 where
  __ := PartialOrder.lift numerals numerals_injective
  le_total first second := le_total first.numerals second.numerals
  toDecidableLE first second := inferInstanceAs (Decidable (first.numerals ≤ second.numerals))
  toDecidableEq := instDecidableEqHash256

end Hash256

/-! ## Networks and schemes -/

inductive Network where
  | mainnet
  | testnet
  | regtest
deriving DecidableEq, Repr

/-- The human-readable part of the network's addresses, as ASCII bytes. -/
def Network.hrp : Network → Bytes
  | .mainnet => [0x71, 0x32, 0x31]
  | .testnet => [0x74, 0x71, 0x32, 0x31]
  | .regtest => [0x72, 0x71, 0x32, 0x31]

inductive SchemeId where
  | mlDsa65
  | mlDsa87
  | sphincsPlus
  | lamportOts
  | policy
  | nameTag
  | nameKey
deriving DecidableEq, Repr

namespace SchemeId

section
variable (scheme : SchemeId)

def asU8 : SchemeId → UInt8
  | .mlDsa65 => 1
  | .mlDsa87 => 2
  | .sphincsPlus => 3
  | .lamportOts => 4
  | .policy => 5
  | .nameTag => 6
  | .nameKey => 7

def fromU8 (value : UInt8) : Option SchemeId :=
  match value.toNat with
  | 1 => some .mlDsa65
  | 2 => some .mlDsa87
  | 3 => some .sphincsPlus
  | 4 => some .lamportOts
  | 5 => some .policy
  | 6 => some .nameTag
  | 7 => some .nameKey
  | _ => none

def pubkeyLen : SchemeId → Nat
  | .mlDsa65 => 1952
  | .mlDsa87 => 2592
  | .sphincsPlus => 48
  | .lamportOts => 16384
  | .policy => 0
  | .nameTag => 0
  | .nameKey => 0

def sigLen : SchemeId → Nat
  | .mlDsa65 => 3309
  | .mlDsa87 => 4627
  | .sphincsPlus => 16224
  | .lamportOts => 8192
  | .policy => 0
  | .nameTag => 0
  | .nameKey => 0

def allowedOn : SchemeId → Network → Bool
  | .lamportOts, network => network != .mainnet
  | .mlDsa65, _ => true
  | .mlDsa87, _ => true
  | .sphincsPlus, _ => false
  | .policy, _ => false
  | .nameTag, _ => false
  | .nameKey, _ => false

def isName : SchemeId → Bool
  | .nameTag => true
  | .nameKey => true
  | _ => false

def isSpendable : Bool := !scheme.isName

def isOneTime : Bool := scheme == .lamportOts

/-- Schemes this binary can sign and verify, built with the `mldsa` feature. -/
def isAvailable : Bool := scheme != .sphincsPlus

theorem fromU8_asU8 : fromU8 scheme.asU8 = some scheme := by
  cases scheme <;> rfl

theorem asU8_injective : Function.Injective asU8 := by
  intro first second same
  have decoded := congrArg fromU8 same
  simpa only [fromU8_asU8, Option.some.injEq] using decoded

end

end SchemeId

/-- The external functions; the ML-DSA verifier answers `none` for a key it cannot decode. -/
class Crypto where
  sha256 : Bytes → Hash256
  lamportVerify : Bytes → Hash256 → Bytes → Bool
  mldsaVerify : SchemeId → Bytes → Hash256 → Bytes → Option Bool

/-- The domains of `tagged_hash`. -/
inductive Tag where
  | tx
  | blockHeader
  | merkleLeaf
  | merkleBranch
  | address
  | sighash
  | policy
  | policySighash
  | walletSeed
deriving DecidableEq, Repr

/-- The ASCII bytes of a text constant. -/
def ascii (text : String) : Bytes := text.toList.map fun letter => UInt8.ofNat letter.toNat

def Tag.text : Tag → String
  | .tx => "Q21/tx"
  | .blockHeader => "Q21/header"
  | .merkleLeaf => "Q21/merkle/leaf"
  | .merkleBranch => "Q21/merkle/branch"
  | .address => "Q21/address"
  | .sighash => "Q21/sighash/2"
  | .policy => "Q21/policy"
  | .policySighash => "Q21/sighash/policy"
  | .walletSeed => "Q21/wallet/seed"

section Hashing
variable [Crypto]

/-- `tagged_hash` under any text; `tagged_hash_parts` is the same over the joined parts. -/
def taggedHashText (tag : String) (message : Bytes) : Hash256 :=
  let tagHash := (Crypto.sha256 (ascii tag)).bytes
  Crypto.sha256 (tagHash ++ tagHash ++ message)

def taggedHash (tag : Tag) (message : Bytes) : Hash256 := taggedHashText tag.text message

def pubkeyHash (scheme : SchemeId) (pubkey : Bytes) : Hash256 :=
  taggedHash .address (scheme.asU8 :: pubkey)

end Hashing

section
variable (scheme : SchemeId) (pubkey : Bytes) (message : Hash256) (signature : Bytes)

/-- A polynomial checksum, to stand for SHA-256 where a run is evaluated. -/
def checksum (bytes : Bytes) : Hash256 :=
  .ofNat (bytes.foldl (fun sum byte => (sum * 257 + byte.toNat + 1) % (2 ^ 61 - 1)) 7)

/-- Functions to evaluate with: a checksum as the hash, and signatures that end with the message
valid. -/
@[reducible] def checksumCrypto : Crypto where
  sha256 := checksum
  lamportVerify _ message signature := message.bytes.isSuffixOf signature
  mldsaVerify _ _ message signature := some (message.bytes.isSuffixOf signature)

inductive VerifyError where
  | schemeUnavailable (scheme : SchemeId)
  | invalidKeyLength (expected received : Nat)
  | invalidSignatureLength (expected received : Nat)
  | invalidSignature
deriving DecidableEq, Repr

def checkSizes (pubkey signature : Bytes) : Except VerifyError Unit :=
  if pubkey.length ≠ scheme.pubkeyLen then
    .error (.invalidKeyLength scheme.pubkeyLen pubkey.length)
  else if signature.length ≠ scheme.sigLen then
    .error (.invalidSignatureLength scheme.sigLen signature.length)
  else
    .ok ()

/-- `mldsa_backend::verify`: nothing but the two ML-DSA parameter sets is implemented. -/
def mldsaBackendVerify [Crypto] : Option Bool :=
  match scheme with
  | .mlDsa65 => Crypto.mldsaVerify .mlDsa65 pubkey message signature
  | .mlDsa87 => Crypto.mldsaVerify .mlDsa87 pubkey message signature
  | _ => none

/-- `sig::verify`. -/
def verify [Crypto] : Except VerifyError Unit := do
  if scheme = .policy then
    throw .invalidSignature
  checkSizes scheme pubkey signature
  if scheme = .lamportOts then
    if Crypto.lamportVerify pubkey message signature then pure () else throw .invalidSignature
  else
    match mldsaBackendVerify scheme pubkey message signature with
    | some true => pure ()
    | some false => throw .invalidSignature
    | none => throw (.schemeUnavailable scheme)

def writeU32 (value : UInt32) : Bytes := leBytes 4 value.toNat

def writeU64 (value : UInt64) : Bytes := leBytes 8 value.toNat

/-- The canonical variable-length integer; its argument is a `u64`. -/
def writeVarint (value : Nat) : Bytes :=
  if value ≤ 0xfc then leBytes 1 value
  else if value ≤ 0xffff then 0xfd :: leBytes 2 value
  else if value ≤ 0xffffffff then 0xfe :: leBytes 4 value
  else 0xff :: leBytes 8 value

def writeVarBytes (content : Bytes) : Bytes := writeVarint content.length ++ content

theorem writeU32_selfDelimiting : SelfDelimiting writeU32 :=
  selfDelimiting_of_width 4 (fun _ => leBytes_length 4 _) fun first second same =>
    UInt32.toNat_inj.mp (leBytes_injective first.toNat_lt second.toNat_lt same)

theorem writeU64_selfDelimiting : SelfDelimiting writeU64 :=
  selfDelimiting_of_width 8 (fun _ => leBytes_length 8 _) fun first second same =>
    UInt64.toNat_inj.mp (leBytes_injective first.toNat_lt second.toNat_lt same)

theorem hash_selfDelimiting : SelfDelimiting Hash256.bytes :=
  selfDelimiting_of_width 32 Hash256.length_bytes Hash256.bytes_injective

theorem scheme_selfDelimiting : SelfDelimiting fun scheme : SchemeId => [scheme.asU8] :=
  selfDelimiting_of_width 1 (fun _ => rfl) fun first second same =>
    SchemeId.asU8_injective (by simpa using same)

/-! ## Readers -/

inductive ReadError where
  | unexpectedEnd
  | nonCanonicalVarint
  | invalidValue
  | trailingBytes (count : Nat)
deriving DecidableEq, Repr

/-- A read takes the bytes left and returns a value with the bytes after it. -/
abbrev Read (α : Type) := Bytes → Except ReadError (α × Bytes)

/-- `Reader::take`. -/
def readBytes (count : Nat) : Read Bytes := fun left =>
  if left.length < count then .error .unexpectedEnd else .ok (left.take count, left.drop count)

def readU8 : Read UInt8
  | [] => .error .unexpectedEnd
  | byte :: left => .ok (byte, left)

def readU32 : Read UInt32 := fun left => do
  let (bytes, left) ← readBytes 4 left
  .ok (UInt32.ofNat (leValue bytes), left)

def readArray32 : Read Hash256 := fun left =>
  if enough : 32 ≤ left.length then
    .ok (⟨left.take 32, by simp [enough]⟩, left.drop 32)
  else
    .error .unexpectedEnd

/-- A numeral of `width` bytes, refused when a shorter form would have held it. -/
def readWide (width least : Nat) : Read Nat := fun left => do
  let (bytes, left) ← readBytes width left
  if leValue bytes < least then .error .nonCanonicalVarint else .ok (leValue bytes, left)

/-- `Reader::varint`: only the shortest form of a number is accepted. -/
def readVarint : Read Nat := fun left => do
  let (head, left) ← readU8 left
  if head.toNat ≤ 0xfc then .ok (head.toNat, left)
  else if head.toNat = 0xfd then readWide 2 0xfd left
  else if head.toNat = 0xfe then readWide 4 0x10000 left
  else readWide 8 0x100000000 left

def readVarBytes : Read Bytes := fun left => do
  let (count, left) ← readVarint left
  readBytes count left

theorem readBytes_append {count : Nat} {content : Bytes} (sized : content.length = count)
    (rest : Bytes) : readBytes count (content ++ rest) = .ok (content, rest) := by
  subst sized
  simp [readBytes]

theorem readWide_leBytes {width least value : Nat} (enough : least ≤ value)
    (fits : value < 256 ^ width) (rest : Bytes) :
    readWide width least (leBytes width value ++ rest) = .ok (value, rest) := by
  have whole : leValue (leBytes width value) = value := by
    rw [leValue_leBytes, Nat.mod_eq_of_lt fits]
  have long : ¬ value < least := by omega
  simp only [readWide, readBytes_append (leBytes_length width value), bind, Except.bind, whole,
    if_neg long]

theorem readVarint_cons (head : UInt8) (left : Bytes) : readVarint (head :: left) =
      if head.toNat ≤ 0xfc then .ok (head.toNat, left)
      else if head.toNat = 0xfd then readWide 2 0xfd left
      else if head.toNat = 0xfe then readWide 4 0x10000 left
      else readWide 8 0x100000000 left := rfl

/-- A written integer is read back, whichever of its four forms it takes. -/
theorem readVarint_writeVarint {value : Nat} (fits : value < 2 ^ 64) (rest : Bytes) :
    readVarint (writeVarint value ++ rest) = .ok (value, rest) := by
  unfold writeVarint
  split_ifs with small medium large
  · have byte : (UInt8.ofNat (value % 256)).toNat = value := by
      simp only [UInt8.toNat_ofNat']
      omega
    rw [leBytes, leBytes, cons_append, nil_append, readVarint_cons, byte, if_pos small]
  · rw [cons_append, readVarint_cons, if_neg (by decide), if_pos (by decide)]
    exact readWide_leBytes (by omega) (by omega) rest
  · rw [cons_append, readVarint_cons, if_neg (by decide), if_neg (by decide), if_pos (by decide)]
    exact readWide_leBytes (by omega) (by omega) rest
  · rw [cons_append, readVarint_cons, if_neg (by decide), if_neg (by decide), if_neg (by decide)]
    exact readWide_leBytes (by omega) (by omega) rest

/-- Two written integers that start equal strings are equal, and so is what follows them. -/
theorem writeVarint_append_inj {first second : Nat} (firstFits : first < 2 ^ 64)
    (secondFits : second < 2 ^ 64) {before after : Bytes}
    (same : writeVarint first ++ before = writeVarint second ++ after) :
    first = second ∧ before = after := by
  have read := congrArg readVarint same
  rw [readVarint_writeVarint firstFits, readVarint_writeVarint secondFits] at read
  simpa using read

/-- Written bytes are read back with what follows them. -/
theorem readVarBytes_writeVarBytes {content : Bytes} (fits : content.length < 2 ^ 64)
    (rest : Bytes) : readVarBytes (writeVarBytes content ++ rest) = .ok (content, rest) := by
  rw [writeVarBytes, append_assoc]
  simp only [readVarBytes, readVarint_writeVarint fits, bind, Except.bind]
  exact readBytes_append rfl rest

theorem readArray32_append (hash : Hash256) (rest : Bytes) :
    readArray32 (hash.bytes ++ rest) = .ok (hash, rest) := by
  have enough : 32 ≤ (hash.bytes ++ rest).length := by
    rw [length_append, hash.length_bytes]
    omega
  have front : (hash.bytes ++ rest).take 32 = hash.bytes := take_left' hash.length_bytes
  have back : (hash.bytes ++ rest).drop 32 = rest := drop_left' hash.length_bytes
  unfold readArray32
  rw [dif_pos enough]
  simp only [front, back]

end

variable {left rest content : Bytes}

theorem readU8_eq_ok {byte : UInt8} : readU8 left = .ok (byte, rest) ↔ left = byte :: rest := by
  cases left with
  | nil | cons => simp [readU8]

theorem readBytes_eq_ok {count : Nat} :
    readBytes count left = .ok (content, rest) ↔ left = content ++ rest ∧ content.length = count := by
  constructor
  · intro read
    unfold readBytes at read
    split at read
    · cases read
    · cases read
      exact ⟨(take_append_drop count left).symm, by simp; omega⟩
  · rintro ⟨rfl, sized⟩
    exact readBytes_append sized rest

theorem readU32_eq_ok {value : UInt32} :
    readU32 left = .ok (value, rest) ↔ left = writeU32 value ++ rest := by
  constructor
  · intro read
    unfold readU32 at read
    cases taken : readBytes 4 left with
    | error problem =>
      rw [taken] at read
      cases read
    | ok pair =>
      obtain ⟨bytes, after⟩ := pair
      obtain ⟨rfl, sized⟩ := readBytes_eq_ok.mp taken
      rw [taken] at read
      cases read
      have small := leValue_lt bytes
      rw [sized] at small
      have back : (UInt32.ofNat (leValue bytes)).toNat = leValue bytes :=
        UInt32.toNat_ofNat_of_lt' small
      rw [writeU32, back, ← sized, leBytes_leValue]
  · rintro rfl
    have whole : leValue (leBytes 4 value.toNat) = value.toNat := by
      rw [leValue_leBytes]
      exact Nat.mod_eq_of_lt value.toNat_lt
    simp only [readU32, writeU32, readBytes_append (leBytes_length 4 _), bind, Except.bind, whole,
      UInt32.ofNat_toNat]

theorem readArray32_eq_ok {hash : Hash256} :
    readArray32 left = .ok (hash, rest) ↔ left = hash.bytes ++ rest := by
  constructor
  · intro read
    unfold readArray32 at read
    split at read
    · cases read
      exact (take_append_drop 32 left).symm
    · cases read
  · rintro rfl
    exact readArray32_append hash rest

theorem readWide_eq_ok {width least value : Nat}
    (read : readWide width least left = .ok (value, rest)) :
    left = leBytes width value ++ rest ∧ least ≤ value ∧ value < 256 ^ width := by
  unfold readWide at read
  cases taken : readBytes width left with
  | error problem =>
    rw [taken] at read
    cases read
  | ok pair =>
    obtain ⟨bytes, after⟩ := pair
    obtain ⟨rfl, sized⟩ := readBytes_eq_ok.mp taken
    rw [taken] at read
    simp only [bind, Except.bind] at read
    split at read
    · cases read
    · cases read
      refine ⟨?_, by omega, ?_⟩
      · rw [← sized, leBytes_leValue]
      · rw [← sized]
        exact leValue_lt bytes

/-- Only the written form of an integer is read. -/
theorem readVarint_eq_ok {value : Nat} (read : readVarint left = .ok (value, rest)) :
    left = writeVarint value ++ rest ∧ value < 2 ^ 64 := by
  cases left with
  | nil => cases read
  | cons head tail =>
    rw [readVarint_cons] at read
    have byte := head.toNat_lt
    split_ifs at read with small medium large
    · cases read
      refine ⟨?_, by omega⟩
      rw [writeVarint, if_pos small, leBytes, leBytes, Nat.mod_eq_of_lt byte, UInt8.ofNat_toNat]
      rfl
    · obtain ⟨rfl, enough, fits⟩ := readWide_eq_ok read
      refine ⟨?_, by omega⟩
      rw [writeVarint, if_neg (by omega), if_pos (by omega),
        UInt8.toNat_inj.mp (medium.trans rfl : head.toNat = (0xfd : UInt8).toNat)]
      rfl
    · obtain ⟨rfl, enough, fits⟩ := readWide_eq_ok read
      refine ⟨?_, by omega⟩
      rw [writeVarint, if_neg (by omega), if_neg (by omega), if_pos (by omega),
        UInt8.toNat_inj.mp (large.trans rfl : head.toNat = (0xfe : UInt8).toNat)]
      rfl
    · obtain ⟨rfl, enough, fits⟩ := readWide_eq_ok read
      have last : head.toNat = (0xff : UInt8).toNat := by
        have : (0xff : UInt8).toNat = 255 := rfl
        omega
      refine ⟨?_, by omega⟩
      rw [writeVarint, if_neg (by omega), if_neg (by omega), if_neg (by omega),
        UInt8.toNat_inj.mp last]
      rfl

theorem readVarBytes_eq_ok (read : readVarBytes left = .ok (content, rest)) :
    left = writeVarBytes content ++ rest := by
  unfold readVarBytes at read
  cases counted : readVarint left with
  | error problem =>
    rw [counted] at read
    cases read
  | ok pair =>
    obtain ⟨count, after⟩ := pair
    rw [counted] at read
    obtain ⟨rfl, sized⟩ := readBytes_eq_ok.mp read
    obtain ⟨rfl, _⟩ := readVarint_eq_ok counted
    rw [writeVarBytes, sized, append_assoc]

def readU64 : Read UInt64 := fun left => do
  let (bytes, left) ← readBytes 8 left
  .ok (UInt64.ofNat (leValue bytes), left)

/-- `Reader::read_count`: a count of elements of at least `minimum` bytes, refused when the bytes
left cannot hold them; zero disables the check. -/
def readCount (minimum : Nat) : Read Nat := fun left => do
  let (count, left) ← readVarint left
  if minimum ≠ 0 ∧ left.length / minimum < count then .error .invalidValue else .ok (count, left)

/-- `Reader::expect_end`. -/
def expectEnd (left : Bytes) : Except ReadError Unit :=
  if left.length ≠ 0 then .error (.trailingBytes left.length) else .ok ()

/-- A counted sequence: the count, then as many elements. -/
def readCounted {ε α : Type} (wrap : ReadError → ε) (minimum : Nat)
    (read : Bytes → Except ε (α × Bytes)) (left : Bytes) : Except ε (List α × Bytes) := do
  let (count, left) ← (readCount minimum left).mapError wrap
  readMany read count left

variable {left rest : Bytes} {minimum : Nat} {α : Type} {encode : α → Bytes}

theorem readU8_exact : Exact readU8 (fun byte => [byte]) fun _ => True :=
  exact_of_iff fun _ _ _ => readU8_eq_ok

theorem readU64_eq_ok {value : UInt64} :
    readU64 left = .ok (value, rest) ↔ left = writeU64 value ++ rest := by
  simp only [readU64, bind_eq_ok, readBytes_eq_ok, Prod.exists, Except.ok.injEq, Prod.mk.injEq]
  constructor
  · rintro ⟨bytes, _, ⟨rfl, sized⟩, rfl, rfl⟩
    have small := leValue_lt bytes
    rw [sized] at small
    have back : (UInt64.ofNat (leValue bytes)).toNat = leValue bytes :=
      UInt64.toNat_ofNat_of_lt' small
    rw [writeU64, back, ← sized, leBytes_leValue]
  · rintro rfl
    refine ⟨writeU64 value, rest, ⟨rfl, leBytes_length 8 _⟩, ?_, rfl⟩
    have whole : value.toNat % 256 ^ 8 = value.toNat := Nat.mod_eq_of_lt value.toNat_lt
    rw [writeU64, leValue_leBytes, whole, UInt64.ofNat_toNat]

theorem readVarBytes_exact :
    Exact readVarBytes writeVarBytes fun content => content.length < 2 ^ 64 := by
  intro left content rest
  constructor
  · intro read
    refine ⟨?_, readVarBytes_eq_ok read⟩
    simp only [readVarBytes, bind_eq_ok, readBytes_eq_ok, Prod.exists] at read
    obtain ⟨count, middle, counted, -, rfl⟩ := read
    exact (readVarint_eq_ok counted).2
  · rintro ⟨fits, rfl⟩
    exact readVarBytes_writeVarBytes fits rest

theorem expectEnd_eq_ok {done : Unit} : expectEnd left = .ok done ↔ left = [] := by
  unfold expectEnd
  split <;> simp_all

theorem readCount_eq_ok {count : Nat} : readCount minimum left = .ok (count, rest) ↔
      (count < 2 ^ 64 ∧ (minimum ≠ 0 → count ≤ rest.length / minimum)) ∧
        left = writeVarint count ++ rest := by
  simp only [readCount, bind_eq_ok, Prod.exists]
  constructor
  · rintro ⟨written, middle, read, passed⟩
    obtain ⟨rfl, fits⟩ := readVarint_eq_ok read
    split at passed
    · cases passed
    · rename_i enough
      cases passed
      exact ⟨⟨fits, fun positive => Nat.le_of_not_lt fun few => enough ⟨positive, few⟩⟩, rfl⟩
  · rintro ⟨⟨fits, enough⟩, rfl⟩
    refine ⟨count, rest, readVarint_writeVarint fits rest, if_neg ?_⟩
    rintro ⟨positive, few⟩
    exact Nat.not_lt.mpr (enough positive) few

theorem length_flatMap_ge {values : List α}
    (long : ∀ value ∈ values, minimum ≤ (encode value).length) :
    values.length * minimum ≤ (values.flatMap encode).length := by
  induction values with
  | nil => simp
  | cons value values ih =>
    have first := long value (.head _)
    have others := ih fun other member => long other (.tail _ member)
    rw [flatMap_cons, length_append, length_cons, Nat.succ_mul]
    omega

/-- A counted sequence is exact when no element is shorter than the minimum of the check. -/
theorem readCounted_exact {ε : Type} {wrap : ReadError → ε} {read : Bytes → Except ε (α × Bytes)}
    {valid : α → Prop} (exact : Exact read encode valid)
    (long : ∀ value, valid value → minimum ≤ (encode value).length) :
    Exact (readCounted wrap minimum read)
      (fun values => writeVarint values.length ++ values.flatMap encode)
      fun values => values.length < 2 ^ 64 ∧ ∀ value ∈ values, valid value := by
  intro left values rest
  simp only [readCounted, bind_eq_ok, mapError_eq_ok, readCount_eq_ok, Prod.exists]
  constructor
  · rintro ⟨count, middle, ⟨⟨fits, -⟩, rfl⟩, following⟩
    obtain ⟨⟨rfl, goods⟩, rfl⟩ := (exact.many count middle values rest).mp following
    exact ⟨⟨fits, goods⟩, by rw [append_assoc]⟩
  · rintro ⟨⟨fits, goods⟩, rfl⟩
    refine ⟨values.length, values.flatMap encode ++ rest, ⟨⟨fits, fun positive => ?_⟩, ?_⟩,
      (exact.many _ _ _ _).mpr ⟨⟨rfl, goods⟩, rfl⟩⟩
    · have total := length_flatMap_ge fun value member => long value (goods value member)
      refine (Nat.le_div_iff_mul_le (Nat.pos_of_ne_zero positive)).mpr ?_
      rw [length_append]
      omega
    · rw [append_assoc]

end Q21Formal.Primitives

import Q21Formal.Library.FiniteMap
import Q21Formal.Ledger.Emission

/-!
# Names, blocks, targets, work and mining

A name is registered by two adjacent outputs: a tag that burns the price and carries the name, and
the owner's key.  Then headers and blocks with their shape rules, the compact difficulty format, the
decoders, which accept exactly what the encoders write, and mining, alone or in waves of threads.
-/

namespace Q21Formal.Ledger
open Library.Codec Library.Refusal Library.Maps Primitives Library.Parsing List

def namePrice : Nat := 50_000_000
def nameMinLen : Nat := 3
def nameMaxLen : Nat := 30
def maxNamesPerOwner : Nat := 3

/-- A lowercase letter, a digit or a hyphen. -/
def nameAllowed (letter : UInt8) : Bool :=
  (0x61 ≤ letter && letter ≤ 0x7a) || (0x30 ≤ letter && letter ≤ 0x39) || letter == 0x2d

def nameIsCanonical (name : Bytes) : Bool :=
  decide (nameMinLen ≤ name.length) && decide (name.length ≤ nameMaxLen) &&
    name.all nameAllowed && name.head? != some 0x2d && name.getLast? != some 0x2d

/-- The text a tag carries: the bytes before the first zero, all zeros after it. -/
def decodeName (tag : Hash256) : Option Bytes :=
  let text := tag.bytes.takeWhile fun letter => letter != 0
  if (tag.bytes.drop text.length).all (· == 0) && nameIsCanonical text then some text else none

/-- Digits read as the letters they resemble. -/
def skeletonLetter (letter : UInt8) : UInt8 :=
  if letter = 0x30 then 0x6f
  else if letter = 0x31 ∨ letter = 0x69 then 0x6c
  else if letter = 0x32 then 0x7a
  else if letter = 0x34 then 0x61
  else if letter = 0x35 then 0x73
  else if letter = 0x36 ∨ letter = 0x38 then 0x62
  else if letter = 0x39 then 0x67
  else letter

/-- Pairs of letters read as the one they resemble: `rn` as `m`, `vv` as `w`, `cl` as `d`. -/
def skeletonPairs : Bytes → Bytes
  | [] => []
  | [letter] => [letter]
  | first :: second :: rest =>
    if first = 0x72 ∧ second = 0x6e then 0x6d :: skeletonPairs rest
    else if first = 0x76 ∧ second = 0x76 then 0x77 :: skeletonPairs rest
    else if first = 0x63 ∧ second = 0x6c then 0x64 :: skeletonPairs rest
    else first :: skeletonPairs (second :: rest)

def skeleton (name : Bytes) : Bytes :=
  skeletonPairs ((name.filter fun letter => letter != 0x2d).map skeletonLetter)

structure Registration where
  name : Bytes
  owner : Hash256
  tagIndex : Nat
deriving DecidableEq

inductive NameError where
  | moreThanOne
  | unpaired
  | notCanonical
  | wrongAmount (expected received : Nat)
  | noOwnerInput
  | taken
  | ownerFull
  | inCoinbase
  | unspendable (outpoint : OutPoint)
deriving DecidableEq

/-- The positions of the outputs of one scheme, with the outputs. -/
def outputsOf (scheme : SchemeId) (outputs : List TxOut) : List (TxOut × Nat) :=
  outputs.zipIdx.filter fun entry => entry.1.scheme == scheme

/-- `names::registration`. -/
def registration (tx : Transaction) : Except NameError (Option Registration) :=
  match outputsOf .nameTag tx.outputs, outputsOf .nameKey tx.outputs with
  | [], [] => .ok none
  | [(tag, tagIndex)], [(key, keyIndex)] =>
    if keyIndex = tagIndex + 1 then do
      require (tag.value.toNat = namePrice) (.wrongAmount namePrice tag.value.toNat)
      require (key.value.toNat = 0) (.wrongAmount 0 key.value.toNat)
      let name ← orRefuse (decodeName tag.pubkeyHash) .notCanonical
      pure (some ⟨name, key.pubkeyHash, tagIndex⟩)
    else
      .error .unpaired
  | [_], [] => .error .unpaired
  | [], [_] => .error .unpaired
  | _, _ => .error .moreThanOne

structure NameRecord where
  owner : Hash256
  tag : OutPoint
  height : Nat
deriving DecidableEq

structure NameIndex where
  byName : FiniteMap Hash256 NameRecord := ∅
  bySkeleton : FiniteMap Bytes Hash256 := ∅
  perOwner : FiniteMap Hash256 Nat := ∅
  byTag : FiniteMap OutPoint Hash256 := ∅

namespace NameIndex

section
variable (index : NameIndex) (tag : OutPoint) (owner : Hash256)

def add (name owner : Hash256) (height : Nat) : NameIndex :=
  match decodeName name with
  | none => index
  | some text =>
    if (index.byTag.lookup tag).isSome then index
    else
      { byTag := index.byTag.insert tag name
        bySkeleton := index.bySkeleton.insert (skeleton text) name
        byName := index.byName.insert name ⟨owner, tag, height⟩
        perOwner := index.perOwner.insert owner ((index.perOwner.lookup owner).getD 0 + 1) }

/-- One name fewer for its owner; an owner with none left is forgotten. -/
def releaseOwner (perOwner : FiniteMap Hash256 Nat) (owner : Hash256) : FiniteMap Hash256 Nat :=
  match perOwner.lookup owner with
  | none => perOwner
  | some count =>
    if count - 1 = 0 then perOwner.erase owner else perOwner.insert owner (count - 1)

/-- The skeleton of a removed name, if it is still the one its skeleton designates. -/
def releaseSkeleton (bySkeleton : FiniteMap Bytes Hash256) (name : Hash256) :
    FiniteMap Bytes Hash256 :=
  match decodeName name with
  | none => bySkeleton
  | some text =>
    if bySkeleton.lookup (skeleton text) = some name then bySkeleton.erase (skeleton text)
    else bySkeleton

def removeTag : NameIndex :=
  match index.byTag.lookup tag with
  | none => index
  | some name =>
    let index := { index with byTag := index.byTag.erase tag }
    match index.byName.lookup name with
    | none => index
    | some record =>
      if record.tag = tag then
        { index with
          byName := index.byName.erase name
          bySkeleton := releaseSkeleton index.bySkeleton name
          perOwner := releaseOwner index.perOwner record.owner }
      else index

/-- The name a skeleton designates. -/
def nameBySkeleton (skeletonOf : Bytes) : Option Bytes :=
  (index.bySkeleton.lookup skeletonOf).bind decodeName

def owned : Nat := (index.perOwner.lookup owner).getD 0

end

end NameIndex

/-! ## Blocks -/

def maxBlockSize : Nat := 4 * 1024 * 1024

structure BlockHeader where
  version : UInt32
  prevBlock : Hash256
  merkleRoot : Hash256
  unclesRoot : Hash256
  miner : Hash256
  time : UInt64
  bits : UInt32
  height : UInt64
  nonce : UInt64
deriving DecidableEq

def BlockHeader.encode (header : BlockHeader) : Bytes :=
  writeU32 header.version ++ header.prevBlock.bytes ++ header.merkleRoot.bytes ++
    header.unclesRoot.bytes ++ header.miner.bytes ++ writeU64 header.time ++
    writeU32 header.bits ++ writeU64 header.height ++ writeU64 header.nonce

structure Block where
  header : BlockHeader
  transactions : List Transaction
  uncles : List BlockHeader
deriving DecidableEq

inductive BlockError where
  | noTransactions
  | firstTransactionNotCoinbase
  | multipleCoinbase
  | badMerkleRoot
  | badUnclesRoot
  | transaction (problem : TxError)
deriving DecidableEq, Repr

def Block.encode (block : Block) : Bytes :=
  block.header.encode ++ writeVarint block.transactions.length ++
    block.transactions.flatMap (fun tx => writeVarBytes tx.encode) ++
    writeVarint block.uncles.length ++ block.uncles.flatMap BlockHeader.encode

section Hashing
variable [Crypto]

def BlockHeader.blockId (header : BlockHeader) : Hash256 := taggedHash .blockHeader header.encode

def leafHash (content : Bytes) : Hash256 := taggedHash .merkleLeaf content

def branchHash (left right : Hash256) : Hash256 :=
  taggedHash .merkleBranch (left.bytes ++ right.bytes)

/-- One level of the tree: adjacent pairs joined, an odd last node carried up as it is. -/
def merkleLevel : List Hash256 → List Hash256
  | [] => []
  | [last] => [last]
  | left :: right :: rest => branchHash left right :: merkleLevel rest

/-- Levels joined until one node is left; `fuel` bounds their number. -/
def merkleLevels : Nat → List Hash256 → Hash256
  | 0, level => level.headD Hash256.zero
  | _ + 1, [] => Hash256.zero
  | _ + 1, [root] => root
  | fuel + 1, level => merkleLevels fuel (merkleLevel level)

def merkleRoot (leaves : List Hash256) : Hash256 := merkleLevels leaves.length leaves

def Block.computeMerkleRoot (block : Block) : Hash256 :=
  merkleRoot (block.transactions.map Transaction.merkleLeaf)

def Block.computeUnclesRoot (block : Block) : Hash256 :=
  merkleRoot (block.uncles.map fun uncle => leafHash uncle.blockId.bytes)

def Block.checkShape (block : Block) : Except BlockError Unit :=
  match block.transactions with
  | [] => .error .noTransactions
  | coinbase :: rest => do
      require (coinbase.isCoinbase = true) .firstTransactionNotCoinbase
      require (rest.any Transaction.isCoinbase = false) .multipleCoinbase
      (coinbase :: rest).forM fun tx => tx.checkShape.mapError .transaction
      require (block.computeMerkleRoot = block.header.merkleRoot) .badMerkleRoot
      require (block.computeUnclesRoot = block.header.unclesRoot) .badUnclesRoot

theorem Block.checkShape_roots {block : Block} (checked : block.checkShape = .ok ()) :
    block.computeMerkleRoot = block.header.merkleRoot ∧
      block.computeUnclesRoot = block.header.unclesRoot := by
  unfold Block.checkShape at checked
  split at checked
  · cases checked
  · simp only [bind_eq_ok, require_eq_ok] at checked
    obtain ⟨_, _, _, _, _, _, _, merkle, uncles⟩ := checked
    exact ⟨merkle, uncles⟩

/-- A block of good shape: one coinbase, first, and every transaction well formed. -/
theorem Block.checkShape_ok {block : Block} (checked : block.checkShape = .ok ()) :
    ∃ coinbase rest, block.transactions = coinbase :: rest ∧ coinbase.isCoinbase = true ∧
      (∀ tx ∈ rest, tx.isCoinbase = false) ∧
      ∀ tx ∈ block.transactions, tx.checkShape = .ok () := by
  unfold Block.checkShape at checked
  cases listed : block.transactions with
  | nil => simp [listed] at checked
  | cons coinbase rest =>
    simp only [listed, bind_eq_ok, require_eq_ok] at checked
    obtain ⟨_, first, _, single, _, shapes, _⟩ := checked
    refine ⟨coinbase, rest, rfl, first, ?_, ?_⟩
    · intro tx member
      have none := List.any_eq_false.mp single tx member
      simpa using none
    · intro tx member
      exact mapError_eq_ok.mp (forM_eq_ok.mp shapes tx member)

end Hashing

inductive PowError where
  | negativeTarget
  | zeroTarget
  | targetTooLarge
  | targetTooEasy
  | insufficientWork
deriving DecidableEq, Repr

def u256Bound : Nat := 2 ^ 256

def initialBits : UInt32 := 0x2000ffff

/-- `mantissa * 256 ^ count` by repeated checked multiplication. -/
def shiftTarget : Nat → Nat → Except PowError Nat
  | 0, value => .ok value
  | count + 1, value =>
    if value * 256 < u256Bound then shiftTarget count (value * 256) else .error .targetTooLarge

def targetFromCompact (bits : UInt32) : Except PowError Nat := do
  let exponent := bits.toNat / 2 ^ 24
  let mantissa := bits.toNat % 2 ^ 23
  require (bits.toNat / 2 ^ 23 % 2 = 0) .negativeTarget
  require (mantissa ≠ 0) .zeroTarget
  let target ←
    if exponent ≤ 3 then .ok (mantissa / 256 ^ (3 - exponent))
    else shiftTarget (exponent - 3) mantissa
  require (target ≠ 0) .zeroTarget
  pure target

/-- The easiest target a header may announce. -/
def floorTarget : Nat :=
  match targetFromCompact initialBits with
  | .ok target => target
  | .error _ => 0

def blockWork (bits : UInt32) : Nat :=
  match targetFromCompact bits with
  | .error _ => 0
  | .ok target =>
    if target + 1 < u256Bound then
      let quotient := (u256Bound - 1 - target) / (target + 1)
      if quotient + 1 < u256Bound then quotient + 1 else quotient
    else 1

/-- The memory-hard hash of a header, which the network's table determines. -/
class WorkHash where
  hash : Network → BlockHeader → Hash256

/-- A hash under every target, to evaluate with. -/
@[reducible] def zeroWork : WorkHash := ⟨fun _ _ => Hash256.zero⟩

/-- The value of a hash read as a big-endian integer. -/
def beValue (hash : Hash256) : Nat := leValue hash.bytes.reverse

/-- `PowEngine::check`; the memo of earlier verdicts changes no answer. -/
def checkWork [WorkHash] (network : Network) (header : BlockHeader) : Except PowError Unit := do
  let target ← targetFromCompact header.bits
  require (target ≤ floorTarget) .targetTooEasy
  require (beValue (WorkHash.hash network header) ≤ target) .insufficientWork

def targetBlockSecs : Nat := 120
def lwmaWindow : Nat := 90
def lwmaMaxAhead : Nat := 4
def lwmaMaxBehind : Nat := 6
def maxTargetChange : Nat := 4

/-- The number of bytes of a target. -/
def byteLength (target : Nat) : Nat := (Nat.size target + 7) / 8

def targetToCompact (target : Nat) : UInt32 :=
  if target = 0 then 0
  else
    let exponent := byteLength target
    let mantissa :=
      if exponent ≤ 3 then target * 256 ^ (3 - exponent) else target / 256 ^ (exponent - 3)
    -- A mantissa whose top bit is set would read as negative: one more byte is dropped.
    if 2 ^ 23 ≤ mantissa then UInt32.ofNat ((exponent + 1) * 2 ^ 24 + mantissa / 256)
    else UInt32.ofNat (exponent * 2 ^ 24 + mantissa)

/-- `U256::mul_div`: multiply first, unless the product overflows. -/
def mulDiv (value mul div : Nat) : Option Nat :=
  if div = 0 then none
  else if value * mul < u256Bound then some (value * mul / div)
  else if value / div * mul < u256Bound then some (value / div * mul)
  else none

/-- The sums of the weighted solve times and of the targets over consecutive headers. -/
def lwmaSums : Nat → List BlockHeader → Int → Nat → Option (Int × Nat)
  | weight, parent :: header :: rest, weighted, targets =>
    let raw : Int := (header.time.toNat : Int) - parent.time.toNat
    let ahead : Int := lwmaMaxAhead * targetBlockSecs
    let behind : Int := lwmaMaxBehind * targetBlockSecs
    let solved := max (-behind) (min ahead raw)
    match targetFromCompact header.bits with
    | .error _ => none
    | .ok target =>
      lwmaSums (weight + 1) (header :: rest) (weighted + solved * weight)
        (if targets + target < u256Bound then targets + target else targets)
  | _, _, weighted, targets => some (weighted, targets)

/-- The difficulty of the block after `recentHeaders`, oldest first. -/
def nextBits (recentHeaders : List BlockHeader) : UInt32 :=
  let count := recentHeaders.length
  if count < 2 then initialBits
  else
    let recent := recentHeaders.drop (count - min count (lwmaWindow + 1))
    let intervals := recent.length - 1
    match lwmaSums 1 recent 0 0 with
    | none => initialBits
    | some (weighted, targets) =>
      let totalWeight : Int := (intervals * (intervals + 1) / 2 : Nat)
      if totalWeight = 0 then initialBits
      else
        let sum := max weighted (totalWeight * targetBlockSecs / 20)
        let lwma := (max (sum / totalWeight) 1).toNat
        let average := targets / intervals
        match mulDiv average lwma targetBlockSecs with
        | none => initialBits
        | some proposed =>
          let ceiling :=
            if average * maxTargetChange < u256Bound then average * maxTargetChange
            else u256Bound - 1
          let target := max (min proposed ceiling) (average / maxTargetChange)
          if target = 0 then initialBits
          else if floorTarget < target then initialBits
          else targetToCompact target

section
variable (left : Bytes) (prev : OutPoint × UInt32) (content : Bytes)

/-- The errors of `TxError` that decoding returns. -/
inductive TxDecodeError where
  | unknownScheme (raw : UInt8)
  | read (problem : ReadError)
deriving DecidableEq, Repr

/-- The errors of `BlockError` that decoding returns. -/
inductive BlockDecodeError where
  | transaction (problem : TxDecodeError)
  | read (problem : ReadError)
deriving DecidableEq, Repr

/-- An input without its witness, which comes after the outputs. -/
def readPrev : Read (OutPoint × UInt32) := fun left => do
  let (txid, left) ← readArray32 left
  let (index, left) ← readU32 left
  let (sequence, left) ← readU32 left
  pure ((⟨txid, index⟩, sequence), left)

def readOutput : Except TxDecodeError (TxOut × Bytes) := do
  let (value, left) ← (readU64 left).mapError .read
  let (raw, left) ← (readU8 left).mapError .read
  let scheme ← orRefuse (SchemeId.fromU8 raw) (.unknownScheme raw)
  let (pubkeyHash, left) ← (readArray32 left).mapError .read
  pure (⟨value, scheme, pubkeyHash⟩, left)

/-- An input read before, completed by its witness. -/
def readWitness : Read TxIn := fun left => do
  let (pubkey, left) ← readVarBytes left
  let (signature, left) ← readVarBytes left
  pure (⟨prev.1, ⟨pubkey, signature⟩, prev.2⟩, left)

def Transaction.decode : Except TxDecodeError Transaction := do
  let (version, left) ← (readU32 content).mapError .read
  let (prev, left) ← (readCounted id 40 readPrev left).mapError .read
  let (outputs, left) ← readCounted .read 41 readOutput left
  let (lockTime, left) ← (readU64 left).mapError .read
  let (inputs, left) ← (readEach readWitness prev left).mapError .read
  (expectEnd left).mapError .read
  pure ⟨version, inputs, outputs, lockTime⟩

/-- `BlockHeader::SIZE`. -/
def headerSize : Nat := 4 + 32 + 32 + 32 + 32 + 8 + 4 + 8 + 8

def readHeader : Read BlockHeader := fun left => do
  let (version, left) ← readU32 left
  let (prevBlock, left) ← readArray32 left
  let (merkleRoot, left) ← readArray32 left
  let (unclesRoot, left) ← readArray32 left
  let (miner, left) ← readArray32 left
  let (time, left) ← readU64 left
  let (bits, left) ← readU32 left
  let (height, left) ← readU64 left
  let (nonce, left) ← readU64 left
  pure (⟨version, prevBlock, merkleRoot, unclesRoot, miner, time, bits, height, nonce⟩, left)

def BlockHeader.decode : Except ReadError BlockHeader := do
  let (header, left) ← readHeader content
  expectEnd left
  pure header

def readTransaction : Except BlockDecodeError (Transaction × Bytes) := do
  let (content, left) ← (readVarBytes left).mapError .read
  let tx ← (Transaction.decode content).mapError .transaction
  pure (tx, left)

/-- An uncle: its bytes one by one into a buffer, which is then decoded. -/
def readUncle : Read BlockHeader := fun left => do
  require (headerSize ≤ left.length) .unexpectedEnd
  let (buffer, left) ← readMany readU8 headerSize left
  let header ← BlockHeader.decode buffer
  pure (header, left)

/-- `Block::decode_prefix`: the block that starts the input and the bytes it occupies. -/
def Block.decodePrefix : Except BlockDecodeError (Block × Nat) := do
  require (headerSize ≤ content.length) (.read .unexpectedEnd)
  let header ← (BlockHeader.decode (content.take headerSize)).mapError .read
  let (transactions, left) ← readCounted .read 10 readTransaction (content.drop headerSize)
  let (uncles, left) ← (readCounted id headerSize readUncle left).mapError .read
  pure (⟨header, transactions, uncles⟩, content.length - left.length)

def Block.decode : Except BlockDecodeError Block := do
  let (block, consumed) ← Block.decodePrefix content
  require (consumed = content.length) (.read (.trailingBytes (content.length - consumed)))
  pure block

/-- Every length fits the count written before it. -/
structure Transaction.Encodable (tx : Transaction) : Prop where
  inputs : tx.inputs.length < 2 ^ 64
  outputs : tx.outputs.length < 2 ^ 64
  witnesses : ∀ input ∈ tx.inputs,
    input.witness.pubkey.length < 2 ^ 64 ∧ input.witness.signature.length < 2 ^ 64

/-- Every length fits the count written before it. -/
structure Block.Encodable (block : Block) : Prop where
  transactions : block.transactions.length < 2 ^ 64
  uncles : block.uncles.length < 2 ^ 64
  each : ∀ tx ∈ block.transactions, tx.Encodable ∧ tx.encode.length < 2 ^ 64

/-- The bytes of an input without its witness. -/
def encodePrev : Bytes :=
  prev.1.txid.bytes ++ (writeU32 prev.1.index ++ writeU32 prev.2)

def encodeWitness (input : TxIn) : Bytes :=
  writeVarBytes input.witness.pubkey ++ writeVarBytes input.witness.signature

theorem readPrev_exact : Exact readPrev encodePrev fun _ => True := by
  refine exact_of_iff fun left prev rest => ?_
  simp only [readPrev, bind_eq_ok, pure_eq_ok, readArray32_eq_ok, readU32_eq_ok, Prod.exists,
    Prod.mk.injEq]
  constructor
  · rintro ⟨txid, _, rfl, index, _, rfl, sequence, _, rfl, rfl, rfl⟩
    simp [encodePrev]
  · rintro rfl
    exact ⟨_, _, by simp only [encodePrev, append_assoc], _, _, rfl, _, _, rfl, rfl, rfl⟩

theorem fromU8_eq_some {raw : UInt8} {scheme : SchemeId}
    (known : SchemeId.fromU8 raw = some scheme) : raw = scheme.asU8 := by
  unfold SchemeId.fromU8 at known
  split at known <;> cases known <;> exact UInt8.toNat_inj.mp ‹_›

theorem readOutput_exact : Exact readOutput encodeOutput fun _ => True := by
  refine exact_of_iff fun left output rest => ?_
  simp only [readOutput, bind_eq_ok, pure_eq_ok, mapError_eq_ok, orRefuse_eq_ok, readU64_eq_ok,
    readU8_eq_ok, readArray32_eq_ok, Prod.exists, Prod.mk.injEq]
  constructor
  · rintro ⟨value, _, rfl, raw, _, rfl, scheme, known, hash, _, rfl, rfl, rfl⟩
    simp [encodeOutput, fromU8_eq_some known]
  · rintro rfl
    refine ⟨_, _, by simp only [encodeOutput, append_assoc]; rfl, _, _, rfl, _,
      SchemeId.fromU8_asU8 _, _, _, rfl, rfl, rfl⟩

theorem readWitness_exact :
    Exact (readWitness prev) encodeWitness fun input => input.stripped = prev ∧
      input.witness.pubkey.length < 2 ^ 64 ∧ input.witness.signature.length < 2 ^ 64 := by
  intro left input rest
  simp only [readWitness, bind_eq_ok, pure_eq_ok, readVarBytes_exact _ _ _, Prod.exists,
    Prod.mk.injEq]
  constructor
  · rintro ⟨pubkey, _, ⟨keyFits, rfl⟩, signature, _, ⟨signatureFits, rfl⟩, rfl, rfl⟩
    exact ⟨⟨rfl, keyFits, signatureFits⟩, by simp [encodeWitness]⟩
  · rintro ⟨⟨rfl, keyFits, signatureFits⟩, rfl⟩
    exact ⟨_, _, ⟨keyFits, by rw [encodeWitness, append_assoc]⟩, _, _,
      ⟨signatureFits, rfl⟩, rfl, rfl⟩

theorem length_encodePrev : (encodePrev prev).length = 40 := by
  simp [encodePrev, writeU32, Hash256.length_bytes, leBytes_length]

theorem length_encodeOutput (output : TxOut) : (encodeOutput output).length = 41 := by
  simp [encodeOutput, writeU64, Hash256.length_bytes, leBytes_length]

/-- The encoding as the decoder reads it: the inputs without their witnesses, then those. -/
theorem Transaction.encode_eq (tx : Transaction) : tx.encode = writeU32 tx.version ++
      ((writeVarint (tx.inputs.map TxIn.stripped).length ++
        (tx.inputs.map TxIn.stripped).flatMap encodePrev) ++
      ((writeVarint tx.outputs.length ++ tx.outputs.flatMap encodeOutput) ++
      (writeU64 tx.lockTime ++ tx.inputs.flatMap encodeWitness))) := by
  have stripped : (tx.inputs.map TxIn.stripped).flatMap encodePrev =
      tx.inputs.flatMap encodeInput := by
    rw [flatMap_map]
    rfl
  rw [stripped, length_map]
  simp only [encode, encodeWithoutWitness, append_assoc]
  rfl

/-- A transaction is decoded from its encoding and from nothing else. -/
theorem Transaction.decode_eq_ok {content : Bytes} {tx : Transaction} :
    Transaction.decode content = .ok tx ↔ tx.Encodable ∧ content = tx.encode := by
  have prevs : Exact (readCounted id 40 readPrev)
      (fun prevs => writeVarint prevs.length ++ prevs.flatMap encodePrev) _ :=
    readCounted_exact readPrev_exact fun prev _ => (length_encodePrev prev).ge
  have outputs : Exact (readCounted TxDecodeError.read 41 readOutput)
      (fun outputs => writeVarint outputs.length ++ outputs.flatMap encodeOutput) _ :=
    readCounted_exact readOutput_exact fun output _ => (length_encodeOutput output).ge
  simp only [decode, bind_eq_ok, pure_eq_ok, mapError_eq_ok, readU32_eq_ok, readU64_eq_ok,
    expectEnd_eq_ok, prevs _ _ _, outputs _ _ _, Exact.each readWitness_exact _ _ _ _,
    forall₂_view, Prod.exists]
  constructor
  · rintro ⟨version, _, rfl, _, _, ⟨⟨prevFits, -⟩, rfl⟩, outputs, _, ⟨⟨outputFits, -⟩, rfl⟩,
      lockTime, _, rfl, inputs, _, ⟨⟨rfl, witnesses⟩, rfl⟩, _, rfl, rfl⟩
    rw [length_map] at prevFits
    exact ⟨⟨prevFits, outputFits, witnesses⟩, by rw [encode_eq, append_nil]⟩
  · rintro ⟨fits, rfl⟩
    have prevFits : (tx.inputs.map TxIn.stripped).length < 2 ^ 64 := by
      rw [length_map]
      exact fits.inputs
    exact ⟨_, _, tx.encode_eq, _, _, ⟨⟨prevFits, fun _ _ => trivial⟩, rfl⟩, _, _,
      ⟨⟨fits.outputs, fun _ _ => trivial⟩, rfl⟩, _, _, rfl, _, [],
      ⟨⟨rfl, fits.witnesses⟩, (append_nil _).symm⟩, (), rfl, rfl⟩

end

variable {content : Bytes} {block : Block}

theorem readHeader_exact : Exact readHeader BlockHeader.encode fun _ => True := by
  refine exact_of_iff fun left header rest => ?_
  simp only [readHeader, bind_eq_ok, pure_eq_ok, readU32_eq_ok, readU64_eq_ok, readArray32_eq_ok,
    Prod.exists, Prod.mk.injEq]
  constructor
  · rintro ⟨version, _, rfl, prevBlock, _, rfl, merkleRoot, _, rfl, unclesRoot, _, rfl, miner, _,
      rfl, time, _, rfl, bits, _, rfl, height, _, rfl, nonce, _, rfl, rfl, rfl⟩
    simp [BlockHeader.encode]
  · rintro rfl
    exact ⟨_, _, by simp only [BlockHeader.encode, append_assoc], _, _, rfl, _, _, rfl, _, _,
      rfl, _, _, rfl, _, _, rfl, _, _, rfl, _, _, rfl, _, _, rfl, rfl, rfl⟩

theorem length_encodeHeader (header : BlockHeader) : header.encode.length = headerSize := by
  simp [BlockHeader.encode, writeU32, writeU64, Hash256.length_bytes, leBytes_length, headerSize]

theorem BlockHeader.decode_eq_ok {header : BlockHeader} :
    BlockHeader.decode content = .ok header ↔ content = header.encode := by
  simp only [decode, bind_eq_ok, pure_eq_ok, readHeader_exact _ _ _, expectEnd_eq_ok, true_and,
    Prod.exists]
  constructor
  · rintro ⟨_, _, rfl, _, rfl, rfl⟩
    rw [append_nil]
  · rintro rfl
    exact ⟨header, [], (append_nil _).symm, (), rfl, rfl⟩

theorem readTransaction_exact : Exact readTransaction (fun tx => writeVarBytes tx.encode)
      fun tx => tx.Encodable ∧ tx.encode.length < 2 ^ 64 := by
  intro left tx rest
  simp only [readTransaction, bind_eq_ok, pure_eq_ok, mapError_eq_ok, readVarBytes_exact _ _ _,
    Transaction.decode_eq_ok, Prod.exists, Prod.mk.injEq]
  constructor
  · rintro ⟨_, _, ⟨fits, rfl⟩, _, ⟨encodable, rfl⟩, rfl, rfl⟩
    exact ⟨⟨encodable, fits⟩, rfl⟩
  · rintro ⟨⟨encodable, fits⟩, rfl⟩
    exact ⟨_, _, ⟨fits, rfl⟩, tx, ⟨encodable, rfl⟩, rfl, rfl⟩

theorem readUncle_exact : Exact readUncle BlockHeader.encode fun _ => True := by
  refine exact_of_iff fun left header rest => ?_
  simp only [readUncle, bind_eq_ok, pure_eq_ok, require_eq_ok, BlockHeader.decode_eq_ok,
    readU8_exact.many headerSize _ _ _, Prod.exists, Prod.mk.injEq]
  constructor
  · rintro ⟨_, enough, buffer, _, ⟨⟨sized, -⟩, rfl⟩, _, rfl, rfl, rfl⟩
    rw [flatMap_singleton']
  · rintro rfl
    have size := length_encodeHeader header
    refine ⟨(), ?_, header.encode, rest, ⟨⟨size, fun _ _ => trivial⟩, ?_⟩, header, rfl, rfl, rfl⟩
    · rw [length_append, size]
      exact Nat.le_add_right _ _
    · rw [flatMap_singleton']

theorem length_writeVarint_pos (value : Nat) : 0 < (writeVarint value).length := by
  unfold writeVarint
  split_ifs <;> simp [leBytes_length]

theorem Transaction.length_encode_ge (tx : Transaction) : 13 ≤ (writeVarBytes tx.encode).length := by
  have prefixed := length_writeVarint_pos tx.encode.length
  have version : (writeU32 tx.version).length = 4 := leBytes_length 4 _
  have lockTime : (writeU64 tx.lockTime).length = 8 := leBytes_length 8 _
  have inner := congrArg List.length tx.encode_eq
  simp only [length_append] at inner
  rw [writeVarBytes, length_append]
  omega

/-- The encoding as the decoder reads it. -/
theorem Block.encode_eq (block : Block) : block.encode = block.header.encode ++
      ((writeVarint block.transactions.length ++
        block.transactions.flatMap fun tx => writeVarBytes tx.encode) ++
      (writeVarint block.uncles.length ++ block.uncles.flatMap BlockHeader.encode)) := by
  simp only [Block.encode, append_assoc]

/-- A block is decoded from its encoding, whatever follows, and from nothing else. -/
theorem Block.decodePrefix_eq_ok {consumed : Nat} :
    Block.decodePrefix content = .ok (block, consumed) ↔
      block.Encodable ∧ consumed = block.encode.length ∧ ∃ rest, content = block.encode ++ rest := by
  have transactions : Exact (readCounted BlockDecodeError.read 10 readTransaction)
      (fun txs => writeVarint txs.length ++ txs.flatMap fun tx => writeVarBytes tx.encode) _ :=
    readCounted_exact readTransaction_exact fun tx _ =>
      (show 10 ≤ 13 by decide).trans tx.length_encode_ge
  have uncles : Exact (readCounted id headerSize readUncle)
      (fun uncles => writeVarint uncles.length ++ uncles.flatMap BlockHeader.encode) _ :=
    readCounted_exact readUncle_exact fun header _ => (length_encodeHeader header).ge
  simp only [decodePrefix, bind_eq_ok, pure_eq_ok, mapError_eq_ok, require_eq_ok,
    BlockHeader.decode_eq_ok, transactions _ _ _, uncles _ _ _, Prod.exists, Prod.mk.injEq]
  constructor
  · rintro ⟨_, enough, header, front, txs, _, ⟨⟨txsFit, txsValid⟩, back⟩, uncles, rest,
      ⟨⟨unclesFit, -⟩, rfl⟩, rfl, rfl⟩
    have whole : content = Block.encode ⟨header, txs, uncles⟩ ++ rest := by
      rw [← take_append_drop headerSize content, front, back, encode_eq]
      simp only [append_assoc]
    refine ⟨⟨txsFit, unclesFit, txsValid⟩, ?_, rest, whole⟩
    rw [whole, length_append, Nat.add_sub_cancel]
  · rintro ⟨fits, rfl, rest, rfl⟩
    have size := length_encodeHeader block.header
    have split : block.encode ++ rest = block.header.encode ++
        ((writeVarint block.transactions.length ++
          block.transactions.flatMap fun tx => writeVarBytes tx.encode) ++
        ((writeVarint block.uncles.length ++ block.uncles.flatMap BlockHeader.encode) ++ rest)) := by
      rw [encode_eq]
      simp only [append_assoc]
    refine ⟨(), ?_, block.header, ?_, block.transactions, _,
      ⟨⟨fits.transactions, fits.each⟩, ?_⟩, block.uncles, rest,
      ⟨⟨fits.uncles, fun _ _ => trivial⟩, rfl⟩, rfl, ?_⟩
    · rw [split, length_append, size]
      exact Nat.le_add_right _ _
    · rw [split, take_left' size]
    · rw [split, drop_left' size]
    · rw [length_append, Nat.add_sub_cancel]

theorem Block.decode_eq_ok :
    Block.decode content = .ok block ↔ block.Encodable ∧ content = block.encode := by
  simp only [Block.decode, bind_eq_ok, pure_eq_ok, require_eq_ok, Prod.exists,
    Block.decodePrefix_eq_ok]
  constructor
  · rintro ⟨_, _, ⟨fits, rfl, rest, rfl⟩, _, whole, rfl⟩
    refine ⟨fits, ?_⟩
    rw [length_append] at whole
    rw [eq_nil_of_length_eq_zero (Nat.left_eq_add.mp whole), append_nil]
  · rintro ⟨fits, rfl⟩
    exact ⟨block, _, ⟨fits, rfl, [], (append_nil _).symm⟩, (), rfl, rfl⟩

/-- Transactions and blocks have one encoding, decoding undoes it, and nothing else is decoded. -/
theorem wire_bytes_have_one_meaning :
    (∀ tx : Transaction, tx.Encodable → Transaction.decode tx.encode = .ok tx) ∧
    (∀ content tx, Transaction.decode content = .ok tx → tx.encode = content) ∧
    (∀ block : Block, block.Encodable → Block.decode block.encode = .ok block) ∧
    (∀ content block, Block.decode content = .ok block → block.encode = content) ∧
    ∀ (block : Block) (suffix : Bytes), block.Encodable →
      Block.decodePrefix (block.encode ++ suffix) = .ok (block, block.encode.length) := by
  refine ⟨fun tx fits => ?_, fun content tx decoded => ?_, fun block fits => ?_,
    fun content block decoded => ?_, fun block suffix fits => ?_⟩
  · exact Transaction.decode_eq_ok.mpr ⟨fits, rfl⟩
  · exact (Transaction.decode_eq_ok.mp decoded).2.symm
  · exact Block.decode_eq_ok.mpr ⟨fits, rfl⟩
  · exact (Block.decode_eq_ok.mp decoded).2.symm
  · exact Block.decodePrefix_eq_ok.mpr ⟨fits, rfl, suffix, rfl⟩

/-- A block of one coinbase with an uncle. -/
def wireBlock : Block where
  header := ⟨1, .zero, .zero, .zero, .zero, 0, 0, 1, 0⟩
  transactions := [⟨1, [TxIn.coinbase [1]], [⟨5, .mlDsa65, .zero⟩], 0⟩]
  uncles := [⟨1, .zero, .zero, .zero, .zero, 0, 0, 0, 7⟩]

theorem wireBlock_encodable : wireBlock.Encodable := by
  refine ⟨by decide, by decide, ?_⟩
  intro tx member
  obtain rfl := mem_singleton.mp member
  refine ⟨⟨by decide, by decide, ?_⟩, by decide⟩
  intro input among
  obtain rfl := mem_singleton.mp among
  exact ⟨by decide, by decide⟩

/-- It is read from the front of a longer input. -/
theorem wire_bytes_have_one_meaning_block : Block.decodePrefix (wireBlock.encode ++ [1, 2, 3]) =
      .ok (wireBlock, wireBlock.encode.length) :=
  wire_bytes_have_one_meaning.2.2.2.2 wireBlock [1, 2, 3] wireBlock_encodable

/-- The header meets the target; `hash` is `hash_mining` with one table. -/
def meets (hash : BlockHeader → Hash256) (target : Nat) (header : BlockHeader) : Bool :=
  beValue (hash header) ≤ target

/-- The loop of sequential attempts, with the header as it leaves it. -/
def tryNonces (wins : BlockHeader → Bool) : Nat → Nat → BlockHeader → Option Nat × BlockHeader
  | _, 0, header => (none, header)
  | attempt, left + 1, header =>
      if wins header then (some attempt, header)
      else tryNonces wins (attempt + 1) left { header with nonce := header.nonce + 1 }

def mineWithTable (hash : BlockHeader → Hash256) (maxTries : Nat) (header : BlockHeader) :
    Except Nat Nat × BlockHeader :=
  match targetFromCompact header.bits with
  | .error _ => (.error 0, header)
  | .ok target =>
      match tryNonces (meets hash target) 0 maxTries header with
      | (some attempt, found) => (.ok attempt, found)
      | (none, tried) => (.error maxTries, tried)

def batchPerThread : Nat := 512

section Waves
variable (wins : BlockHeader → Bool) (header : BlockHeader)

/-- What thread `f` of a wave returns. -/
def threadSearch (base : UInt64) (done perThread f : Nat) : Option Nat :=
  let first := base + UInt64.ofNat (f * perThread)
  ((range perThread).find? fun k => wins { header with nonce := first + UInt64.ofNat k }).map
    (done + f * perThread + ·)

/-- The smallest of the winners the threads return. -/
def wave (start : UInt64) (done perThread threads : Nat) : Option Nat :=
  ((range threads).filterMap
    (threadSearch wins header (start + UInt64.ofNat done) done perThread)).min?

/-- The waves up to the bound.  The attempts are counted without limit here; the source counts them
in 64 bits, and a sum past `2 ^ 64` ends the process. -/
def waves (start : UInt64) (maxTries : Nat) {threads : Nat} (several : 0 < threads) (done : Nat) :
    Except Nat Nat × BlockHeader :=
  if done < maxTries then
    let perThread := max (min batchPerThread ((maxTries - done + threads - 1) / threads)) 1
    match wave wins header start done perThread threads with
    | some attempt => (.ok attempt, { header with nonce := start + UInt64.ofNat attempt })
    | none => waves start maxTries several (done + perThread * threads)
  else (.error maxTries, { header with nonce := start + UInt64.ofNat maxTries })
termination_by maxTries - done
decreasing_by
  have advances := Nat.mul_pos (Nat.lt_of_lt_of_le Nat.one_pos (Nat.le_max_right
    (min batchPerThread ((maxTries - done + threads - 1) / threads)) 1)) several
  omega

end Waves

def mineWithTableParallel (hash : BlockHeader → Hash256) (maxTries threads : Nat)
    (header : BlockHeader) : Except Nat Nat × BlockHeader :=
  if max threads 1 = 1 then mineWithTable hash maxTries header
  else
    match targetFromCompact header.bits with
    | .error _ => (.error 0, header)
    | .ok target =>
        let probe := min batchPerThread maxTries
        match tryNonces (meets hash target) 0 probe header with
        | (some attempt, found) => (.ok attempt, found)
        | (none, tried) =>
            waves (meets hash target) tried header.nonce maxTries (Nat.le_max_right threads 1) probe

/-! ## The attempts tried -/

section Tried
variable {wins : BlockHeader → Bool} {header : BlockHeader}

/-- The header of an attempt. -/
def BlockHeader.attempt (header : BlockHeader) (count : Nat) : BlockHeader :=
  { header with nonce := header.nonce + UInt64.ofNat count }

@[simp] theorem BlockHeader.attempt_zero : header.attempt 0 = header := by
  simp [BlockHeader.attempt]

/-- The first attempt that wins among `count` of them. -/
def firstWin (wins : BlockHeader → Bool) (header : BlockHeader) (first count : Nat) : Option Nat :=
  (range' first count).find? fun attempt => wins (header.attempt attempt)

theorem firstWin_add (first count more : Nat) : firstWin wins header first (count + more) =
    (firstWin wins header first count).or (firstWin wins header (first + count) more) := by
  rw [firstWin, ← range'_append_1, find?_append]
  rfl

theorem firstWin_within {first count attempt : Nat}
    (found : firstWin wins header first count = some attempt) :
    first ≤ attempt ∧ attempt < first + count :=
  mem_range'_1.mp (mem_of_find?_eq_some found)

theorem tryNonces_eq (first count : Nat) : tryNonces wins first count (header.attempt first) =
    match firstWin wins header first count with
    | some attempt => (some attempt, header.attempt attempt)
    | none => (none, header.attempt (first + count)) := by
  induction count generalizing first with
  | zero => rfl
  | succ count ih =>
    have next : { header.attempt first with nonce := (header.attempt first).nonce + 1 } =
        header.attempt (first + 1) := by
      simp [BlockHeader.attempt, UInt64.ofNat_add, UInt64.add_assoc]
    have split : firstWin wins header first (count + 1) =
        if wins (header.attempt first) then some first
        else firstWin wins header (first + 1) count := by
      rw [firstWin, range'_succ, find?_cons]
      cases wins (header.attempt first) <;> rfl
    rw [tryNonces, next, ih, split, Nat.add_right_comm]
    split <;> rfl

theorem threadSearch_eq (current done perThread f : Nat) :
    threadSearch wins (header.attempt current) (header.nonce + UInt64.ofNat done) done perThread f =
      firstWin wins header (done + f * perThread) perThread := by
  rw [threadSearch, firstWin, range'_eq_map_range, find?_map]
  congr 2
  funext k
  simp only [Function.comp, BlockHeader.attempt, UInt64.ofNat_add, UInt64.add_assoc]

/-- The smallest winner of a wave is the first of the attempts that its threads share out. -/
theorem wave_eq (current done perThread threads : Nat) :
    wave wins (header.attempt current) header.nonce done perThread threads =
      firstWin wins header done (perThread * threads) := by
  induction threads with
  | zero => rfl
  | succ threads ih =>
    rw [wave] at ih ⊢
    rw [range_succ, filterMap_append, Nat.mul_succ, firstWin_add, ← ih]
    generalize (range threads).filterMap _ = found at ih ⊢
    rw [filterMap_cons, filterMap_nil, threadSearch_eq, Nat.mul_comm threads]
    cases smallest : found.min? with
    | none => grind [min?_eq_none_iff]
    | some attempt =>
      have before := (firstWin_within (ih.symm.trans smallest)).2
      cases last : firstWin wins header (done + perThread * threads) perThread with
      | none => grind
      | some later =>
        have after := (firstWin_within last).1
        grind [min?_eq_some_iff]

/-- What a search of the attempts before the bound returns. -/
def outcome (header : BlockHeader) (maxTries : Nat) : Option Nat → Except Nat Nat × BlockHeader
  | some attempt => (.ok attempt, header.attempt attempt)
  | none => (.error maxTries, header.attempt maxTries)

theorem outcome_inj {maxTries : Nat} {found found' : Option Nat} :
    outcome header maxTries found = outcome header maxTries found' ↔ found = found' := by
  constructor
  · intro same
    cases found <;> cases found' <;> cases congrArg Prod.fst same <;> rfl
  · rintro rfl
    rfl

/-- The attempts left at `done`, rounded up to the same number for each thread. -/
def sharedOut (maxTries threads done : Nat) : Nat :=
  (maxTries - done + threads - 1) / threads * threads

theorem sharedOut_of_le {maxTries threads done : Nat} (several : 0 < threads)
    (reached : maxTries ≤ done) : sharedOut maxTries threads done = 0 := by
  rw [sharedOut, Nat.sub_eq_zero_of_le reached, Nat.zero_add, Nat.div_eq_of_lt (by omega),
    Nat.zero_mul]

theorem le_sharedOut {maxTries threads : Nat} (several : 0 < threads) (done : Nat) :
    maxTries ≤ done + sharedOut maxTries threads done := by
  have above := Nat.lt_div_mul_add (a := maxTries - done + threads - 1) several
  rw [sharedOut]
  omega

/-- A wave leaves the later ones what it has not taken. -/
theorem sharedOut_add {maxTries threads done perThread : Nat} (several : 0 < threads)
    (part : perThread ≤ (maxTries - done + threads - 1) / threads) :
    sharedOut maxTries threads done =
      perThread * threads + sharedOut maxTries threads (done + perThread * threads) := by
  rcases Nat.le_total (perThread * threads) (maxTries - done) with inside | past
  · have rest : maxTries - done + threads - 1 =
        maxTries - (done + perThread * threads) + threads - 1 + perThread * threads := by omega
    rw [sharedOut, sharedOut, rest, Nat.add_mul_div_right _ _ several, Nat.add_mul, Nat.add_comm]
  · have whole : (maxTries - done + threads - 1) / threads ≤ perThread := by
      rw [Nat.div_le_iff_le_mul_add_pred several, Nat.mul_comm]
      omega
    rw [sharedOut_of_le several (by omega : maxTries ≤ done + perThread * threads), Nat.add_zero,
      sharedOut, le_antisymm whole part]

/-- The waves search all the attempts left, those included that rounding up adds. -/
theorem waves_eq {maxTries threads done current : Nat} {several : 0 < threads} :
    waves wins (header.attempt current) header.nonce maxTries several done =
      outcome header maxTries (firstWin wins header done (sharedOut maxTries threads done)) := by
  have part : ∀ done, done < maxTries →
      max (min batchPerThread ((maxTries - done + threads - 1) / threads)) 1 ≤
        (maxTries - done + threads - 1) / threads := by
    intro done below
    exact max_le (min_le_right batchPerThread _) ((Nat.one_le_div_iff several).mpr (by omega))
  fun_induction waves wins (header.attempt current) header.nonce maxTries several done with
  | case1 done below perThread attempt found =>
    rw [wave_eq] at found
    rw [sharedOut_add several (part done below), firstWin_add, found]
    rfl
  | case2 done below perThread found ih =>
    rw [wave_eq] at found
    rw [ih, sharedOut_add several (part done below), firstWin_add, found]
    rfl
  | case3 done reached =>
    rw [sharedOut_of_le several (Nat.le_of_not_lt reached)]
    rfl

end Tried

/-- How many attempts mining makes when none wins: the bound, and those the last wave adds. -/
def attemptsMade (maxTries threads : Nat) : Nat :=
  min batchPerThread maxTries +
    sharedOut maxTries (max threads 1) (min batchPerThread maxTries)

theorem le_attemptsMade (maxTries threads : Nat) : maxTries ≤ attemptsMade maxTries threads :=
  le_sharedOut (Nat.le_max_right threads 1) _

section Search
variable {hash : BlockHeader → Hash256} {header : BlockHeader} {target : Nat}
  (valid : targetFromCompact header.bits = .ok target)
include valid

theorem mineWithTable_eq (maxTries : Nat) : mineWithTable hash maxTries header =
    outcome header maxTries (firstWin (meets hash target) header 0 maxTries) := by
  have start := @tryNonces_eq (meets hash target) header 0 maxTries
  rw [BlockHeader.attempt_zero, Nat.zero_add] at start
  rw [mineWithTable, valid]
  dsimp only
  rw [start]
  cases firstWin (meets hash target) header 0 maxTries <;> rfl

theorem mineWithTableParallel_eq (maxTries threads : Nat) :
    mineWithTableParallel hash maxTries threads header = outcome header maxTries
      (firstWin (meets hash target) header 0 (attemptsMade maxTries threads)) := by
  rw [mineWithTableParallel, attemptsMade]
  split
  · rename_i single
    have same : min batchPerThread maxTries +
        sharedOut maxTries (max threads 1) (min batchPerThread maxTries) = maxTries := by
      rw [single, sharedOut, Nat.div_one, Nat.mul_one]
      omega
    rw [mineWithTable_eq valid, same]
  · have start := @tryNonces_eq (meets hash target) header 0 (min batchPerThread maxTries)
    rw [BlockHeader.attempt_zero, Nat.zero_add] at start
    rw [valid, firstWin_add, Nat.zero_add]
    dsimp only
    rw [start]
    cases firstWin (meets hash target) header 0 (min batchPerThread maxTries) with
    | some attempt => rfl
    | none => exact waves_eq

end Search

/-- Parallel mining agrees with sequential mining exactly where an attempt before the bound wins, or
none of those does that the last wave adds to them. -/
theorem parallel_mining_agrees (hash : BlockHeader → Hash256) (maxTries threads : Nat)
    (header : BlockHeader) :
    mineWithTableParallel hash maxTries threads header = mineWithTable hash maxTries header ↔
      ∀ target, targetFromCompact header.bits = .ok target →
        (∃ attempt < maxTries, meets hash target (header.attempt attempt) = true) ∨
        ∀ attempt, maxTries ≤ attempt → attempt < attemptsMade maxTries threads →
          meets hash target (header.attempt attempt) = false := by
  cases valid : targetFromCompact header.bits with
  | error problem =>
    have same : mineWithTableParallel hash maxTries threads header =
        mineWithTable hash maxTries header := by
      rw [mineWithTableParallel, mineWithTable, valid]
      split <;> rfl
    simp [same]
  | ok target =>
    obtain ⟨more, made⟩ := Nat.exists_eq_add_of_le (le_attemptsMade maxTries threads)
    rw [mineWithTableParallel_eq valid, mineWithTable_eq valid, outcome_inj, made, firstWin_add,
      Nat.zero_add]
    have before : firstWin (meets hash target) header 0 maxTries = none ↔
        ¬ ∃ attempt < maxTries, meets hash target (header.attempt attempt) = true := by
      simp [firstWin, mem_range'_1]
    have added : firstWin (meets hash target) header maxTries more = none ↔
        ∀ attempt, maxTries ≤ attempt → attempt < maxTries + more →
          meets hash target (header.attempt attempt) = false := by
      simp [firstWin, mem_range'_1]
    constructor
    · intro same _ decoded
      cases decoded
      cases found : firstWin (meets hash target) header 0 maxTries with
      | none =>
        rw [found, Option.none_or] at same
        exact .inr (added.mp same)
      | some attempt =>
        refine .inl (not_not.mp (mt before.mpr ?_))
        rw [found]
        exact Option.some_ne_none attempt
    · intro either
      rcases either target rfl with won | lost
      · cases found : firstWin (meets hash target) header 0 maxTries with
        | none => exact absurd won (before.mp found)
        | some attempt => rfl
      · rw [added.mpr lost, Option.or_none]

/-- A hash that meets the target at one nonce only. -/
def winAt (nonce : UInt64) (header : BlockHeader) : Hash256 :=
  if header.nonce = nonce then Hash256.zero else ⟨replicate 32 255, rfl⟩

def easyHeader : BlockHeader :=
  ⟨1, Hash256.zero, Hash256.zero, Hash256.zero, Hash256.zero, 0, initialBits, 0, 0⟩

theorem easyHeader_target : targetFromCompact easyHeader.bits = .ok floorTarget := by
  decide +kernel

theorem parallel_mining_agrees_in_wave : mineWithTableParallel (winAt 512) 513 2 easyHeader =
    mineWithTable (winAt 512) 513 easyHeader := by
  refine (parallel_mining_agrees _ _ _ _).mpr fun target valid => .inl ⟨512, by decide, ?_⟩
  obtain rfl := Except.ok.inj (easyHeader_target.symm.trans valid)
  decide +kernel

/-- Two threads asked for 513 attempts try a 514th and return it. -/
theorem wave_passes_bound : (mineWithTableParallel (winAt 513) 513 2 easyHeader).1 = .ok 513 ∧
    (mineWithTable (winAt 513) 513 easyHeader).1 = .error 513 := by
  have probe : tryNonces (meets (winAt 513) floorTarget) 0 512 easyHeader =
      (none, easyHeader.attempt 512) := by decide +kernel
  have found : wave (meets (winAt 513) floorTarget) (easyHeader.attempt 512) easyHeader.nonce 512
      (max (min batchPerThread 1) 1) (max 2 1) = some 513 := by decide +kernel
  refine ⟨?_, by decide +kernel⟩
  rw [mineWithTableParallel, if_neg (by decide), easyHeader_target]
  dsimp only
  rw [show min batchPerThread 513 = 512 from rfl, probe]
  dsimp only
  rw [waves, if_pos (by decide)]
  dsimp only
  rw [show (513 - 512 + max 2 1 - 1) / max 2 1 = 1 from rfl, found]

/-- With any number of threads, mining returns the first attempt that wins, or that none before the
bound does. -/
theorem mining_searches_in_order (hash : BlockHeader → Hash256) (maxTries threads : Nat)
    (header : BlockHeader) {target : Nat} (valid : targetFromCompact header.bits = .ok target) :
    ∃ tried, maxTries ≤ tried ∧ mineWithTableParallel hash maxTries threads header =
      outcome header maxTries (firstWin (meets hash target) header 0 tried) :=
  ⟨attemptsMade maxTries threads, le_attemptsMade maxTries threads,
    mineWithTableParallel_eq valid maxTries threads⟩

theorem mining_searches_in_order_easy : ∃ tried, 513 ≤ tried ∧
    mineWithTableParallel (winAt 513) 513 2 easyHeader =
      outcome easyHeader 513 (firstWin (meets (winAt 513) floorTarget) easyHeader 0 tried) :=
  mining_searches_in_order (winAt 513) 513 2 easyHeader easyHeader_target

end Q21Formal.Ledger

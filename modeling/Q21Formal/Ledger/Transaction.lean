import Q21Formal.Primitives.Crypto

/-!
# Transactions and spending policies

Transactions with their stripped encoding, identifiers and shape rules, and the trees of keys,
preimages and time locks a policy output is locked to: their byte format with the decoder's bounds,
and the walk that reads a witness.  Each tree within the bounds has one encoding.
-/

namespace Q21Formal.Ledger
open Library.Codec Library.Refusal Primitives List

def unitsPerCoin : Nat := 100_000_000
def maxSupply : Nat := 21_000_001 * unitsPerCoin
def genesisPremint : Nat := unitsPerCoin
def emissionCap : Nat := maxSupply - genesisPremint
def witnessDiscount : Nat := 4
def weightPerOutput : Nat := 400
def minOutputValue : Nat := 10_000

/-- `u64` values are below this bound; a checked addition fails at it. -/
def u64Bound : Nat := 2 ^ 64

def checkedAdd (first second : Nat) : Option Nat :=
  if first + second < u64Bound then some (first + second) else none

variable {total : Nat}

theorem checkedAdd_eq_some {first second : Nat} :
    checkedAdd first second = some total ↔ first + second < u64Bound ∧ total = first + second := by
  unfold checkedAdd
  split <;> simp_all [eq_comm]

/-- `Amount::checked_sum`. -/
def checkedSum (values : List Nat) : Option Nat :=
  values.foldlM checkedAdd 0

theorem foldlM_checkedAdd {values : List Nat} {start : Nat}
    (summed : values.foldlM checkedAdd start = some total) : total = start + values.sum := by
  induction values generalizing start with
  | nil => simpa using summed.symm
  | cons value rest ih =>
    simp only [foldlM_cons, Option.bind_eq_bind, Option.bind_eq_some_iff] at summed
    obtain ⟨next, added, restSummed⟩ := summed
    obtain ⟨_, rfl⟩ := checkedAdd_eq_some.mp added
    rw [ih restSummed, sum_cons, Nat.add_assoc]

theorem checkedSum_eq {values : List Nat} (summed : checkedSum values = some total) :
    total = values.sum := by
  simpa using foldlM_checkedAdd summed

structure OutPoint where
  txid : Hash256
  index : UInt32
deriving DecidableEq

/-- Outpoints by their identifier, then their index. -/
def OutPoint.rank (outpoint : OutPoint) : Hash256 ×ₗ Nat :=
  toLex (outpoint.txid, outpoint.index.toNat)

theorem OutPoint.rank_injective : Function.Injective OutPoint.rank := by
  rintro ⟨txid, index⟩ ⟨txid', index'⟩ same
  obtain ⟨sameTxid, indices⟩ := Prod.mk.inj (toLex.injective same)
  have sameIndex : index = index' := UInt32.toNat_inj.mp indices
  have sameHash : txid = txid' := sameTxid
  rw [sameHash, sameIndex]

instance : LinearOrder OutPoint where
  __ := PartialOrder.lift OutPoint.rank OutPoint.rank_injective
  le_total first second := le_total first.rank second.rank
  toDecidableLE first second := inferInstanceAs (Decidable (first.rank ≤ second.rank))
  toDecidableEq := instDecidableEqOutPoint

/-- The outpoint a coinbase input carries. -/
def OutPoint.coinbase : OutPoint := ⟨Hash256.zero, 0xffffffff⟩

structure Witness where
  pubkey : Bytes := []
  signature : Bytes := []
deriving DecidableEq

structure TxIn where
  prevOut : OutPoint
  witness : Witness
  sequence : UInt32
deriving DecidableEq

def TxIn.coinbase (content : Bytes) : TxIn := ⟨OutPoint.coinbase, ⟨[], content⟩, 0xffffffff⟩

structure TxOut where
  value : UInt64
  scheme : SchemeId
  pubkeyHash : Hash256
deriving DecidableEq

structure Transaction where
  version : UInt32
  inputs : List TxIn
  outputs : List TxOut
  lockTime : UInt64
deriving DecidableEq

inductive TxError where
  | noInputs
  | noOutputs
  | amountAboveCap
  | outputSumOverflow
deriving DecidableEq, Repr

def encodeInput (input : TxIn) : Bytes :=
  input.prevOut.txid.bytes ++ (writeU32 input.prevOut.index ++ writeU32 input.sequence)

def encodeOutput (output : TxOut) : Bytes :=
  writeU64 output.value ++ ([output.scheme.asU8] ++ output.pubkeyHash.bytes)

namespace Transaction

section
variable (tx : Transaction)

def encodeWithoutWitness : Bytes :=
  writeU32 tx.version ++ (writeVarint tx.inputs.length ++ (tx.inputs.flatMap encodeInput ++
    (writeVarint tx.outputs.length ++ (tx.outputs.flatMap encodeOutput ++ writeU64 tx.lockTime))))

def encode : Bytes :=
  tx.encodeWithoutWitness ++ tx.inputs.flatMap fun input =>
    writeVarBytes input.witness.pubkey ++ writeVarBytes input.witness.signature

/-- One input, and it spends the coinbase outpoint. -/
def isCoinbase : Bool :=
  match tx.inputs with
  | [input] => input.prevOut == OutPoint.coinbase
  | _ => false

/-- The data of the first input, which only a coinbase commits to. -/
def coinbaseData : Bytes :=
  match tx.inputs with
  | input :: _ => input.witness.signature
  | [] => []

/-- What `txid` hashes: the stripped transaction, and for a coinbase its input data as well. -/
def txidPreimage : Bytes :=
  tx.encodeWithoutWitness ++ if tx.isCoinbase then writeVarBytes tx.coinbaseData else []

end

section Hashing
variable [Crypto]

def txid (tx : Transaction) : Hash256 := taggedHash .tx tx.txidPreimage

def wtxid (tx : Transaction) : Hash256 := taggedHash .tx tx.encode

def merkleLeaf (tx : Transaction) : Hash256 :=
  taggedHash .merkleLeaf (tx.txid.bytes ++ tx.wtxid.bytes)

def sighash (tx : Transaction) (inputIndex : UInt32) (network : Network) (spent : TxOut) :
    Hash256 :=
  taggedHash .sighash (writeVarBytes network.hrp ++ tx.encodeWithoutWitness ++
    writeU32 inputIndex ++ encodeOutput spent)

def policySighash (tx : Transaction) (inputIndex : UInt32) (network : Network) (spent : TxOut)
    (policy : Bytes) (leaf : UInt8) (choices : Bytes) : Hash256 :=
  taggedHash .policySighash (writeVarBytes network.hrp ++ tx.encodeWithoutWitness ++
    (writeU32 inputIndex ++ encodeOutput spent ++ writeVarBytes policy ++ [leaf] ++
      writeVarBytes choices))

end Hashing

section
variable (tx : Transaction)

def totalOutput : Except TxError Nat :=
  orRefuse (checkedSum (tx.outputs.map fun output => output.value.toNat)) .outputSumOverflow

def checkShape : Except TxError Unit := do
  require (tx.inputs ≠ []) .noInputs
  require (tx.outputs ≠ []) .noOutputs
  tx.outputs.forM fun output => require (output.value.toNat ≤ maxSupply) .amountAboveCap
  let total ← tx.totalOutput
  require (total ≤ maxSupply) .amountAboveCap

def weight (discount : Nat) : Nat :=
  tx.encodeWithoutWitness.length * discount + (tx.inputs.map fun input =>
      input.witness.pubkey.length + input.witness.signature.length).sum +
    tx.outputs.length * weightPerOutput

/-- The value of all outputs, as a sum that cannot overflow. -/
def outputValue : Nat := (tx.outputs.map fun output => output.value.toNat).sum

theorem totalOutput_eq {tx : Transaction} (summed : tx.totalOutput = .ok total) :
    total = tx.outputValue :=
  checkedSum_eq (orRefuse_eq_ok.mp summed)

theorem checkShape_ok {tx : Transaction} (checked : tx.checkShape = .ok ()) :
    tx.inputs ≠ [] ∧ tx.outputs ≠ [] ∧ tx.outputValue ≤ maxSupply := by
  simp only [checkShape, bind_eq_ok, require_eq_ok] at checked
  obtain ⟨_, inputs, _, outputs, _, _, total, summed, within⟩ := checked
  exact ⟨inputs, outputs, totalOutput_eq summed ▸ within⟩

end

end Transaction

/-- An input without its witness. -/
def TxIn.stripped (input : TxIn) : OutPoint × UInt32 := (input.prevOut, input.sequence)

theorem encodeOutput_selfDelimiting : SelfDelimiting encodeOutput := by
  refine (writeU64_selfDelimiting.append (scheme_selfDelimiting.append hash_selfDelimiting)).comap
    (fun output : TxOut => (output.value, output.scheme, output.pubkeyHash)) ?_
  rintro ⟨value, scheme, hash⟩ ⟨value', scheme', hash'⟩ same
  simp only [Prod.mk.injEq] at same
  obtain ⟨rfl, rfl, rfl⟩ := same
  rfl

/-- The bytes of an input determine it up to its witness. -/
theorem encodeStripped_selfDelimiting : SelfDelimiting fun input : OutPoint × UInt32 =>
      input.1.txid.bytes ++ (writeU32 input.1.index ++ writeU32 input.2) := by
  refine (hash_selfDelimiting.append (writeU32_selfDelimiting.append writeU32_selfDelimiting)).comap
    (fun input : OutPoint × UInt32 => (input.1.txid, input.1.index, input.2)) ?_
  rintro ⟨⟨hash, index⟩, sequence⟩ ⟨⟨hash', index'⟩, sequence'⟩ same
  simp only [Prod.mk.injEq] at same
  obtain ⟨rfl, rfl, rfl⟩ := same
  rfl

/-- The lengths fit the wire format's counts, as those of any vector in memory do. -/
structure Transaction.Countable (tx : Transaction) : Prop where
  inputs : tx.inputs.length < 2 ^ 64
  outputs : tx.outputs.length < 2 ^ 64
  coinbaseData : tx.coinbaseData.length < 2 ^ 64

variable {first second : Transaction}

theorem encodeWithoutWitness_append_inj (firstFits : first.Countable)
    (secondFits : second.Countable) {before after : Bytes}
    (same : first.encodeWithoutWitness ++ before = second.encodeWithoutWitness ++ after) :
    first.version = second.version ∧
      first.inputs.map TxIn.stripped = second.inputs.map TxIn.stripped ∧
      first.outputs = second.outputs ∧ first.lockTime = second.lockTime ∧ before = after := by
  simp only [Transaction.encodeWithoutWitness, append_assoc] at same
  obtain ⟨versions, same⟩ := writeU32_selfDelimiting _ _ _ _ same
  obtain ⟨inputCounts, same⟩ := writeVarint_append_inj firstFits.inputs secondFits.inputs same
  have viewed : ∀ inputs : List TxIn, inputs.flatMap encodeInput =
      (inputs.map TxIn.stripped).flatMap fun input =>
        input.1.txid.bytes ++ (writeU32 input.1.index ++ writeU32 input.2) := by
    intro inputs
    rw [flatMap_map]
    rfl
  rw [viewed, viewed] at same
  obtain ⟨inputs, same⟩ := encodeStripped_selfDelimiting.flatMap_eq _ _ _ _
    (by simpa using inputCounts) same
  obtain ⟨outputCounts, same⟩ :=
    writeVarint_append_inj firstFits.outputs secondFits.outputs same
  obtain ⟨outputs, same⟩ := encodeOutput_selfDelimiting.flatMap_eq _ _ _ _ outputCounts same
  obtain ⟨lockTimes, rests⟩ := writeU64_selfDelimiting _ _ _ _ same
  exact ⟨versions, inputs, outputs, lockTimes, rests⟩

theorem writeVarBytes_injective {first second : Bytes} (firstFits : first.length < 2 ^ 64)
    (secondFits : second.length < 2 ^ 64) (same : writeVarBytes first = writeVarBytes second) :
    first = second :=
  (writeVarint_append_inj firstFits secondFits same).2

theorem isCoinbase_of_stripped
    (inputs : first.inputs.map TxIn.stripped = second.inputs.map TxIn.stripped) :
    first.isCoinbase = second.isCoinbase := by
  have viewed : ∀ tx : Transaction, tx.isCoinbase =
      ((tx.inputs.map TxIn.stripped).map Prod.fst == [OutPoint.coinbase]) := by
    intro tx
    unfold Transaction.isCoinbase
    rcases tx.inputs with _ | ⟨input, _ | ⟨next, rest⟩⟩
    · rfl
    · exact (Bool.and_true _).symm
    · exact (Bool.and_false _).symm
  rw [viewed, viewed, inputs]

/-- The preimage of an identifier determines what the transaction spends, creates and, for a
coinbase, carries. -/
theorem txidPreimage_inj (firstFits : first.Countable)
    (secondFits : second.Countable) (same : first.txidPreimage = second.txidPreimage) :
    first.inputs.map TxIn.stripped = second.inputs.map TxIn.stripped ∧
      first.outputs = second.outputs ∧
      (first.isCoinbase = true → first.coinbaseData = second.coinbaseData) := by
  obtain ⟨_, inputs, outputs, _, rests⟩ :=
    encodeWithoutWitness_append_inj firstFits secondFits same
  refine ⟨inputs, outputs, fun coinbase => ?_⟩
  have coinbase' : second.isCoinbase = true := isCoinbase_of_stripped inputs ▸ coinbase
  simp only [coinbase, coinbase', if_true] at rests
  exact writeVarBytes_injective firstFits.coinbaseData secondFits.coinbaseData rests

def maxPolicyDepth : Nat := 4
def maxPolicyLeaves : Nat := 8
def maxPolicySize : Nat := 512

/-- The heights from which a rule is in force; `u64::MAX` is never. -/
def policyActivation : Network → Nat
  | .mainnet => u64Bound - 1
  | .testnet => 4_980
  | .regtest => 1

def nameActivation : Network → Nat
  | .mainnet => u64Bound - 1
  | .testnet => 5_200
  | .regtest => 1

/-- `policy::scheme_allowed`. -/
def schemeAllowed (scheme : SchemeId) (network : Network) (height : Nat) : Bool :=
  match scheme with
  | .policy => decide (policyActivation network ≤ height)
  | .nameTag => decide (nameActivation network ≤ height)
  | .nameKey => decide (nameActivation network ≤ height)
  | key => key.allowedOn network

inductive Policy where
  | key (scheme : SchemeId) (pubkeyHash : Hash256)
  | preimage (hash : Hash256)
  | older (blocks : UInt16)
  | after (height : UInt32)
  | all (children : List Policy)
  | any (children : List Policy)

inductive Satisfaction where
  | key (pubkey signature : Bytes)
  | preimage (secret : Hash256)
  | older
  | after
  | all (children : List Satisfaction)
  | any (index : UInt8) (branch : Satisfaction)

inductive PolicyError where
  | tooLarge (size : Nat)
  | doesNotMatchLock
  | malformed (problem : ReadError)
  | unknownNode (tag : UInt8)
  | notAKeyScheme (raw : UInt8)
  | tooDeep
  | tooManyLeaves
  | badArity (count : Nat)
  | olderOutOfRange
  | afterOutOfRange
  | trailingPolicyBytes (count : Nat)
  | badBranch (index : UInt8) (arity : Nat)
  | witnessSize (problem : VerifyError)
  | wrongPreimage
  | tooEarly (availableAt height : Nat)
  | extraWitnessData (count : Nat)
  | notAKeyLeaf (leaf : Nat)
  | oneTimeKey (raw : UInt8)
  | unsigned
deriving DecidableEq, Repr

/-- A child count on one byte, saturated so that too many children never look like few. -/
def childCount (count : Nat) : UInt8 := UInt8.ofNat (min count 255)

mutual

def Policy.encode : Policy → Bytes
  | .key scheme pubkeyHash => 0x01 :: scheme.asU8 :: pubkeyHash.bytes
  | .preimage hash => 0x02 :: hash.bytes
  | .older blocks => 0x03 :: leBytes 2 blocks.toNat
  | .after height => 0x06 :: writeU32 height
  | .all children => 0x04 :: childCount children.length :: Policy.encodeAll children
  | .any children => 0x05 :: childCount children.length :: Policy.encodeAll children

def Policy.encodeAll : List Policy → Bytes
  | [] => []
  | child :: rest => child.encode ++ Policy.encodeAll rest

end

mutual

def Satisfaction.encode : Satisfaction → Bytes
  | .key pubkey signature => writeVarBytes pubkey ++ writeVarBytes signature
  | .preimage secret => secret.bytes
  | .older => []
  | .after => []
  | .all children => Satisfaction.encodeAll children
  | .any index branch => index :: branch.encode

def Satisfaction.encodeAll : List Satisfaction → Bytes
  | [] => []
  | child :: rest => child.encode ++ Satisfaction.encodeAll rest

end

mutual

/-- The branch indices in the order the walk meets them. -/
def Satisfaction.choices : Satisfaction → Bytes
  | .all children => Satisfaction.choicesAll children
  | .any index branch => index :: branch.choices
  | .key _ _ => []
  | .preimage _ => []
  | .older => []
  | .after => []

def Satisfaction.choicesAll : List Satisfaction → Bytes
  | [] => []
  | child :: rest => child.choices ++ Satisfaction.choicesAll rest

end

mutual

def Policy.leafCount : Policy → Nat
  | .all children => Policy.leafCountAll children
  | .any children => Policy.leafCountAll children
  | .key _ _ => 1
  | .preimage _ => 1
  | .older _ => 1
  | .after _ => 1

def Policy.leafCountAll : List Policy → Nat
  | [] => 0
  | child :: rest => child.leafCount + Policy.leafCountAll rest

end

mutual

/-- Every way to satisfy the policy checks a signature. -/
def Policy.alwaysSigned : Policy → Bool
  | .key _ _ => true
  | .preimage _ => false
  | .older _ => false
  | .after _ => false
  | .all children => Policy.anySigned children
  | .any children => Policy.allSigned children

def Policy.anySigned : List Policy → Bool
  | [] => false
  | child :: rest => child.alwaysSigned || Policy.anySigned rest

def Policy.allSigned : List Policy → Bool
  | [] => true
  | child :: rest => child.alwaysSigned && Policy.allSigned rest

end

mutual

/-- The key leaves from position `leaf` on, with their positions in the whole tree. -/
def Policy.keyLeavesFrom : Policy → Nat → List (Nat × SchemeId × Hash256)
  | .key scheme pubkeyHash, leaf => [(leaf, scheme, pubkeyHash)]
  | .all children, leaf => Policy.keyLeavesAll children leaf
  | .any children, leaf => Policy.keyLeavesAll children leaf
  | .preimage _, _ => []
  | .older _, _ => []
  | .after _, _ => []

def Policy.keyLeavesAll : List Policy → Nat → List (Nat × SchemeId × Hash256)
  | [], _ => []
  | child :: rest, leaf =>
    child.keyLeavesFrom leaf ++ Policy.keyLeavesAll rest (leaf + child.leafCount)

end

def Policy.keyLeaves (policy : Policy) : List (Nat × SchemeId × Hash256) :=
  policy.keyLeavesFrom 0

section Hashing
variable [Crypto]

def lockHashOf (policyBytes : Bytes) : Hash256 := taggedHash .policy policyBytes

def Policy.lockHash (policy : Policy) : Hash256 := lockHashOf policy.encode

/-- The output that locks `value` to the policy. -/
def Policy.output (policy : Policy) (value : UInt64) : TxOut := ⟨value, .policy, policy.lockHash⟩

end Hashing

def policyWitness (policy : Policy) (satisfaction : Satisfaction) : Witness :=
  ⟨policy.encode, satisfaction.encode⟩

/-- A read inside a policy, its errors wrapped as the decoder wraps them. -/
def readPolicyField {α : Type} (read : Read α) (left : Bytes) : Except PolicyError (α × Bytes) :=
  (read left).mapError .malformed

/-- Counts one more leaf. -/
def countLeaf (leaves : Nat) : Except PolicyError Nat := do
  require (leaves + 1 ≤ maxPolicyLeaves) .tooManyLeaves
  pure (leaves + 1)

/-- `count` nodes by the given reader, one after the other. -/
def readChildren (readNode : Nat → Bytes → Except PolicyError (Policy × Nat × Bytes)) :
    Nat → Nat → Bytes → Except PolicyError (List Policy × Nat × Bytes)
  | 0, leaves, left => .ok ([], leaves, left)
  | count + 1, leaves, left => do
      let (child, leaves, left) ← readNode leaves left
      let (rest, leaves, left) ← readChildren readNode count leaves left
      pure (child :: rest, leaves, left)

/-- `Policy::read`; `room` is the number of levels still allowed. -/
def readPolicy : Nat → Nat → Bytes → Except PolicyError (Policy × Nat × Bytes)
  | 0, _, _ => .error .tooDeep
  | room + 1, leaves, left => do
      let (tag, left) ← readPolicyField readU8 left
      match tag.toNat with
      | 0x01 =>
        let (raw, left) ← readPolicyField readU8 left
        let scheme ← orRefuse ((SchemeId.fromU8 raw).filter fun scheme =>
          scheme == .mlDsa65 || scheme == .mlDsa87 || scheme == .sphincsPlus ||
            scheme == .lamportOts) (.notAKeyScheme raw)
        require (scheme.isOneTime = false) (.oneTimeKey raw)
        let (hash, left) ← readPolicyField readArray32 left
        let leaves ← countLeaf leaves
        pure (.key scheme hash, leaves, left)
      | 0x02 =>
        let (hash, left) ← readPolicyField readArray32 left
        let leaves ← countLeaf leaves
        pure (.preimage hash, leaves, left)
      | 0x03 =>
        let (bytes, left) ← readPolicyField (readBytes 2) left
        let blocks := UInt16.ofNat (leValue bytes)
        require (blocks ≠ 0) .olderOutOfRange
        let leaves ← countLeaf leaves
        pure (.older blocks, leaves, left)
      | 0x06 =>
        let (height, left) ← readPolicyField readU32 left
        require (height ≠ 0) .afterOutOfRange
        let leaves ← countLeaf leaves
        pure (.after height, leaves, left)
      | 0x04 =>
        let (count, left) ← readPolicyField readU8 left
        require (2 ≤ count.toNat ∧ count.toNat ≤ maxPolicyLeaves) (.badArity count.toNat)
        let (children, leaves, left) ← readChildren (readPolicy room) count.toNat leaves left
        pure (.all children, leaves, left)
      | 0x05 =>
        let (count, left) ← readPolicyField readU8 left
        require (2 ≤ count.toNat ∧ count.toNat ≤ maxPolicyLeaves) (.badArity count.toNat)
        let (children, leaves, left) ← readChildren (readPolicy room) count.toNat leaves left
        pure (.any children, leaves, left)
      | _ => .error (.unknownNode tag)

/-- `Policy::decode`. -/
def decodePolicy (content : Bytes) : Except PolicyError Policy := do
  require (content.length ≤ maxPolicySize) (.tooLarge content.length)
  let (policy, _, left) ← readPolicy maxPolicyDepth 0 content
  require (left = []) (.trailingPolicyBytes left.length)
  require (policy.alwaysSigned = true) .unsigned
  pure policy

/-- A key leaf met on the path, with what the witness presents for it. -/
structure KeyUse where
  leaf : Nat
  scheme : SchemeId
  hash : Hash256
  pubkey : Bytes
  signature : Bytes

/-- What the walk collects. -/
structure Path where
  keys : List KeyUse := []
  minAge : Nat := 0
  minHeight : Nat := 0
  choices : Bytes := []

def Path.availableAt (path : Path) (born : Nat) : Nat :=
  max (if 0 < path.minAge then min (born + path.minAge) (u64Bound - 1) else 0) path.minHeight

/-- The walk's state: the next leaf position, what was collected, the bytes left. -/
structure WalkState where
  leaf : Nat
  path : Path
  left : Bytes

section Walk
variable [Crypto]

mutual

def walk : Policy → WalkState → Except PolicyError WalkState
  | .key scheme pubkeyHash, state => do
      let (pubkey, left) ← readPolicyField readVarBytes state.left
      let (signature, left) ← readPolicyField readVarBytes left
      (checkSizes scheme pubkey signature).mapError .witnessSize
      let use : KeyUse := ⟨state.leaf, scheme, pubkeyHash, pubkey, signature⟩
      pure ⟨state.leaf + 1, { state.path with keys := state.path.keys ++ [use] }, left⟩
  | .preimage hash, state => do
      let (secret, left) ← readPolicyField readArray32 state.left
      require (Crypto.sha256 secret.bytes = hash) .wrongPreimage
      pure ⟨state.leaf + 1, state.path, left⟩
  | .older blocks, state =>
    pure ⟨state.leaf + 1,
      { state.path with minAge := max state.path.minAge blocks.toNat }, state.left⟩
  | .after height, state =>
    pure ⟨state.leaf + 1,
      { state.path with minHeight := max state.path.minHeight height.toNat }, state.left⟩
  | .all children, state => walkAll children state
  | .any children, state => do
      let (index, left) ← readPolicyField readU8 state.left
      require (index.toNat < children.length) (.badBranch index children.length)
      walkAny children index.toNat
        ⟨state.leaf, { state.path with choices := state.path.choices ++ [index] }, left⟩

def walkAll : List Policy → WalkState → Except PolicyError WalkState
  | [], state => pure state
  | child :: rest, state => do
      let state ← walk child state
      walkAll rest state

/-- The branch at `index` is walked; the leaves of the others only move the position. -/
def walkAny : List Policy → Nat → WalkState → Except PolicyError WalkState
  | [], _, state => pure state
  | child :: rest, 0, state => do
      let state ← walk child state
      pure { state with leaf := state.leaf + Policy.leafCountAll rest }
  | child :: rest, index + 1, state =>
    walkAny rest index { state with leaf := state.leaf + child.leafCount }

end

/-- `read_spend`: the lock, the decoding, then the walk over the whole satisfaction. -/
def readSpend (spent : TxOut) (witness : Witness) : Except PolicyError (Policy × Path) := do
  require (witness.pubkey.length ≤ maxPolicySize) (.tooLarge witness.pubkey.length)
  require (lockHashOf witness.pubkey = spent.pubkeyHash) .doesNotMatchLock
  let policy ← decodePolicy witness.pubkey
  let final ← walk policy ⟨0, {}, witness.signature⟩
  require (final.left = []) (.extraWitnessData final.left.length)
  pure (policy, final.path)

end Walk

end Q21Formal.Ledger

/-! ## The format is canonical -/

namespace Q21Formal.Ledger
open Library.Codec Library.Refusal Primitives List

mutual

def Policy.depth : Policy → Nat
  | .all children => Policy.depthAll children + 1
  | .any children => Policy.depthAll children + 1
  | .key _ _ => 1
  | .preimage _ => 1
  | .older _ => 1
  | .after _ => 1

def Policy.depthAll : List Policy → Nat
  | [] => 0
  | child :: rest => max child.depth (Policy.depthAll rest)

end

/-- A key leaf names a scheme whose keys sign more than once. -/
def leafScheme (scheme : SchemeId) : Prop :=
  scheme = .mlDsa65 ∨ scheme = .mlDsa87 ∨ scheme = .sphincsPlus

mutual

/-- What the decoder asks of each node. -/
def Policy.Admitted : Policy → Prop
  | .key scheme _ => leafScheme scheme
  | .preimage _ => True
  | .older blocks => blocks ≠ 0
  | .after height => height ≠ 0
  | .all children =>
    (2 ≤ children.length ∧ children.length ≤ maxPolicyLeaves) ∧ Policy.AdmittedAll children
  | .any children =>
    (2 ≤ children.length ∧ children.length ≤ maxPolicyLeaves) ∧ Policy.AdmittedAll children

def Policy.AdmittedAll : List Policy → Prop
  | [] => True
  | child :: rest => child.Admitted ∧ Policy.AdmittedAll rest

end

/-- A policy within the decoder's bounds. -/
structure Policy.Bounded (policy : Policy) : Prop where
  admitted : policy.Admitted
  depth : policy.depth ≤ maxPolicyDepth
  leaves : policy.leafCount ≤ maxPolicyLeaves
  size : policy.encode.length ≤ maxPolicySize
  signed : policy.alwaysSigned = true

mutual

theorem Policy.Admitted.leafScheme_of_mem {policy : Policy} (admitted : policy.Admitted)
    {leaf : Nat} {entry : Nat × SchemeId × Hash256} (member : entry ∈ policy.keyLeavesFrom leaf) :
    leafScheme entry.2.1 := by
  match policy with
  | .key scheme hash =>
    rwa [mem_singleton.mp member]
  | .preimage _ | .older _ | .after _ => cases member
  | .all children | .any children => exact Policy.AdmittedAll.leafScheme_of_mem admitted.2 member

theorem Policy.AdmittedAll.leafScheme_of_mem {children : List Policy}
    (admitted : Policy.AdmittedAll children) {leaf : Nat} {entry : Nat × SchemeId × Hash256}
    (member : entry ∈ Policy.keyLeavesAll children leaf) : leafScheme entry.2.1 := by
  match children with
  | [] => cases member
  | child :: others =>
    rcases mem_append.mp member with early | late
    · exact Policy.Admitted.leafScheme_of_mem admitted.1 early
    · exact Policy.AdmittedAll.leafScheme_of_mem admitted.2 late

end

/-! ## Reading what was written -/

theorem readPolicyField_eq_ok {α : Type} {read : Read α} {left : Bytes} {result : α × Bytes} :
    readPolicyField read left = .ok result ↔ read left = .ok result := by
  rw [readPolicyField, mapError_eq_ok]

theorem countLeaf_eq_ok {leaves counted : Nat} :
    countLeaf leaves = .ok counted ↔ leaves + 1 ≤ maxPolicyLeaves ∧ leaves + 1 = counted := by
  simp only [countLeaf, bind_eq_ok, require_eq_ok, pure_eq_ok]
  exact exists_const Unit

theorem childCount_toNat {count : Nat} (few : count ≤ maxPolicyLeaves) :
    (childCount count).toNat = count := by
  have small : count ≤ 8 := few
  rw [childCount, Nat.min_eq_left (by omega)]
  exact UInt8.toNat_ofNat_of_lt' (Nat.lt_of_le_of_lt small (by decide))

theorem childCount_eq {count : UInt8} {children : List Policy}
    (counted : children.length = count.toNat) (few : count.toNat ≤ maxPolicyLeaves) :
    childCount children.length = count := by
  apply UInt8.toNat_inj.mp
  rw [counted]
  exact childCount_toNat few

/-- What a key leaf's scheme byte may be. -/
theorem leafScheme_iff {raw : UInt8} {scheme : SchemeId} :
    ((SchemeId.fromU8 raw).filter fun scheme =>
        scheme == .mlDsa65 || scheme == .mlDsa87 || scheme == .sphincsPlus ||
          scheme == .lamportOts) = some scheme ∧ scheme.isOneTime = false ↔
      raw = scheme.asU8 ∧ leafScheme scheme := by
  constructor
  · rintro ⟨found, reusable⟩
    obtain ⟨decoded, listed⟩ := Option.filter_eq_some_iff.mp found
    have byte : raw = scheme.asU8 := by
      unfold SchemeId.fromU8 at decoded
      apply UInt8.toNat_inj.mp
      split at decoded <;> cases decoded <;> assumption
    cases scheme <;> simp_all [leafScheme, SchemeId.isOneTime]
  · rintro ⟨rfl, named⟩
    rcases named with rfl | rfl | rfl <;> exact ⟨rfl, rfl⟩

/-- The children written one after the other are read back by any reader that reads each back. -/
theorem readChildren_encodeAll
    {readNode : Nat → Bytes → Except PolicyError (Policy × Nat × Bytes)} {children : List Policy}
    {leaves : Nat} (rest : Bytes)
    (readsBack : ∀ child ∈ children, ∀ leaves rest, leaves + child.leafCount ≤ maxPolicyLeaves →
      readNode leaves (child.encode ++ rest) = .ok (child, leaves + child.leafCount, rest))
    (few : leaves + Policy.leafCountAll children ≤ maxPolicyLeaves) :
    readChildren readNode children.length leaves (Policy.encodeAll children ++ rest) =
      .ok (children, leaves + Policy.leafCountAll children, rest) := by
  induction children generalizing leaves with
  | nil => rfl
  | cons child others ih =>
    rw [Policy.leafCountAll] at few ⊢
    have first := readsBack child (.head _) leaves (Policy.encodeAll others ++ rest) (by omega)
    have later := @ih (leaves + child.leafCount)
      (fun other member => readsBack other (.tail _ member)) (by omega)
    simp only [length_cons, readChildren, Policy.encodeAll, append_assoc, first, later,
      bind, Except.bind, pure, Except.pure]
    rw [Nat.add_assoc]

theorem Policy.AdmittedAll.of_mem {children : List Policy} (admitted : Policy.AdmittedAll children)
    {child : Policy} (member : child ∈ children) : child.Admitted := by
  induction children with
  | nil => cases member
  | cons first others ih =>
    obtain ⟨here, later⟩ := admitted
    rcases mem_cons.mp member with rfl | further
    · exact here
    · exact ih later further

theorem Policy.depth_le_depthAll {children : List Policy} {child : Policy}
    (member : child ∈ children) : child.depth ≤ Policy.depthAll children := by
  induction children with
  | nil => cases member
  | cons first others ih =>
    rcases mem_cons.mp member with rfl | further
    · exact Nat.le_max_left _ _
    · exact (ih further).trans (Nat.le_max_right _ _)

section Nodes
variable (room leaves : Nat) (left : Bytes)

theorem readPolicy_key : readPolicy (room + 1) leaves (0x01 :: left) = (do
      let (raw, left) ← readPolicyField readU8 left
      let scheme ← orRefuse ((SchemeId.fromU8 raw).filter fun scheme =>
        scheme == .mlDsa65 || scheme == .mlDsa87 || scheme == .sphincsPlus ||
          scheme == .lamportOts) (.notAKeyScheme raw)
      require (scheme.isOneTime = false) (.oneTimeKey raw)
      let (hash, left) ← readPolicyField readArray32 left
      let leaves ← countLeaf leaves
      pure (.key scheme hash, leaves, left)) := rfl

theorem readPolicy_preimage : readPolicy (room + 1) leaves (0x02 :: left) = (do
      let (hash, left) ← readPolicyField readArray32 left
      let leaves ← countLeaf leaves
      pure (.preimage hash, leaves, left)) := rfl

theorem readPolicy_older : readPolicy (room + 1) leaves (0x03 :: left) = (do
      let (bytes, left) ← readPolicyField (readBytes 2) left
      require (UInt16.ofNat (leValue bytes) ≠ 0) .olderOutOfRange
      let leaves ← countLeaf leaves
      pure (.older (UInt16.ofNat (leValue bytes)), leaves, left)) := rfl

theorem readPolicy_after : readPolicy (room + 1) leaves (0x06 :: left) = (do
      let (height, left) ← readPolicyField readU32 left
      require (height ≠ 0) .afterOutOfRange
      let leaves ← countLeaf leaves
      pure (.after height, leaves, left)) := rfl

/-- The body both kinds of inner node share. -/
def readInner (make : List Policy → Policy) : Except PolicyError (Policy × Nat × Bytes) := do
  let (count, left) ← readPolicyField readU8 left
  require (2 ≤ count.toNat ∧ count.toNat ≤ maxPolicyLeaves) (.badArity count.toNat)
  let (children, leaves, left) ← readChildren (readPolicy room) count.toNat leaves left
  pure (make children, leaves, left)

theorem readPolicy_all :
    readPolicy (room + 1) leaves (0x04 :: left) = readInner room leaves left .all := rfl

theorem readPolicy_any :
    readPolicy (room + 1) leaves (0x05 :: left) = readInner room leaves left .any := rfl

end Nodes

/-- An inner node is read back when its children are. -/
theorem readInner_encode {room leaves : Nat} {children : List Policy} (rest : Bytes)
    (make : List Policy → Policy)
    (arity : 2 ≤ children.length ∧ children.length ≤ maxPolicyLeaves)
    (readsBack : ∀ child ∈ children, ∀ leaves rest, leaves + child.leafCount ≤ maxPolicyLeaves →
      readPolicy room leaves (child.encode ++ rest) = .ok (child, leaves + child.leafCount, rest))
    (few : leaves + Policy.leafCountAll children ≤ maxPolicyLeaves) :
    readInner room leaves (childCount children.length :: (Policy.encodeAll children ++ rest)) make =
      .ok (make children, leaves + Policy.leafCountAll children, rest) := by
  have counted := childCount_toNat arity.2
  have read := readChildren_encodeAll rest readsBack few
  simp only [readInner, bind_eq_ok, readPolicyField_eq_ok, readU8_eq_ok, require_eq_ok, pure_eq_ok,
    Prod.exists]
  refine ⟨_, _, rfl, (), ?_, children, _, rest, ?_, rfl⟩
  · rwa [counted]
  · rwa [counted]

theorem readPolicy_encode {room leaves : Nat} {policy : Policy} (rest : Bytes)
    (admitted : policy.Admitted) (shallow : policy.depth ≤ room)
    (few : leaves + policy.leafCount ≤ maxPolicyLeaves) :
    readPolicy room leaves (policy.encode ++ rest) = .ok (policy, leaves + policy.leafCount, rest) := by
  induction room generalizing leaves policy rest with
  | zero =>
    cases policy <;> simp only [Policy.depth] at shallow <;> omega
  | succ room ih =>
    cases policy with
    | key scheme hash =>
      have listed := leafScheme_iff.mpr ⟨rfl, admitted⟩
      rw [Policy.encode, cons_append, cons_append, readPolicy_key]
      simp only [bind_eq_ok, readPolicyField_eq_ok, readU8_eq_ok, orRefuse_eq_ok, require_eq_ok,
        countLeaf_eq_ok, pure_eq_ok, Prod.exists]
      exact ⟨_, _, rfl, scheme, listed.1, (), listed.2, hash, rest, readArray32_append hash rest,
        _, ⟨few, rfl⟩, rfl⟩
    | preimage hash =>
      rw [Policy.encode, cons_append, readPolicy_preimage]
      simp only [bind_eq_ok, readPolicyField_eq_ok, countLeaf_eq_ok, pure_eq_ok, Prod.exists]
      exact ⟨hash, rest, readArray32_append hash rest, _, ⟨few, rfl⟩, rfl⟩
    | older blocks =>
      have whole : UInt16.ofNat (leValue (leBytes 2 blocks.toNat)) = blocks := by
        have fits : blocks.toNat % 256 ^ 2 = blocks.toNat := Nat.mod_eq_of_lt blocks.toNat_lt
        rw [leValue_leBytes, fits, UInt16.ofNat_toNat]
      rw [Policy.encode, cons_append, readPolicy_older]
      simp only [bind_eq_ok, readPolicyField_eq_ok, require_eq_ok, countLeaf_eq_ok, pure_eq_ok,
        Prod.exists]
      refine ⟨_, rest, readBytes_append (leBytes_length 2 _) rest, (), ?_, _, ⟨few, rfl⟩, ?_⟩
      · rwa [whole]
      · rw [whole]
        rfl
    | after height =>
      rw [Policy.encode, cons_append, readPolicy_after]
      simp only [bind_eq_ok, readPolicyField_eq_ok, require_eq_ok, countLeaf_eq_ok, pure_eq_ok,
        Prod.exists]
      exact ⟨height, rest, readU32_eq_ok.mpr rfl, (), admitted, _, ⟨few, rfl⟩, rfl⟩
    | all children =>
      obtain ⟨arity, each⟩ := admitted
      rw [Policy.depth] at shallow
      rw [Policy.encode, cons_append, cons_append, readPolicy_all]
      refine readInner_encode rest .all arity ?_ few
      intro child member leaves rest fits
      have lower := Policy.depth_le_depthAll member
      exact ih rest (each.of_mem member) (by omega) fits
    | any children =>
      obtain ⟨arity, each⟩ := admitted
      rw [Policy.depth] at shallow
      refine readInner_encode rest .any arity ?_ few
      intro child member leaves rest fits
      have lower := Policy.depth_le_depthAll member
      exact ih rest (each.of_mem member) (by omega) fits

/-- What reading a node tells of the bytes and of the tree. -/
structure ReadNode (room leaves : Nat) (left : Bytes) (policy : Policy) (after : Nat)
    (rest : Bytes) : Prop where
  written : left = policy.encode ++ rest
  admitted : policy.Admitted
  shallow : policy.depth ≤ room
  counted : after = leaves + policy.leafCount
  few : after ≤ maxPolicyLeaves

/-- The same of a list of nodes. -/
structure ReadNodes (room leaves : Nat) (left : Bytes) (children : List Policy) (after : Nat)
    (rest : Bytes) : Prop where
  written : left = Policy.encodeAll children ++ rest
  admitted : Policy.AdmittedAll children
  shallow : Policy.depthAll children ≤ room
  counted : after = leaves + Policy.leafCountAll children

theorem readChildren_ok {room count leaves after : Nat} {left rest : Bytes} {children : List Policy}
    (each : ∀ {leaves after : Nat} {left rest : Bytes} {policy : Policy},
      readPolicy room leaves left = .ok (policy, after, rest) →
        ReadNode room leaves left policy after rest)
    (read : readChildren (readPolicy room) count leaves left = .ok (children, after, rest)) :
    ReadNodes room leaves left children after rest ∧ children.length = count ∧
      (0 < count → after ≤ maxPolicyLeaves) := by
  induction count generalizing leaves left children with
  | zero =>
    cases read
    exact ⟨⟨rfl, trivial, Nat.zero_le _, rfl⟩, rfl, fun positive => absurd positive (by omega)⟩
  | succ count ih =>
    simp only [readChildren, bind_eq_ok, pure_eq_ok, Prod.exists] at read
    obtain ⟨child, middle, between, first, others, last, ending, later, result⟩ := read
    cases result
    have node := each first
    obtain ⟨nodes, length, few⟩ := ih later
    refine ⟨⟨?_, ⟨node.admitted, nodes.admitted⟩, ?_, ?_⟩, by rw [length_cons, length], ?_⟩
    · rw [Policy.encodeAll, append_assoc, ← nodes.written, ← node.written]
    · exact Nat.max_le.mpr ⟨node.shallow, nodes.shallow⟩
    · rw [Policy.leafCountAll, nodes.counted, node.counted, Nat.add_assoc]
    · intro _
      cases count with
      | zero =>
        cases later
        exact node.few
      | succ count => exact few (Nat.succ_pos count)

theorem readInner_ok {room leaves after : Nat} {left rest : Bytes} {make : List Policy → Policy}
    {policy : Policy}
    (each : ∀ {leaves after : Nat} {left rest : Bytes} {policy : Policy},
      readPolicy room leaves left = .ok (policy, after, rest) →
        ReadNode room leaves left policy after rest)
    (read : readInner room leaves left make = .ok (policy, after, rest)) :
    ∃ children, policy = make children ∧
      left = childCount children.length :: (Policy.encodeAll children ++ rest) ∧
      (2 ≤ children.length ∧ children.length ≤ maxPolicyLeaves) ∧ Policy.AdmittedAll children ∧
      Policy.depthAll children ≤ room ∧ after = leaves + Policy.leafCountAll children ∧
      after ≤ maxPolicyLeaves := by
  simp only [readInner, bind_eq_ok, readPolicyField_eq_ok, readU8_eq_ok, require_eq_ok, pure_eq_ok,
    Prod.exists] at read
  obtain ⟨count, inside, rfl, _, arity, children, last, ending, later, result⟩ := read
  cases result
  obtain ⟨nodes, length, few⟩ := readChildren_ok each later
  refine ⟨children, rfl, ?_, by rw [length]; exact arity, nodes.admitted, nodes.shallow,
    nodes.counted, few (by omega)⟩
  rw [childCount_eq length arity.2, nodes.written]

theorem readPolicy_ok {room leaves after : Nat} {left rest : Bytes} {policy : Policy}
    (read : readPolicy room leaves left = .ok (policy, after, rest)) :
    ReadNode room leaves left policy after rest := by
  induction room generalizing leaves after left rest policy with
  | zero => cases read
  | succ room ih =>
    have tagged : ∃ tag inside, left = tag :: inside := by
      cases left with
      | nil => cases read
      | cons tag inside => exact ⟨tag, inside, rfl⟩
    obtain ⟨tag, inside, rfl⟩ := tagged
    by_cases key : tag = 0x01
    · rw [key, readPolicy_key] at read
      simp only [bind_eq_ok, readPolicyField_eq_ok, readU8_eq_ok, orRefuse_eq_ok, require_eq_ok,
        countLeaf_eq_ok, readArray32_eq_ok, pure_eq_ok, Prod.exists] at read
      obtain ⟨raw, _, rfl, scheme, found, _, reusable, hash, _, rfl, _, ⟨few, rfl⟩, result⟩ := read
      cases result
      obtain ⟨rfl, named⟩ := leafScheme_iff.mp ⟨found, reusable⟩
      exact ⟨by rw [key]; rfl, named, Nat.succ_le_succ (Nat.zero_le _), rfl, few⟩
    by_cases preimage : tag = 0x02
    · rw [preimage, readPolicy_preimage] at read
      simp only [bind_eq_ok, readPolicyField_eq_ok, countLeaf_eq_ok, readArray32_eq_ok,
        pure_eq_ok, Prod.exists] at read
      obtain ⟨hash, _, rfl, _, ⟨few, rfl⟩, result⟩ := read
      cases result
      exact ⟨by rw [preimage]; rfl, trivial, Nat.succ_le_succ (Nat.zero_le _), rfl, few⟩
    by_cases older : tag = 0x03
    · rw [older, readPolicy_older] at read
      simp only [bind_eq_ok, readPolicyField_eq_ok, countLeaf_eq_ok, readBytes_eq_ok,
        require_eq_ok, pure_eq_ok, Prod.exists] at read
      obtain ⟨bytes, _, ⟨rfl, sized⟩, _, positive, _, ⟨few, rfl⟩, result⟩ := read
      cases result
      have small := leValue_lt bytes
      rw [sized] at small
      have back : (UInt16.ofNat (leValue bytes)).toNat = leValue bytes :=
        UInt16.toNat_ofNat_of_lt' small
      refine ⟨?_, positive, Nat.succ_le_succ (Nat.zero_le _), rfl, few⟩
      rw [older, Policy.encode, back, ← sized, leBytes_leValue]
      rfl
    by_cases after : tag = 0x06
    · rw [after, readPolicy_after] at read
      simp only [bind_eq_ok, readPolicyField_eq_ok, countLeaf_eq_ok, readU32_eq_ok,
        require_eq_ok, pure_eq_ok, Prod.exists] at read
      obtain ⟨height, _, rfl, _, positive, _, ⟨few, rfl⟩, result⟩ := read
      cases result
      exact ⟨by rw [after]; rfl, positive, Nat.succ_le_succ (Nat.zero_le _), rfl, few⟩
    by_cases all : tag = 0x04
    · rw [all, readPolicy_all] at read
      obtain ⟨children, rfl, rfl, arity, each, shallow, counted, few⟩ := readInner_ok ih read
      exact ⟨by rw [all]; rfl, ⟨arity, each⟩, Nat.succ_le_succ shallow, counted, few⟩
    by_cases any : tag = 0x05
    · rw [any, readPolicy_any] at read
      obtain ⟨children, rfl, rfl, arity, each, shallow, counted, few⟩ := readInner_ok ih read
      exact ⟨by rw [any]; rfl, ⟨arity, each⟩, Nat.succ_le_succ shallow, counted, few⟩
    · exfalso
      unfold readPolicy at read
      simp only [bind_eq_ok, readPolicyField_eq_ok, readU8_eq_ok, Prod.exists] at read
      obtain ⟨_, _, same, read⟩ := read
      cases same
      split at read
      · exact key (UInt8.toNat_inj.mp (by assumption))
      · exact preimage (UInt8.toNat_inj.mp (by assumption))
      · exact older (UInt8.toNat_inj.mp (by assumption))
      · exact after (UInt8.toNat_inj.mp (by assumption))
      · exact all (UInt8.toNat_inj.mp (by assumption))
      · exact any (UInt8.toNat_inj.mp (by assumption))
      · cases read

/-- The decoder returns a tree exactly for its encoding, when the tree is within its bounds. -/
theorem decodePolicy_eq_ok {content : Bytes} {policy : Policy} :
    decodePolicy content = .ok policy ↔ content = policy.encode ∧ policy.Bounded := by
  simp only [decodePolicy, bind_eq_ok, require_eq_ok, pure_eq_ok, Prod.exists]
  constructor
  · rintro ⟨_, small, _, _, _, read, _, rfl, _, signed, rfl⟩
    have node := readPolicy_ok read
    have written := node.written
    rw [append_nil] at written
    have few := node.few
    rw [node.counted, Nat.zero_add] at few
    exact ⟨written, node.admitted, node.shallow, few, by rw [← written]; exact small, signed⟩
  · rintro ⟨rfl, bounded⟩
    have read := readPolicy_encode [] bounded.admitted bounded.depth
      (by rw [Nat.zero_add]; exact bounded.leaves)
    rw [append_nil] at read
    exact ⟨(), bounded.size, policy, _, [], read, (), rfl, (), bounded.signed, rfl⟩

mutual

/-- A leaf takes at most thirty-four bytes, and an inner node two more than its children. -/
theorem Policy.Admitted.encode_length {policy : Policy} (admitted : policy.Admitted) :
    policy.encode.length + 2 ≤ 36 * policy.leafCount := by
  match policy with
  | .key scheme hash | .preimage hash => simp [Policy.encode, Policy.leafCount, hash.length_bytes]
  | .older blocks => simp [Policy.encode, Policy.leafCount, leBytes_length]
  | .after height => simp [Policy.encode, Policy.leafCount, writeU32, leBytes_length]
  | .all children | .any children =>
    have inner := Policy.AdmittedAll.encode_length admitted.2
    have wide := admitted.1.1
    simp only [Policy.encode, Policy.leafCount, length_cons]
    omega

theorem Policy.AdmittedAll.encode_length {children : List Policy}
    (admitted : Policy.AdmittedAll children) :
    (Policy.encodeAll children).length + 2 * children.length ≤
      36 * Policy.leafCountAll children := by
  match children with
  | [] => exact le_rfl
  | child :: rest =>
    have first := Policy.Admitted.encode_length admitted.1
    have others := Policy.AdmittedAll.encode_length admitted.2
    simp only [Policy.encodeAll, Policy.leafCountAll, length_append, length_cons]
    omega

end

/-- Every tree that respects the rules is read back from its encoding; whatever is read is the
encoding of what it is read as; neither two encodings nor two lock hashes stand for two policies. -/
theorem policy_encoding_canonical [Crypto] :
    (∀ policy : Policy, policy.Admitted → policy.depth ≤ maxPolicyDepth →
      policy.leafCount ≤ maxPolicyLeaves → policy.alwaysSigned = true →
        decodePolicy policy.encode = .ok policy ∧ policy.encode.length ≤ maxPolicySize) ∧
    (∀ content policy, decodePolicy content = .ok policy →
      policy.encode = content ∧ policy.Bounded) ∧
    (∀ content content' policy, decodePolicy content = .ok policy →
      decodePolicy content' = .ok policy → content = content') ∧
    ∀ accepted : Set Bytes, accepted.InjOn lockHashOf → ∀ content ∈ accepted,
      ∀ content' ∈ accepted, ∀ policy policy', decodePolicy content = .ok policy →
        decodePolicy content' = .ok policy' → policy.lockHash = policy'.lockHash →
          policy = policy' := by
  refine ⟨fun policy admitted depth leaves signed => ?_, fun content policy decoded => ?_,
    fun content content' policy decoded decoded' => ?_, ?_⟩
  · have short := admitted.encode_length
    have size : policy.encode.length ≤ maxPolicySize := by
      simp only [maxPolicyLeaves, maxPolicySize] at leaves ⊢
      omega
    exact ⟨decodePolicy_eq_ok.mpr ⟨rfl, admitted, depth, leaves, size, signed⟩, size⟩
  · obtain ⟨written, bounded⟩ := decodePolicy_eq_ok.mp decoded
    exact ⟨written.symm, bounded⟩
  · exact (decodePolicy_eq_ok.mp decoded).1.trans (decodePolicy_eq_ok.mp decoded').1.symm
  · intro accepted apart content member content' member' policy policy' decoded decoded' locked
    rw [Policy.lockHash, Policy.lockHash, ← (decodePolicy_eq_ok.mp decoded).1,
      ← (decodePolicy_eq_ok.mp decoded').1] at locked
    rw [apart member member' locked, decoded'] at decoded
    exact (Except.ok.inj decoded).symm

theorem policy_encoding_canonical_key :
    letI : Crypto := checksumCrypto
    decodePolicy (Policy.key .mlDsa87 Hash256.zero).encode = .ok (.key .mlDsa87 Hash256.zero) ∧
      (Policy.key .mlDsa87 Hash256.zero).encode.length ≤ maxPolicySize :=
  let _ : Crypto := checksumCrypto
  policy_encoding_canonical.1 (.key .mlDsa87 Hash256.zero) (.inr (.inl rfl)) (by decide) (by decide)
    rfl

end Q21Formal.Ledger

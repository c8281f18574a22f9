import Q21Formal.Ledger.Utxo

/-!
# Validation of transactions and blocks

The consensus rules in the order the code applies them: the spend of a policy output, one
transaction against a view of the outputs, the uncles, then the whole block, and undoing it exactly.
-/

namespace Q21Formal.Ledger
open Library.Codec Library.Refusal Library.Maps Primitives List

def coinbaseMaturity : Nat := 200
def maxFutureTime : Nat := 600
def medianTimeSpan : Nat := 11
def maxUncles : Nat := 0
def maxUncleAge : Nat := 7
def uncleRewardPct : Nat := 25

inductive ValidationError where
  | structure (problem : BlockError)
  | transaction (problem : TxError)
  | proofOfWork (problem : PowError)
  | badHeight (expected received : Nat)
  | badParent
  | badDifficulty (expected received : UInt32)
  | timestampTooOld (median received : Nat)
  | timestampInFuture (limit received : Nat)
  | timestampNotAfterParent (parent received : Nat)
  | notTheAnchor (height : Nat)
  | blockTooLarge (max received : Nat)
  | missingInput (outpoint : OutPoint)
  | doubleSpend (outpoint : OutPoint)
  | coinbaseImmature (availableAt height : Nat)
  | valueNotConserved (inputs outputs : Nat)
  | excessiveSubsidy (allowed claimed : Nat)
  | feeOverflow
  | tooManyUncles (max received : Nat)
  | duplicateUncle (id : Hash256)
  | uncleTooOld (age max : Nat)
  | uncleInFuture
  | orphanUncle
  | uncleAlreadyClaimed (id : Hash256)
  | uncleIsAncestor
  | uncleProofOfWork (problem : PowError)
  | coinbaseDoesNotPayMiner
  | uncleNotRewarded (index : Nat)
  | badUncleDifficulty (expected received : UInt32)
  | capExceeded (cumulative emission cap : Nat)
  | coinbaseWithoutHeight
  | incompleteHistory
  | keyDoesNotMatchLock
  | schemeForbiddenOnNetwork (scheme : SchemeId)
  | signature (problem : VerifyError)
  | dustOutput (minimum received : Nat)
  | policy (problem : PolicyError)
  | name (problem : NameError)
  /-- Not an error of the code: an overflow or a missing index stops the process there. -/
  | aborted
deriving DecidableEq

section Policies
variable [Crypto]

section
variable (tx : Transaction) (inputIndex : Nat) (network : Network) (spent : UtxoEntry)
  (height : Nat) (witness : Witness)

/-- `precheck`: everything about a policy input that costs no signature verification. -/
def precheckSpend : Except ValidationError Path := do
  let (_, path) ← (readSpend spent.output witness).mapError .policy
  require (path.availableAt spent.height ≤ height)
    (.policy (.tooEarly (path.availableAt spent.height) height))
  path.keys.forM fun use => do
    require (use.scheme.allowedOn network = true) (.schemeForbiddenOnNetwork use.scheme)
    require (pubkeyHash use.scheme use.pubkey = use.hash) .keyDoesNotMatchLock
  pure path

/-- `policy::check_spend`. -/
def checkSpend : Except ValidationError Unit := do
  let path ← precheckSpend network spent height witness
  path.keys.forM fun use =>
    (verify use.scheme use.pubkey
      (tx.policySighash (UInt32.ofNat inputIndex) network spent.output witness.pubkey
        (UInt8.ofNat use.leaf) path.choices)
      use.signature).mapError .signature

end

end Policies

/-- What validation asks of a set of outputs. -/
structure UtxoView where
  lookup : OutPoint → Option UtxoEntry
  nameBySkeleton : Bytes → Option Bytes
  namesOwned : Hash256 → Nat

def UtxoSet.view (utxo : UtxoSet) : UtxoView where
  lookup := utxo.lookup
  nameBySkeleton := utxo.names.nameBySkeleton
  namesOwned := utxo.names.owned

section Transactions
variable (tx : Transaction) (view : UtxoView) (network : Network) (height : Nat)

variable [Crypto]

def checkOutput (output : TxOut) : Except ValidationError Unit := do
  require (schemeAllowed output.scheme network height = true)
    (.schemeForbiddenOnNetwork output.scheme)
  require (output.scheme = .nameKey ∨ minOutputValue ≤ output.value.toNat)
    (.dustOutput minOutputValue output.value.toNat)

/-- The rules of a name registration, if the transaction carries one. -/
def checkRegistration : Except ValidationError Unit := do
  match ← (registration tx).mapError .name with
  | none => pure ()
  | some registered =>
    let ownerSigns := tx.inputs.any fun input =>
      match view.lookup input.prevOut with
      | none => false
      | some entry =>
        entry.output.scheme == .mlDsa87 && entry.output.pubkeyHash == registered.owner
    require (ownerSigns = true) (.name .noOwnerInput)
    require (view.nameBySkeleton (skeleton registered.name) = none) (.name .taken)
    require (view.namesOwned registered.owner < maxNamesPerOwner) (.name .ownerFull)

/-- The cheap checks of every policy input, before any signature is verified. -/
def precheckInput (input : TxIn) : Except ValidationError Unit :=
  match view.lookup input.prevOut with
  | none => pure ()
  | some entry =>
    if entry.output.scheme = .policy ∧ schemeAllowed entry.output.scheme network height = true
    then do
      let _ ← precheckSpend network entry height input.witness
      pure ()
    else pure ()

/-- What the input loop carries: the outpoints seen in the block and the value read so far. -/
structure InputTotals where
  seen : List OutPoint
  total : Nat

/-- The witness opens the lock of the output it spends. -/
def checkLock (inputIndex : Nat) (network : Network) (entry : UtxoEntry) (height : Nat)
    (witness : Witness) : Except ValidationError Unit :=
  if entry.output.scheme = .policy then checkSpend tx inputIndex network entry height witness
  else do
    require (pubkeyHash entry.output.scheme witness.pubkey = entry.output.pubkeyHash)
      .keyDoesNotMatchLock
    (verify entry.output.scheme witness.pubkey
      (tx.sighash (UInt32.ofNat inputIndex) network entry.output)
      witness.signature).mapError .signature

/-- One input of `check_transaction`: unseen, present, mature, allowed and rightly signed. -/
def checkInput (totals : InputTotals) (indexed : TxIn × Nat) :
    Except ValidationError InputTotals := do
  let input := indexed.1
  require (input.prevOut ∉ totals.seen) (.doubleSpend input.prevOut)
  let entry ← orRefuse (view.lookup input.prevOut) (.missingInput input.prevOut)
  require (entry.output.scheme.isSpendable = true) (.name (.unspendable input.prevOut))
  require (entry.isCoinbase = false ∨ entry.height + coinbaseMaturity ≤ height)
    (.coinbaseImmature (entry.height + coinbaseMaturity) height)
  require (schemeAllowed entry.output.scheme network height = true)
    (.schemeForbiddenOnNetwork entry.output.scheme)
  checkLock tx indexed.2 network entry height input.witness
  let total ← orRefuse (checkedAdd totals.total entry.value) .feeOverflow
  pure ⟨input.prevOut :: totals.seen, total⟩

/-- `check_transaction`: the fee and the outpoints seen, when every rule holds. -/
def checkTransaction (seen : List OutPoint) : Except ValidationError (Nat × List OutPoint) := do
  tx.checkShape.mapError .transaction
  tx.outputs.forM (checkOutput network height)
  checkRegistration tx view
  tx.inputs.forM (precheckInput view network height)
  let totals ← tx.inputs.zipIdx.foldlM (checkInput tx view network height) ⟨seen, 0⟩
  let outputs ← tx.totalOutput.mapError .transaction
  require (outputs ≤ totals.total) (.valueNotConserved totals.total outputs)
  pure (totals.total - outputs, totals.seen)

end Transactions

/-- The confirmed outputs with the effect of the transactions already validated in the block. -/
structure BlockView where
  confirmed : UtxoSet
  created : FiniteMap OutPoint UtxoEntry := ∅
  spent : Finset OutPoint := ∅
  named : FiniteMap Bytes Bytes := ∅
  owned : FiniteMap Hash256 Nat := ∅

namespace BlockView

def lookup (view : BlockView) (outpoint : OutPoint) : Option UtxoEntry :=
  if outpoint ∈ view.spent then none
  else (view.created.lookup outpoint).or (view.confirmed.lookup outpoint)

def toView (view : BlockView) : UtxoView where
  lookup := view.lookup
  nameBySkeleton := fun text => (view.named.lookup text).or (view.confirmed.names.nameBySkeleton text)
  namesOwned := fun owner => view.confirmed.names.owned owner + (view.owned.lookup owner).getD 0

def apply [Crypto] (view : BlockView) (tx : Transaction) (height : Nat) : BlockView :=
  let view := { view with spent := view.spent ∪ (tx.inputs.map TxIn.prevOut).toFinset }
  let view :=
    match registration tx with
    | .ok (some registered) =>
      { view with
        named := view.named.insert (skeleton registered.name) registered.name
        owned := view.owned.insert registered.owner
          ((view.owned.lookup registered.owner).getD 0 + 1) }
    | _ => view
  { view with created := UtxoSet.createMap view.created tx.txid height false 0 tx.outputs }

end BlockView

section
variable (network : Network) (height : Nat)

/-! ## Blocks -/

/-- A hash written as the code writes it in text, most significant byte first. -/
def Hash256.ofHex (value : Nat) : Hash256 := ⟨(leBytes 32 value).reverse, by simp⟩

def strictTimeActivation : Network → Nat
  | .mainnet => 1
  | .testnet => 5_950
  | .regtest => u64Bound - 1

/-- The block identifiers built into the binary. -/
def anchors : Network → List (Nat × Hash256)
  | .testnet =>
    [(1_000, Hash256.ofHex 0xff33881b6fb3a68cb5e1b8eef37eb995a492bcf94ca3a85b703cd964aed027ca),
     (2_000, Hash256.ofHex 0x627b819a12bc8351b9139b28cb4b0f9a59596e86f1bc9da4f2c460022325c7f4),
     (2_500, Hash256.ofHex 0x104b317dfbad96fbe0ba616b708c519faeade0dd13b3520fd69e3ba9f593ac26),
     (3_000, Hash256.ofHex 0x7a12e78633c437972381f307cb2e063d5cc119b90157afdb79f2a926636fa2c4),
     (4_000, Hash256.ofHex 0xfa7f43c5e9124bd4a0ab4ae8aa93d6547800f5de82e3efcd99f81ff2331c79b4),
     (5_000, Hash256.ofHex 0xe5f33ab0bc15f5d7b159cceda8b50526e46cf52983c4f08b868fa6e037fcd5db)]
  | .mainnet => []
  | .regtest => []

def lastAnchorHeight : Nat :=
  ((anchors network).getLast?.map Prod.fst).getD 0

def checkAfterParent (parentTime : Option UInt64) (time : UInt64) : Except ValidationError Unit :=
  match parentTime with
  | none => pure ()
  | some parent =>
    require (¬ (strictTimeActivation network ≤ height ∧ time ≤ parent))
      (.timestampNotAfterParent parent.toNat time.toNat)

def checkAnchor (id : Hash256) : Except ValidationError Unit :=
  match (anchors network).find? fun anchor => anchor.1 == height with
  | none => pure ()
  | some (_, expected) => require (expected = id) (.notTheAnchor height)

/-- The median of the last `medianTimeSpan` times, zero when there is none. -/
def medianTime (times : List UInt64) : Nat :=
  let recent := ((times.reverse.take medianTimeSpan).map UInt64.toNat).insertionSort (· ≤ ·)
  recent.getD (recent.length / 2) 0

structure BlockContext where
  network : Network
  height : Nat
  prevId : Hash256
  recentTimes : List UInt64
  parentTime : Option UInt64
  expectedBits : UInt32
  now : Nat
  ancestors : List Hash256
  claimedUncles : List Hash256
  uncleExpectedBits : List (Hash256 × UInt32)
  cumulativeIssued : Nat

structure UncleRewards where
  perUncle : Nat
  minerShare : Nat

def uncleRewards (height uncles : Nat) : UncleRewards :=
  let base := blockSubsidy height
  let perUncle := base / 100 * uncleRewardPct
  ⟨perUncle, base - saturatingMul perUncle uncles⟩

end

section Blocks
variable [Crypto] [WorkHash] {block : Block} {context : BlockContext}

def checkUncle (context : BlockContext) (seen : List Hash256) (uncle : BlockHeader) :
    Except ValidationError (List Hash256) := do
  let id := uncle.blockId
  require (id ∉ seen) (.duplicateUncle id)
  require (id ∉ context.claimedUncles) (.uncleAlreadyClaimed id)
  require (id ∉ context.ancestors) .uncleIsAncestor
  require (uncle.height.toNat < context.height) .uncleInFuture
  require (context.height - uncle.height.toNat ≤ maxUncleAge)
    (.uncleTooOld (context.height - uncle.height.toNat) maxUncleAge)
  require (uncle.prevBlock ∈ context.ancestors) .orphanUncle
  let expected ← orRefuse (context.uncleExpectedBits.lookup uncle.prevBlock) .orphanUncle
  require (uncle.bits = expected) (.badUncleDifficulty expected uncle.bits)
  (checkWork context.network uncle).mapError .uncleProofOfWork
  pure (id :: seen)

def checkUncles (block : Block) (context : BlockContext) : Except ValidationError Unit := do
  require (block.uncles.length ≤ maxUncles) (.tooManyUncles maxUncles block.uncles.length)
  let _ ← block.uncles.foldlM (checkUncle context) []
  pure ()

/-- What the transaction loop of a block carries. -/
structure BlockTotals where
  view : BlockView
  seen : List OutPoint
  fees : Nat

def checkNext (context : BlockContext) (totals : BlockTotals) (tx : Transaction) :
    Except ValidationError BlockTotals := do
  let (fee, seen) ←
    checkTransaction tx totals.view.toView context.network context.height totals.seen
  let fees ← orRefuse (checkedAdd totals.fees fee) .feeOverflow
  pure ⟨totals.view.apply tx context.height, seen, fees⟩

/-- The rules that look at the header alone and its place in the chain. -/
def checkPlace (block : Block) (context : BlockContext) : Except ValidationError Unit := do
  let header := block.header
  require (block.encode.length ≤ maxBlockSize) (.blockTooLarge maxBlockSize block.encode.length)
  require (header.height.toNat = context.height) (.badHeight context.height header.height.toNat)
  require (header.prevBlock = context.prevId) .badParent
  require (header.bits = context.expectedBits) (.badDifficulty context.expectedBits header.bits)
  let median := medianTime context.recentTimes
  require (context.recentTimes = [] ∨ median < header.time.toNat)
    (.timestampTooOld median header.time.toNat)
  checkAfterParent context.network context.height context.parentTime header.time
  checkAnchor context.network context.height header.blockId
  require (header.time.toNat ≤ context.now + maxFutureTime)
    (.timestampInFuture (context.now + maxFutureTime) header.time.toNat)
  (checkWork context.network header).mapError .proofOfWork

/-- An accepted header is small, at the next height, on the tip. -/
theorem checkPlace_ok (checked : checkPlace block context = .ok ()) :
    block.encode.length ≤ maxBlockSize ∧ block.header.height.toNat = context.height ∧
      block.header.prevBlock = context.prevId := by
  simp only [checkPlace, bind_eq_ok, require_eq_ok] at checked
  obtain ⟨_, size, _, height, _, parent, _⟩ := checked
  exact ⟨size, height, parent⟩

/-- The coinbase pays the miner, then one output for each uncle. -/
def checkPayees (block : Block) (coinbase : Transaction) (rewards : UncleRewards) :
    Except ValidationError Nat :=
  match coinbase.outputs with
  | [] => .error (.uncleNotRewarded 0)
  | minerOutput :: uncleOutputs => do
      require (uncleOutputs.length = block.uncles.length) (.uncleNotRewarded 0)
      require (minerOutput.pubkeyHash = block.header.miner) .coinbaseDoesNotPayMiner
      (block.uncles.zip uncleOutputs).zipIdx.forM fun entry =>
        require (entry.1.2.pubkeyHash = entry.1.1.miner ∧
          entry.1.2.value.toNat = rewards.perUncle) (.uncleNotRewarded entry.2)
      pure minerOutput.value.toNat

/-- Only the genesis coinbase may create outputs under the minimum. -/
def checkDust (coinbase : Transaction) (height : Nat) : Except ValidationError Unit :=
  if 0 < height then
    coinbase.outputs.forM fun output =>
      require (minOutputValue ≤ output.value.toNat) (.dustOutput minOutputValue output.value.toNat)
  else pure ()

/-- The rules of the coinbase, given the fees of the block's other transactions. -/
def checkCoinbase (block : Block) (coinbase : Transaction) (context : BlockContext)
    (fees : Nat) : Except ValidationError Unit := do
  let rewards := uncleRewards context.height block.uncles.length
  checkDust coinbase context.height
  require ((leBytes 8 context.height).isPrefixOf coinbase.coinbaseData = true)
    .coinbaseWithoutHeight
  let claimed ← checkPayees block coinbase rewards
  let allowed ← orRefuse (checkedAdd rewards.minerShare fees) .feeOverflow
  require (claimed ≤ allowed) (.excessiveSubsidy allowed claimed)
  let total ← coinbase.totalOutput.mapError fun _ => .feeOverflow
  let emission := total - fees
  let cumulative ← orRefuse (checkedAdd context.cumulativeIssued emission) .feeOverflow
  require (cumulative ≤ maxSupply) (.capExceeded context.cumulativeIssued emission maxSupply)
  coinbase.outputs.forM fun output => do
    require (output.scheme.isName = false) (.name .inCoinbase)
    require (schemeAllowed output.scheme context.network context.height = true)
      (.schemeForbiddenOnNetwork output.scheme)

/-- `check_block`: the fees of the block, when every rule holds. -/
def checkBlock (block : Block) (utxo : UtxoSet) (context : BlockContext) :
    Except ValidationError Nat := do
  checkPlace block context
  block.checkShape.mapError .structure
  match block.transactions with
  | [] => .error (.structure .noTransactions)
  | coinbase :: rest =>
    let totals ← rest.foldlM (checkNext context) ⟨{ confirmed := utxo }, [], 0⟩
    checkUncles block context
    checkCoinbase block coinbase context totals.fees
    pure totals.fees

/-- What an accepted block is made of. -/
structure CheckedBlock (block : Block) (utxo : UtxoSet) (context : BlockContext) (fees : Nat)
    (coinbase : Transaction) (rest : List Transaction) : Prop where
  transactions : block.transactions = coinbase :: rest
  place : checkPlace block context = .ok ()
  isCoinbase : coinbase.isCoinbase = true
  notCoinbase : ∀ tx ∈ rest, tx.isCoinbase = false
  loop : ∃ totals, rest.foldlM (checkNext context) ⟨{ confirmed := utxo }, [], 0⟩ = .ok totals ∧
    totals.fees = fees
  uncles : block.uncles.length ≤ maxUncles
  coinbaseRules : checkCoinbase block coinbase context fees = .ok ()

theorem checkBlock_ok {utxo : UtxoSet} {fees : Nat}
    (checked : checkBlock block utxo context = .ok fees) :
    ∃ coinbase rest, CheckedBlock block utxo context fees coinbase rest := by
  simp only [checkBlock, bind_eq_ok, mapError_eq_ok] at checked
  obtain ⟨_, place, _, shape, checked⟩ := checked
  obtain ⟨coinbase, rest, listed, first, others, _⟩ := Block.checkShape_ok shape
  rw [listed] at checked
  simp only [bind_eq_ok, pure_eq_ok] at checked
  obtain ⟨totals, looped, _, uncles, _, rules, same⟩ := checked
  simp only [checkUncles, bind_eq_ok, require_eq_ok] at uncles
  obtain ⟨_, few, _⟩ := uncles
  exact ⟨coinbase, rest, listed, place, first, others, ⟨totals, looped, same⟩, few, same ▸ rules⟩

end Blocks

variable {outpoint : OutPoint} {entry : UtxoEntry}

namespace UtxoSet

/-- `record` tells exactly how `now` came from `before`. -/
structure Exact (before now : FiniteMap OutPoint UtxoEntry) (record : UndoRecord) : Prop where
  fresh : ∀ outpoint ∈ record.created, before.lookup outpoint = none
  kept : ∀ outpoint, outpoint ∉ record.created → outpoint ∉ record.spent.map Prod.fst →
    now.lookup outpoint = before.lookup outpoint
  spent : ∀ entry ∈ record.spent, entry.1 ∉ record.created → before.lookup entry.1 = some entry.2
  gone : ∀ entry ∈ record.spent, now.lookup entry.1 = none
  distinct : (record.spent.map Prod.fst).Nodup

theorem Exact.refl (map : FiniteMap OutPoint UtxoEntry) : Exact map map {} :=
  ⟨by simp, fun _ _ _ => rfl, by simp, by simp, nodup_nil⟩

section Exact
variable {before : FiniteMap OutPoint UtxoEntry} {utxo : UtxoSet} {record : UndoRecord}

theorem Exact.not_spent {now : FiniteMap OutPoint UtxoEntry} (exact' : Exact before now record)
    (present : now.lookup outpoint = some entry) :
    outpoint ∉ record.spent.map Prod.fst := by
  intro member
  obtain ⟨old, spent, rfl⟩ := mem_map.mp member
  rw [exact'.gone old spent] at present
  cases present

section
variable (exact' : Exact before utxo.map record)
include exact'

theorem Exact.spendInputs (inputs : List TxIn) :
    Exact before (utxo.spendInputs record inputs).1.map (utxo.spendInputs record inputs).2 := by
  induction inputs generalizing utxo record with
  | nil => exact exact'
  | cons input rest ih =>
    have gone : ∀ outpoint, utxo.map.lookup outpoint = none →
        (utxo.remove input.prevOut).map.lookup outpoint = none := by
      intro outpoint absent
      rw [remove_map, lookup_erase_eq, absent, ite_self]
    rw [UtxoSet.spendInputs]
    split
    · rename_i absent
      refine ih ⟨exact'.fresh, ?_, exact'.spent, ?_, exact'.distinct⟩
      · intro outpoint outside unspent
        rw [← exact'.kept outpoint outside unspent, remove_map, lookup_erase_eq]
        split
        · rename_i same
          rw [same, absent]
        · rfl
      · exact fun entry member => gone entry.1 (exact'.gone entry member)
    · rename_i found present
      have unspent := exact'.not_spent present
      refine ih ⟨exact'.fresh, ?_, ?_, ?_, ?_⟩
      · intro outpoint outside notSpent
        rw [map_append, mem_append, not_or] at notSpent
        have different : outpoint ≠ input.prevOut := by simpa using notSpent.2
        rw [remove_map, lookup_erase_eq, if_neg different]
        exact exact'.kept outpoint outside notSpent.1
      · intro entry member outside
        rcases mem_append.mp member with earlier | last
        · exact exact'.spent entry earlier outside
        · obtain rfl := mem_singleton.mp last
          rwa [← exact'.kept _ outside unspent]
      · intro entry member
        rcases mem_append.mp member with earlier | last
        · exact gone entry.1 (exact'.gone entry earlier)
        · obtain rfl := mem_singleton.mp last
          rw [remove_map, lookup_erase_eq, if_pos rfl]
      · rw [map_append, nodup_append]
        refine ⟨exact'.distinct, nodup_singleton _, ?_⟩
        rintro outpoint earlier _ last rfl
        obtain rfl := mem_singleton.mp last
        exact unspent earlier

theorem Exact.insert (free : before.lookup outpoint = none)
    (unspent : outpoint ∉ record.spent.map Prod.fst) (entry : UtxoEntry) :
    Exact before (utxo.insert outpoint entry).map
      { record with created := record.created ++ [outpoint] } := by
  refine ⟨?_, ?_, ?_, ?_, exact'.distinct⟩
  · intro query member
    rcases mem_append.mp member with earlier | last
    · exact exact'.fresh query earlier
    · obtain rfl := mem_singleton.mp last
      exact free
  · intro query outside notSpent
    rw [mem_append, not_or, mem_singleton] at outside
    rw [insert_map, lookup_insert_eq, if_neg outside.2]
    exact exact'.kept query outside.1 notSpent
  · intro old member outside
    rw [mem_append, not_or] at outside
    exact exact'.spent old member outside.1
  · intro old member
    have different : old.1 ≠ outpoint := by
      intro same
      exact unspent (same ▸ mem_map_of_mem member)
    rw [insert_map, lookup_insert_eq, if_neg different]
    exact exact'.gone old member

/-- Outputs enter exactly where nothing was before the block and nothing was spent in it. -/
theorem Exact.createOutputs {txid : Hash256} (height : Nat) (coinbase : Bool) {index : Nat}
    {outputs : List TxOut} (absent : ∀ offset < outputs.length, before.lookup ⟨txid, UInt32.ofNat
      (index + offset)⟩ = none ∧ (⟨txid, UInt32.ofNat (index + offset)⟩ : OutPoint) ∉
      record.spent.map Prod.fst) :
    Exact before (utxo.createOutputs record txid height coinbase index outputs).1.map
      (utxo.createOutputs record txid height coinbase index outputs).2 := by
  induction outputs generalizing utxo record index with
  | nil => exact exact'
  | cons output rest ih =>
    obtain ⟨free, unspent⟩ := absent 0 (Nat.succ_pos _)
    refine ih (exact'.insert free unspent ⟨output, height, coinbase⟩) ?_
    intro offset inside
    have shifted := absent (offset + 1) (Nat.succ_lt_succ inside)
    rwa [Nat.add_comm offset 1, ← Nat.add_assoc] at shifted

/-- The map of the undone set is the map before. -/
theorem Exact.undo_map : (utxo.undo record).map = before := by
  apply Finmap.ext_lookup
  intro query
  have restored : ∀ entries : List (OutPoint × UtxoEntry),
      (∀ entry ∈ entries, entry.1 ∉ record.created → before.lookup entry.1 = some entry.2) →
      ∀ start : FiniteMap OutPoint UtxoEntry,
      (query ∉ record.created → query ∉ entries.map Prod.fst →
        start.lookup query = before.lookup query) →
      (query ∈ record.created → start.lookup query = none) →
      (entries.foldl (restoreSpent record) start).lookup query = before.lookup query := by
    intro entries
    induction entries with
    | nil =>
      intro _ start outside inside
      by_cases created : query ∈ record.created
      · exact (inside created).trans (exact'.fresh query created).symm
      · exact outside created not_mem_nil
    | cons entry rest ih =>
      intro known start outside inside
      apply ih fun other member => known other (.tail _ member)
      · intro notCreated notRest
        unfold restoreSpent
        by_cases same : query = entry.1
        · have here : entry.1 ∉ record.created := same ▸ notCreated
          rw [if_neg here, lookup_insert_eq, if_pos same, same]
          exact (known entry (.head _) here).symm
        · have untouched := outside notCreated (not_mem_cons_of_ne_of_not_mem same notRest)
          split
          · exact untouched
          · rwa [lookup_insert_eq, if_neg same]
      · intro created
        unfold restoreSpent
        split
        · exact inside created
        · rename_i notCreated
          have different : query ≠ entry.1 := by
            rintro rfl
            exact notCreated created
          rw [lookup_insert_eq, if_neg different]
          exact inside created
  rw [UtxoSet.undo_map]
  apply restored record.spent exact'.spent
  · intro notCreated notSpent
    rw [lookup_foldl_erase, if_neg notCreated]
    exact exact'.kept query notCreated notSpent
  · intro created
    rw [lookup_foldl_erase, if_pos created]

end

end Exact

variable {utxo : UtxoSet} {record : UndoRecord}

/-- The spent outputs of a record are money: no name output is spent. -/
def SpendsPlain (record : UndoRecord) : Prop :=
  ∀ entry ∈ record.spent, entry.2.output.scheme.isName = false

theorem completesNew_of_plain (utxo : UtxoSet) (outpoint : OutPoint)
    (plain : entry.output.scheme.isName = false) : utxo.CompletesNew outpoint entry := by
  intro tag new text paired
  rw [pairTag_of_not_name plain] at paired
  cases paired

theorem Coherent.removeAll (coherent : utxo.Coherent) (outpoints : List OutPoint) :
    (outpoints.foldl UtxoSet.remove utxo).Coherent := by
  induction outpoints generalizing utxo with
  | nil => exact coherent
  | cons outpoint rest ih => exact ih (coherent.remove outpoint)

/-- Undoing puts the outputs back at free outpoints. -/
theorem Coherent.undo {before : FiniteMap OutPoint UtxoEntry} (coherent : utxo.Coherent)
    (exact' : Exact before utxo.map record) (plain : SpendsPlain record) :
    (utxo.undo record).Coherent := by
  have restored : ∀ entries : List (OutPoint × UtxoEntry), (entries.map Prod.fst).Nodup →
      (∀ entry ∈ entries, entry.2.output.scheme.isName = false) →
      ∀ start : UtxoSet, start.Coherent → (∀ entry ∈ entries, start.map.lookup entry.1 = none) →
      (entries.foldl (fun utxo entry =>
        if entry.1 ∈ record.created then utxo else utxo.insert entry.1 entry.2) start).Coherent := by
    intro entries
    induction entries with
    | nil => exact fun _ _ _ coherent _ => coherent
    | cons entry rest ih =>
      intro distinct money start coherent free
      rw [map_cons, nodup_cons] at distinct
      rw [foldl_cons]
      apply ih distinct.2 fun other member => money other (.tail _ member)
      · split
        · exact coherent
        · exact coherent.insert (free entry (.head _))
            (completesNew_of_plain _ _ (money entry (.head _)))
      · intro other member
        split
        · exact free other (.tail _ member)
        · have different : other.1 ≠ entry.1 := by
            intro same
            exact distinct.1 (same ▸ mem_map_of_mem member)
          rw [insert_map, lookup_insert_eq, if_neg different]
          exact free other (.tail _ member)
  apply restored record.spent exact'.distinct plain _ (coherent.removeAll record.created)
  intro entry member
  rw [foldl_remove_map, lookup_foldl_erase, exact'.gone entry member, ite_self]

/-- Undoing restores the set as it was, indices included. -/
theorem undo_eq {before now : UtxoSet} (coherentBefore : before.Coherent)
    (coherentNow : now.Coherent) (exact' : Exact before.map now.map record)
    (plain : SpendsPlain record) : now.undo record = before :=
  (coherentNow.undo exact' plain).unique coherentBefore exact'.undo_map

end UtxoSet

/-! ## The names of one transaction -/

variable {output : TxOut} {rest : List TxOut}

/-- The outputs carry at most one name key, and tags of one skeleton only. -/
structure Announces (shape : Bytes) (outputs : List TxOut) : Prop where
  single : (outputs.filter fun output => output.scheme == .nameKey).length ≤ 1
  tags : ∀ output ∈ outputs, output.scheme = .nameTag → ∀ text,
    decodeName output.pubkeyHash = some text → skeleton text = shape

variable {shape : Bytes}

theorem Announces.tail (announces : Announces shape (output :: rest)) : Announces shape rest := by
  refine ⟨?_, fun other member => announces.tags other (.tail _ member)⟩
  have single := announces.single
  rw [filter_cons] at single
  split at single
  · rw [length_cons] at single
    omega
  · exact single

/-- After a name key no other follows. -/
theorem Announces.last_key (announces : Announces shape (output :: rest))
    (key : output.scheme = .nameKey) : ∀ other ∈ rest, other.scheme ≠ .nameKey := by
  intro other member isKey
  have single := announces.single
  rw [filter_cons, if_pos (by simp [key]), length_cons] at single
  have empty : rest.filter (fun output => output.scheme == .nameKey) = [] :=
    length_eq_zero_iff.mp (by omega)
  have kept : other ∈ rest.filter fun output => output.scheme == .nameKey :=
    mem_filter.mpr ⟨member, by simp [isKey]⟩
  rw [empty] at kept
  cases kept

variable {utxo : UtxoSet}

namespace UtxoSet

/-- Between two outputs of one transaction: those from `index` on are still to come, and the tags
there have the announced skeleton. -/
structure Creating (utxo : UtxoSet) (txid : Hash256) (shape : Bytes) (index : Nat) : Prop where
  coherent : utxo.Coherent
  ahead : ∀ outpoint, outpoint.txid = txid → index ≤ outpoint.index.toNat →
    utxo.map.lookup outpoint = none
  tags : ∀ outpoint entry, outpoint.txid = txid → utxo.map.lookup outpoint = some entry →
    entry.output.scheme = .nameTag → ∀ text, decodeName entry.output.pubkeyHash = some text →
    skeleton text = shape

/-- Only a name key can complete a registration, and then the announced one. -/
theorem Creating.completes {txid : Hash256} {index : Nat}
    (creating : utxo.Creating txid shape index) (room : index < 2 ^ 32)
    {tag : OutPoint} {new : Registered} {text : Bytes}
    (paired : pairTag ⟨txid, UInt32.ofNat index⟩ entry = some tag)
    (completed : registeredAt (utxo.map.insert ⟨txid, UInt32.ofNat index⟩ entry) tag = some new)
    (decoded : decodeName new.name = some text) :
    entry.output.scheme = .nameKey ∧ skeleton text = shape := by
  have numeral : (UInt32.ofNat index).toNat = index := UInt32.toNat_ofNat_of_lt' room
  obtain ⟨tagEntry, keyEntry, tagHere, keyHere, fits, tagScheme, keyScheme, _, rfl⟩ :=
    registeredAt_eq_some completed
  have one : (1 : UInt32).toNat = 1 := rfl
  have next : (tag.index + 1).toNat = tag.index.toNat + 1 := by
    rw [UInt32.toNat_add, one, Nat.mod_eq_of_lt fits]
  rcases mem_pair_of_pairTag paired with same | same
  · subst same
    rw [lookup_insert_eq, if_neg, creating.ahead] at keyHere
    · cases keyHere
    · rfl
    · dsimp only at next ⊢
      omega
    · intro equal
      have indices : (UInt32.ofNat index + 1).toNat = (UInt32.ofNat index).toNat :=
        congrArg UInt32.toNat (OutPoint.mk.inj equal).2
      dsimp only at next
      omega
  · obtain ⟨sameTxid, sameIndex⟩ := OutPoint.mk.inj same
    rw [← same, lookup_insert_eq, if_pos rfl] at keyHere
    cases keyHere
    refine ⟨keyScheme, ?_⟩
    have different : tag ≠ ⟨txid, UInt32.ofNat index⟩ := by
      intro equal
      have indices := congrArg (fun outpoint => outpoint.index.toNat) equal
      have successor := congrArg UInt32.toNat sameIndex
      dsimp only at indices
      omega
    rw [lookup_insert_eq, if_neg different] at tagHere
    exact creating.tags tag tagEntry sameTxid.symm tagHere tagScheme text decoded

end UtxoSet

theorem NameIndex.bySkeleton_add {index : NameIndex} {tag : OutPoint} {name owner : Hash256}
    {height : Nat} {query : Bytes}
    (taken : (index.add tag name owner height).bySkeleton.lookup query ≠ none) :
    index.bySkeleton.lookup query ≠ none ∨ ∃ text, decodeName name = some text ∧
      skeleton text = query := by
  unfold NameIndex.add at taken
  split at taken
  · exact .inl taken
  · rename_i text decoded
    split at taken
    · exact .inl taken
    · rw [lookup_insert_eq] at taken
      split at taken
      · rename_i here
        exact .inr ⟨text, decoded, here.symm⟩
      · exact .inl taken

namespace UtxoSet

/-- The names after an insertion at a free outpoint. -/
theorem insert_names (entry : UtxoEntry) (fresh : utxo.map.lookup outpoint = none) :
    (utxo.insert outpoint entry).names =
      if entry.output.scheme.isName then
        indexName (utxo.map.insert outpoint entry) utxo.names outpoint entry
      else utxo.names := by
  unfold UtxoSet.insert
  rw [fresh]
  dsimp only
  split <;> rfl

/-- A name newly taken was completed by the output that entered. -/
theorem bySkeleton_insert {query : Bytes} (fresh : utxo.map.lookup outpoint = none)
    (taken : (utxo.insert outpoint entry).names.bySkeleton.lookup query ≠ none) :
    utxo.names.bySkeleton.lookup query ≠ none ∨ ∃ tag new text, pairTag outpoint entry = some tag ∧
      registeredAt (utxo.map.insert outpoint entry) tag = some new ∧
      decodeName new.name = some text ∧ skeleton text = query := by
  rw [insert_names entry fresh] at taken
  split at taken
  · cases paired : pairTag outpoint entry with
    | none =>
      rw [indexName, Option.map_eq_none_iff.mp paired] at taken
      exact .inl taken
    | some tag =>
      rw [indexName_eq _ _ paired] at taken
      split at taken
      · exact .inl taken
      · rename_i new completed
        rcases NameIndex.bySkeleton_add taken with earlier | ⟨text, decoded, shaped⟩
        · exact .inl earlier
        · exact .inr ⟨tag, new, text, rfl, completed, decoded, shaped⟩
  · exact .inl taken

section Creating
variable {utxo : UtxoSet} {txid : Hash256} {shape : Bytes} {index : Nat}

/-- One more output of the transaction. -/
theorem Creating.insert (creating : utxo.Creating txid shape index) (room : index < 2 ^ 32)
    (entry : UtxoEntry)
    (tagged : entry.output.scheme = .nameTag → ∀ text,
      decodeName entry.output.pubkeyHash = some text → skeleton text = shape)
    (unlike : entry.output.scheme = .nameKey → utxo.names.bySkeleton.lookup shape = none) :
    (utxo.insert ⟨txid, UInt32.ofNat index⟩ entry).Creating txid shape (index + 1) ∧
      ∀ query, (utxo.insert ⟨txid, UInt32.ofNat index⟩ entry).names.bySkeleton.lookup query ≠ none →
        utxo.names.bySkeleton.lookup query ≠ none ∨
          (query = shape ∧ entry.output.scheme = .nameKey) := by
  have numeral : (UInt32.ofNat index).toNat = index := UInt32.toNat_ofNat_of_lt' room
  have fresh : utxo.map.lookup ⟨txid, UInt32.ofNat index⟩ = none :=
    creating.ahead _ rfl numeral.ge
  refine ⟨⟨creating.coherent.insert fresh ?_, ?_, ?_⟩, ?_⟩
  · intro tag new text paired completed decoded
    obtain ⟨key, shaped⟩ := creating.completes room paired completed decoded
    rw [shaped]
    exact unlike key
  · intro outpoint sameTxid later
    have different : outpoint ≠ ⟨txid, UInt32.ofNat index⟩ := by
      rintro rfl
      dsimp only at later
      omega
    rw [insert_map, lookup_insert_eq, if_neg different]
    exact creating.ahead outpoint sameTxid (by omega)
  · intro outpoint found sameTxid here
    rw [insert_map, lookup_insert_eq] at here
    split at here
    · cases here
      exact tagged
    · exact creating.tags outpoint found sameTxid here
  · intro query taken
    rcases bySkeleton_insert fresh taken with earlier | ⟨tag, new, text, paired, completed, decoded, rfl⟩
    · exact .inl earlier
    · obtain ⟨key, shaped⟩ := creating.completes room paired completed decoded
      exact .inr ⟨shaped, key⟩

/-- All outputs of the transaction. -/
theorem Creating.createOutputs (creating : utxo.Creating txid shape index) (record : UndoRecord)
    (height : Nat) (coinbase : Bool) {outputs : List TxOut} (announces : Announces shape outputs)
    (room : index + outputs.length ≤ 2 ^ 32)
    (unlike : (∃ output ∈ outputs, output.scheme = .nameKey) →
      utxo.names.bySkeleton.lookup shape = none) :
    (utxo.createOutputs record txid height coinbase index outputs).1.Coherent ∧
      ∀ query, (utxo.createOutputs record txid height coinbase index
          outputs).1.names.bySkeleton.lookup query ≠ none →
        utxo.names.bySkeleton.lookup query ≠ none ∨
          (query = shape ∧ ∃ output ∈ outputs, output.scheme = .nameKey) := by
  induction outputs generalizing utxo record index with
  | nil => exact ⟨creating.coherent, fun _ taken => .inl taken⟩
  | cons output rest ih =>
    rw [length_cons] at room
    obtain ⟨next, names⟩ := creating.insert (by omega) ⟨output, height, coinbase⟩
      (announces.tags output (.head _))
      fun key => unlike ⟨output, mem_cons_self, key⟩
    have later : (∃ other ∈ rest, other.scheme = .nameKey) → (utxo.insert ⟨txid, UInt32.ofNat index⟩
          ⟨output, height, coinbase⟩).names.bySkeleton.lookup shape = none := by
      rintro ⟨other, member, isKey⟩
      by_contra taken
      rcases names shape taken with earlier | ⟨_, key⟩
      · exact earlier (unlike ⟨other, mem_cons_of_mem _ member, isKey⟩)
      · exact announces.last_key key other member isKey
    rw [UtxoSet.createOutputs]
    obtain ⟨coherent, finished⟩ := ih next _ announces.tail (by omega) later
    refine ⟨coherent, ?_⟩
    intro query taken
    rcases finished query taken with earlier | ⟨rfl, other, member, isKey⟩
    · rcases names query earlier with before | ⟨rfl, key⟩
      · exact .inl before
      · exact .inr ⟨rfl, output, mem_cons_self, key⟩
    · exact .inr ⟨rfl, other, mem_cons_of_mem _ member, isKey⟩

/-- Spending keeps the indices right and takes no new name. -/
theorem Coherent.spendInputs (coherent : utxo.Coherent) (record : UndoRecord) (inputs : List TxIn) :
    (utxo.spendInputs record inputs).1.Coherent := by
  induction inputs generalizing utxo record with
  | nil => exact coherent
  | cons input rest ih =>
    rw [UtxoSet.spendInputs]
    split <;> exact ih (coherent.remove _) _

end Creating

end UtxoSet

variable {outputs : List TxOut} {tx : Transaction}

theorem outputsOf_map_fst (scheme : SchemeId) (outputs : List TxOut) :
    (outputsOf scheme outputs).map Prod.fst = outputs.filter fun output => output.scheme == scheme := by
  have whole : (outputs.zipIdx.map Prod.fst).filter (fun output => output.scheme == scheme) =
      outputs.filter fun output => output.scheme == scheme := by rw [zipIdx_map_fst]
  rw [← whole, filter_map]
  rfl

theorem no_output_of_outputsOf {scheme : SchemeId} (nothing : outputsOf scheme outputs = []) :
    ∀ output ∈ outputs, output.scheme ≠ scheme := by
  intro output member same
  have kept : output ∈ outputs.filter fun output => output.scheme == scheme :=
    mem_filter.mpr ⟨member, by simp [same]⟩
  rw [← outputsOf_map_fst, nothing] at kept
  cases kept

/-- Without a registration there is no name output. -/
theorem registration_none (unnamed : registration tx = .ok none) :
    ∀ output ∈ tx.outputs, output.scheme ≠ .nameTag ∧ output.scheme ≠ .nameKey := by
  unfold registration at unnamed
  split at unnamed
  · rename_i noTag noKey
    intro output member
    exact ⟨no_output_of_outputsOf noTag output member, no_output_of_outputsOf noKey output member⟩
  · split at unnamed
    · simp only [bind_eq_ok, require_eq_ok, orRefuse_eq_ok, pure_eq_ok] at unnamed
      obtain ⟨_, _, _, _, _, _, impossible⟩ := unnamed
      cases impossible
    · cases unnamed
  all_goals cases unnamed

/-- A registration is the only one of its transaction. -/
theorem registration_some {registered : Registration}
    (named : registration tx = .ok (some registered)) :
    Announces (skeleton registered.name) tx.outputs := by
  unfold registration at named
  split at named
  · cases named
  · rename_i tag tagIndex key keyIndex oneTag oneKey
    split at named
    · simp only [bind_eq_ok, require_eq_ok, orRefuse_eq_ok, pure_eq_ok] at named
      obtain ⟨_, _, _, _, name, decoded, same⟩ := named
      cases same
      constructor
      · rw [← outputsOf_map_fst, oneKey]
        exact Nat.le_refl _
      · intro output member isTag text decodes
        have kept : output ∈ tx.outputs.filter fun output => output.scheme == .nameTag :=
          mem_filter.mpr ⟨member, by simp [isTag]⟩
        rw [← outputsOf_map_fst, oneTag] at kept
        obtain rfl : output = tag := by simpa using kept
        rw [decoded] at decodes
        cases decodes
        rfl
    · cases named
  all_goals cases named

/-- The outputs of a checked transaction announce at most one name, which is not taken. -/
theorem checkRegistration_ok [Crypto] {view : UtxoView}
    (checked : checkRegistration tx view = .ok ()) :
    (registration tx = .ok none ∧
        ∀ output ∈ tx.outputs, output.scheme ≠ .nameTag ∧ output.scheme ≠ .nameKey) ∨
      ∃ registered, registration tx = .ok (some registered) ∧
        Announces (skeleton registered.name) tx.outputs ∧
        view.nameBySkeleton (skeleton registered.name) = none := by
  simp only [checkRegistration, bind_eq_ok, mapError_eq_ok] at checked
  obtain ⟨found, read, checked⟩ := checked
  cases found with
  | none => exact .inl ⟨read, registration_none read⟩
  | some registered =>
    simp only [bind_eq_ok, require_eq_ok] at checked
    obtain ⟨_, _, _, free, _⟩ := checked
    exact .inr ⟨registered, read, registration_some read, free⟩

theorem Announces.of_plain (shape : Bytes)
    (plain : ∀ output ∈ outputs, output.scheme ≠ .nameTag ∧ output.scheme ≠ .nameKey) :
    Announces shape outputs := by
  refine ⟨?_, fun output member isTag => absurd isTag (plain output member).1⟩
  have none' : outputs.filter (fun output => output.scheme == .nameKey) = [] := by
    rw [filter_eq_nil_iff]
    intro output member
    simpa using (plain output member).2
  rw [none']
  exact Nat.zero_le _

theorem not_nameKey_of_plain {goal : Prop}
    (plain : ∀ output ∈ outputs, output.scheme ≠ .nameTag ∧ output.scheme ≠ .nameKey)
    (keyed : ∃ output ∈ outputs, output.scheme = .nameKey) : goal := by
  obtain ⟨output, member, key⟩ := keyed
  exact absurd key (plain output member).2

namespace UtxoSet

theorem bySkeleton_removeTag (index : NameIndex) (tag : OutPoint) :
    Within (index.removeTag tag).bySkeleton index.bySkeleton := by
  unfold NameIndex.removeTag
  split
  · exact Within.refl _
  · dsimp only
    split
    · exact Within.refl _
    · split
      · unfold NameIndex.releaseSkeleton
        split
        · exact Within.refl _
        · split
          · exact erase_within _ _
          · exact Within.refl _
      · exact Within.refl _

theorem bySkeleton_remove (utxo : UtxoSet) (outpoint : OutPoint) :
    Within (utxo.remove outpoint).names.bySkeleton utxo.names.bySkeleton := by
  unfold UtxoSet.remove
  split
  · exact Within.refl _
  · split
    · unfold unindexName
      split
      · exact Within.refl _
      · exact bySkeleton_removeTag _ _
    · exact Within.refl _

theorem bySkeleton_spendInputs (utxo : UtxoSet) (record : UndoRecord) (inputs : List TxIn) :
    Within (utxo.spendInputs record inputs).1.names.bySkeleton utxo.names.bySkeleton := by
  induction inputs generalizing utxo record with
  | nil => exact Within.refl _
  | cons input rest ih =>
    rw [UtxoSet.spendInputs]
    split <;> exact (ih _ _).trans (bySkeleton_remove _ _)

end UtxoSet

end Q21Formal.Ledger

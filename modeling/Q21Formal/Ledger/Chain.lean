import Q21Formal.Ledger.Validation

/-!
# The chain

The state of a node's chain and the calls that change it: `connect` and `disconnect` at the tip, and
`submit`, which also indexes side branches and reorganizes.  Where the code would stop the process,
the model refuses the call.  A block never adds more value than its coinbase creates beyond the fees.
-/

namespace Q21Formal.Ledger
open Library.Codec Library.Refusal Library.Maps Primitives List

def maxReorgDepth : Nat := 720
def reorgPenaltyFromDepth : Nat := 6
def reorgPenaltyPctPerBlock : Nat := 1
def reorgPenaltyMaxPct : Nat := 25
def bodyWindow : Nat := maxReorgDepth + 288
def bodyBudgetBytes : Nat := 1024 * 1024 * 1024
def sideBodyBudgetBytes : Nat := 64 * 1024 * 1024
def sideBranchEaseLimit : Nat := 16
def maxWantedOnDisk : Nat := 4 * (maxReorgDepth + 1)
def returnedBlocks : Nat := 12
def finalityHoldSecs : Nat := 3_600

/-- A vector of 32-byte identifiers holds at most `isize::MAX` bytes. -/
def activeCapacity : Nat := 2 ^ 58

structure BlockIndex where
  header : BlockHeader
  totalWork : Nat
  issued : Nat
deriving DecidableEq

structure Chain where
  network : Network
  index : FiniteMap Hash256 BlockIndex
  blocks : FiniteMap Hash256 Block
  /-- Bodies in memory, oldest first, and their size. -/
  bodyOrder : List Hash256
  bodyBytes : Nat
  sideBodies : List (Hash256 × Nat) := []
  sideBytes : Nat := 0
  /-- The active chain: position `h` holds the block of height `h`. -/
  active : List Hash256
  utxo : UtxoSet
  /-- The undo records kept, the newest first. -/
  undos : List UndoRecord
  issued : Nat
  disconnected : List Block := []
  disconnectedTxids : List Hash256 := []
  wanted : Finset Hash256 := ∅
  finalityHold : Option Nat
  returning : Bool := false
  bound : Bool := false
  /-- The archive a body that left memory is read back from. -/
  source : Hash256 → Option Block := fun _ => none

inductive ChainError where
  | validation (problem : ValidationError)
  | unknownParent (id : Hash256)
  | forkPointNotFound (reach : Nat)
  | beyondFinality (depth max : Nat)
  | insufficientWorkForDepth (depth : Nat)
  | undoWindowTooShort (depth available : Nat)
  | sideBranchTooEasy (height : Nat)
deriving DecidableEq

inductive Accept where
  | extended
  | sideBranch
  | reorganized (depth : Nat)
  | alreadyKnown
deriving DecidableEq, Repr

section Genesis
variable [Crypto]

def genesisMessage : Bytes := ascii "Q21 -- one vote per machine, not per silicon foundry"

def genesisTime : UInt64 := 1_755_734_400

def genesisCoinbase : Transaction where
  version := 1
  inputs := [TxIn.coinbase genesisMessage]
  outputs := [⟨UInt64.ofNat genesisPremint, .mlDsa87, Hash256.zero⟩]
  lockTime := 0

/-- The genesis block, whose nonce is the one the search for its proof of work stopped at. -/
def genesisBlock (nonce : UInt64) : Block :=
  let body : Block :=
    { header :=
        { version := 1, prevBlock := Hash256.zero, merkleRoot := Hash256.zero
          unclesRoot := Hash256.zero, miner := Hash256.zero, time := genesisTime
          bits := initialBits, height := 0, nonce }
      transactions := [genesisCoinbase]
      uncles := [] }
  { body with
    header :=
      { body.header with
        merkleRoot := body.computeMerkleRoot, unclesRoot := body.computeUnclesRoot } }

/-- A block of the height after the genesis with nothing but a coinbase, to evaluate with. -/
def firstBlock (nonce : UInt64) : Block :=
  let body : Block :=
    { header :=
        { version := 1, prevBlock := (genesisBlock 0).header.blockId, merkleRoot := Hash256.zero
          unclesRoot := Hash256.zero, miner := Hash256.zero, time := genesisTime + 120
          bits := initialBits, height := 1, nonce }
      transactions :=
        [{ version := 1, inputs := [TxIn.coinbase (leBytes 8 1)]
           outputs := [⟨UInt64.ofNat (blockSubsidy 1), .mlDsa87, Hash256.zero⟩], lockTime := 0 }]
      uncles := [] }
  { body with
    header :=
      { body.header with
        merkleRoot := body.computeMerkleRoot, unclesRoot := body.computeUnclesRoot } }

def paymentKey : Bytes := replicate SchemeId.mlDsa65.pubkeyLen 1

/-- An output of the one key, worth `value`. -/
def paymentOutput (value : UInt64) : TxOut := ⟨value, .mlDsa65, pubkeyHash .mlDsa65 paymentKey⟩

/-- The spend of an output of the key, which keeps all of it but a fee. -/
def paymentFrom (outpoint : OutPoint) (value : UInt64) : Transaction :=
  let unsigned : Transaction :=
    { version := 1, inputs := [⟨outpoint, {}, 0⟩]
      outputs := [paymentOutput (value - 10_000)], lockTime := 0 }
  let signature := replicate (SchemeId.mlDsa65.sigLen - 32) 0 ++
    (unsigned.sighash 0 .regtest (paymentOutput value)).bytes
  { unsigned with inputs := [⟨outpoint, ⟨paymentKey, signature⟩, 0⟩] }

/-- Where the coin of the payments comes from. -/
def paymentSource : Transaction :=
  { genesisCoinbase with outputs := [paymentOutput 1_000_000] }

def paymentSet : UtxoSet :=
  UtxoSet.insert {} ⟨paymentSource.txid, 0⟩ ⟨paymentOutput 1_000_000, 0, false⟩

def firstPayment : Transaction := paymentFrom ⟨paymentSource.txid, 0⟩ 1_000_000

def secondPayment : Transaction := paymentFrom ⟨firstPayment.txid, 0⟩ 990_000

/-- The block of the height after the genesis with both payments. -/
def paymentBlock : Block :=
  let body : Block :=
    { firstBlock 0 with
      transactions := (firstBlock 0).transactions ++ [firstPayment, secondPayment] }
  { body with header := { body.header with merkleRoot := body.computeMerkleRoot } }

def defaultFinalityHold : Network → Option Nat
  | .regtest => none
  | _ => some finalityHoldSecs

/-- `Chain::new`. -/
def Chain.new (network : Network) (genesis : Block) : Chain :=
  let (utxo, undo) := UtxoSet.applyTransactions {} {} 0 genesis.transactions
  let issued := (genesis.transactions.map fun tx =>
    match tx.totalOutput with
    | .ok total => total
    | .error _ => 0).sum
  let id := genesis.header.blockId
  { network
    index := (∅ : FiniteMap Hash256 BlockIndex).insert id
      ⟨genesis.header, blockWork genesis.header.bits, issued⟩
    blocks := (∅ : FiniteMap Hash256 Block).insert id genesis
    bodyOrder := [id]
    bodyBytes := genesis.encode.length
    active := [id]
    utxo
    undos := [undo]
    issued
    finalityHold := defaultFinalityHold network }

end Genesis

namespace Chain

variable (chain : Chain) (id : Hash256) (block : Block) (index : FiniteMap Hash256 BlockIndex)
  (parent : Hash256) (header : BlockHeader) (now : Nat)

def height : Nat := chain.active.length - 1

def tipId : Hash256 := chain.active.getLast?.getD Hash256.zero

/-- The cumulative work of the active chain. -/
def totalWork (chain : Chain) : Nat :=
  ((chain.index.lookup chain.tipId).map BlockIndex.totalWork).getD 0

/-- Is the block at its own height on the active chain? -/
def isActive (entry : BlockIndex) : Bool :=
  chain.active[entry.header.height.toNat]? == some id

/-- `prune_bodies`: the oldest bodies go, the genesis is moved to the back instead. -/
def pruneLoop (genesis : Option Hash256) (window budget : Nat) : Nat → Chain → Chain
  | 0, chain => chain
  | fuel + 1, chain =>
    if 1 < chain.bodyOrder.length ∧
        (window < chain.bodyOrder.length ∨ budget < chain.bodyBytes) then
      match chain.bodyOrder with
      | [] => chain
      | oldest :: rest =>
        if some oldest = genesis then
          pruneLoop genesis window budget fuel { chain with bodyOrder := rest ++ [oldest] }
        else
          match chain.blocks.lookup oldest with
          | none => pruneLoop genesis window budget fuel { chain with bodyOrder := rest }
          | some body =>
            pruneLoop genesis window budget fuel
              { chain with
                bodyOrder := rest
                blocks := chain.blocks.erase oldest
                bodyBytes := chain.bodyBytes - body.encode.length }
    else chain

/-- Every turn but one in a row drops a body, so twice their number is enough turns. -/
def pruneBodies (window budget : Nat) : Chain :=
  pruneLoop chain.active.head? window budget (2 * chain.bodyOrder.length + 2) chain

def keepBody : Chain :=
  let weight := block.encode.length
  let kept :=
    match chain.blocks.lookup id with
    | none =>
      { chain with
        blocks := chain.blocks.insert id block
        bodyOrder := chain.bodyOrder ++ [id]
        bodyBytes := chain.bodyBytes + weight }
    | some previous =>
      { chain with
        blocks := chain.blocks.insert id block
        bodyBytes := chain.bodyBytes - previous.encode.length + weight }
  kept.pruneBodies bodyWindow bodyBudgetBytes

def bodyById : Option Block :=
  (chain.blocks.lookup id).or (chain.source id)

/-- The oldest side bodies leave memory while they exceed their budget. -/
def evictLoop : Nat → Chain → Chain
  | 0, chain => chain
  | fuel + 1, chain =>
    if sideBodyBudgetBytes < chain.sideBytes then
      match chain.sideBodies with
      | [] => chain
      | (old, weight) :: rest =>
        let chain := { chain with sideBodies := rest, sideBytes := chain.sideBytes - weight }
        let active :=
          match chain.index.lookup old with
          | none => false
          | some entry => chain.isActive old entry
        match active, chain.blocks.lookup old with
        | false, some body =>
          evictLoop fuel
            { chain with
              blocks := chain.blocks.erase old
              bodyBytes := chain.bodyBytes - body.encode.length }
        | _, _ => evictLoop fuel chain
    else chain

def keepSideBody (size : Nat) : Chain :=
  let chain :=
    { chain with
      sideBodies := chain.sideBodies ++ [(id, size)]
      sideBytes := saturatingAdd chain.sideBytes size }
  evictLoop (chain.sideBodies.length + 1) chain

def wantOnDisk (branch : List Hash256) : Chain :=
  let kept := if maxWantedOnDisk < chain.wanted.card + branch.length then ∅ else chain.wanted
  { chain with wanted := kept ∪ branch.toFinset }

/-- Is the block indexed under a parent that goes? -/
def parentIn (gone : Finset Hash256) (id : Hash256) : Bool :=
  match index.lookup id with
  | none => false
  | some entry => decide (entry.header.prevBlock ∈ gone)

/-- One level of descendants of what goes. -/
def forgetStep (gone : Finset Hash256) : Finset Hash256 :=
  gone ∪ index.keys.filter fun id => parentIn index gone id = true

/-- Is the block indexed, and off the active chain? -/
def isSide : Bool :=
  match chain.index.lookup id with
  | none => false
  | some entry => !chain.isActive id entry

/-- `forget_side`: the given blocks that are not active go, with all their descendants. -/
def forgetSide (ids : List Hash256) : Chain :=
  let start := ids.toFinset.filter fun id => chain.isSide id = true
  let gone := (forgetStep chain.index)^[chain.index.keys.card] start
  let bytes := (gone.sum fun id =>
    match chain.blocks.lookup id with
    | none => 0
    | some body => body.encode.length)
  { chain with
    index := retain (fun id => decide (id ∉ gone)) chain.index
    blocks := retain (fun id => decide (id ∉ gone)) chain.blocks
    bodyBytes := chain.bodyBytes - bytes
    bodyOrder := chain.bodyOrder.filter fun id => decide (id ∉ gone)
    sideBodies := chain.sideBodies.filter fun entry => decide (entry.1 ∉ gone)
    sideBytes := chain.sideBytes -
      ((chain.sideBodies.filter fun entry => decide (entry.1 ∈ gone)).map Prod.snd).sum }

/-- The headers ending with `parent`, at most `count`, oldest first. -/
def headersBack (index : FiniteMap Hash256 BlockIndex) :
    Nat → Hash256 → List BlockHeader → List BlockHeader
  | 0, _, found => found
  | count + 1, current, found =>
    match index.lookup current with
    | none => found
    | some entry =>
      if entry.header.height = 0 then entry.header :: found
      else headersBack index count entry.header.prevBlock (entry.header :: found)

def nextBitsAfter : UInt32 :=
  if chain.network = .regtest then initialBits
  else nextBits (headersBack chain.index (lwmaWindow + 1) parent [])

def recentTimesAfter : List UInt64 :=
  (headersBack chain.index medianTimeSpan parent []).map BlockHeader.time

/-- The last `count` blocks of the active chain. -/
def lastActive (count : Nat) : List Hash256 :=
  chain.active.drop (chain.active.length - count)

def recentTimes : Option (List UInt64) :=
  (chain.lastActive medianTimeSpan).mapM fun id =>
    (chain.index.lookup id).map fun entry => entry.header.time

def recentAncestors : List Hash256 := chain.lastActive (maxUncleAge + 2)

/-- The uncles already paid; with no uncle allowed, none. -/
def claimedUncles (_ : Chain) : List Hash256 := []

def uncleExpectedBits : List (Hash256 × UInt32) :=
  (chain.lastActive (maxUncleAge + 2)).map fun id => (id, chain.nextBitsAfter id)

/-- The context a block on the tip is checked in. -/
def context : Option BlockContext := do
  let recentTimes ← chain.recentTimes
  pure
    { network := chain.network
      height := chain.height + 1
      prevId := chain.tipId
      recentTimes
      parentTime := (chain.index.lookup chain.tipId).map fun entry => entry.header.time
      expectedBits := chain.nextBitsAfter chain.tipId
      now
      ancestors := chain.recentAncestors
      claimedUncles := chain.claimedUncles
      uncleExpectedBits := chain.uncleExpectedBits
      cumulativeIssued := chain.issued }

/-- The work of a branch with one more block; a sum past 256 bits leaves it unchanged. -/
def addWork (parent work : Nat) : Nat := if parent + work < u256Bound then parent + work else parent

/-- The coinbase's outputs, as `connect` adds them up. -/
def coinbaseTotal : Except TxError Nat :=
  match block.transactions with
  | [] => .error .noOutputs
  | coinbase :: _ => coinbase.totalOutput

section Tip
variable [Crypto] [WorkHash]

@[irreducible] def connect : Except ValidationError (Chain × Nat) := do
  let context ← orRefuse (chain.context now) .aborted
  let fees ← checkBlock block chain.utxo context
  let (utxo, undo) := chain.utxo.applyTransactions {} context.height block.transactions
  let coinbase ← (coinbaseTotal block).mapError .transaction
  let issued ← orRefuse (checkedAdd chain.issued (coinbase - fees)) .aborted
  let id := block.header.blockId
  let parent ← orRefuse (chain.index.lookup block.header.prevBlock) .aborted
  let totalWork := addWork parent.totalWork (blockWork block.header.bits)
  require (chain.active.length < activeCapacity) .aborted
  let indexed :=
    { chain with
      utxo, issued, index := chain.index.insert id ⟨block.header, totalWork, issued⟩ }
  let kept := indexed.keepBody id block
  pure
    ({ kept with
        active := kept.active ++ [id]
        undos := (undo :: kept.undos).take bodyWindow },
      fees)

end Tip

/-- `disconnect`: the tip goes, unless it is the genesis or no record undoes it. -/
def disconnect : Chain × Bool :=
  match chain.undos, chain.active.dropLast.getLast? with
  | undo :: undos, some parent =>
    match chain.index.lookup parent with
    | none => (chain, false)
    | some entry =>
      ({ chain with
          undos
          utxo := chain.utxo.undo undo
          active := chain.active.dropLast
          issued := entry.issued },
        true)
  | _, _ => (chain, false)

/-- At most `count` blocks go, stopping at the first refusal. -/
def disconnectMany : Nat → Chain → Chain
  | 0, chain => chain
  | count + 1, chain =>
    match chain.disconnect with
    | (_, false) => chain
    | (next, true) => disconnectMany count next

/-- Back down to the block at height `fork`. -/
def disconnectTo (fork : Nat) : Chain :=
  disconnectMany (chain.active.length - (fork + 1)) chain

/-- `path_to_active`: the height of the fork and the branch above it, oldest first. -/
def pathToActive (chain : Chain) : Nat → Hash256 → List Hash256 → Option (Nat × List Hash256)
  | 0, _, _ => none
  | steps + 1, current, branch =>
    match chain.index.lookup current with
    | none => none
    | some entry =>
      if chain.isActive current entry then some (entry.header.height.toNat, branch)
      else if entry.header.height = 0 then none
      else chain.pathToActive steps entry.header.prevBlock (current :: branch)

def reorgThreshold (fork depth : Nat) : Nat :=
  let total := chain.totalWork
  let common :=
    match chain.active[fork]? with
    | none => 0
    | some id => ((chain.index.lookup id).map BlockIndex.totalWork).getD 0
  if depth ≤ reorgPenaltyFromDepth then total
  else
    let sinceFork := total - common
    let excess := min ((depth - reorgPenaltyFromDepth) * reorgPenaltyPctPerBlock)
      reorgPenaltyMaxPct
    let surcharged := (mulDiv sinceFork (100 + excess) 100).getD sinceFork
    if common + surcharged < u256Bound then common + surcharged else total

/-- The depth of reorganization the node can still perform. -/
def undoWindow : Nat := chain.undos.length

def finalityBinds : Bool :=
  if chain.height < lastAnchorHeight chain.network then false
  else if chain.finalityHold.isSome ∧ chain.returning = true then false
  else chain.finalityHold.isNone || chain.bound

def checkAttachment : Except ChainError Nat := do
  let parent ← orRefuse (chain.index.lookup header.prevBlock) (.unknownParent header.prevBlock)
  let parentHeight := parent.header.height.toNat
  require (header.height.toNat = parentHeight + 1)
    (.validation (.badHeight (parentHeight + 1) header.height.toNat))
  pure parentHeight

def checkContext [Crypto] (parentHeight now : Nat) : Except ChainError Unit := do
  let forkDepth := chain.height - parentHeight
  require (¬ (maxReorgDepth < forkDepth ∧ chain.finalityBinds = true))
    (.beyondFinality forkDepth maxReorgDepth)
  let expected := chain.nextBitsAfter header.prevBlock
  require (header.bits = expected) (.validation (.badDifficulty expected header.bits))
  let times := chain.recentTimesAfter header.prevBlock
  require (times = [] ∨ medianTime times < header.time.toNat)
    (.validation (.timestampTooOld (medianTime times) header.time.toNat))
  let parentTime := (chain.index.lookup header.prevBlock).map fun entry => entry.header.time
  (checkAfterParent chain.network header.height.toNat parentTime header.time).mapError .validation
  (checkAnchor chain.network header.height.toNat header.blockId).mapError .validation
  require (header.time.toNat ≤ now + maxFutureTime)
    (.validation (.timestampInFuture (now + maxFutureTime) header.time.toNat))

/-- `check_header`: what a header alone can be refused for. -/
def checkHeader [Crypto] [WorkHash] : Except ChainError Unit :=
  if (chain.index.lookup header.blockId).isSome then .ok ()
  else do
    let parentHeight ← chain.checkAttachment header
    chain.checkContext header parentHeight now
    (checkWork chain.network header).mapError fun problem => .validation (.proofOfWork problem)

/-- The bits of the active block a branch leaves from, searched `steps` blocks back. -/
def forkBits (chain : Chain) : Nat → Hash256 → Option UInt32
  | 0, _ => none
  | steps + 1, current =>
    match chain.index.lookup current with
    | none => none
    | some entry =>
      if chain.isActive current entry then some entry.header.bits
      else if entry.header.height = 0 then none
      else chain.forkBits steps entry.header.prevBlock

def tooEasyForSide (work : Nat) : Bool :=
  match chain.forkBits (bodyWindow + 2) parent with
  | none => false
  | some bits =>
    decide (work * sideBranchEaseLimit < u256Bound) &&
      decide (work * sideBranchEaseLimit < blockWork bits)

/-- The bodies of a branch, or the position of the first one missing. -/
def bodiesOf (bodyById : Hash256 → Option Block) : List Hash256 → Except Nat (List Block)
  | [] => .ok []
  | id :: rest =>
    match bodyById id with
    | none => .error 0
    | some body =>
      match bodiesOf bodyById rest with
      | .error position => .error (position + 1)
      | .ok bodies => .ok (body :: bodies)

section Submit
variable [Crypto] [WorkHash]

/-- Connects blocks one after the other: the chain reached, and the refusal that stopped there. -/
def connectAll (now : Nat) : List Block → Chain → Chain × Option ValidationError
  | [], chain => (chain, none)
  | block :: rest, chain =>
    match chain.connect block now with
    | .error problem => (chain, some problem)
    | .ok (next, _) => connectAll now rest next

/-- The switch to a branch whose bodies are at hand, undone when a block of it is refused. -/
def switchTo (fork depth now : Nat) (branch old : List Block) : Chain × Except ChainError Nat :=
  match connectAll now branch (disconnectMany depth chain) with
  | (switched, none) =>
    let dropped := old.length - returnedBlocks
    ({ switched with
        disconnectedTxids := old.flatMap fun block => block.transactions.map Transaction.txid
        disconnected := old.drop dropped },
      .ok depth)
  | (failed, some problem) =>
    match connectAll now old (failed.disconnectTo fork) with
    | (restored, none) => (restored, .error (.validation problem))
    | (broken, some _) => (broken.disconnectTo fork, .error (.validation problem))

def tryReorg (newTip : Hash256) (now : Nat) : Chain × Except ChainError Nat :=
  let binds := chain.finalityBinds
  let reach := if binds then maxReorgDepth + 1 else bodyWindow + 1
  match chain.pathToActive (reach + 2) newTip [] with
  | none => (chain, .error (.forkPointNotFound maxReorgDepth))
  | some (fork, branch) =>
    let depth := chain.active.length - 1 - fork
    let required := if binds then chain.reorgThreshold fork depth else chain.totalWork
    let work := ((chain.index.lookup newTip).map BlockIndex.totalWork).getD 0
    if binds = true ∧ maxReorgDepth < depth then
      (chain, .error (.beyondFinality depth maxReorgDepth))
    else if work ≤ required then (chain, .error (.insufficientWorkForDepth depth))
    else if chain.undos.length < depth then
      (chain, .error (.undoWindowTooShort depth chain.undos.length))
    else
      match bodiesOf chain.bodyById branch,
          bodiesOf chain.bodyById (chain.active.drop (fork + 1)) with
      | .error missing, _ =>
        ((chain.wantOnDisk branch).forgetSide (branch.drop missing),
          .error (.validation .incompleteHistory))
      | .ok _, .error _ => (chain, .error (.validation .incompleteHistory))
      | .ok bodies, .ok oldBodies => chain.switchTo fork depth now bodies oldBodies

/-- The checks of a side block before anything is written. -/
def checkSide (parentHeight now total : Nat) : Except ChainError Unit := do
  chain.checkContext block.header parentHeight now
  require (¬ (total ≤ chain.totalWork ∧
      chain.tooEasyForSide block.header.prevBlock (blockWork block.header.bits) = true))
    (.sideBranchTooEasy block.header.height.toNat)
  block.checkShape.mapError fun problem => .validation (.structure problem)
  require (block.encode.length ≤ maxBlockSize)
    (.validation (.blockTooLarge maxBlockSize block.encode.length))
  (checkWork chain.network block.header).mapError fun problem =>
    .validation (.proofOfWork problem)

/-- The side block enters the index, its emission unknown until it is connected. -/
def indexSide (total : Nat) : Chain :=
  let id := block.header.blockId
  let indexed := { chain with index := chain.index.insert id ⟨block.header, total, 0⟩ }
  (indexed.keepBody id block).keepSideBody id block.encode.length

/-- `Chain::submit`. -/
@[irreducible] def submit : Chain × Except ChainError Accept :=
  let id := block.header.blockId
  if (chain.index.lookup id).isSome then (chain, .ok .alreadyKnown)
  else
    match chain.checkAttachment block.header with
    | .error problem => (chain, .error problem)
    | .ok parentHeight =>
      if block.header.prevBlock = chain.tipId then
        match chain.connect block now with
        | .error problem => (chain, .error (.validation problem))
        | .ok (next, _) => (next, .ok .extended)
      else
        let parentWork :=
          ((chain.index.lookup block.header.prevBlock).map BlockIndex.totalWork).getD 0
        let total := addWork parentWork (blockWork block.header.bits)
        match chain.checkSide block parentHeight now total with
        | .error problem => (chain, .error problem)
        | .ok _ =>
          let indexed := chain.indexSide block total
          if total ≤ indexed.totalWork then (indexed, .ok .sideBranch)
          else
            match indexed.tryReorg id now with
            | (next, .error problem) => (next, .error problem)
            | (next, .ok depth) => (next, .ok (.reorganized depth))

end Submit

end Chain

/-- The value a view gives to a list of inputs. -/
def spentValue (lookup : OutPoint → Option UtxoEntry) (inputs : List TxIn) : Nat :=
  (inputs.map fun input => ((lookup input.prevOut).map UtxoEntry.value).getD 0).sum

section Inputs
variable [Crypto] {tx : Transaction} {view : UtxoView} {network : Network} {height : Nat}

theorem checkInput_ok {totals next : InputTotals} {indexed : TxIn × Nat}
    (checked : checkInput tx view network height totals indexed = .ok next) :
    indexed.1.prevOut ∉ totals.seen ∧ (∃ entry, view.lookup indexed.1.prevOut = some entry ∧
      next.total = totals.total + entry.value) ∧
      next.seen = indexed.1.prevOut :: totals.seen := by
  simp only [checkInput, bind_eq_ok, require_eq_ok, orRefuse_eq_ok, pure_eq_ok] at checked
  obtain ⟨_, unseen, entry, found, _, _, _, _, _, _, _, _, total, added, rfl⟩ := checked
  exact ⟨unseen, ⟨entry, found, (checkedAdd_eq_some.mp added).2⟩, rfl⟩

/-- The inputs checked so far: distinct, new to the block, present, and their value summed. -/
structure InputsChecked (view : UtxoView) (seen : List OutPoint) (inputs : List TxIn)
    (totals : InputTotals) : Prop where
  distinct : (inputs.map TxIn.prevOut).Nodup
  unseen : ∀ input ∈ inputs, input.prevOut ∉ seen
  present : ∀ input ∈ inputs, (view.lookup input.prevOut).isSome = true
  total : totals.total = spentValue view.lookup inputs
  seen : ∀ outpoint, outpoint ∈ totals.seen ↔ outpoint ∈ seen ∨ outpoint ∈ inputs.map TxIn.prevOut

theorem InputsChecked.snoc {seen : List OutPoint} {inputs : List TxIn} {totals next : InputTotals}
    {indexed : TxIn × Nat} (soFar : InputsChecked view seen inputs totals)
    (checked : checkInput tx view network height totals indexed = .ok next) :
    InputsChecked view seen (inputs ++ [indexed.1]) next := by
  obtain ⟨unseen, ⟨entry, found, total⟩, nextSeen⟩ := checkInput_ok checked
  have isNew := (not_congr (soFar.seen indexed.1.prevOut)).mp unseen
  rw [not_or] at isNew
  refine ⟨?_, ?_, ?_, ?_, ?_⟩
  · rw [map_append, nodup_append]
    refine ⟨soFar.distinct, nodup_singleton _, ?_⟩
    intro outpoint earlier last member
    obtain rfl : last = indexed.1.prevOut := by simpa using member
    rintro rfl
    exact isNew.2 earlier
  · intro input member
    rcases mem_append.mp member with earlier | last
    · exact soFar.unseen input earlier
    · obtain rfl : input = indexed.1 := by simpa using last
      exact isNew.1
  · intro input member
    rcases mem_append.mp member with earlier | last
    · exact soFar.present input earlier
    · obtain rfl : input = indexed.1 := by simpa using last
      rw [found]
      rfl
  · rw [total, soFar.total]
    simp [spentValue, found]
  · intro outpoint
    rw [nextSeen, mem_cons, soFar.seen, map_append, mem_append]
    simp only [map_cons, map_nil, mem_singleton]
    tauto

/-- A checked transaction spends distinct outputs of the view and creates no more than it spends. -/
theorem checkTransaction_ok {seen nextSeen : List OutPoint} {fee : Nat}
    (checked : checkTransaction tx view network height seen = .ok (fee, nextSeen)) :
    ∃ totals, InputsChecked view seen tx.inputs totals ∧ nextSeen = totals.seen ∧
      tx.outputValue + fee = spentValue view.lookup tx.inputs ∧ tx.checkShape = .ok () := by
  simp only [checkTransaction, bind_eq_ok, require_eq_ok, mapError_eq_ok, pure_eq_ok,
    Prod.mk.injEq] at checked
  obtain ⟨_, shape, _, _, _, _, _, _, totals, looped, outputs, summed, _, conserved, rfl, rfl⟩ :=
    checked
  have started : InputsChecked view seen [] ⟨seen, 0⟩ :=
    ⟨nodup_nil, by simp, by simp, rfl, by simp⟩
  have finished := foldlM_invariant
    (fun before totals => InputsChecked view seen (before.map Prod.fst) totals)
    (fun before indexed totals next soFar stepped => by
      rw [map_append]
      exact InputsChecked.snoc soFar stepped)
    [] started looped
  rw [nil_append, zipIdx_map_fst] at finished
  refine ⟨totals, finished, rfl, ?_, shape⟩
  rw [← finished.total, ← Transaction.totalOutput_eq summed]
  exact Nat.add_sub_cancel' conserved

theorem checkTransaction_inputs {seen : List OutPoint} {result : Nat × List OutPoint}
    (checked : checkTransaction tx view network height seen = .ok result) :
    ∀ input ∈ tx.inputs, ∃ place before after,
      checkInput tx view network height before (input, place) = .ok after := by
  simp only [checkTransaction, bind_eq_ok] at checked
  obtain ⟨_, _, _, _, _, _, _, _, totals, looped, _⟩ := checked
  intro input member
  have indexed : input ∈ tx.inputs.zipIdx.map Prod.fst := by rwa [zipIdx_map_fst]
  obtain ⟨place, listed, rfl⟩ := mem_map.mp indexed
  exact ⟨place.2, foldlM_each looped place listed⟩

end Inputs

section
variable (lookup : OutPoint → Option UtxoEntry)

/-! ## The set against the view -/

/-- Whatever the view shows is in the set, or was displaced from it. -/
def Covers (actual displaced : FiniteMap OutPoint UtxoEntry)
    (lookup : OutPoint → Option UtxoEntry) : Prop :=
  ∀ outpoint entry, lookup outpoint = some entry →
    actual.lookup outpoint = some entry ∨ displaced.lookup outpoint = some entry

/-- The value of the set and of what was displaced from it. -/
def jointValue (actual displaced : FiniteMap OutPoint UtxoEntry) : Nat :=
  total UtxoEntry.value actual + total UtxoEntry.value displaced

def eraseInputs (map : FiniteMap OutPoint UtxoEntry) (inputs : List TxIn) :
    FiniteMap OutPoint UtxoEntry :=
  inputs.foldl (fun map input => map.erase input.prevOut) map

/-- The view without some outpoints. -/
def without (outpoints : List OutPoint) (query : OutPoint) : Option UtxoEntry :=
  if query ∈ outpoints then none else lookup query

theorem without_cons (outpoint : OutPoint) (rest : List OutPoint) :
    without lookup (outpoint :: rest) = without (without lookup [outpoint]) rest := by
  funext query
  by_cases same : query = outpoint
  · simp [without, same]
  · by_cases inRest : query ∈ rest
    · simp [without, inRest]
    · simp [without, same, inRest]

end

section Cover
variable {actual displaced : FiniteMap OutPoint UtxoEntry} {lookup : OutPoint → Option UtxoEntry}
  {outpoint : OutPoint} {inputs : List TxIn}

section
variable (covers : Covers actual displaced lookup)
include covers

theorem Covers.erase (outpoint : OutPoint) :
    Covers (actual.erase outpoint) (displaced.erase outpoint) (without lookup [outpoint]) := by
  intro query entry found
  unfold without at found
  split at found
  · cases found
  · rename_i outside
    have different : query ≠ outpoint := by simpa using outside
    rw [Finmap.lookup_erase_ne different, Finmap.lookup_erase_ne different]
    exact covers query entry found

/-- One spent outpoint takes its value out of the set or out of what was displaced. -/
theorem Covers.jointValue_erase {entry : UtxoEntry} (found : lookup outpoint = some entry) :
    jointValue (actual.erase outpoint) (displaced.erase outpoint) + entry.value ≤
      jointValue actual displaced := by
  have actualLe := total_erase_le UtxoEntry.value actual outpoint
  have displacedLe := total_erase_le UtxoEntry.value displaced outpoint
  unfold jointValue
  rcases covers outpoint entry found with held | held
  · have exact' := total_erase_add UtxoEntry.value held
    omega
  · have exact' := total_erase_add UtxoEntry.value held
    omega

omit covers in
theorem spentValue_without (outside : outpoint ∉ inputs.map TxIn.prevOut) :
    spentValue (without lookup [outpoint]) inputs = spentValue lookup inputs := by
  unfold spentValue
  congr 1
  refine map_congr_left fun input member => ?_
  have different : input.prevOut ≠ outpoint := by
    rintro rfl
    exact outside (mem_map_of_mem member)
  simp [without, different]

/-- Spending distinct outpoints of the view takes their whole value away. -/
theorem Covers.spend (distinct : (inputs.map TxIn.prevOut).Nodup)
    (present : ∀ input ∈ inputs, (lookup input.prevOut).isSome = true) :
    Covers (eraseInputs actual inputs) (eraseInputs displaced inputs)
        (without lookup (inputs.map TxIn.prevOut)) ∧
      jointValue (eraseInputs actual inputs) (eraseInputs displaced inputs) +
        spentValue lookup inputs ≤ jointValue actual displaced := by
  induction inputs generalizing actual displaced lookup with
  | nil =>
    refine ⟨?_, le_refl _⟩
    intro query entry found
    exact covers query entry (by simpa [without] using found)
  | cons input rest ih =>
    rw [map_cons, nodup_cons] at distinct
    obtain ⟨entry, found⟩ := Option.isSome_iff_exists.mp (present input (.head _))
    have taken := covers.jointValue_erase found
    have remaining : ∀ other ∈ rest,
        (without lookup [input.prevOut] other.prevOut).isSome = true := by
      intro other member
      have different : other.prevOut ≠ input.prevOut := by
        intro same
        exact distinct.1 (same ▸ mem_map_of_mem member)
      simpa [without, different] using present other (.tail _ member)
    obtain ⟨restCovers, restTaken⟩ := ih (covers.erase input.prevOut) distinct.2 remaining
    rw [spentValue_without distinct.1] at restTaken
    constructor
    · intro query shown foundShown
      rw [map_cons, without_cons] at foundShown
      exact restCovers query shown foundShown
    · have split : spentValue lookup (input :: rest) = entry.value + spentValue lookup rest := by
        simp [spentValue, found]
      change jointValue (eraseInputs (actual.erase input.prevOut) rest)
        (eraseInputs (displaced.erase input.prevOut) rest) + _ ≤ _
      omega

/-- What a transaction creates is in the set; the view may show it or not. -/
theorem Covers.create {shown : OutPoint → Option UtxoEntry} (txid : Hash256) (height : Nat)
    (outputs : List TxOut) (visible : ∀ query entry, shown query = some entry → ((UtxoSet.createMap
      ∅ txid height false 0 outputs).lookup query).or (lookup query) = some entry) :
    Covers (UtxoSet.createMap actual txid height false 0 outputs) displaced shown := by
  intro query entry found
  have source := visible query entry found
  rw [UtxoSet.lookup_createMap]
  cases made : (UtxoSet.createMap ∅ txid height false 0 outputs).lookup query with
  | some new =>
    rw [made] at source
    exact .inl source
  | none =>
    rw [made] at source
    exact covers query entry source

/-- An insertion the view does not see displaces at most the entry it replaces. -/
theorem Covers.displace (outpoint : OutPoint) (entry : UtxoEntry) :
    ∃ displaced', Covers (actual.insert outpoint entry) displaced' lookup ∧
      jointValue (actual.insert outpoint entry) displaced' ≤
        jointValue actual displaced + entry.value := by
  have inserted := total_insert_le UtxoEntry.value actual outpoint entry
  have otherwise : ∀ displaced' : FiniteMap OutPoint UtxoEntry,
      (∀ query, query ≠ outpoint → displaced'.lookup query = displaced.lookup query) →
      (∀ old, lookup outpoint = some old → displaced'.lookup outpoint = some old) →
      Covers (actual.insert outpoint entry) displaced' lookup := by
    intro displaced' same here query shown found
    by_cases at' : query = outpoint
    · subst at'
      exact .inr (here shown found)
    · rw [lookup_insert_eq, if_neg at', same query at']
      exact covers query shown found
  cases held : actual.lookup outpoint with
  | none =>
    refine ⟨displaced, otherwise displaced (fun _ _ => rfl) ?_, ?_⟩
    · intro old found
      rcases covers outpoint old found with inActual | inDisplaced
      · rw [held] at inActual
        cases inActual
      · exact inDisplaced
    · unfold jointValue
      omega
  | some old =>
    by_cases shows : lookup outpoint = some old
    · refine ⟨displaced.insert outpoint old, otherwise _ ?_ ?_, ?_⟩
      · intro query different
        rw [lookup_insert_eq, if_neg different]
      · intro other found
        rw [lookup_insert_eq, if_pos rfl, ← shows, found]
      · have lost := total_insert_of_lookup UtxoEntry.value held entry
        have kept := total_insert_le UtxoEntry.value displaced outpoint old
        unfold jointValue
        omega
    · refine ⟨displaced, otherwise displaced (fun _ _ => rfl) ?_, ?_⟩
      · intro other found
        rcases covers outpoint other found with inActual | inDisplaced
        · rw [held] at inActual
          exact absurd (inActual ▸ found) shows
        · exact inDisplaced
      · unfold jointValue
        omega

theorem Covers.displaceAll (txid : Hash256) (height : Nat) (coinbase : Bool) (index : Nat)
    (outputs : List TxOut) :
    ∃ displaced', Covers (UtxoSet.createMap actual txid height coinbase index outputs) displaced'
        lookup ∧
      jointValue (UtxoSet.createMap actual txid height coinbase index outputs) displaced' ≤
        jointValue actual displaced + (outputs.map fun output => output.value.toNat).sum := by
  induction outputs generalizing actual displaced index with
  | nil => exact ⟨displaced, covers, le_refl _⟩
  | cons output rest ih =>
    obtain ⟨middle, middleCovers, middleLe⟩ :=
      covers.displace ⟨txid, UInt32.ofNat index⟩ ⟨output, height, coinbase⟩
    obtain ⟨final, finalCovers, finalLe⟩ := ih middleCovers (index + 1)
    have held : UtxoEntry.value ⟨output, height, coinbase⟩ = output.value.toNat := rfl
    refine ⟨final, finalCovers, ?_⟩
    rw [map_cons, sum_cons]
    rw [UtxoSet.createMap]
    omega

end

end Cover

/-! ## One transaction of a block -/

section Block
variable [Crypto] {utxo : UtxoSet} {tx coinbase : Transaction} {context : BlockContext}
  {totals final : BlockTotals} {displaced : FiniteMap OutPoint UtxoEntry} {rest : List Transaction}
  {block : Block} {fees : Nat}

theorem applyTransaction_map_of_spend (utxo : UtxoSet) (undo : UndoRecord) (height : Nat)
    (spends : tx.isCoinbase = false) :
    (utxo.applyTransaction undo tx height).1.map =
      UtxoSet.createMap (eraseInputs utxo.map tx.inputs) tx.txid height false 0 tx.outputs := by
  simp only [UtxoSet.applyTransaction, spends, Bool.false_eq_true, if_false]
  rw [UtxoSet.createOutputs_map, UtxoSet.spendInputs_map]
  rfl

theorem applyTransaction_map_of_coinbase (utxo : UtxoSet) (undo : UndoRecord) (height : Nat)
    (coinbase : tx.isCoinbase = true) :
    (utxo.applyTransaction undo tx height).1.map =
      UtxoSet.createMap utxo.map tx.txid height true 0 tx.outputs := by
  simp only [UtxoSet.applyTransaction, coinbase, if_true]
  rw [UtxoSet.createOutputs_map]

@[simp] theorem BlockView.apply_confirmed (view : BlockView) (tx : Transaction) (height : Nat) :
    (view.apply tx height).confirmed = view.confirmed := by
  unfold BlockView.apply
  split <;> rfl

theorem BlockView.apply_spent (view : BlockView) (tx : Transaction) (height : Nat) :
    (view.apply tx height).spent = view.spent ∪ (tx.inputs.map TxIn.prevOut).toFinset := by
  unfold BlockView.apply
  split <;> rfl

theorem BlockView.apply_created (view : BlockView) (tx : Transaction) (height : Nat) :
    (view.apply tx height).created =
      UtxoSet.createMap view.created tx.txid height false 0 tx.outputs := by
  unfold BlockView.apply
  split <;> rfl

/-- After a transaction the view shows what it created and what it did not spend. -/
theorem BlockView.lookup_apply {view : BlockView} {height : Nat} {query : OutPoint}
    {entry : UtxoEntry} (found : (view.apply tx height).lookup query = some entry) :
    ((UtxoSet.createMap ∅ tx.txid height false 0 tx.outputs).lookup query).or
      (without view.lookup (tx.inputs.map TxIn.prevOut) query) = some entry := by
  unfold BlockView.lookup at found
  rw [BlockView.apply_spent, BlockView.apply_created, BlockView.apply_confirmed] at found
  split at found
  · cases found
  · rename_i outside
    rw [Finset.mem_union, mem_toFinset, not_or] at outside
    rw [UtxoSet.lookup_createMap, Option.or_assoc] at found
    rwa [without, if_neg outside.2, BlockView.lookup, if_neg outside.1]

/-- What the checks of one more transaction establish about the view before it. -/
theorem checkNext_ok {next : BlockTotals} (checked : checkNext context totals tx = .ok next) :
    ∃ fee inputTotals, InputsChecked totals.view.toView totals.seen tx.inputs inputTotals ∧
      tx.outputValue + fee = spentValue totals.view.lookup tx.inputs ∧
      next = ⟨totals.view.apply tx context.height, inputTotals.seen, totals.fees + fee⟩ ∧
      tx.checkShape = .ok () := by
  simp only [checkNext, bind_eq_ok, orRefuse_eq_ok, pure_eq_ok, Prod.exists] at checked
  obtain ⟨fee, seen, accepted, fees, added, rfl⟩ := checked
  obtain ⟨inputTotals, inputs, rfl, conserved, shape⟩ := checkTransaction_ok accepted
  obtain ⟨_, rfl⟩ := checkedAdd_eq_some.mp added
  exact ⟨fee, inputTotals, inputs, conserved, rfl, shape⟩

/-- One more transaction, on maps: they lose at least its fee. -/
theorem Covers.checked {actual : FiniteMap OutPoint UtxoEntry} {next : BlockTotals}
    (covers : Covers actual displaced totals.view.lookup)
    (checked : checkNext context totals tx = .ok next) :
    Covers (UtxoSet.createMap (eraseInputs actual tx.inputs) tx.txid context.height false 0
        tx.outputs) (eraseInputs displaced tx.inputs) next.view.lookup ∧
      jointValue (UtxoSet.createMap (eraseInputs actual tx.inputs) tx.txid context.height false 0
        tx.outputs) (eraseInputs displaced tx.inputs) + next.fees ≤
        jointValue actual displaced + totals.fees := by
  obtain ⟨fee, inputTotals, inputs, conserved, rfl, _⟩ := checkNext_ok checked
  obtain ⟨spent, taken⟩ := covers.spend inputs.distinct inputs.present
  have created := UtxoSet.total_createMap_le (eraseInputs actual tx.inputs) tx.txid
    context.height false 0 tx.outputs
  constructor
  · exact spent.create tx.txid context.height tx.outputs fun _ _ found =>
      BlockView.lookup_apply found
  · have outputs : (tx.outputs.map fun output => output.value.toNat).sum = tx.outputValue := rfl
    unfold jointValue at taken ⊢
    dsimp only
    omega

/-- One more transaction: the set and the displaced entries lose at least its fee. -/
theorem Covers.next {next : BlockTotals} (undo : UndoRecord)
    (covers : Covers utxo.map displaced totals.view.lookup) (spends : tx.isCoinbase = false)
    (checked : checkNext context totals tx = .ok next) :
    ∃ displaced', Covers (utxo.applyTransaction undo tx context.height).1.map displaced'
        next.view.lookup ∧
      jointValue (utxo.applyTransaction undo tx context.height).1.map displaced' + next.fees ≤
        jointValue utxo.map displaced + totals.fees := by
  rw [applyTransaction_map_of_spend utxo undo context.height spends]
  exact ⟨_, covers.checked checked⟩

omit [Crypto] in
theorem Covers.start (utxo : UtxoSet) :
    Covers utxo.map ∅ (BlockView.lookup { confirmed := utxo }) := by
  intro query entry found
  exact .inl (by simpa [BlockView.lookup, UtxoSet.lookup] using found)

/-- The transactions after the coinbase, one by one. -/
theorem Covers.loop (undo : UndoRecord) (covers : Covers utxo.map displaced totals.view.lookup)
    (spends : ∀ tx ∈ rest, tx.isCoinbase = false)
    (checked : rest.foldlM (checkNext context) totals = .ok final) :
    (utxo.applyTransactions undo context.height rest).1.totalValue + final.fees ≤
      jointValue utxo.map displaced + totals.fees := by
  induction rest generalizing utxo undo displaced totals with
  | nil =>
    obtain rfl : totals = final := by simpa using checked
    simp only [UtxoSet.applyTransactions, UtxoSet.totalValue, jointValue]
    omega
  | cons tx rest ih =>
    rw [foldlM_cons, bind_eq_ok] at checked
    obtain ⟨next, stepped, looped⟩ := checked
    obtain ⟨displaced', nextCovers, lost⟩ :=
      covers.next undo (spends tx (.head _)) stepped
    have rested := ih (utxo.applyTransaction undo tx context.height).2 nextCovers
      (fun other member => spends other (.tail _ member)) looped
    exact rested.trans lost

/-- The view the transaction after `before` is checked against. -/
def viewAfter (utxo : UtxoSet) (height : Nat) (before : List Transaction) : BlockView :=
  before.foldl (fun view tx => view.apply tx height) { confirmed := utxo }

/-- Every transaction but the coinbase creates at most what it spends. -/
theorem outputValue_le_spentValue {before after : List Transaction}
    (checked : (before ++ tx :: after).foldlM (checkNext context) ⟨{ confirmed := utxo }, [], 0⟩ =
      .ok final) :
    tx.outputValue ≤ spentValue (viewAfter utxo context.height before).lookup tx.inputs := by
  rw [foldlM_append, bind_eq_ok] at checked
  obtain ⟨middle, reached, checked⟩ := checked
  rw [foldlM_cons, bind_eq_ok] at checked
  obtain ⟨next, stepped, _⟩ := checked
  have view := foldlM_invariant
    (fun before totals => totals.view = viewAfter utxo context.height before)
    (fun before tx totals next held stepped => by
      obtain ⟨_, _, _, _, rfl, _⟩ := checkNext_ok stepped
      rw [viewAfter, List.foldl_append, ← viewAfter, ← held]
      rfl)
    [] rfl reached
  rw [nil_append] at view
  obtain ⟨fee, _, _, conserved, _⟩ := checkNext_ok stepped
  rw [← view]
  omega

/-- What the transactions leave to the miner, each against the view before it. -/
def feesFrom (height : Nat) : BlockView → List Transaction → Nat
  | _, [] => 0
  | view, tx :: rest =>
    (spentValue view.lookup tx.inputs - tx.outputValue) +
      feesFrom height (view.apply tx height) rest

/-- The loop adds up exactly those fees. -/
theorem fees_eq_feesFrom (checked : rest.foldlM (checkNext context) totals = .ok final) :
    final.fees = totals.fees + feesFrom context.height totals.view rest := by
  induction rest generalizing totals with
  | nil =>
    obtain rfl : totals = final := by simpa using checked
    rfl
  | cons tx rest ih =>
    rw [foldlM_cons, bind_eq_ok] at checked
    obtain ⟨next, stepped, looped⟩ := checked
    have rested := ih looped
    obtain ⟨fee, _, _, conserved, rfl, _⟩ := checkNext_ok stepped
    rw [feesFrom]
    dsimp only at rested
    omega

omit [Crypto] in
/-- With no uncle to pay, the coinbase is one output of at most the subsidy and the fees. -/
theorem checkCoinbase_ok (uncles : block.uncles.length ≤ maxUncles)
    (checked : checkCoinbase block coinbase context fees = .ok ()) :
    coinbase.outputValue ≤ blockSubsidy context.height + fees ∧
      (leBytes 8 context.height).isPrefixOf coinbase.coinbaseData = true := by
  simp only [checkCoinbase, bind_eq_ok, require_eq_ok, orRefuse_eq_ok, mapError_eq_ok] at checked
  obtain ⟨_, _, _, marked, claimed, paid, allowed, added, _, within, _⟩ := checked
  refine ⟨?_, marked⟩
  obtain ⟨_, rfl⟩ := checkedAdd_eq_some.mp added
  have none' : block.uncles = [] := length_eq_zero_iff.mp (Nat.le_zero.mp uncles)
  have share : (uncleRewards context.height block.uncles.length).minerShare ≤
      blockSubsidy context.height := Nat.sub_le _ _
  have single : coinbase.outputValue = claimed := by
    unfold checkPayees at paid
    cases listed : coinbase.outputs with
    | nil => simp [listed] at paid
    | cons minerOutput uncleOutputs =>
      simp only [listed, bind_eq_ok, require_eq_ok, pure_eq_ok, none'] at paid
      obtain ⟨_, alone, _, _, _, _, rfl⟩ := paid
      have noOther : uncleOutputs = [] := length_eq_zero_iff.mp alone
      simp [Transaction.outputValue, listed, noOther]
  omega

/-- A block leaves at most what was there and what its coinbase creates, less the fees. -/
theorem CheckedBlock.conserves [WorkHash]
    (checked : CheckedBlock block utxo context fees coinbase rest) :
    (utxo.applyTransactions {} context.height block.transactions).1.totalValue + fees ≤
      utxo.totalValue + coinbase.outputValue := by
  obtain ⟨totals, looped, rfl⟩ := checked.loop
  have start := Covers.start utxo
  obtain ⟨displaced, covers, paid⟩ := start.displaceAll coinbase.txid context.height true 0
    coinbase.outputs
  rw [← applyTransaction_map_of_coinbase utxo {} context.height checked.isCoinbase] at covers paid
  have left := covers.loop (utxo.applyTransaction {} coinbase context.height).2
    checked.notCoinbase looped
  have before : jointValue utxo.map ∅ = utxo.totalValue := by
    rw [jointValue, total_empty, add_zero, UtxoSet.totalValue]
  have outputs : (coinbase.outputs.map fun output => output.value.toNat).sum =
      coinbase.outputValue := rfl
  rw [checked.transactions, UtxoSet.applyTransactions]
  dsimp only at left ⊢
  omega

end Block

end Q21Formal.Ledger

import Q21Formal.Library.Reach
import Q21Formal.Ledger.Validation

/-!
# The pool of waiting transactions

The entries of the pool with the tables beside them.  Transactions enter after full validation,
making room if they must; they leave alone when a block confirms them, with their descendants
otherwise.  A template takes the best paying ones, parents first.
-/

namespace Q21Formal.Ledger
open Library.Codec Library.Refusal Library.Maps Library.Listing Library.Reach
open Primitives List Option Prod

structure MempoolEntry where
  tx : Transaction
  fee : Nat
  weight : Nat
  size : Nat
  arrival : Nat
  isLocal : Bool
  returned : Bool
  policy : Bool
  name : Bool
deriving DecidableEq

/-- Fee per thousand weight units. -/
def MempoolEntry.feeRate (entry : MempoolEntry) : Nat :=
  saturatingMul entry.fee 1000 / max entry.weight 1

/-- Neither submitted by the node's wallet nor put back by a reorganization. -/
def MempoolEntry.ordinary (entry : MempoolEntry) : Bool := !entry.isLocal && !entry.returned

inductive MempoolError where
  | alreadyPresent
  | spendConflict (outpoint : OutPoint)
  | unconfirmedDependency (outpoint : OutPoint)
  | feeRateTooLow (received minimum : Nat)
  | unmineable (weight size : Nat)
  | fullAndUnderpaid
  | validation (problem : ValidationError)
deriving DecidableEq

/-- Fee rate, then the most recent first, then the id. -/
abbrev EvictionKey := Nat ×ₗ Nat ×ₗ Hash256

structure Mempool where
  entries : FiniteMap Hash256 MempoolEntry := ∅
  committed : FiniteMap OutPoint Hash256 := ∅
  created : FiniteMap OutPoint UtxoEntry := ∅
  children : FiniteMap Hash256 (List Hash256) := ∅
  parents : FiniteMap Hash256 (List Hash256) := ∅
  evictable : Finset EvictionKey := ∅
  localConfirmed : Finset Hash256 := ∅
  bytes : Nat := 0
  counter : Nat := 0
  maxBytes : Nat := 0
  blocksSeen : Nat := 0
  returnedSince : List (Nat × Hash256) := []
  returnedAt : FiniteMap Hash256 Nat := ∅
  pendingNames : FiniteMap Bytes (Bytes × Hash256) := ∅
  pendingOwned : FiniteMap Hash256 Nat := ∅

/-- The orders in which one call iterates over its hash maps. -/
structure MapOrder where
  entries : Iteration Hash256 MempoolEntry
  owners : Iteration Hash256 (List (Nat × Hash256))

namespace Mempool

variable (pool : Mempool) (order : MapOrder) (tx : Transaction) (utxo : UtxoSet) (network : Network)
  (height : Nat)

def mempoolMaxBytes : Nat := 64 * 1024 * 1024
def minFeeRate : Nat := 10
def incrementalFeeRate : Nat := minFeeRate
def packageCandidates : Nat := 256
def packageMax : Nat := 64
def localConfirmedMax : Nat := 4096
def returnedProtectionBlocks : Nat := 6
def maxUsableBlockSize : Nat := maxBlockSize - 64 * 1024
def targetBlockWeight : Nat := 2_000_000
def maxUsableWeight : Nat := targetBlockWeight

def capacity : Nat :=
  if pool.maxBytes = 0 then mempoolMaxBytes else pool.maxBytes

def childrenOf (id : Hash256) : List Hash256 := (pool.children.lookup id).getD []

def parentsOf (id : Hash256) : List Hash256 := (pool.parents.lookup id).getD []

/-- The confirmed outputs as the pool sees them. -/
def view (confirmed : UtxoSet) : UtxoView where
  lookup := fun outpoint =>
    match pool.created.lookup outpoint with
    | some entry => some entry
    | none =>
      if (pool.committed.lookup outpoint).isSome then none else confirmed.lookup outpoint
  nameBySkeleton := fun text =>
    ((pool.pendingNames.lookup text).map fst).or (confirmed.names.nameBySkeleton text)
  namesOwned := fun owner =>
    confirmed.names.owned owner + (pool.pendingOwned.lookup owner).getD 0

def evictionKey (id : Hash256) (entry : MempoolEntry) : EvictionKey :=
  toLex (entry.feeRate, toLex (u64Bound - 1 - entry.arrival, id))

/-- The name a leaving entry held is free again. -/
def releaseName (names : FiniteMap Bytes (Bytes × Hash256)) (id : Hash256)
    (registered : Registration) : FiniteMap Bytes (Bytes × Hash256) :=
  if (names.lookup (skeleton registered.name)).any fun holder => holder.2 == id then
    names.erase (skeleton registered.name)
  else names

def releaseSpends (id : Hash256) (inputs : List TxIn) (committed : FiniteMap OutPoint Hash256) :
    FiniteMap OutPoint Hash256 :=
  inputs.foldl (fun committed input =>
    if committed.lookup input.prevOut = some id then committed.erase input.prevOut
    else committed) committed

def releaseOutputs (id : Hash256) (count : Nat) (created : FiniteMap OutPoint UtxoEntry) :
    FiniteMap OutPoint UtxoEntry :=
  (range count).foldl (fun created index => created.erase ⟨id, UInt32.ofNat index⟩) created

/-- The two tables a leaving entry's parents are in. -/
structure ParentTables where
  children : FiniteMap Hash256 (List Hash256)
  evictable : Finset EvictionKey

/-- A parent loses the child; left without any, it becomes a leaf again. -/
def unlinkParent (entries : FiniteMap Hash256 MempoolEntry) (child : Hash256)
    (tables : ParentTables) (parent : Hash256) : ParentTables :=
  match tables.children.lookup parent with
  | none => tables
  | some siblings =>
    let siblings := siblings.filter fun sibling => sibling != child
    { children := tables.children.insert parent siblings
      evictable :=
        match entries.lookup parent with
        | none => tables.evictable
        | some entry =>
          if siblings.isEmpty && entry.ordinary then
            insert (evictionKey parent entry) tables.evictable
          else tables.evictable }

/-- `remove_one`: a single transaction, without its descendants. -/
def removeOne (id : Hash256) : Mempool :=
  match pool.entries.lookup id with
  | none => pool
  | some entry =>
    let entries := pool.entries.erase id
    let pool :=
      match entry.name, registration entry.tx with
      | true, .ok (some registered) =>
        { pool with
          pendingNames := releaseName pool.pendingNames id registered
          pendingOwned := NameIndex.releaseOwner pool.pendingOwned registered.owner }
      | _, _ => pool
    let tables := (pool.parentsOf id).foldl (unlinkParent entries id)
      ⟨pool.children, pool.evictable.erase (evictionKey id entry)⟩
    { pool with
      entries
      bytes := pool.bytes - entry.size
      committed := releaseSpends id entry.tx.inputs pool.committed
      created := releaseOutputs id entry.tx.outputs.length pool.created
      parents := pool.parents.erase id
      children := tables.children.erase id
      evictable := tables.evictable }

/-- The entry and its descendants, in the order they are met. -/
def descendants (id : Hash256) : List Hash256 :=
  sweep pool.children.keys pool.childrenOf id

/-- `remove`: a transaction and all its descendants, the last met first. -/
def remove (id : Hash256) : Mempool :=
  (pool.descendants id).reverse.foldl removeOne pool

def removeAll (ids : List Hash256) : Mempool := ids.foldl remove pool

/-- A confirmed transaction leaves alone; one of the node's own is remembered. -/
def confirmOne (id : Hash256) : Mempool :=
  let own := (pool.entries.lookup id).any MempoolEntry.isLocal
  let pool := pool.removeOne id
  if own then
    { pool with
      localConfirmed :=
        if localConfirmedMax ≤ pool.localConfirmed.card then {id}
        else insert id pool.localConfirmed }
  else pool

def entrySize (id : Hash256) : Nat :=
  ((pool.entries.lookup id).map MempoolEntry.size).getD 0

/-- The cheapest leaves first, until `need` bytes are freed or the rest pays too much. -/
def freeLeaves (pool : Mempool) (rate need : Nat) (shielded : Finset Hash256) (priority : Bool) :
    List EvictionKey → Nat → List Hash256 → Nat × List Hash256
  | [], freed, out => (freed, out)
  | key :: rest, freed, out =>
    let id := (ofLex (ofLex key).2).2
    if need ≤ freed then (freed, out)
    else if !priority && rate < saturatingAdd (ofLex key).1 incrementalFeeRate then (freed, out)
    else if id ∈ shielded then freeLeaves pool rate need shielded priority rest freed out
    else
      freeLeaves pool rate need shielded priority rest (freed + pool.entrySize id) (out ++ [id])

/-- The walk of `descendant_package`; a package is never longer than `packageMax`. -/
def packageFrom (pool : Mempool) : Nat → Nat → List Hash256 → Option (List Hash256)
  | 0, _, members => some members
  | fuel + 1, index, members =>
    match members[index]? with
    | none => some members
    | some id =>
      if (pool.entries.lookup id).any fun entry => !entry.ordinary then none
      else
        let members := pushFresh members (pool.childrenOf id)
        if packageMax < members.length then none
        else packageFrom pool fuel (index + 1) members

def descendantPackage (root : Hash256) : Option (List Hash256) :=
  packageFrom pool (packageMax + 1) 0 [root]

/-- A transaction with all its descendants, and the fee rate of the whole. -/
structure Package where
  rate : Nat
  root : Hash256
  members : List Hash256

/-- An entry whose package may be pushed out. -/
def packageRoot (rate : Nat) (shielded : Finset Hash256) (priority : Bool)
    (listed : Hash256 × MempoolEntry) : Bool :=
  listed.2.ordinary && decide (listed.1 ∉ shielded) && !(pool.childrenOf listed.1).isEmpty &&
    (priority || decide (saturatingAdd listed.2.feeRate incrementalFeeRate ≤ rate))

def packageOf (rate : Nat) (priority : Bool) (root : Hash256) : Option Package := do
  let members ← pool.descendantPackage root
  let (fee, weight) := members.foldl (fun totals member =>
    match pool.entries.lookup member with
    | none => totals
    | some entry => (saturatingAdd totals.1 entry.fee, saturatingAdd totals.2 entry.weight)) (0, 0)
  let packageRate := saturatingMul fee 1000 / max weight 1
  if priority || decide (saturatingAdd packageRate incrementalFeeRate ≤ rate) then
    some ⟨packageRate, root, members⟩
  else none

/-- Whole packages, until `need` bytes are freed. -/
def takePackages (pool : Mempool) (need : Nat) :
    List Package → Nat → Finset Hash256 → List Hash256 → Nat × List Hash256
  | [], freed, _, out => (freed, out)
  | package :: rest, freed, taken, out =>
    if need ≤ freed then (freed, out)
    else
      let added := package.members.filter fun member => decide (member ∉ taken)
      takePackages pool need rest (freed + (added.map pool.entrySize).sum)
        (taken ∪ package.members.toFinset)
        (if added.isEmpty then out else out ++ [package.root])

/-- `room_for`: what to push out so that `size` more bytes fit. -/
def roomFor (rate size : Nat) (shielded : Finset Hash256) (priority : Bool) :
    Option (List Hash256) :=
  let need := pool.bytes + size - pool.capacity
  let (freed, out) := pool.freeLeaves rate need shielded priority (listing pool.evictable) 0 []
  if need ≤ freed then some out
  else
    let candidates :=
      ((((order.entries.list pool.entries).filter (pool.packageRoot rate shielded priority)).map
        fun listed => evictionKey listed.1 listed.2).insertionSort (· ≤ ·)).take packageCandidates
    let packages := (candidates.filterMap fun key =>
        pool.packageOf rate priority (ofLex (ofLex key).2).2).insertionSort
      fun first second => toLex (first.rate, first.root) ≤ toLex (second.rate, second.root)
    let (freed, out) := pool.takePackages need packages freed out.toFinset out
    if need ≤ freed then some out else none

/-- `make_room`. -/
def makeRoom (rate size : Nat) (shielded : Finset Hash256) (priority : Bool) : Bool × Mempool :=
  match pool.roomFor order rate size shielded priority with
  | none => (false, pool)
  | some ids =>
    let pool := pool.removeAll ids
    (decide (pool.bytes + size ≤ pool.capacity), pool)

/-! ## Entering the pool -/

section Entering
variable [Crypto]

section
variable (spent : UtxoEntry) (witness : Witness) (txid : Hash256) (parents : List Hash256)

/-- `policy::relative_lock`. -/
def relativeLock (spent : TxOut) (witness : Witness) : Nat :=
  if spent.scheme ≠ .policy then 0
  else
    match readSpend spent witness with
    | .ok (_, path) => path.minAge
    | .error _ => 0

/-- `policy::available_at`. -/
def availableAt (spent : UtxoEntry) (witness : Witness) : Nat :=
  if spent.output.scheme ≠ .policy then 0
  else
    match readSpend spent.output witness with
    | .ok (_, path) => path.availableAt spent.height
    | .error _ => 0

def unconfirmedLockFree : Bool :=
  relativeLock spent.output witness == 0

def policyLocksMet (height : Nat) : Bool :=
  decide (availableAt spent witness ≤ height + 1)

/-- Refuses a spend, under a relative time lock, of an output still in the pool. -/
def unconfirmedRelativeLock (created : FiniteMap OutPoint UtxoEntry) (height : Nat) :
    Except MempoolError Unit :=
  tx.inputs.forM fun input =>
    match created.lookup input.prevOut with
    | none => pure ()
    | some spent =>
      require (unconfirmedLockFree spent input.witness = true)
        (.validation (.policy (.tooEarly (u64Bound - 1) (height + 1))))

/-- What the inputs leave beyond the outputs, read without verifying a signature. -/
def apparentFees (view : UtxoView) : Except MempoolError Nat := do
  let inputs ← tx.inputs.foldlM (fun total input => do
    let spent ← orRefuse (view.lookup input.prevOut) (.unconfirmedDependency input.prevOut)
    orRefuse (checkedAdd total spent.value) (.unconfirmedDependency input.prevOut)) 0
  let outputs ← tx.totalOutput.mapError fun _ => .feeRateTooLow 0 minFeeRate
  pure (inputs - outputs)

/-- One input of a newcomer: not spent by another, and made by the pool or confirmed. -/
def inputParent (input : TxIn) : Except MempoolError (List Hash256) := do
  require ((pool.committed.lookup input.prevOut).all (· == txid) = true)
    (.spendConflict input.prevOut)
  if (pool.created.lookup input.prevOut).isSome then pure (parents ++ [input.prevOut.txid])
  else do
    require ((utxo.lookup input.prevOut).isSome = true) (.unconfirmedDependency input.prevOut)
    pure parents

/-- The newcomer's ancestors in the pool. -/
def ancestors : Finset Hash256 :=
  mark pool.entries.keys pool.parentsOf parents

/-- What the pool knows of a transaction it may admit, before anything changes. -/
structure Admission where
  parents : List Hash256
  shielded : Finset Hash256
  registered : Option Registration
  entry : MempoolEntry

def touchesPolicy (view : UtxoView) : Bool :=
  (tx.outputs.any fun output => output.scheme == .policy) || tx.inputs.any fun input =>
      (view.lookup input.prevOut).any fun spent => spent.output.scheme == .policy

/-- The registration a transaction carries, when it is well formed. -/
def registrationOf : Option Registration :=
  match registration tx with
  | .ok registered => registered
  | .error _ => none

/-- The checks of `accept_with`, up to the last one before room is made. -/
def examine (isLocal returned : Bool) : Except MempoolError Admission := do
  require (pool.entries.lookup tx.txid = none) .alreadyPresent
  let parents ← tx.inputs.foldlM (pool.inputParent utxo tx.txid) []
  let shielded := pool.ancestors parents
  let weight := tx.weight witnessDiscount
  let size := tx.encode.length
  require (size ≤ maxUsableBlockSize ∧ weight ≤ maxUsableWeight) (.unmineable weight size)
  let view := pool.view utxo
  let announcedFees ← apparentFees tx view
  let announcedRate := saturatingMul announcedFees 1000 / max weight 1
  require (minFeeRate ≤ announcedRate) (.feeRateTooLow announcedRate minFeeRate)
  require (pool.bytes + size ≤ pool.capacity ∨
    (pool.roomFor order announcedRate size shielded returned).isSome = true) .fullAndUnderpaid
  unconfirmedRelativeLock tx pool.created height
  let (fee, _) ← (checkTransaction tx view network (height + 1) []).mapError .validation
  let registered := registrationOf tx
  let entry : MempoolEntry :=
    { tx, fee, weight, size, arrival := pool.counter, isLocal, returned
      policy := touchesPolicy tx view
      name := registered.isSome }
  require (minFeeRate ≤ entry.feeRate) (.feeRateTooLow entry.feeRate minFeeRate)
  pure ⟨parents, shielded, registered, entry⟩

/-- Sorted, without repetition. -/
def sortedUnique (ids : List Hash256) : List Hash256 := listing ids.toFinset

/-- A parent gains the child and is no longer a leaf. -/
def linkParent (entries : FiniteMap Hash256 MempoolEntry) (child : Hash256)
    (tables : ParentTables) (parent : Hash256) : ParentTables where
  children := tables.children.insert parent ((tables.children.lookup parent).getD [] ++ [child])
  evictable :=
    match entries.lookup parent with
    | none => tables.evictable
    | some entry => tables.evictable.erase (evictionKey parent entry)

/-- The entries already waiting for an output of the newcomer. -/
def adopted (committed : FiniteMap OutPoint Hash256) (outputs : Nat) : List Hash256 :=
  sortedUnique (((range outputs).filterMap fun index =>
    committed.lookup ⟨txid, UInt32.ofNat index⟩).filter fun child =>
      child != txid && (pool.entries.lookup child).isSome)

def adoptChild (parents : FiniteMap Hash256 (List Hash256)) (child : Hash256) :
    FiniteMap Hash256 (List Hash256) :=
  let known := (parents.lookup child).getD []
  parents.insert child (if txid ∈ known then known else known ++ [txid])

/-- The end of `accept_with`: the newcomer takes its place in every table. -/
def enter (admission : Admission) (height : Nat) : Mempool :=
  let entry := admission.entry
  let txid := entry.tx.txid
  let parents := sortedUnique admission.parents
  let committed := entry.tx.inputs.foldl (fun committed input =>
    committed.insert input.prevOut txid) pool.committed
  let tables := parents.foldl (linkParent pool.entries txid) ⟨pool.children, pool.evictable⟩
  let children := pool.adopted txid committed entry.tx.outputs.length
  { pool with
    counter := pool.counter + 1
    bytes := pool.bytes + entry.size
    pendingOwned :=
      match admission.registered with
      | none => pool.pendingOwned
      | some registered =>
        pool.pendingOwned.insert registered.owner
          ((pool.pendingOwned.lookup registered.owner).getD 0 + 1)
    pendingNames :=
      match admission.registered with
      | none => pool.pendingNames
      | some registered =>
        pool.pendingNames.insert (skeleton registered.name) (registered.name, txid)
    committed
    created := UtxoSet.createMap pool.created txid (height + 1) false 0 entry.tx.outputs
    parents := children.foldl (adoptChild txid) (pool.parents.insert txid parents)
    evictable :=
      if entry.ordinary && children.isEmpty then insert (evictionKey txid entry) tables.evictable
      else tables.evictable
    children :=
      if children.isEmpty then tables.children
      else tables.children.insert txid ((tables.children.lookup txid).getD [] ++ children)
    entries := pool.entries.insert txid entry
    returnedSince :=
      if entry.returned then pool.returnedSince ++ [(pool.blocksSeen, txid)]
      else pool.returnedSince
    returnedAt :=
      if entry.returned then pool.returnedAt.insert txid pool.blocksSeen else pool.returnedAt }

/-- `accept_with`. -/
def acceptWith (isLocal returned : Bool) : Except MempoolError Hash256 × Mempool :=
  match pool.examine order tx utxo network height isLocal returned with
  | .error problem => (.error problem, pool)
  | .ok admission =>
    if pool.bytes + admission.entry.size ≤ pool.capacity then
      (.ok tx.txid, pool.enter admission height)
    else
      let (roomy, pool) := pool.makeRoom order admission.entry.feeRate admission.entry.size
        admission.shielded returned
      if roomy then (.ok tx.txid, pool.enter admission height)
      else (.error .fullAndUnderpaid, pool)

def accept : Except MempoolError Hash256 × Mempool :=
  pool.acceptWith order tx utxo network height false false

def acceptLocal : Except MempoolError Hash256 × Mempool :=
  pool.acceptWith order tx utxo network height true false

/-- One transaction of an abandoned block, with how many came back so far. -/
def returnOne (state : Nat × Mempool) (tx : Transaction) : Nat × Mempool :=
  let pool := state.2
  let own := decide (tx.txid ∈ pool.localConfirmed)
  let pool := { pool with localConfirmed := pool.localConfirmed.erase tx.txid }
  match pool.acceptWith order tx utxo network height own true with
  | (.ok _, pool) => (state.1 + 1, pool)
  | (.error _, pool) => (state.1, pool)

/-- `return_abandoned`: every transaction of the blocks but their coinbases. -/
def returnAbandoned (blocks : List Block) (utxo : UtxoSet) (network : Network) (height : Nat) :
    Nat × Mempool :=
  blocks.foldl (fun state block =>
    (block.transactions.drop 1).foldl (returnOne order utxo network height) state) (0, pool)

end

end Entering

/-- A returned entry whose protection has run out becomes an ordinary one. -/
def endProtection (since : Nat) (id : Hash256) : Mempool :=
  if pool.returnedAt.lookup id = some since then
    let pool := { pool with returnedAt := pool.returnedAt.erase id }
    match pool.entries.lookup id with
    | none => pool
    | some entry =>
      if entry.returned then
        let entry := { entry with returned := false }
        { pool with
          entries := pool.entries.insert id entry
          evictable :=
            if !entry.isLocal && (pool.childrenOf id).isEmpty then
              insert (evictionKey id entry) pool.evictable
            else pool.evictable }
      else pool
  else pool

/-- `end_expired_protection`, over the records of returned entries, oldest first. -/
def endExpiredProtection (pool : Mempool) : List (Nat × Hash256) → Mempool
  | [] => { pool with returnedSince := [] }
  | (since, id) :: rest =>
    if pool.blocksSeen - since < returnedProtectionBlocks then
      { pool with returnedSince := (since, id) :: rest }
    else endExpiredProtection (pool.endProtection since id) rest

section Blocks
variable [Crypto]

/-- An entry that spends what a block spends leaves with its descendants. -/
def dropConflict (input : TxIn) : Mempool :=
  match pool.committed.lookup input.prevOut with
  | none => pool
  | some conflict => pool.remove conflict

def onBlockConnected (block : Block) : Mempool :=
  let pool := block.transactions.foldl (fun pool tx =>
    tx.inputs.foldl dropConflict (pool.confirmOne tx.txid)) pool
  let pool := { pool with blocksSeen := pool.blocksSeen + 1 }
  pool.endExpiredProtection pool.returnedSince

/-- The entries recognized as confirmed: an output of theirs is in the set. -/
def confirmedIds : List Hash256 :=
  ((order.entries.list pool.entries).filter fun listed =>
    (range listed.2.tx.outputs.length).any fun index =>
      (utxo.lookup ⟨listed.1, UInt32.ofNat index⟩).isSome).map fst

/-- The entries a condition selects, removed with their descendants. -/
def removeWhere (condition : MempoolEntry → Bool) : Mempool :=
  pool.removeAll (((order.entries.list pool.entries).filter fun listed =>
    condition listed.2).map fst)

/-- The registrations that meet a taken name, and the others by owner. -/
structure Registrations where
  byOwner : FiniteMap Hash256 (List (Nat × Hash256)) := ∅
  clashing : List Hash256 := []

def sortRegistration (sorted : Registrations) (listed : Hash256 × MempoolEntry) : Registrations :=
  if listed.2.name then
    match registration listed.2.tx with
    | .ok (some registered) =>
      if (utxo.names.nameBySkeleton (skeleton registered.name)).isSome then
        { sorted with clashing := sorted.clashing ++ [listed.1] }
      else
        { sorted with
          byOwner := sorted.byOwner.insert registered.owner
            ((sorted.byOwner.lookup registered.owner).getD [] ++ [(listed.2.arrival, listed.1)]) }
    | _ => { sorted with clashing := sorted.clashing ++ [listed.1] }
  else sorted

/-- The pending registrations of one owner beyond the names it may still register. -/
def beyondQuota (owner : Hash256) (pending : List (Nat × Hash256)) : List Hash256 :=
  (((pending.map toLex).insertionSort (· ≤ ·)).drop
    (maxNamesPerOwner - utxo.names.owned owner)).map fun waiting => (ofLex waiting).2

def clashingIds : List Hash256 :=
  let sorted := (order.entries.list pool.entries).foldl (sortRegistration utxo) {}
  sorted.clashing ++ (order.owners.list sorted.byOwner).flatMap fun pending =>
    beyondQuota utxo pending.1 pending.2

/-- An input that the next block may spend: confirmed and ripe, or made by the pool. -/
def available (input : TxIn) : Bool :=
  match utxo.lookup input.prevOut with
  | some spent =>
    (!spent.isCoinbase || decide (spent.height + coinbaseMaturity ≤ height + 1)) &&
      policyLocksMet spent input.witness height
  | none =>
    (pool.created.lookup input.prevOut).any fun spent =>
      unconfirmedLockFree spent input.witness && policyLocksMet spent input.witness height

def orphanIds : List Hash256 :=
  ((order.entries.list pool.entries).filter fun listed =>
    !listed.2.tx.inputs.all (pool.available utxo height)).map fst

/-- The loop of `revalidate`: each round but the last removes an entry. -/
def dropOrphans (order : MapOrder) (utxo : UtxoSet) (height : Nat) : Nat → Mempool → Mempool
  | 0, pool => pool
  | fuel + 1, pool =>
    match pool.orphanIds order utxo height with
    | [] => pool
    | id :: rest => dropOrphans order utxo height fuel (pool.removeAll (id :: rest))

def revalidate : Mempool :=
  let pool := (pool.confirmedIds order utxo).foldl confirmOne pool
  let pool :=
    if policyActivation network ≤ height + 1 then pool
    else pool.removeWhere order MempoolEntry.policy
  let pool :=
    if nameActivation network ≤ height + 1 then pool
    else pool.removeWhere order MempoolEntry.name
  let pool := pool.removeAll (pool.clashingIds order utxo)
  dropOrphans order utxo height pool.entries.keys.card pool

end Blocks

/-! ## Block templates -/

/-- What the selection carries. -/
structure Selection where
  chosen : List MempoolEntry := []
  selected : Finset Hash256 := ∅
  weight : Nat := 0
  waiting : FiniteMap Hash256 (List (Hash256 × MempoolEntry)) := ∅

section
variable (selection : Selection) (parent : Hash256) (listed : Hash256 × MempoolEntry)

/-- Best rate first, then the oldest, then the id. -/
def blockRank : Natᵒᵈ ×ₗ Nat ×ₗ Hash256 :=
  toLex (OrderDual.toDual listed.2.feeRate, toLex (listed.2.arrival, listed.1))

/-- An entry of the pool it needs and that is not chosen yet. -/
def missingParent (selected : Finset Hash256) (id : Hash256) : Option Hash256 :=
  (pool.parentsOf id).find? fun parent =>
    decide (parent ∉ selected) && (pool.entries.lookup parent).isSome

def Selection.wait : Selection :=
  { selection with
    waiting := selection.waiting.insert parent
      ((selection.waiting.lookup parent).getD [] ++ [listed]) }

def Selection.choose : Selection where
  chosen := selection.chosen ++ [listed.2]
  selected := insert listed.1 selection.selected
  weight := selection.weight + listed.2.weight
  waiting := selection.waiting.erase listed.1

theorem Selection.total_wait :
    total List.length (selection.wait parent listed).waiting =
      total List.length selection.waiting + 1 := by
  cases found : selection.waiting.lookup parent with
  | none =>
    have fresh := total_insert_of_notMem List.length (Finmap.lookup_eq_none.mp found) [listed]
    simp only [Selection.wait, found, getD_none, nil_append, fresh, length_singleton]
    omega
  | some known =>
    have moved := total_insert_of_lookup List.length found (known ++ [listed])
    simp only [Selection.wait, found, getD_some]
    rw [length_append, length_singleton] at moved
    omega

theorem Selection.total_choose :
    total List.length (selection.choose listed).waiting +
      ((selection.waiting.lookup listed.1).getD []).length =
        total List.length selection.waiting := by
  cases found : selection.waiting.lookup listed.1 with
  | none =>
    simp only [Selection.choose, getD_none, length_nil, add_zero, erase_of_lookup_none found]
  | some known => exact total_erase_add List.length found

/-- The stack of one start: chosen once its parents are, or left waiting for one of them. -/
def settle (pool : Mempool) (maxWeight : Nat) (stack : List (Hash256 × MempoolEntry))
    (selection : Selection) : Selection :=
  match stack with
  | [] => selection
  | listed :: stack =>
    if listed.1 ∈ selection.selected ∨ maxWeight < selection.weight + listed.2.weight then
      settle pool maxWeight stack selection
    else
      match pool.missingParent selection.selected listed.1 with
      | some parent => settle pool maxWeight stack (selection.wait parent listed)
      | none =>
        settle pool maxWeight ((selection.waiting.lookup listed.1).getD [] ++ stack)
          (selection.choose listed)
termination_by (stack.length + total List.length selection.waiting, stack.length)
decreasing_by
  · exact Lex.left _ _ (by simp only [length_cons]; omega)
  · have moved := selection.total_wait parent listed
    exact Lex.right' _ (by simp only [length_cons]; omega) (by simp)
  · have moved := selection.total_choose listed
    exact Lex.left _ _ (by simp only [length_cons, length_append]; omega)

def blockOrder (maxWeight : Nat) : List MempoolEntry :=
  let starts := (order.entries.list pool.entries).insertionSort
    fun first second => blockRank first ≤ blockRank second
  (starts.foldl (fun selection start => settle pool maxWeight [start] selection) {}).chosen

end

section Templates
variable [Crypto]

/-- What the last filter carries: the ids dropped and the transactions kept. -/
structure Ripening where
  dropped : Finset Hash256 := ∅
  kept : List Transaction := []

def ripen (created : FiniteMap OutPoint UtxoEntry) (state : Ripening) (entry : MempoolEntry) :
    Ripening :=
  let unripe := entry.tx.inputs.any fun input =>
    decide (input.prevOut.txid ∈ state.dropped) ||
      (created.lookup input.prevOut).any fun spent => !unconfirmedLockFree spent input.witness
  if unripe then { state with dropped := insert entry.tx.txid state.dropped }
  else { state with kept := state.kept ++ [entry.tx] }

def withoutUnripePolicySpends (chosen : List MempoolEntry)
    (created : FiniteMap OutPoint UtxoEntry) : List Transaction :=
  (chosen.foldl (ripen created) {}).kept

def selectForBlock (maxWeight : Nat) : List Transaction :=
  withoutUnripePolicySpends (pool.blockOrder order maxWeight) pool.created

end Templates

end Mempool

end Q21Formal.Ledger

import Q21Formal.Ledger.Validation

/-!
# The wallet

The keys of a wallet by their index, the coins it chooses, and the life of an index, which in a
one-time wallet is free, reserved or consumed.  Labels, contacts and the other data the holder keeps
are left out.  `new_address` stops when an index runs past 32 bits; the look-ahead, which the code
ends there, has no such bound here.
-/

namespace Q21Formal.Spending
open Library.Codec Library.Refusal Library.Maps Library.Listing Primitives Ledger List

def targetBlockWeight : Nat := 2_000_000
def maxUsableWeight : Nat := targetBlockWeight
def reservationTimeout : Nat := 20
def oneTimeLookahead : Nat := 1_000
def fewInputs : Nat := 2

/-- Key derivation and signing; an ML-DSA signature needs randomness, which may be missing. -/
class KeyRing where
  publicKey : SchemeId → Hash256 → Nat → Bytes
  sign : SchemeId → Hash256 → Nat → Hash256 → Bytes
  hedgedSign : SchemeId → Hash256 → Nat → Hash256 → Option Bytes

inductive WalletError where
  | insufficientFunds (available requested : Nat)
  | keyAlreadyUsed (index : Nat)
  | zeroAmount
  | unsupportedScheme (scheme : SchemeId)
  | randomnessUnavailable
  | lockMismatch (index : Nat)
  | amountOutOfRange
  | amountBelowFloor (minimum received : Nat)
  | coinsGone
  | tooManyCoins (maxInputs : Nat)
  | nothingToConsolidate
deriving DecidableEq, Repr

structure Address where
  network : Network
  scheme : SchemeId
  hash : Hash256
deriving DecidableEq

/-- A coin chosen for a spend, with the index of its key. -/
structure Coin where
  outpoint : OutPoint
  output : TxOut
  index : Nat
deriving DecidableEq

def Coin.value (coin : Coin) : Nat := coin.output.value.toNat

structure Wallet where
  seed : Hash256
  network : Network
  scheme : SchemeId
  nextIndex : Nat := 0
  /-- The index of each key hash derived so far. -/
  known : FiniteMap Hash256 Nat := ∅
  consumed : List Nat := []
  lookahead : FiniteMap Hash256 Nat := ∅
  lookaheadTo : Nat := 0
  /-- Indices held for a spend in progress, with the height of the reservation. -/
  reserved : FiniteMap Nat Nat := ∅
  verifiedUpTo : Nat := 0
  locked : Finset OutPoint := ∅

/-- A spend whose coins are chosen and whose keys are checked, not signed yet. -/
structure PreparedSpend where
  chosen : List Coin
  keys : List Bytes
  tx : Transaction

def PreparedSpend.indices (spend : PreparedSpend) : List Nat := spend.chosen.map Coin.index

namespace Wallet

/-- An index no new spend may take. -/
def taken (wallet : Wallet) (index : Nat) : Bool :=
  decide (index ∈ wallet.consumed) || (wallet.reserved.lookup index).isSome

section Keys
variable [Crypto] [KeyRing] (wallet : Wallet) (index : Nat) (hash : Hash256) (height : Nat)
  (readBlock : Nat → Option Block) (utxo : UtxoSet) (avoid : OutPoint → Bool)
  (chosen : List Coin) (outputs : List TxOut) (fee : UInt64) (spend : PreparedSpend)

def publicKey (wallet : Wallet) (index : Nat) : Bytes :=
  KeyRing.publicKey wallet.scheme wallet.seed index

/-- The key hash of an index. -/
def keyHash : Hash256 :=
  pubkeyHash wallet.scheme (wallet.publicKey index)

def signAt (message : Hash256) : Except WalletError Bytes :=
  match wallet.scheme with
  | .lamportOts => .ok (KeyRing.sign wallet.scheme wallet.seed index message)
  | .mlDsa65 =>
    orRefuse (KeyRing.hedgedSign wallet.scheme wallet.seed index message) .randomnessUnavailable
  | .mlDsa87 =>
    orRefuse (KeyRing.hedgedSign wallet.scheme wallet.seed index message) .randomnessUnavailable
  | other => .error (.unsupportedScheme other)

/-- The first index from `next` on that is not consumed; each turn passes another consumed one. -/
def skipConsumed (consumed : List Nat) : Nat → Nat → Nat
  | 0, next => next
  | turns + 1, next =>
    if next ∈ consumed then skipConsumed consumed turns (next + 1) else next

def newAddress : Wallet × Address :=
  let index :=
    if wallet.scheme.isOneTime then
      skipConsumed wallet.consumed wallet.consumed.length wallet.nextIndex
    else wallet.nextIndex
  let hash := wallet.keyHash index
  ({ wallet with nextIndex := index + 1, known := wallet.known.insert hash index },
    ⟨wallet.network, wallet.scheme, hash⟩)

def rewindAddresses (start : Nat) : Wallet :=
  if wallet.nextIndex ≤ start then wallet
  else
    { wallet with
      known := select (fun _ index => decide (index < start)) wallet.known
      nextIndex := start
      lookahead := ∅
      lookaheadTo := 0 }

/-- The hashes of the indices from `start`, `count` of them. -/
def derive (start count : Nat) (known : FiniteMap Hash256 Nat) : FiniteMap Hash256 Nat :=
  (List.range' start count).foldl (fun known index => known.insert (wallet.keyHash index) index) known

def rescan (upTo : Nat) : Wallet :=
  { wallet with
    known := wallet.derive 0 upTo wallet.known
    nextIndex := max wallet.nextIndex upTo }

def refreshLookahead : Wallet :=
  if wallet.scheme.isOneTime then
    let next := wallet.nextIndex
    let kept := select (fun _ index => decide (next ≤ index)) wallet.lookahead
    let stop := next + oneTimeLookahead
    let start := max wallet.lookaheadTo next
    { wallet with
      lookahead := wallet.derive start (stop - start) kept
      lookaheadTo := max wallet.lookaheadTo stop }
  else wallet

/-- Every look-ahead index up to `ahead` counts as derived. -/
def adoptLookaheadUpTo (ahead : Nat) : Wallet :=
  let found := select (fun _ index => decide (index ≤ ahead)) wallet.lookahead
  refreshLookahead { wallet with
      known := found ∪ wallet.known
      nextIndex := max wallet.nextIndex (ahead + 1) }

/-- A hash the wallet does not know is looked for ahead; the window is derived at the first one. -/
def lookAhead (refreshed : Bool) (hash : Hash256) : Wallet × Bool :=
  match wallet.known.lookup hash with
  | some _ => (wallet, refreshed)
  | none =>
    let wallet := if refreshed then wallet else wallet.refreshLookahead
    match wallet.lookahead.lookup hash with
    | none => (wallet, true)
    | some ahead => (wallet.adoptLookaheadUpTo ahead, true)

/-- A signature in a block: the key is no longer reserved, it is revealed. -/
def reveal : Wallet :=
  match wallet.known.lookup hash with
  | none => wallet
  | some index =>
    { wallet with
      reserved := wallet.reserved.erase index
      consumed :=
        if index ∈ wallet.consumed then wallet.consumed else wallet.consumed ++ [index] }

def recordInput (state : Wallet × Bool) (input : TxIn) : Wallet × Bool :=
  if input.witness.pubkey = [] then state
  else
    let hash := pubkeyHash state.1.scheme input.witness.pubkey
    let (wallet, refreshed) :=
      if state.1.scheme.isOneTime then state.1.lookAhead state.2 hash else state
    (wallet.reveal hash, refreshed)

/-- `record_spends`: the window follows the outputs, then each key that signed is consumed. -/
def recordSpends (block : Block) : Wallet :=
  let outputs := block.transactions.flatMap Transaction.outputs
  let inputs := block.transactions.flatMap Transaction.inputs
  let seen : Wallet × Bool :=
    if wallet.scheme.isOneTime then
      outputs.foldl (fun state output => state.1.lookAhead state.2 output.pubkeyHash) (wallet, false)
    else (wallet, false)
  (inputs.foldl recordInput seen).1

/-- `scan_chain`, `count` heights from the one after the last verified. -/
def scanLoop (readBlock : Nat → Option Block) : Nat → Wallet → Wallet
  | 0, wallet => wallet
  | count + 1, wallet =>
    let height := wallet.verifiedUpTo + 1
    match readBlock height with
    | none => wallet
    | some block => scanLoop readBlock count { wallet.recordSpends block with verifiedUpTo := height }

def scanChain : Wallet :=
  scanLoop readBlock (height - wallet.verifiedUpTo) wallet

/-- The heights reread by `recheck_reservations`: the wallet, and whether every block was there. -/
def recheckBlock (state : Wallet × Bool) (height : Nat) : Wallet × Bool :=
  match readBlock height with
  | none => (state.1, false)
  | some block => (state.1.recordSpends block, state.2)

/-- The reservations whose delay has expired, with their heights. -/
def expired : FiniteMap Nat Nat :=
  select (fun _ since => decide (since + reservationTimeout ≤ height)) wallet.reserved

def recheckReservations : Wallet :=
  let expired := wallet.expired height
  if expired.keys = ∅ then wallet
  else
    let since := (listing expired.keys).foldl
      (fun least index => min least ((expired.lookup index).getD height)) height
    let (wallet, complete) :=
      (List.range' since (height + 1 - since)).foldl (recheckBlock readBlock) (wallet, true)
    if complete then
      { wallet with reserved := retain (fun index => decide (index ∉ expired.keys)) wallet.reserved }
    else wallet

/-- The coins of the wallet's own scheme under a key hash. -/
def ownCoins (hash : Hash256) (height : Nat) : List (OutPoint × UtxoEntry) :=
  (utxo.spendableFor hash height coinbaseMaturity).filter fun coin =>
    coin.2.output.scheme == wallet.scheme

/-- Larger value first; at equal values, the smaller outpoint. -/
def largerFirst (first second : Coin) : Bool :=
  decide (second.value < first.value) ||
    (decide (first.value = second.value) && decide (first.outpoint ≤ second.outpoint))

def smallerFirst (first second : Coin) : Bool :=
  decide (first.value < second.value) ||
    (decide (first.value = second.value) && decide (first.outpoint ≤ second.outpoint))

/-- The coins one index offers: for a one-time scheme the largest alone. -/
def offered (coins : List (OutPoint × UtxoEntry)) (index : Nat) : List Coin :=
  let listed := coins.map fun coin => (⟨coin.1, coin.2.output, index⟩ : Coin)
  if wallet.scheme.isOneTime then
    ((listed.insertionSort fun first second => largerFirst first second = true).head?).toList
  else listed

def spendable (height : Nat) : List Coin :=
  let coins := (listing wallet.known.keys).flatMap fun hash =>
    match wallet.known.lookup hash with
    | none => []
    | some index =>
      if wallet.scheme.isOneTime && wallet.taken index then []
      else wallet.offered (wallet.ownCoins utxo hash height) index
  coins.insertionSort fun first second => first.outpoint ≤ second.outpoint

def maxInputs : Nat :=
  let perInput := wallet.scheme.pubkeyLen + wallet.scheme.sigLen + 48 * witnessDiscount
  max (maxUsableWeight / 10 * 9 / max perInput 1) 1

def ownsOutput (output : TxOut) : Bool :=
  output.scheme == wallet.scheme && (wallet.known.lookup output.pubkeyHash).isSome

/-- The state of the loop over the coins on offer. -/
structure Selection where
  taken : List Nat := []
  chosen : List Coin := []
  total : Nat := 0
  usable : Nat := 0

def selectStep (needed : Nat) (state : Selection) (coin : Coin) : Selection :=
  if wallet.scheme.isOneTime && decide (coin.index ∈ state.taken) then state
  else
    let state :=
      { state with
        taken := if wallet.scheme.isOneTime then coin.index :: state.taken else state.taken
        usable := saturatingAdd state.usable coin.value }
    if needed ≤ state.total ∨ wallet.maxInputs ≤ state.chosen.length then state
    else { state with total := state.total + coin.value, chosen := state.chosen ++ [coin] }

/-- A pending output that may be spent, as a coin. -/
def pendingCoin (pending : OutPoint × TxOut) : Option Coin :=
  if avoid pending.1 || decide (pending.1 ∈ wallet.locked) || !wallet.ownsOutput pending.2 then none
  else
    match wallet.known.lookup pending.2.pubkeyHash with
    | none => none
    | some index =>
      if wallet.scheme.isOneTime && wallet.taken index then none
      else some ⟨pending.1, pending.2, index⟩

/-- The coins on offer: the confirmed ones, not avoided or locked. -/
def available (height : Nat) (avoid : OutPoint → Bool) : List Coin :=
  (wallet.spendable utxo height).filter fun coin =>
    !avoid coin.outpoint && !decide (coin.outpoint ∈ wallet.locked)

/-- The refusal for too little money, or for too many coins. -/
def shortOf (state : Selection) (total needed : Nat) : WalletError :=
  if needed ≤ state.usable then .tooManyCoins wallet.maxInputs else .insufficientFunds total needed

/-- No chosen index may have been used already, for a one-time scheme. -/
def checkUnused : Except WalletError Unit :=
  if wallet.scheme.isOneTime then
    chosen.forM fun coin => require (wallet.taken coin.index = false) (.keyAlreadyUsed coin.index)
  else pure ()

def selectCoinsAvoiding (height needed : Nat) (avoid : OutPoint → Bool)
    (pending : List (OutPoint × TxOut)) : Except WalletError (List Coin × Nat) := do
  let confirmed := (wallet.available utxo height avoid).insertionSort
    fun first second => largerFirst first second = true
  let pendingCoins := (pending.filterMap (wallet.pendingCoin avoid)).insertionSort
    fun first second => largerFirst first second = true
  let singlePending := ((pendingCoins.filter fun coin => decide (needed ≤ coin.value)).insertionSort
    fun first second => smallerFirst first second = true).head?
  let state := (confirmed ++ pendingCoins).foldl (wallet.selectStep needed) {}
  let (chosen, total) :=
    match singlePending with
    | some single =>
      if state.total < needed ∨ fewInputs < state.chosen.length then ([single], single.value)
      else (state.chosen, state.total)
    | none => (state.chosen, state.total)
  require (needed ≤ total) (wallet.shortOf state total needed)
  wallet.checkUnused chosen
  pure (chosen, total)

/-- The selection again for a change above the dust floor, when the wallet holds enough. -/
def selectWithoutDust (height needed : Nat) (avoid : OutPoint → Bool)
    (pending : List (OutPoint × TxOut)) : Except WalletError (List Coin × Nat) := do
  let (chosen, total) ← wallet.selectCoinsAvoiding utxo height needed avoid pending
  if total - needed = 0 ∨ minOutputValue ≤ total - needed then pure (chosen, total)
  else
    match checkedAdd needed minOutputValue with
    | none => pure (chosen, total)
    | some more =>
      match wallet.selectCoinsAvoiding utxo height more avoid pending with
      | .ok better => pure better
      | .error _ => pure (chosen, total)

/-- One coin of a consolidation, smallest first, one for each index of a one-time scheme. -/
def gatherStep (limit : Nat) (state : Selection) (coin : Coin) : Selection :=
  if limit ≤ state.chosen.length then state
  else if wallet.scheme.isOneTime &&
      (decide (coin.index ∈ state.taken) || wallet.taken coin.index) then
    { state with taken := coin.index :: state.taken }
  else
    { state with
      taken := if wallet.scheme.isOneTime then coin.index :: state.taken else state.taken
      chosen := state.chosen ++ [coin] }

def consolidationSelection (height maxInputs : Nat) (avoid : OutPoint → Bool) :
    Except WalletError (List Coin × Nat) := do
  require (wallet.scheme.isAvailable = true) (.unsupportedScheme wallet.scheme)
  let offered := (wallet.available utxo height avoid).insertionSort
    fun first second => smallerFirst first second = true
  let limit := max (min maxInputs wallet.maxInputs) 2
  let chosen := (offered.foldl (wallet.gatherStep limit) {}).chosen
  require (2 ≤ chosen.length) .nothingToConsolidate
  let total ← orRefuse (checkedSum (chosen.map Coin.value)) .amountOutOfRange
  pure (chosen, total)

/-- The unsigned transaction of the chosen coins. -/
def unsigned : Transaction where
  version := 1
  inputs := chosen.map fun coin => ⟨coin.outpoint, {}, 0xffffffff⟩
  outputs
  lockTime := 0

def checkKey (wallet : Wallet) (coin : Coin) : Except WalletError Bytes := do
  let key := wallet.publicKey coin.index
  require (pubkeyHash wallet.scheme key = coin.output.pubkeyHash) (.lockMismatch coin.index)
  pure key

/-- The indices of the coins are held from this height on, unless they already were. -/
def reserve (height : Nat) : Wallet :=
  { wallet with
    reserved := chosen.foldl (fun reserved coin =>
        if (reserved.lookup coin.index).isSome then reserved
        else reserved.insert coin.index height)
      wallet.reserved }

def finishPrepare (wallet : Wallet) (chosen : List Coin) (outputs : List TxOut) (height : Nat) :
    Wallet × Except WalletError PreparedSpend :=
  match chosen.mapM wallet.checkKey with
  | .error problem => (wallet, .error problem)
  | .ok keys => (wallet.reserve chosen height, .ok ⟨chosen, keys, unsigned chosen outputs⟩)

/-- The change goes to a fresh address, or to the fee when it is dust. -/
def withChange (change : Nat) : Wallet × List TxOut :=
  if minOutputValue ≤ change then
    let (wallet, address) := wallet.newAddress
    (wallet, outputs ++ [⟨UInt64.ofNat change, address.scheme, address.hash⟩])
  else (wallet, outputs)

/-- Chosen coins made into a prepared spend. -/
def prepareWith (wallet : Wallet) (selected : Except WalletError (List Coin × Nat))
    (outputs : List TxOut) (needed height : Nat) : Wallet × Except WalletError PreparedSpend :=
  match selected with
  | .error problem => (wallet, .error problem)
  | .ok (chosen, total) =>
    let (wallet, outputs) := wallet.withChange outputs (total - needed)
    wallet.finishPrepare chosen outputs height

/-- A sum within the supply. -/
def addWithinSupply (first second : Nat) : Except WalletError Nat := do
  let sum ← orRefuse (checkedAdd first second) .amountOutOfRange
  require (sum ≤ maxSupply) .amountOutOfRange
  pure sum

def addDestination (total : Nat) (destination : Address × UInt64) : Except WalletError Nat := do
  let amount := destination.2.toNat
  require (amount ≠ 0) .zeroAmount
  require (minOutputValue ≤ amount) (.amountBelowFloor minOutputValue amount)
  addWithinSupply total amount

/-- What a payment needs, its fee included. -/
def neededFor (destinations : List (Address × UInt64)) (fee : UInt64) : Except WalletError Nat := do
  require (destinations ≠ []) .zeroAmount
  require (wallet.scheme.isAvailable = true) (.unsupportedScheme wallet.scheme)
  require (fee.toNat ≤ maxSupply) .amountOutOfRange
  let total ← destinations.foldlM addDestination 0
  addWithinSupply total fee.toNat

def prepareSpendAvoiding (height : Nat) (destinations : List (Address × UInt64)) (fee : UInt64)
    (avoid : OutPoint → Bool) (pending : List (OutPoint × TxOut)) :
    Wallet × Except WalletError PreparedSpend :=
  match wallet.neededFor destinations fee with
  | .error problem => (wallet, .error problem)
  | .ok needed =>
    wallet.prepareWith (wallet.selectCoinsAvoiding utxo height needed avoid pending)
      (destinations.map fun destination =>
        ⟨destination.2, destination.1.scheme, destination.1.hash⟩) needed height

/-- What the funding of a channel needs. -/
def neededForFunding (value : Nat) (fee : UInt64) : Except WalletError Nat := do
  require (wallet.scheme.isAvailable = true) (.unsupportedScheme wallet.scheme)
  require (minOutputValue ≤ value) (.amountBelowFloor minOutputValue value)
  require (fee.toNat ≤ maxSupply) .amountOutOfRange
  addWithinSupply value fee.toNat

def prepareFunding (height : Nat) (fundingOutput : TxOut) (fee : UInt64) (avoid : OutPoint → Bool)
    (pending : List (OutPoint × TxOut)) : Wallet × Except WalletError PreparedSpend :=
  match wallet.neededForFunding fundingOutput.value.toNat fee with
  | .error problem => (wallet, .error problem)
  | .ok needed =>
    wallet.prepareWith (wallet.selectWithoutDust utxo height needed avoid pending)
      [fundingOutput] needed height

/-- What a splice needs: the growth of the funding output, and the fee. -/
def neededForSplice (old new : Nat) (fee : UInt64) : Except WalletError Nat := do
  require (wallet.scheme.isAvailable = true) (.unsupportedScheme wallet.scheme)
  require (old ≤ new ∧ minOutputValue ≤ new - old) (.amountBelowFloor minOutputValue (new - old))
  addWithinSupply (new - old) fee.toNat

/-- The funding input a splice adds, which the channel signs. -/
def withFunding (funding : OutPoint) (sequence : UInt32) : PreparedSpend :=
  { spend with tx := { spend.tx with inputs := spend.tx.inputs ++ [⟨funding, {}, sequence⟩] } }

def prepareSplice (height : Nat) (funding : OutPoint) (fundingOutput newFunding : TxOut)
    (fee : UInt64) (sequence : UInt32) (avoid : OutPoint → Bool) :
    Wallet × Except WalletError PreparedSpend :=
  match wallet.neededForSplice fundingOutput.value.toNat newFunding.value.toNat fee with
  | .error problem => (wallet, .error problem)
  | .ok needed =>
    let (wallet, prepared) := wallet.prepareWith (wallet.selectWithoutDust utxo height needed
        (fun outpoint => decide (outpoint = funding) || avoid outpoint) [])
      [newFunding] needed height
    (wallet, prepared.map fun spend => withFunding spend funding sequence)

def prepareConsolidation (wallet : Wallet) (utxo : UtxoSet) (height maxInputs : Nat)
    (avoid : OutPoint → Bool) (feeFor : Nat → Nat) : Wallet × Except WalletError PreparedSpend :=
  match wallet.consolidationSelection utxo height maxInputs avoid with
  | .error problem => (wallet, .error problem)
  | .ok (chosen, total) =>
    let value := total - feeFor chosen.length
    if value < minOutputValue then (wallet, .error .nothingToConsolidate)
    else
      let (wallet, address) := wallet.newAddress
      wallet.finishPrepare chosen [⟨UInt64.ofNat value, address.scheme, address.hash⟩] height

def cancelSpend : Wallet :=
  { wallet with
    reserved := spend.indices.foldl (fun reserved index => reserved.erase index) wallet.reserved }

/-- A reserved index becomes consumed: the key has signed. -/
def consume : Wallet :=
  { wallet with
    reserved := wallet.reserved.erase index
    consumed := if index ∈ wallet.consumed then wallet.consumed else wallet.consumed ++ [index] }

def consumeAll (indices : List Nat) : Wallet := indices.foldl consume wallet

/-- The calls of `sign_at`, with their messages, and the witnesses or the failure that ended them. -/
def signLoop (wallet : Wallet) (tx : Transaction) :
    Nat → List (Coin × Bytes) → List (Nat × Hash256) × Except WalletError (List Witness)
  | _, [] => ([], .ok [])
  | position, (coin, key) :: rest =>
    let message := tx.sighash (UInt32.ofNat position) wallet.network coin.output
    match wallet.signAt coin.index message with
    | .error problem => ([(coin.index, message)], .error problem)
    | .ok signature =>
      let (calls, result) := signLoop wallet tx (position + 1) rest
      ((coin.index, message) :: calls, result.map fun witnesses => ⟨key, signature⟩ :: witnesses)

def fillWitnesses : List TxIn → List Witness → List TxIn
  | input :: inputs, witness :: witnesses =>
    { input with witness } :: fillWitnesses inputs witnesses
  | inputs, _ => inputs

/-- What `sign_spend` leaves: the wallet, the calls of `sign_at` it made, and its answer. -/
structure Signed where
  wallet : Wallet
  calls : List (Nat × Hash256) := []
  result : Except WalletError Transaction

/-- `sign_spend`; a coin that is gone lifts the reservation, a failure consumes what was signed
before it. -/
def signSpend (lookup : OutPoint → Option UtxoEntry) (spend : PreparedSpend) : Signed :=
  if spend.chosen.all fun coin =>
      ((lookup coin.outpoint).map fun entry => entry.output) == some coin.output then
    match wallet.signLoop spend.tx 0 (spend.chosen.zip spend.keys) with
    | (calls, .error problem) =>
      ⟨wallet.consumeAll (spend.indices.take (calls.length - 1)), calls, .error problem⟩
    | (calls, .ok witnesses) =>
      ⟨wallet.consumeAll (spend.indices.take witnesses.length), calls,
        .ok { spend.tx with inputs := fillWitnesses spend.tx.inputs witnesses }⟩
  else ⟨wallet.cancelSpend spend, [], .error .coinsGone⟩

/-- The lines of the wallet file that bear on keys. -/
structure WalletFile where
  nextIndex : Nat
  verifiedUpTo : Nat
  consumed : List Nat
  reserved : List (Nat × Nat)

/-- The revealed keys and the reserved indices, for a reader that only knows the first. -/
def consumedIndicesForFile : List Nat :=
  listing (wallet.consumed.toFinset ∪ wallet.reserved.keys)

def reservedIndices : List (Nat × Nat) :=
  (listing wallet.reserved.keys).filterMap fun index =>
    (wallet.reserved.lookup index).map fun height => (index, height)

def toFile : WalletFile :=
  ⟨wallet.nextIndex, wallet.verifiedUpTo, wallet.consumedIndicesForFile, wallet.reservedIndices⟩

def markConsumed (indices : List Nat) : Wallet :=
  { wallet with
    consumed := indices.foldl
      (fun consumed index => if index ∈ consumed then consumed else consumed ++ [index])
      wallet.consumed }

def loadReservation (reservation : Nat × Nat) : Wallet :=
  if (wallet.reserved.lookup reservation.1).isSome then wallet
  else
    { wallet with
      consumed := wallet.consumed.filter fun index => decide (index ≠ reservation.1)
      reserved := wallet.reserved.insert reservation.1 reservation.2 }

def loadReservations (reservations : List (Nat × Nat)) : Wallet :=
  reservations.foldl loadReservation wallet

/-- A wallet read back: an empty one of the same seed, with the file's indices. -/
def reload (file : WalletFile) : Wallet :=
  let empty : Wallet := ⟨wallet.seed, wallet.network, wallet.scheme, 0, ∅, [], ∅, 0, ∅, 0, ∅⟩
  let marked := (empty.markConsumed file.consumed).loadReservations file.reserved
  { marked with verifiedUpTo := max marked.verifiedUpTo file.verifiedUpTo }.rescan file.nextIndex

end Keys

end Wallet

namespace Wallet

/-- The wallets derive the same keys. -/
structure SameKeys (wallet next : Wallet) : Prop where
  seed : next.seed = wallet.seed
  network : next.network = wallet.network
  scheme : next.scheme = wallet.scheme

theorem SameKeys.refl (wallet : Wallet) : SameKeys wallet wallet := ⟨rfl, rfl, rfl⟩

theorem SameKeys.trans {first second third : Wallet} (before : SameKeys first second)
    (after : SameKeys second third) : SameKeys first third :=
  ⟨after.seed.trans before.seed, after.network.trans before.network,
    after.scheme.trans before.scheme⟩

section Observing
variable [Crypto] [KeyRing] {wallet next : Wallet} {table : FiniteMap Hash256 Nat} {index : Nat}

theorem SameKeys.keyHash (same : SameKeys wallet next) : next.keyHash = wallet.keyHash := by
  funext index
  rw [Wallet.keyHash, Wallet.keyHash, publicKey, publicKey, same.scheme, same.seed]

/-- A table of hashes agrees with the derivation. -/
def Agrees (wallet : Wallet) (table : FiniteMap Hash256 Nat) : Prop :=
  ∀ hash index, table.lookup hash = some index → hash = wallet.keyHash index

/-- Both tables of the wallet agree with the derivation. -/
structure Derived (wallet : Wallet) : Prop where
  known : wallet.Agrees wallet.known
  lookahead : wallet.Agrees wallet.lookahead

theorem Agrees.select (agrees : wallet.Agrees table) (keep : Hash256 → Nat → Bool) :
    wallet.Agrees (select keep table) := by
  intro hash index found
  exact agrees hash index (lookup_select_eq_some.mp found).1

theorem Agrees.insert (agrees : wallet.Agrees table) (index : Nat) :
    wallet.Agrees (table.insert (wallet.keyHash index) index) := by
  intro hash other found
  rw [lookup_insert_eq] at found
  split at found
  · rename_i same
    cases found
    exact same
  · exact agrees hash other found

theorem Agrees.derive (agrees : wallet.Agrees table) (start count : Nat) :
    wallet.Agrees (wallet.derive start count table) := by
  unfold Wallet.derive
  generalize range' start count = indices
  induction indices generalizing table with
  | nil => exact agrees
  | cons index rest ih => exact ih (agrees.insert index)

theorem Agrees.union {first second : FiniteMap Hash256 Nat} (left : wallet.Agrees first)
    (right : wallet.Agrees second) : wallet.Agrees (first ∪ second) := by
  intro hash index found
  rcases Finmap.mem_lookup_union.mp found with here | ⟨_, there⟩
  · exact left hash index here
  · exact right hash index there

theorem Agrees.empty (wallet : Wallet) : wallet.Agrees ∅ := by
  intro hash index found
  cases found

/-- Only the tables and the next index may differ. -/
structure SameIndices (wallet next : Wallet) : Prop where
  keys : SameKeys wallet next
  consumed : next.consumed = wallet.consumed
  reserved : next.reserved = wallet.reserved
  derived : wallet.Derived → next.Derived

theorem SameIndices.refl (wallet : Wallet) : SameIndices wallet wallet :=
  ⟨SameKeys.refl wallet, rfl, rfl, id⟩

theorem SameIndices.trans {first second third : Wallet} (before : SameIndices first second)
    (after : SameIndices second third) : SameIndices first third :=
  ⟨before.keys.trans after.keys, after.consumed.trans before.consumed,
    after.reserved.trans before.reserved, fun derived => after.derived (before.derived derived)⟩

theorem SameIndices.taken (same : SameIndices wallet next) (index : Nat) :
    next.taken index = wallet.taken index := by
  rw [Wallet.taken, Wallet.taken, same.consumed, same.reserved]

theorem newAddress_sameIndices (wallet : Wallet) : SameIndices wallet wallet.newAddress.1 :=
  ⟨⟨rfl, rfl, rfl⟩, rfl, rfl, fun derived => ⟨derived.known.insert _, derived.lookahead⟩⟩

theorem rewindAddresses_sameIndices (wallet : Wallet) (start : Nat) :
    SameIndices wallet (wallet.rewindAddresses start) := by
  unfold rewindAddresses
  split
  · exact SameIndices.refl wallet
  · exact ⟨⟨rfl, rfl, rfl⟩, rfl, rfl,
      fun derived => ⟨derived.known.select _, Agrees.empty wallet⟩⟩

theorem refreshLookahead_sameIndices (wallet : Wallet) :
    SameIndices wallet wallet.refreshLookahead := by
  unfold refreshLookahead
  split
  · exact ⟨⟨rfl, rfl, rfl⟩, rfl, rfl,
      fun derived => ⟨derived.known, (derived.lookahead.select _).derive _ _⟩⟩
  · exact SameIndices.refl wallet

theorem adoptLookaheadUpTo_sameIndices (wallet : Wallet) (ahead : Nat) :
    SameIndices wallet (wallet.adoptLookaheadUpTo ahead) := by
  refine .trans ?_ (refreshLookahead_sameIndices _)
  exact ⟨⟨rfl, rfl, rfl⟩, rfl, rfl,
    fun derived => ⟨(derived.lookahead.select _).union derived.known, derived.lookahead⟩⟩

theorem lookAhead_sameIndices (wallet : Wallet) (refreshed : Bool) (hash : Hash256) :
    SameIndices wallet (wallet.lookAhead refreshed hash).1 := by
  have fresh : SameIndices wallet (if refreshed then wallet else wallet.refreshLookahead) := by
    cases refreshed with
    | true => exact SameIndices.refl wallet
    | false => exact refreshLookahead_sameIndices wallet
  unfold lookAhead
  split
  · exact SameIndices.refl wallet
  · dsimp only
    split
    · exact fresh
    · exact fresh.trans (adoptLookaheadUpTo_sameIndices _ _)

/-! ## What a block shows -/

/-- Observing keys: an index stays taken, and only that of an observed key becomes consumed. -/
structure Observes (hashes : List Hash256) (wallet next : Wallet) : Prop where
  keys : SameKeys wallet next
  derived : wallet.Derived → next.Derived
  taken : ∀ index, wallet.taken index = true → next.taken index = true
  consumed : wallet.Derived → ∀ index ∈ next.consumed,
    index ∈ wallet.consumed ∨ wallet.keyHash index ∈ hashes

theorem SameIndices.observes (same : SameIndices wallet next) (hashes : List Hash256) :
    Observes hashes wallet next := by
  refine ⟨same.keys, same.derived, fun index held => (same.taken index).trans held, ?_⟩
  intro _ index member
  rw [same.consumed] at member
  exact .inl member

theorem Observes.trans {first second : List Hash256} {middle : Wallet}
    (before : Observes first wallet middle) (after : Observes second middle next) :
    Observes (first ++ second) wallet next := by
  refine ⟨before.keys.trans after.keys, fun derived => after.derived (before.derived derived),
    fun index held => after.taken index (before.taken index held), ?_⟩
  intro derived index member
  rcases after.consumed (before.derived derived) index member with earlier | shown
  · rcases before.consumed derived index earlier with held | shown
    · exact .inl held
    · exact .inr (mem_append_left _ shown)
  · rw [before.keys.keyHash] at shown
    exact .inr (mem_append_right _ shown)

omit [Crypto] [KeyRing] in
theorem taken_iff : wallet.taken index = true ↔
      index ∈ wallet.consumed ∨ (wallet.reserved.lookup index).isSome = true := by
  simp [taken]

omit [Crypto] [KeyRing] in
/-- Moving an index from reserved to consumed. -/
theorem taken_of_moved {moved : Nat} (held : wallet.taken index = true) : { wallet with
      reserved := wallet.reserved.erase moved
      consumed := if moved ∈ wallet.consumed then wallet.consumed
        else wallet.consumed ++ [moved] }.taken index = true := by
  rw [taken_iff] at held ⊢
  by_cases same : index = moved
  · subst same
    refine .inl ?_
    split
    · assumption
    · simp
  · rcases held with consumed | reserved
    · refine .inl ?_
      split
      · exact consumed
      · exact mem_append_left _ consumed
    · refine .inr ?_
      rwa [Finmap.lookup_erase_ne same]

theorem reveal_observes (wallet : Wallet) (hash : Hash256) :
    Observes [hash] wallet (wallet.reveal hash) := by
  unfold reveal
  split
  · exact (SameIndices.refl wallet).observes [hash]
  · rename_i revealed found
    refine ⟨⟨rfl, rfl, rfl⟩, fun derived => ⟨derived.known, derived.lookahead⟩,
      fun index held => taken_of_moved held, ?_⟩
    intro derived index member
    split at member
    · exact .inl member
    · rcases mem_append.mp member with earlier | last
      · exact .inl earlier
      · obtain rfl := mem_singleton.mp last
        have named := derived.known hash index found
        exact .inr (mem_singleton.mpr named.symm)

/-- The hashes of the keys that signed inputs. -/
def inputKeys (scheme : SchemeId) (inputs : List TxIn) : List Hash256 :=
  (inputs.filter fun input => decide (input.witness.pubkey ≠ [])).map fun input =>
    pubkeyHash scheme input.witness.pubkey

theorem recordInput_observes (state : Wallet × Bool) (input : TxIn) :
    Observes (inputKeys state.1.scheme [input]) state.1 (recordInput state input).1 := by
  unfold recordInput inputKeys
  split
  · exact (SameIndices.refl state.1).observes _
  · rename_i signed
    have listed : ([input].filter fun input => decide (input.witness.pubkey ≠ [])) = [input] := by
      simp [signed]
    rw [listed]
    have looked : SameIndices state.1 (if state.1.scheme.isOneTime then
        state.1.lookAhead state.2 (pubkeyHash state.1.scheme input.witness.pubkey)
        else state).1 := by
      split
      · exact lookAhead_sameIndices _ _ _
      · exact SameIndices.refl _
    exact (looked.observes []).trans (reveal_observes _ _)

theorem recordInputs_observes (state : Wallet × Bool) (inputs : List TxIn) :
    Observes (inputKeys state.1.scheme inputs) state.1 (inputs.foldl recordInput state).1 := by
  induction inputs generalizing state with
  | nil => exact (SameIndices.refl state.1).observes _
  | cons input rest ih =>
    have first := recordInput_observes state input
    have others := ih (recordInput state input)
    rw [first.keys.scheme] at others
    have split : inputKeys state.1.scheme (input :: rest) =
        inputKeys state.1.scheme [input] ++ inputKeys state.1.scheme rest := by
      rw [inputKeys, inputKeys, inputKeys, ← map_append, ← filter_append]
      rfl
    rw [split]
    exact first.trans others

/-- The hashes of the keys that signed in a block. -/
def blockKeys (scheme : SchemeId) (block : Block) : List Hash256 :=
  inputKeys scheme (block.transactions.flatMap Transaction.inputs)

theorem recordOutputs_sameIndices (state : Wallet × Bool) (outputs : List TxOut) :
    SameIndices state.1 (outputs.foldl
      (fun state output => state.1.lookAhead state.2 output.pubkeyHash) state).1 := by
  induction outputs generalizing state with
  | nil => exact SameIndices.refl state.1
  | cons output rest ih => exact (lookAhead_sameIndices _ _ _).trans (ih _)

theorem recordSpends_observes (wallet : Wallet) (block : Block) :
    Observes (blockKeys wallet.scheme block) wallet (wallet.recordSpends block) := by
  unfold recordSpends
  split
  · have seen := recordOutputs_sameIndices (wallet, false)
      (block.transactions.flatMap Transaction.outputs)
    have inputs := recordInputs_observes ((block.transactions.flatMap Transaction.outputs).foldl
      (fun state output => state.1.lookAhead state.2 output.pubkeyHash) (wallet, false))
      (block.transactions.flatMap Transaction.inputs)
    rw [seen.keys.scheme] at inputs
    exact (seen.observes []).trans inputs
  · exact recordInputs_observes (wallet, false) (block.transactions.flatMap Transaction.inputs)

/-- The blocks a scan reads: up to the first one missing. -/
def scanned (readBlock : Nat → Option Block) : Nat → Nat → List Block
  | 0, _ => []
  | count + 1, height =>
    match readBlock height with
    | none => []
    | some block => block :: scanned readBlock count (height + 1)

theorem scanLoop_observes (readBlock : Nat → Option Block) (count : Nat) (wallet : Wallet) :
    Observes ((scanned readBlock count (wallet.verifiedUpTo + 1)).flatMap
      (blockKeys wallet.scheme)) wallet (scanLoop readBlock count wallet) := by
  induction count generalizing wallet with
  | zero => exact (SameIndices.refl wallet).observes _
  | succ count ih =>
    rw [scanLoop, scanned]
    cases found : readBlock (wallet.verifiedUpTo + 1) with
    | none => exact (SameIndices.refl wallet).observes _
    | some block =>
      have first := recordSpends_observes wallet block
      obtain ⟨after, isAfter⟩ : ∃ after, after =
        { wallet.recordSpends block with verifiedUpTo := wallet.verifiedUpTo + 1 } := ⟨_, rfl⟩
      have marked : SameIndices (wallet.recordSpends block) after := by
        rw [isAfter]
        exact ⟨⟨rfl, rfl, rfl⟩, rfl, rfl, fun derived => ⟨derived.known, derived.lookahead⟩⟩
      have verified : after.verifiedUpTo = wallet.verifiedUpTo + 1 := by rw [isAfter]
      have others := ih after
      rw [verified, marked.keys.scheme, first.keys.scheme] at others
      dsimp only
      rw [← isAfter]
      exact first.trans ((marked.observes []).trans others)

/-- The blocks a recheck rereads. -/
def reread (readBlock : Nat → Option Block) (heights : List Nat) : List Block :=
  heights.filterMap readBlock

theorem recheckBlocks_observes (readBlock : Nat → Option Block) (heights : List Nat)
    (state : Wallet × Bool) :
    Observes ((reread readBlock heights).flatMap (blockKeys state.1.scheme)) state.1
      (heights.foldl (recheckBlock readBlock) state).1 := by
  induction heights generalizing state with
  | nil => exact (SameIndices.refl state.1).observes _
  | cons height rest ih =>
    have others := ih (recheckBlock readBlock state height)
    rw [foldl_cons, reread]
    unfold recheckBlock at others ⊢
    cases found : readBlock height with
    | none =>
      simp only [found] at others ⊢
      rwa [filterMap_cons_none found]
    | some block =>
      have first := recordSpends_observes state.1 block
      simp only [found] at others ⊢
      rw [first.keys.scheme] at others
      rw [filterMap_cons_some found, flatMap_cons]
      exact first.trans others

/-- The heights a recheck rereads. -/
def recheckHeights (wallet : Wallet) (height : Nat) : List Nat :=
  let expired := wallet.expired height
  let since := (listing expired.keys).foldl
    (fun least index => min least ((expired.lookup index).getD height)) height
  range' since (height + 1 - since)

/-- A recheck observes blocks, then lifts at most the expired reservations. -/
theorem recheckReservations_observes (wallet : Wallet) (height : Nat)
    (readBlock : Nat → Option Block) :
    ∃ middle, Observes ((reread readBlock (wallet.recheckHeights height)).flatMap
        (blockKeys wallet.scheme)) wallet middle ∧
      SameKeys middle (wallet.recheckReservations height readBlock) ∧
      (middle.Derived → (wallet.recheckReservations height readBlock).Derived) ∧
      (wallet.recheckReservations height readBlock).consumed = middle.consumed ∧
      ∀ index, middle.taken index = true → index ∉ (wallet.expired height).keys →
        (wallet.recheckReservations height readBlock).taken index = true := by
  unfold recheckReservations
  dsimp only
  split
  · exact ⟨wallet, (SameIndices.refl wallet).observes _, SameKeys.refl wallet, id, rfl,
      fun _ held _ => held⟩
  · have observed := recheckBlocks_observes readBlock (wallet.recheckHeights height) (wallet, true)
    refine ⟨_, observed, ?_⟩
    rw [← recheckHeights]
    generalize (wallet.recheckHeights height).foldl (recheckBlock readBlock) (wallet, true) = state
    split
    · refine ⟨⟨rfl, rfl, rfl⟩, fun derived => ⟨derived.known, derived.lookahead⟩, rfl, ?_⟩
      intro index held kept
      rw [taken_iff] at held ⊢
      rcases held with consumed | reserved
      · exact .inl consumed
      · refine .inr ?_
        dsimp only
        rwa [lookup_retain, if_pos (decide_eq_true kept)]
    · exact ⟨SameKeys.refl _, id, rfl, fun _ held _ => held⟩

end Observing

variable {state : Selection} {total usable needed height : Nat} {wallet : Wallet}
  {chosen : List Coin} {utxo : UtxoSet} {avoid : OutPoint → Bool}
  {pending : List (OutPoint × TxOut)}

/-- The chosen coins have different indices, all of them noted. -/
structure Distinct (state : Selection) : Prop where
  nodup : (state.chosen.map Coin.index).Nodup
  noted : ∀ coin ∈ state.chosen, coin.index ∈ state.taken

theorem Distinct.snoc {coin : Coin} (distinct : Distinct state) (fresh : coin.index ∉ state.taken) :
    Distinct ⟨coin.index :: state.taken, state.chosen ++ [coin], total, usable⟩ := by
  constructor
  · rw [map_append, nodup_append]
    refine ⟨distinct.nodup, nodup_singleton _, ?_⟩
    intro index earlier other last
    obtain rfl : other = coin.index := by simpa using last
    obtain ⟨chosen, member, rfl⟩ := mem_map.mp earlier
    rintro same
    exact fresh (same ▸ distinct.noted chosen member)
  · intro chosen member
    rcases mem_append.mp member with earlier | last
    · exact mem_cons_of_mem _ (distinct.noted chosen earlier)
    · obtain rfl := mem_singleton.mp last
      exact (.head _)

theorem Distinct.note (distinct : Distinct state) (index : Nat) :
    Distinct ⟨index :: state.taken, state.chosen, total, usable⟩ :=
  ⟨distinct.nodup, fun coin member => mem_cons_of_mem _ (distinct.noted coin member)⟩

theorem selectStep_distinct (coin : Coin) (oneTime : wallet.scheme.isOneTime = true)
    (distinct : Distinct state) : Distinct (wallet.selectStep needed state coin) := by
  unfold selectStep
  simp only [oneTime, Bool.true_and, decide_eq_true_eq, if_true]
  split
  · exact distinct
  · rename_i fresh
    split
    · exact distinct.note coin.index
    · exact distinct.snoc fresh

theorem selectSteps_distinct (coins : List Coin) (oneTime : wallet.scheme.isOneTime = true)
    (distinct : Distinct state) : Distinct (coins.foldl (wallet.selectStep needed) state) := by
  induction coins generalizing state with
  | nil => exact distinct
  | cons coin rest ih => exact ih (selectStep_distinct coin oneTime distinct)

/-- What a selection returns: different indices, none of them taken. -/
structure Unused (wallet : Wallet) (chosen : List Coin) : Prop where
  nodup : (chosen.map Coin.index).Nodup
  fresh : ∀ coin ∈ chosen, wallet.taken coin.index = false

section
variable (oneTime : wallet.scheme.isOneTime = true)
include oneTime

theorem checkUnused_ok (checked : wallet.checkUnused chosen = .ok ()) :
    ∀ coin ∈ chosen, wallet.taken coin.index = false := by
  rw [checkUnused, if_pos oneTime] at checked
  intro coin member
  exact require_eq_ok.mp (forM_eq_ok.mp checked coin member)

theorem selectCoinsAvoiding_ok
    (selected : wallet.selectCoinsAvoiding utxo height needed avoid pending = .ok (chosen, total)) :
    Unused wallet chosen := by
  simp only [selectCoinsAvoiding, bind_eq_ok, require_eq_ok, pure_eq_ok, Prod.mk.injEq] at selected
  obtain ⟨_, _, _, unused, same, _⟩ := selected
  have start : Distinct {} := ⟨nodup_nil, fun _ member => by cases member⟩
  have fresh := checkUnused_ok oneTime unused
  rw [same] at fresh
  refine ⟨?_, fresh⟩
  rw [← same]
  -- Either one pending coin alone, or what the loop chose.
  split
  · split
    · exact nodup_singleton _
    · exact (selectSteps_distinct _ oneTime start).nodup
  · exact (selectSteps_distinct _ oneTime start).nodup

theorem selectWithoutDust_ok
    (selected : wallet.selectWithoutDust utxo height needed avoid pending = .ok (chosen, total)) :
    Unused wallet chosen := by
  simp only [selectWithoutDust, bind_eq_ok] at selected
  obtain ⟨⟨first, sum⟩, found, selected⟩ := selected
  have firstUnused := selectCoinsAvoiding_ok oneTime found
  split at selected
  · cases selected
    exact firstUnused
  · split at selected
    · cases selected
      exact firstUnused
    · split at selected
      · rename_i better again
        cases selected
        exact selectCoinsAvoiding_ok oneTime again
      · cases selected
        exact firstUnused

end

theorem gatherSteps_unused {limit : Nat} (coins : List Coin)
    (oneTime : wallet.scheme.isOneTime = true) (distinct : Distinct state)
    (fresh : ∀ coin ∈ state.chosen, wallet.taken coin.index = false) :
    Unused wallet (coins.foldl (wallet.gatherStep limit) state).chosen := by
  induction coins generalizing state with
  | nil => exact ⟨distinct.nodup, fresh⟩
  | cons coin rest ih =>
    rw [foldl_cons, gatherStep]
    split
    · exact ih distinct fresh
    · split
      · exact ih (distinct.note coin.index) fresh
      · rename_i passed
        simp only [oneTime, Bool.true_and, Bool.or_eq_true, decide_eq_true_eq, not_or,
          Bool.not_eq_true] at passed
        refine ih (distinct.snoc passed.1) ?_
        intro chosen member
        rcases mem_append.mp member with earlier | last
        · exact fresh chosen earlier
        · obtain rfl := mem_singleton.mp last
          exact passed.2

theorem consolidationSelection_ok {maxInputs : Nat} (oneTime : wallet.scheme.isOneTime = true)
    (selected : wallet.consolidationSelection utxo height maxInputs avoid = .ok (chosen, total)) :
    Unused wallet chosen := by
  simp only [consolidationSelection, bind_eq_ok, require_eq_ok, orRefuse_eq_ok, pure_eq_ok,
    Prod.mk.injEq] at selected
  obtain ⟨_, _, _, _, _, _, rfl, _⟩ := selected
  exact gatherSteps_unused _ oneTime ⟨nodup_nil, fun _ member => by cases member⟩
    fun _ member => by cases member

/-! ## What a preparation reserves -/

section Preparing
variable [Crypto] [KeyRing] {chosen : List Coin}

/-- A prepared spend takes indices that were free, of the keys its coins are locked to. -/
structure Prepares (wallet next : Wallet) (spend : PreparedSpend) : Prop where
  keys : SameKeys wallet next
  derived : wallet.Derived → next.Derived
  consumed : next.consumed = wallet.consumed
  taken : ∀ index, next.taken index = true ↔ wallet.taken index = true ∨ index ∈ spend.indices
  nodup : spend.indices.Nodup
  fresh : ∀ index ∈ spend.indices, wallet.taken index = false
  locks : ∀ coin ∈ spend.chosen, coin.output.pubkeyHash = wallet.keyHash coin.index
  keyed : spend.keys.length = spend.chosen.length

/-- What a preparation does, refused or not. -/
def PrepareSpec (wallet : Wallet) (result : Wallet × Except WalletError PreparedSpend) : Prop :=
  match result.2 with
  | .error _ => SameIndices wallet result.1
  | .ok spend => Prepares wallet result.1 spend

variable {wallet : Wallet}

theorem PrepareSpec.after {middle : Wallet}
    {result : Wallet × Except WalletError PreparedSpend} (same : SameIndices wallet middle)
    (spec : PrepareSpec middle result) : PrepareSpec wallet result := by
  obtain ⟨next, answer⟩ := result
  cases answer with
  | error problem => exact same.trans spec
  | ok spend =>
    have prepares : Prepares middle next spend := spec
    refine ⟨same.keys.trans prepares.keys, fun derived => prepares.derived (same.derived derived),
      prepares.consumed.trans same.consumed, ?_, prepares.nodup, ?_, ?_, prepares.keyed⟩
    · intro index
      rw [← same.taken]
      exact prepares.taken index
    · intro index member
      rw [← same.taken]
      exact prepares.fresh index member
    · intro coin member
      rw [← same.keys.keyHash]
      exact prepares.locks coin member

omit [Crypto] [KeyRing] in
theorem reserve_taken (wallet : Wallet) (chosen : List Coin) (height index : Nat) :
    (wallet.reserve chosen height).taken index = true ↔
      wallet.taken index = true ∨ index ∈ chosen.map Coin.index := by
  have held : ∀ reserved : FiniteMap Nat Nat, ((chosen.foldl (fun reserved coin =>
        if (reserved.lookup coin.index).isSome then reserved
        else reserved.insert coin.index height) reserved).lookup index).isSome = true ↔
        (reserved.lookup index).isSome = true ∨ index ∈ chosen.map Coin.index := by
    induction chosen with
    | nil => simp
    | cons coin rest ih =>
      intro reserved
      rw [foldl_cons, ih, map_cons, mem_cons]
      by_cases same : index = coin.index
      · subst same
        split
        · rename_i already
          simp [already]
        · simp
      · split
        · simp [same]
        · simp [same, Finmap.lookup_insert_of_ne _ same]
  rw [taken_iff, taken_iff, reserve]
  rw [held, or_assoc]

theorem checkKeys_ok {keys : List Bytes} (checked : chosen.mapM wallet.checkKey = .ok keys) :
    (∀ coin ∈ chosen, coin.output.pubkeyHash = wallet.keyHash coin.index) ∧
      keys.length = chosen.length := by
  induction chosen generalizing keys with
  | nil =>
    cases checked
    exact ⟨forall_mem_nil _, rfl⟩
  | cons first rest ih =>
    simp only [mapM_cons, bind_eq_ok, checkKey, require_eq_ok, pure_eq_ok] at checked
    obtain ⟨_, ⟨_, opens, _⟩, others, restChecked, rfl⟩ := checked
    obtain ⟨locks, keyed⟩ := ih restChecked
    refine ⟨?_, by rw [length_cons, length_cons, keyed]⟩
    intro coin member
    rcases mem_cons.mp member with rfl | later
    · exact opens.symm
    · exact locks coin later

theorem finishPrepare_spec (unused : Unused wallet chosen) (outputs : List TxOut)
    (height : Nat) : PrepareSpec wallet (wallet.finishPrepare chosen outputs height) := by
  unfold finishPrepare
  split
  · exact SameIndices.refl wallet
  · rename_i keys checked
    refine ⟨⟨rfl, rfl, rfl⟩, fun derived => ⟨derived.known, derived.lookahead⟩, rfl,
      fun index => reserve_taken wallet chosen height index, unused.nodup, ?_,
      (checkKeys_ok checked).1, (checkKeys_ok checked).2⟩
    intro index member
    obtain ⟨coin, chosenCoin, rfl⟩ := mem_map.mp member
    exact unused.fresh coin chosenCoin

theorem Unused.congr {next : Wallet} (unused : Unused wallet chosen)
    (same : SameIndices wallet next) : Unused next chosen :=
  ⟨unused.nodup, fun coin member => (same.taken coin.index).trans (unused.fresh coin member)⟩

theorem withChange_sameIndices (wallet : Wallet) (outputs : List TxOut) (change : Nat) :
    SameIndices wallet (wallet.withChange outputs change).1 := by
  unfold withChange
  split
  · exact newAddress_sameIndices wallet
  · exact SameIndices.refl wallet

theorem prepareWith_spec {selected : Except WalletError (List Coin × Nat)}
    (unused : ∀ chosen total, selected = .ok (chosen, total) → Unused wallet chosen)
    (outputs : List TxOut) (needed height : Nat) :
    PrepareSpec wallet (wallet.prepareWith selected outputs needed height) := by
  unfold prepareWith
  split
  · exact SameIndices.refl wallet
  · rename_i chosen total
    have changed := withChange_sameIndices wallet outputs (total - needed)
    exact .after changed (finishPrepare_spec ((unused chosen total rfl).congr changed) _ _)

variable {wallet : Wallet} (oneTime : wallet.scheme.isOneTime = true)

include oneTime

theorem prepareSpendAvoiding_spec (utxo : UtxoSet) (height : Nat)
    (destinations : List (Address × UInt64)) (fee : UInt64) (avoid : OutPoint → Bool)
    (pending : List (OutPoint × TxOut)) : PrepareSpec wallet
      (wallet.prepareSpendAvoiding utxo height destinations fee avoid pending) := by
  unfold prepareSpendAvoiding
  split
  · exact SameIndices.refl wallet
  · exact prepareWith_spec (fun _ _ selected => selectCoinsAvoiding_ok oneTime selected) _ _ _

theorem prepareFunding_spec (utxo : UtxoSet) (height : Nat) (fundingOutput : TxOut) (fee : UInt64)
    (avoid : OutPoint → Bool) (pending : List (OutPoint × TxOut)) : PrepareSpec wallet
      (wallet.prepareFunding utxo height fundingOutput fee avoid pending) := by
  unfold prepareFunding
  split
  · exact SameIndices.refl wallet
  · exact prepareWith_spec (fun _ _ selected => selectWithoutDust_ok oneTime selected) _ _ _

theorem prepareSplice_spec (utxo : UtxoSet) (height : Nat) (funding : OutPoint)
    (fundingOutput newFunding : TxOut) (fee : UInt64) (sequence : UInt32)
    (avoid : OutPoint → Bool) : PrepareSpec wallet
      (wallet.prepareSplice utxo height funding fundingOutput newFunding fee sequence avoid) := by
  unfold prepareSplice
  split
  · exact SameIndices.refl wallet
  · rename_i needed _
    have spec : PrepareSpec wallet (wallet.prepareWith (wallet.selectWithoutDust utxo height needed
          (fun outpoint => decide (outpoint = funding) || avoid outpoint) [])
        [newFunding] needed height) :=
      prepareWith_spec (fun _ _ selected => selectWithoutDust_ok oneTime selected) _ _ _
    -- The funding input is the channel's: it adds no coin of the wallet.
    generalize wallet.prepareWith _ _ _ _ = result at spec ⊢
    obtain ⟨next, answer⟩ := result
    cases answer with
    | error problem => exact spec
    | ok spend =>
      have prepares : Prepares wallet next spend := spec
      exact ⟨prepares.keys, prepares.derived, prepares.consumed, prepares.taken, prepares.nodup,
        prepares.fresh, prepares.locks, prepares.keyed⟩

theorem prepareConsolidation_spec (utxo : UtxoSet) (height maxInputs : Nat)
    (avoid : OutPoint → Bool) (feeFor : Nat → Nat) : PrepareSpec wallet
      (wallet.prepareConsolidation utxo height maxInputs avoid feeFor) := by
  unfold prepareConsolidation
  split
  · exact SameIndices.refl wallet
  · rename_i chosen total selected
    dsimp only
    split
    · exact SameIndices.refl wallet
    · have fresh := newAddress_sameIndices wallet
      exact .after fresh
        (finishPrepare_spec ((consolidationSelection_ok oneTime selected).congr fresh) _ _)

end Preparing

variable {wallet : Wallet} {indices : List Nat} {index : Nat}

theorem consumeAll_sameKeys (wallet : Wallet) (indices : List Nat) :
    SameKeys wallet (wallet.consumeAll indices) := by
  induction indices generalizing wallet with
  | nil => exact SameKeys.refl wallet
  | cons index rest ih =>
    have first : SameKeys wallet (wallet.consume index) := ⟨rfl, rfl, rfl⟩
    exact first.trans (ih (wallet.consume index))

theorem consumeAll_derived [Crypto] [KeyRing] (derived : wallet.Derived) (indices : List Nat) :
    (wallet.consumeAll indices).Derived := by
  induction indices generalizing wallet with
  | nil => exact derived
  | cons index rest ih =>
    have once : (wallet.consume index).Derived := ⟨derived.known, derived.lookahead⟩
    exact ih once

theorem consume_taken {consumed : Nat} : (wallet.consume consumed).taken index = true ↔
      wallet.taken index = true ∨ index = consumed := by
  constructor
  · intro held
    by_cases same : index = consumed
    · exact .inr same
    · refine .inl ?_
      rw [taken_iff] at held ⊢
      unfold consume at held
      rw [Finmap.lookup_erase_ne same] at held
      rcases held with inList | inMap
      · refine .inl ?_
        split at inList
        · exact inList
        · rcases mem_append.mp inList with earlier | last
          · exact earlier
          · exact absurd (mem_singleton.mp last) same
      · exact .inr inMap
  · rintro (held | rfl)
    · exact taken_of_moved held
    · rw [taken_iff]
      refine .inl ?_
      unfold consume
      split
      · assumption
      · simp

theorem consumeAll_taken : (wallet.consumeAll indices).taken index = true ↔
      wallet.taken index = true ∨ index ∈ indices := by
  induction indices generalizing wallet with
  | nil => simp [consumeAll]
  | cons first rest ih =>
    have stepped := @ih (wallet.consume first)
    rw [consumeAll, foldl_cons, ← consumeAll, stepped, consume_taken, mem_cons, or_assoc]

theorem consumeAll_consumed (member : index ∈ (wallet.consumeAll indices).consumed) :
    index ∈ wallet.consumed ∨ index ∈ indices := by
  induction indices generalizing wallet with
  | nil => exact .inl member
  | cons first rest ih =>
    rcases @ih (wallet.consume first) member with earlier | later
    · unfold consume at earlier
      split at earlier
      · exact .inl earlier
      · rcases mem_append.mp earlier with before | last
        · exact .inl before
        · exact .inr (mem_cons.mpr (.inl (mem_singleton.mp last)))
    · exact .inr (.tail _ later)

theorem cancelSpend_taken {spend : PreparedSpend} (outside : index ∉ spend.indices) :
    (wallet.cancelSpend spend).taken index = wallet.taken index := by
  have same : ∀ (indices : List Nat) (reserved : FiniteMap Nat Nat), index ∉ indices →
      (indices.foldl (fun reserved index => reserved.erase index) reserved).lookup index =
        reserved.lookup index := by
    intro indices
    induction indices with
    | nil => exact fun _ _ => rfl
    | cons first rest ih =>
      intro reserved outside
      rw [mem_cons, not_or] at outside
      rw [foldl_cons, ih _ outside.2, Finmap.lookup_erase_ne outside.1]
  rw [taken, taken, cancelSpend]
  rw [same _ _ outside]

/-- A one-time scheme signs each chosen index once, in order. -/
theorem signLoop_oneTime [Crypto] [KeyRing] (oneTime : wallet.scheme.isOneTime = true)
    (tx : Transaction) (position : Nat) (pairs : List (Coin × Bytes)) :
    ∃ calls witnesses, wallet.signLoop tx position pairs = (calls, .ok witnesses) ∧
      calls.map Prod.fst = pairs.map (fun pair => pair.1.index) ∧
      witnesses.length = pairs.length := by
  have lamport : wallet.scheme = .lamportOts := by simpa [SchemeId.isOneTime] using oneTime
  induction pairs generalizing position with
  | nil => exact ⟨[], [], rfl, rfl, rfl⟩
  | cons pair rest ih =>
    obtain ⟨coin, key⟩ := pair
    obtain ⟨calls, witnesses, looped, indices, count⟩ := ih (position + 1)
    let message := tx.sighash (UInt32.ofNat position) wallet.network coin.output
    have signs : wallet.signAt coin.index message =
        .ok (KeyRing.sign wallet.scheme wallet.seed coin.index message) := by
      rw [signAt, lamport]
    refine ⟨(coin.index, message) :: calls,
      ⟨key, KeyRing.sign wallet.scheme wallet.seed coin.index message⟩ :: witnesses, ?_, ?_, ?_⟩
    · rw [signLoop]
      rw [signs, looped]
      rfl
    · rw [map_cons, map_cons, indices]
    · rw [length_cons, length_cons, count]

variable {wallet : Wallet} {index : Nat}

theorem mem_toFile_consumed : index ∈ wallet.toFile.consumed ↔ wallet.taken index = true := by
  rw [toFile, consumedIndicesForFile, mem_listing, Finset.mem_union, mem_toFinset,
    Finmap.mem_keys, taken_iff, Finmap.lookup_isSome]

theorem mem_markConsumed {indices : List Nat} (member : index ∈ indices ∨ index ∈ wallet.consumed) :
    index ∈ (wallet.markConsumed indices).consumed := by
  unfold markConsumed
  generalize wallet.consumed = consumed at member ⊢
  induction indices generalizing consumed with
  | nil => exact member.resolve_left not_mem_nil
  | cons first rest ih =>
    rw [foldl_cons]
    refine ih _ ?_
    rcases member with listed | already
    · rcases mem_cons.mp listed with rfl | later
      · refine .inr ?_
        split
        · assumption
        · simp
      · exact .inl later
    · refine .inr ?_
      split
      · exact already
      · exact mem_append_left _ already

theorem loadReservation_taken (reservation : Nat × Nat) (held : wallet.taken index = true) :
    (wallet.loadReservation reservation).taken index = true := by
  unfold loadReservation
  split
  · exact held
  · rw [taken_iff] at held ⊢
    by_cases same : index = reservation.1
    · subst same
      exact .inr (by rw [Finmap.lookup_insert]; rfl)
    · rw [Finmap.lookup_insert_of_ne _ same, mem_filter]
      rcases held with consumed | reserved
      · exact .inl ⟨consumed, decide_eq_true same⟩
      · exact .inr reserved

theorem loadReservations_taken (reservations : List (Nat × Nat)) (held : wallet.taken index = true) :
    (wallet.loadReservations reservations).taken index = true := by
  induction reservations generalizing wallet with
  | nil => exact held
  | cons reservation rest ih => exact ih (loadReservation_taken reservation held)

/-- Reading back a reservation changes neither the keys nor the tables. -/
theorem loadReservations_tables (wallet : Wallet) (reservations : List (Nat × Nat)) :
    SameKeys wallet (wallet.loadReservations reservations) ∧
      (wallet.loadReservations reservations).known = wallet.known ∧
      (wallet.loadReservations reservations).lookahead = wallet.lookahead := by
  induction reservations generalizing wallet with
  | nil => exact ⟨SameKeys.refl wallet, rfl, rfl⟩
  | cons reservation rest ih =>
    have once : SameKeys wallet (wallet.loadReservation reservation) ∧
        (wallet.loadReservation reservation).known = wallet.known ∧
        (wallet.loadReservation reservation).lookahead = wallet.lookahead := by
      unfold loadReservation
      split
      · exact ⟨SameKeys.refl wallet, rfl, rfl⟩
      · exact ⟨⟨rfl, rfl, rfl⟩, rfl, rfl⟩
    obtain ⟨keys, known, lookahead⟩ := ih (wallet.loadReservation reservation)
    exact ⟨once.1.trans keys, known.trans once.2.1, lookahead.trans once.2.2⟩

section Reloading
variable [Crypto] [KeyRing]

theorem rescan_sameIndices (wallet : Wallet) (upTo : Nat) :
    SameIndices wallet (wallet.rescan upTo) :=
  ⟨⟨rfl, rfl, rfl⟩, rfl, rfl, fun derived => ⟨derived.known.derive _ _, derived.lookahead⟩⟩

/-- A wallet read back derives the same keys and has every index of the file taken. -/
theorem reload_spec (wallet : Wallet) (file : WalletFile) :
    SameKeys wallet (wallet.reload file) ∧ (wallet.reload file).Derived ∧
      ∀ index ∈ file.consumed, (wallet.reload file).taken index = true := by
  obtain ⟨empty, isEmpty⟩ : ∃ empty : Wallet, empty =
    ⟨wallet.seed, wallet.network, wallet.scheme, 0, ∅, [], ∅, 0, ∅, 0, ∅⟩ := ⟨_, rfl⟩
  have keys : SameKeys wallet empty := by
    rw [isEmpty]
    exact ⟨rfl, rfl, rfl⟩
  obtain ⟨sameKeys, known, lookahead⟩ :=
    loadReservations_tables (empty.markConsumed file.consumed) file.reserved
  have marked : SameKeys empty (empty.markConsumed file.consumed) := ⟨rfl, rfl, rfl⟩
  obtain ⟨loaded, isLoaded⟩ : ∃ loaded, loaded =
    (empty.markConsumed file.consumed).loadReservations file.reserved := ⟨_, rfl⟩
  rw [← isLoaded] at sameKeys known lookahead
  have derived : loaded.Derived := by
    have noKnown : loaded.known = ∅ := by rw [known, markConsumed, isEmpty]
    have noLookahead : loaded.lookahead = ∅ := by rw [lookahead, markConsumed, isEmpty]
    exact ⟨noKnown ▸ Agrees.empty loaded, noLookahead ▸ Agrees.empty loaded⟩
  have verified : SameIndices loaded
      { loaded with verifiedUpTo := max loaded.verifiedUpTo file.verifiedUpTo } :=
    ⟨⟨rfl, rfl, rfl⟩, rfl, rfl, fun derived => ⟨derived.known, derived.lookahead⟩⟩
  have whole : SameIndices loaded (wallet.reload file) := by
    rw [reload, ← isEmpty, ← isLoaded]
    exact verified.trans (rescan_sameIndices _ _)
  refine ⟨keys.trans (marked.trans (sameKeys.trans whole.keys)), whole.derived derived, ?_⟩
  intro index member
  refine loadReservations_taken _ (taken_iff.mpr (.inl ?_))
  exact mem_markConsumed (.inl member)

end Reloading

end Wallet

end Q21Formal.Spending

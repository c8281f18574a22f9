import Q21Formal.Ledger.Overlay
import Q21Formal.Ledger.Mining

/-!
# The candidate block

A node that mines assembles a block on its tip by a path of its own.  The block meets every rule of
`check_block` but the proof of work, except where its coinbase would be dust.
-/

namespace Q21Formal.Ledger
open Library.Codec Library.Refusal Library.Maps Primitives List Finmap

section Rules
variable [Crypto]

/-- `checkPlace` up to the proof of work. -/
def checkPlacement (block : Block) (context : BlockContext) : Except ValidationError Unit := do
  let header := block.header
  require (block.encode.length ≤ maxBlockSize) (.blockTooLarge maxBlockSize block.encode.length)
  require (header.height.toNat = context.height) (.badHeight context.height header.height.toNat)
  require (header.prevBlock = context.prevId) .badParent
  require (header.bits = context.expectedBits) (.badDifficulty context.expectedBits header.bits)
  let median := medianTime context.recentTimes
  require (context.recentTimes = [] ∨ median < header.time.toNat)
    (.timestampTooOld median header.time.toNat)
  checkAfterParent context.network context.height context.parentTime header.time
  checkAnchor context.network context.height header.blockId
  require (header.time.toNat ≤ context.now + maxFutureTime)
    (.timestampInFuture (context.now + maxFutureTime) header.time.toNat)

/-- `checkBlock` without the proof of work of its header. -/
def checkBesidesWork [WorkHash] (block : Block) (utxo : UtxoSet) (context : BlockContext) :
    Except ValidationError Nat := do
  checkPlacement block context
  block.checkShape.mapError .structure
  match block.transactions with
  | [] => .error (.structure .noTransactions)
  | coinbase :: rest =>
    let totals ← rest.foldlM (checkNext context) ⟨{ confirmed := utxo }, [], 0⟩
    checkUncles block context
    checkCoinbase block coinbase context totals.fees
    pure totals.fees

end Rules

/-- The values of the outputs of a transaction, from `index` on. -/
def noteValues (noted : FiniteMap OutPoint Nat) (txid : Hash256) :
    Nat → List TxOut → FiniteMap OutPoint Nat
  | _, [] => noted
  | index, output :: rest =>
    noteValues (noted.insert ⟨txid, UInt32.ofNat index⟩ output.value.toNat) txid (index + 1) rest

/-- What an input brings: a confirmed output comes first, then one created in the block. -/
def inputValue (utxo : UtxoSet) (createdHere : FiniteMap OutPoint Nat) (input : TxIn) : Option Nat :=
  ((utxo.lookup input.prevOut).map UtxoEntry.value).or (createdHere.lookup input.prevOut)

section Assembly
variable [Crypto]

/-- The fees as the assembler adds them up; an overflow stops the process. -/
def candidateFees (utxo : UtxoSet) : FiniteMap OutPoint Nat → Nat → List Transaction → Option Nat
  | _, fees, [] => some fees
  | createdHere, fees, tx :: rest => do
      let inputs ← checkedSum (tx.inputs.filterMap (inputValue utxo createdHere))
      let outputs :=
        match tx.totalOutput with
        | .ok total => total
        | .error _ => 0
      let fees ← checkedAdd fees (inputs - outputs)
      candidateFees utxo (noteValues createdHere tx.txid 0 tx.outputs) fees rest

/-- The roots of a block written into its header. -/
def Block.withRoots (block : Block) : Block :=
  { block with
    header :=
      { block.header with
        merkleRoot := block.computeMerkleRoot, unclesRoot := block.computeUnclesRoot } }

namespace Chain

omit [Crypto] in
/-- After the recent median and, where that rule is in force, after the parent. -/
def candidateTime (chain : Chain) (timestamp : UInt64) : Option Nat := do
  let times ← chain.recentTimes
  let time := max timestamp.toNat (medianTime times + 1)
  if strictTimeActivation chain.network ≤ chain.height + 1 then
    let tip ← chain.index.lookup chain.tipId
    pure (max time (tip.header.time.toNat + 1))
  else pure time

section
variable (chain : Chain) (beneficiary : Hash256) (scheme : SchemeId)

def candidateCoinbase (minerShare perUncle : Nat) (uncles : List BlockHeader) : Transaction where
  version := 1
  inputs := [TxIn.coinbase (leBytes 8 (chain.height + 1))]
  outputs := ⟨UInt64.ofNat minerShare, scheme, beneficiary⟩ ::
    uncles.map fun uncle => ⟨UInt64.ofNat perUncle, scheme, uncle.miner⟩
  lockTime := 0

/-- The block before its roots are written. -/
def candidateBody (time : Nat) (transactions : List Transaction) (uncles : List BlockHeader) :
    Block where
  header :=
    { version := 1, prevBlock := chain.tipId, merkleRoot := Hash256.zero
      unclesRoot := Hash256.zero, miner := beneficiary, time := UInt64.ofNat time
      bits := chain.nextBitsAfter chain.tipId, height := UInt64.ofNat (chain.height + 1), nonce := 0 }
  transactions
  uncles

/-- `assemble_candidate`; none where an addition would overflow. -/
def assembleCandidate (mempool : List Transaction) (uncles : List BlockHeader) (timestamp : UInt64) :
    Option Block := do
  let fees ← candidateFees chain.utxo ∅ 0 mempool
  let rewards := uncleRewards (chain.height + 1) uncles.length
  let minerShare ← checkedAdd rewards.minerShare fees
  let time ← chain.candidateTime timestamp
  if time < u64Bound then
    let coinbase := chain.candidateCoinbase beneficiary scheme minerShare rewards.perUncle uncles
    pure (chain.candidateBody beneficiary time (coinbase :: mempool) uncles).withRoots
  else none

end

end Chain

end Assembly

variable {rest : List Transaction}

section Fees
variable {view : BlockView} {createdHere : FiniteMap OutPoint Nat}

/-- The values noted are those of the entries created. -/
def Notes (noted : FiniteMap OutPoint Nat) (created : FiniteMap OutPoint UtxoEntry) : Prop :=
  ∀ outpoint, noted.lookup outpoint = (created.lookup outpoint).map UtxoEntry.value

theorem Notes.create {noted : FiniteMap OutPoint Nat} {created : FiniteMap OutPoint UtxoEntry}
    (notes : Notes noted created) (txid : Hash256) (height : Nat) (coinbase : Bool) (index : Nat)
    (outputs : List TxOut) :
    Notes (noteValues noted txid index outputs)
      (UtxoSet.createMap created txid height coinbase index outputs) := by
  induction outputs generalizing noted created index with
  | nil => exact notes
  | cons output rest ih =>
    refine ih ?_ (index + 1)
    intro outpoint
    rw [lookup_insert_eq, lookup_insert_eq]
    split
    · rfl
    · exact notes outpoint

variable [Crypto] {context : BlockContext} {totals final : BlockTotals} {utxo : UtxoSet}

omit [Crypto] in
/-- Where nothing created in the block is confirmed, an input brings what the view says. -/
theorem inputValue_eq {input : TxIn} (notes : Notes createdHere view.created)
    (apart : ∀ outpoint entry, view.created.lookup outpoint = some entry →
      view.confirmed.lookup outpoint = none) (present : (view.lookup input.prevOut).isSome = true) :
    inputValue view.confirmed createdHere input =
      (view.lookup input.prevOut).map UtxoEntry.value := by
  rw [inputValue, notes]
  unfold BlockView.lookup at present ⊢
  split at present
  · cases present
  · rename_i unspent
    rw [if_neg unspent]
    cases created : view.created.lookup input.prevOut with
    | none => rw [Option.map_none, Option.or_none, Option.none_or]
    | some entry => rw [apart _ _ created, Option.map_none, Option.none_or, Option.some_or]

omit [Crypto] in
theorem foldlM_checkedAdd_eq {values : List Nat} {start : Nat}
    (small : start + values.sum < u64Bound) :
    values.foldlM checkedAdd start = some (start + values.sum) := by
  induction values generalizing start with
  | nil => rfl
  | cons value rest ih =>
    rw [sum_cons, ← add_assoc] at small ⊢
    rw [foldlM_cons, checkedAdd_eq_some.mpr ⟨by omega, rfl⟩]
    exact ih small

omit [Crypto] in
/-- The inputs of a checked transaction sum up to what the view gives them. -/
theorem sum_inputValue {inputs : List TxIn} (notes : Notes createdHere view.created)
    (apart : ∀ outpoint entry, view.created.lookup outpoint = some entry →
      view.confirmed.lookup outpoint = none)
    (present : ∀ input ∈ inputs, (view.lookup input.prevOut).isSome = true) :
    (inputs.filterMap (inputValue view.confirmed createdHere)).sum =
      spentValue view.lookup inputs := by
  induction inputs with
  | nil => rfl
  | cons input rest ih =>
    have here := present input (.head _)
    have value := inputValue_eq notes apart here
    obtain ⟨entry, found⟩ := Option.isSome_iff_exists.mp here
    rw [found, Option.map_some] at value
    rw [filterMap_cons, value, sum_cons,
      ih fun other member => present other (.tail _ member), spentValue, spentValue,
      map_cons, sum_cons, found, Option.map_some, Option.getD_some]

/-- The assembler and the validator agree about the fees of transactions that pass. -/
theorem candidateFees_eq {actual displaced : FiniteMap OutPoint UtxoEntry}
    (confirmed : totals.view.confirmed = utxo) (notes : Notes createdHere totals.view.created)
    (apart : ∀ outpoint entry, totals.view.created.lookup outpoint = some entry →
      utxo.lookup outpoint = none)
    (unknown : ∀ tx ∈ rest, ∀ outpoint ∈ tx.outpoints, utxo.lookup outpoint = none)
    (covers : Covers actual displaced totals.view.lookup)
    (small : jointValue actual displaced + totals.fees < u64Bound)
    (checked : rest.foldlM (checkNext context) totals = .ok final) :
    candidateFees utxo createdHere totals.fees rest = some final.fees := by
  induction rest generalizing totals createdHere actual displaced with
  | nil =>
    obtain rfl : totals = final := by simpa using checked
    rfl
  | cons tx rest ih =>
    rw [foldlM_cons, bind_eq_ok] at checked
    obtain ⟨next, stepped, looped⟩ := checked
    obtain ⟨nextCovers, lost⟩ := covers.checked stepped
    have following := lost.trans_lt small
    obtain ⟨fee, inputTotals, inputs, conserved, rfl, shape⟩ := checkNext_ok stepped
    have taken := (covers.spend inputs.distinct inputs.present).2
    have summed : checkedSum (tx.inputs.filterMap (inputValue utxo createdHere)) =
        some (spentValue totals.view.lookup tx.inputs) := by
      have sum := sum_inputValue notes (confirmed ▸ apart) inputs.present
      rw [confirmed] at sum
      rw [checkedSum, foldlM_checkedAdd_eq (by omega), zero_add, sum]
    obtain ⟨total, added⟩ : ∃ total, tx.totalOutput = .ok total := by
      simp only [Transaction.checkShape, bind_eq_ok] at shape
      obtain ⟨_, _, _, _, _, _, total, added, _⟩ := shape
      exact ⟨total, added⟩
    have outputs := Transaction.totalOutput_eq added
    have paid : checkedAdd totals.fees (spentValue totals.view.lookup tx.inputs - total) =
        some (totals.fees + fee) := by
      refine checkedAdd_eq_some.mpr ⟨?_, ?_⟩ <;> omega
    simp only [candidateFees, summed, added, paid, Option.bind_eq_bind, Option.bind_some]
    refine ih ?_ ?_ ?_ (fun other member => unknown other (.tail _ member))
      nextCovers following looped
    · exact (BlockView.apply_confirmed _ _ _).trans confirmed
    · rw [BlockView.apply_created]
      exact notes.create _ _ _ _ _
    · intro outpoint entry found
      rw [BlockView.apply_created] at found
      rcases mem_outpoints_of_createMap found with created | earlier
      · exact unknown tx (.head _) outpoint created
      · exact apart outpoint entry earlier

end Fees

section Spending
variable [Crypto] {context : BlockContext} {totals final : BlockTotals} {past : List Transaction}

/-- The outpoint of a coinbase input has the last index, which no transaction of a block reaches. -/
theorem coinbase_not_mem_createdBy (few : ∀ tx ∈ past, tx.outputs.length < 2 ^ 32) :
    OutPoint.coinbase ∉ createdBy past := by
  intro listed
  obtain ⟨tx, member, created⟩ := mem_flatMap.mp listed
  obtain ⟨index, inside, same⟩ := mem_map.mp created
  have small := few tx member
  rw [mem_range] at inside
  have numeral := congrArg UInt32.toNat (OutPoint.mk.inj same).2
  rw [UInt32.toNat_ofNat_of_lt' (by show index < 2 ^ 32; omega)] at numeral
  have last : (0xffffffff : UInt32).toNat = 2 ^ 32 - 1 := rfl
  omega

/-- What passes the checks spends an output, so it is no coinbase. -/
theorem isCoinbase_eq_false_of_loop (absent : totals.view.lookup OutPoint.coinbase = none)
    (few : ∀ tx ∈ rest, tx.outputs.length < 2 ^ 32)
    (checked : rest.foldlM (checkNext context) totals = .ok final) :
    ∀ tx ∈ rest, tx.isCoinbase = false := by
  induction rest generalizing totals with
  | nil => exact nofun
  | cons tx rest ih =>
    rw [foldlM_cons, bind_eq_ok] at checked
    obtain ⟨next, stepped, looped⟩ := checked
    obtain ⟨fee, inputTotals, inputs, _, rfl, _⟩ := checkNext_ok stepped
    have spends : tx.isCoinbase = false := by
      unfold Transaction.isCoinbase
      split
      · rename_i input listed
        have present := inputs.present input (by simp [listed])
        rw [beq_eq_false_iff_ne]
        intro same
        rw [same] at present
        rw [show totals.view.toView.lookup OutPoint.coinbase = none from absent] at present
        cases present
      · rfl
    have following : (totals.view.apply tx context.height).lookup OutPoint.coinbase = none := by
      by_contra found
      obtain ⟨entry, found⟩ := Option.ne_none_iff_exists'.mp found
      rcases lookup_viewApply spends found with created | ⟨_, earlier⟩
      · have alone : ∀ other ∈ [tx], other.outputs.length < 2 ^ 32 := by
          intro other member
          rw [mem_singleton.mp member]
          exact few tx (.head _)
        refine coinbase_not_mem_createdBy alone ?_
        rwa [createdBy, flatMap_singleton]
      · rw [absent] at earlier
        cases earlier
    intro other member
    rcases mem_cons.mp member with rfl | later
    · exact spends
    · exact ih following (fun one inside => few one (.tail _ inside)) looped other later

omit [Crypto] in
theorem Transaction.few_outputs {tx : Transaction} (small : tx.encode.length ≤ maxBlockSize) :
    tx.outputs.length < 2 ^ 32 := by
  have counts := tx.counts_le_encode
  rw [maxBlockSize] at small
  omega

theorem shapes_of_loop (checked : rest.foldlM (checkNext context) totals = .ok final) :
    ∀ tx ∈ rest, tx.checkShape = .ok () := by
  intro tx member
  obtain ⟨_, _, stepped⟩ := foldlM_each checked tx member
  obtain ⟨_, _, _, _, _, shape⟩ := checkNext_ok stepped
  exact shape

variable [WorkHash] {network : Network} {nonce : UInt64} {history : Set Block} {blocks : List Block}

theorem Lineage.few_outputs (lineage : Lineage network nonce history blocks) :
    ∀ tx ∈ transactionsOf blocks, tx.outputs.length < 2 ^ 32 := by
  intro tx listed
  obtain ⟨block, member, inBlock⟩ := mem_flatMap.mp listed
  obtain ⟨before, after, split⟩ := append_of_mem member
  by_cases nonempty : before = []
  · have first := lineage.genesis
    rw [split, nonempty, nil_append, head?_cons] at first
    cases first
    rw [mem_singleton.mp inBlock]
    decide
  · obtain ⟨now, accepts⟩ := lineage.accepted before block after split nonempty
    obtain ⟨fees, accepted⟩ := accepts.checked
    obtain ⟨_, _, checked⟩ := checkBlock_ok accepted
    exact Transaction.few_outputs
      ((Block.transaction_length_le inBlock).trans (checkPlace_ok checked.place).1)

end Spending

/-! ## The candidate against the rules -/

section Candidate
variable [Crypto] {chain : Chain} {beneficiary : Hash256} {scheme : SchemeId}
  {mempool : List Transaction} {timestamp : UInt64} {context : BlockContext} {now fees time : Nat}

/-- The block assembled with no uncles, from the fees and the time. -/
def Chain.candidate (chain : Chain) (beneficiary : Hash256) (scheme : SchemeId)
    (mempool : List Transaction) (fees time : Nat) : Block :=
  (chain.candidateBody beneficiary time (chain.candidateCoinbase beneficiary scheme
    (blockSubsidy (chain.height + 1) + fees) (uncleRewards (chain.height + 1) 0).perUncle [] ::
      mempool) []).withRoots

omit [Crypto] in
theorem uncleRewards_zero (height : Nat) :
    (uncleRewards height 0).minerShare = blockSubsidy height := by
  rw [uncleRewards, saturatingMul, mul_zero, Nat.zero_min, Nat.sub_zero]

theorem assembleCandidate_eq (summed : candidateFees chain.utxo ∅ 0 mempool = some fees)
    (share : blockSubsidy (chain.height + 1) + fees < u64Bound)
    (timed : chain.candidateTime timestamp = some time) (early : time < u64Bound) :
    chain.assembleCandidate beneficiary scheme mempool [] timestamp =
      some (chain.candidate beneficiary scheme mempool fees time) := by
  have paid : checkedAdd (uncleRewards (chain.height + 1) ([] : List BlockHeader).length).minerShare
      fees = some (blockSubsidy (chain.height + 1) + fees) := by
    exact checkedAdd_eq_some.mpr ⟨share, rfl⟩
  simp only [Chain.assembleCandidate, summed, paid, timed, Option.bind_eq_bind, Option.bind_some,
    if_pos early]
  rfl

section
variable (inContext : chain.context now = some context)
include inContext

omit [Crypto] in
/-- The chosen time is late enough for both rules. -/
theorem candidateTime_rules (timed : chain.candidateTime timestamp = some time)
    (early : time < u64Bound) :
    medianTime context.recentTimes < (UInt64.ofNat time).toNat ∧
      checkAfterParent context.network context.height context.parentTime (UInt64.ofNat time) =
        .ok () := by
  have numeral : (UInt64.ofNat time).toNat = time := UInt64.toNat_ofNat_of_lt' early
  simp only [Chain.context, Option.bind_eq_bind, Option.bind_eq_some_iff, Option.pure_def,
    Option.some.injEq] at inContext
  obtain ⟨times, recent, rfl⟩ := inContext
  simp only [Chain.candidateTime, recent, Option.bind_eq_bind, Option.bind_some] at timed
  rw [numeral]
  split at timed
  · rename_i strict
    simp only [Option.bind_eq_some_iff, Option.pure_def, Option.some.injEq] at timed
    obtain ⟨tip, found, rfl⟩ := timed
    refine ⟨by dsimp only; omega, ?_⟩
    simp only [checkAfterParent, found, Option.map_some, require_eq_ok]
    rintro ⟨_, late⟩
    have ordered : (UInt64.ofNat _).toNat ≤ tip.header.time.toNat := late
    rw [numeral] at ordered
    omega
  · rename_i loose
    simp only [Option.pure_def, Option.some.injEq] at timed
    refine ⟨by dsimp only; omega, ?_⟩
    simp only [checkAfterParent]
    split
    · rfl
    · rw [require_eq_ok]
      exact fun both => loose both.1

omit [Crypto] in
theorem context_eq :
    context.network = chain.network ∧ context.height = chain.height + 1 ∧
      context.prevId = chain.tipId ∧ context.expectedBits = chain.nextBitsAfter chain.tipId ∧
      context.now = now ∧ context.cumulativeIssued = chain.issued := by
  simp only [Chain.context, Option.bind_eq_bind, Option.bind_eq_some_iff, Option.pure_def,
    Option.some.injEq] at inContext
  obtain ⟨times, _, rfl⟩ := inContext
  exact ⟨rfl, rfl, rfl, rfl, rfl, rfl⟩

theorem candidate_placed (timed : chain.candidateTime timestamp = some time)
    (early : time < u64Bound) (timely : time ≤ now + maxFutureTime)
    (small : chain.height + 1 < u64Bound)
    (fits : (chain.candidate beneficiary scheme mempool fees time).encode.length ≤ maxBlockSize) :
    checkPlacement (chain.candidate beneficiary scheme mempool fees time) context =
      checkAnchor chain.network (chain.height + 1)
        (chain.candidate beneficiary scheme mempool fees time).header.blockId := by
  obtain ⟨network, height, parent, bits, clock, _⟩ := context_eq inContext
  obtain ⟨median, after⟩ := candidateTime_rules inContext timed early
  have numeral : (UInt64.ofNat (chain.height + 1)).toNat = chain.height + 1 :=
    UInt64.toNat_ofNat_of_lt' small
  have moment : (UInt64.ofNat time).toNat = time := UInt64.toNat_ofNat_of_lt' early
  have inTime : (UInt64.ofNat time).toNat ≤ context.now + maxFutureTime := by rwa [moment, clock]
  generalize made : chain.candidate beneficiary scheme mempool fees time = block at fits ⊢
  have tall : block.header.height.toNat = context.height := made ▸ numeral.trans height.symm
  have below : block.header.prevBlock = context.prevId := made ▸ parent.symm
  have target : block.header.bits = context.expectedBits := made ▸ bits.symm
  have stamped : block.header.time = UInt64.ofNat time := made ▸ rfl
  have late : context.recentTimes = [] ∨ _ := .inr median
  unfold checkPlacement
  dsimp only
  have passes {rule : Prop} [Decidable rule] (holds : rule) (problem : ValidationError) :
      require rule problem = .ok () := require_eq_ok.mpr holds
  rw [passes fits, passes tall, passes below, passes target, stamped, passes late, after, network,
    height, passes inTime]
  cases checkAnchor chain.network (chain.height + 1) block.header.blockId <;> rfl

end

section
variable (bounded : blockSubsidy (chain.height + 1) + fees ≤ maxSupply)
include bounded

omit [Crypto] in
theorem candidateCoinbase_value :
    (UInt64.ofNat (blockSubsidy (chain.height + 1) + fees)).toNat =
      blockSubsidy (chain.height + 1) + fees := by
  have supply : maxSupply < UInt64.size := by decide
  exact UInt64.toNat_ofNat_of_lt' (by omega)

omit [Crypto] in
theorem candidateCoinbase_totalOutput (perUncle : Nat) :
    (chain.candidateCoinbase beneficiary scheme (blockSubsidy (chain.height + 1) + fees) perUncle
      []).totalOutput = .ok (blockSubsidy (chain.height + 1) + fees) := by
  have supply : maxSupply < u64Bound := by decide
  rw [Transaction.totalOutput, orRefuse_eq_ok, Chain.candidateCoinbase, map_nil,
    map_singleton, candidateCoinbase_value bounded, checkedSum, foldlM_checkedAdd_eq]
  · simp
  · rw [sum_singleton]
    omega

theorem candidate_shaped (spends : ∀ tx ∈ mempool, tx.isCoinbase = false)
    (shaped : ∀ tx ∈ mempool, tx.checkShape = .ok ()) :
    (chain.candidate beneficiary scheme mempool fees time).checkShape = .ok () := by
  have first : (chain.candidateCoinbase beneficiary scheme (blockSubsidy (chain.height + 1) + fees)
      (uncleRewards (chain.height + 1) 0).perUncle []).checkShape = .ok () := by
    simp only [Transaction.checkShape, bind_eq_ok, require_eq_ok]
    refine ⟨(), cons_ne_nil _ _, (), cons_ne_nil _ _, (), forM_eq_ok.mpr ?_, _,
      candidateCoinbase_totalOutput bounded _, bounded⟩
    intro output member
    rwa [mem_singleton.mp member, require_eq_ok, candidateCoinbase_value bounded]
  simp only [Block.checkShape, Chain.candidate, Chain.candidateBody, Block.withRoots, bind_eq_ok,
    require_eq_ok]
  refine ⟨(), rfl, (), ?_, (), forM_eq_ok.mpr ?_, (), require_eq_ok.mpr rfl, require_eq_ok.mpr rfl⟩
  · rw [any_eq_false]
    intro tx member
    rw [spends tx member]
    exact Bool.false_ne_true
  · intro tx member
    rw [mapError_eq_ok]
    rcases mem_cons.mp member with rfl | later
    · exact first
    · exact shaped tx later

end

omit [Crypto] in
/-- The coinbase is refused for dust, or meets every rule. -/
theorem candidate_coinbase {block : Block} (uncles : block.uncles = [])
    (miner : block.header.miner = beneficiary) (network : context.network = chain.network)
    (height : context.height = chain.height + 1)
    (bounded : blockSubsidy (chain.height + 1) + fees ≤ maxSupply)
    (scheduled : context.cumulativeIssued ≤ genesisPremint + cumulativeEmission chain.height)
    (allowed : schemeAllowed scheme chain.network (chain.height + 1) = true)
    (plain : scheme.isName = false) (perUncle : Nat) :
    checkCoinbase block (chain.candidateCoinbase beneficiary scheme
        (blockSubsidy (chain.height + 1) + fees) perUncle []) context fees =
      require (minOutputValue ≤ blockSubsidy (chain.height + 1) + fees)
        (.dustOutput minOutputValue (blockSubsidy (chain.height + 1) + fees)) := by
  have value := candidateCoinbase_value bounded
  have supply := premint_add_cumulativeEmission_le (chain.height + 1)
  have grows := cumulativeEmission_succ chain.height
  have bound : maxSupply < u64Bound := by decide
  have dust : checkDust (chain.candidateCoinbase beneficiary scheme
      (blockSubsidy (chain.height + 1) + fees) perUncle []) context.height =
      require (minOutputValue ≤ blockSubsidy (chain.height + 1) + fees)
        (.dustOutput minOutputValue (blockSubsidy (chain.height + 1) + fees)) := by
    rw [checkDust, height, if_pos (Nat.succ_pos _), Chain.candidateCoinbase, map_nil]
    change (require _ _ >>= fun _ => pure ()) = _
    rw [value, bind_pure_unit]
  by_cases paying : minOutputValue ≤ blockSubsidy (chain.height + 1) + fees
  · have passes : checkDust (chain.candidateCoinbase beneficiary scheme
        (blockSubsidy (chain.height + 1) + fees) perUncle []) context.height = .ok () := by
      rwa [dust, require_eq_ok]
    rw [require_eq_ok.mpr paying]
    simp only [checkCoinbase, bind_eq_ok, require_eq_ok, orRefuse_eq_ok, mapError_eq_ok]
    refine ⟨(), passes, (), ?_, blockSubsidy (chain.height + 1) + fees, ?_,
      blockSubsidy (chain.height + 1) + fees, ?_, (), le_rfl, _,
      candidateCoinbase_totalOutput bounded _,
      context.cumulativeIssued + blockSubsidy (chain.height + 1), ?_, (), ?_, forM_eq_ok.mpr ?_⟩
    · rw [height]
      exact isPrefixOf_iff_prefix.mpr prefix_rfl
    · simp only [checkPayees, Chain.candidateCoinbase, uncles, miner, map_nil, bind_eq_ok,
        require_eq_ok, pure_eq_ok]
      exact ⟨(), rfl, (), trivial, (), rfl, value⟩
    · rw [uncles, length_nil, height, uncleRewards_zero, checkedAdd_eq_some]
      omega
    · rw [Nat.add_sub_cancel, checkedAdd_eq_some]
      omega
    · omega
    · intro output member
      rw [mem_singleton.mp member]
      simp only [bind_eq_ok, require_eq_ok]
      exact ⟨(), plain, by rw [network, height]; exact allowed⟩
  · rw [checkCoinbase, dust, require, if_neg paying]
    rfl

variable [WorkHash]

/-- Besides its place, only the dust in the coinbase can make the rules refuse the candidate. -/
theorem candidate_checked {totals : BlockTotals} (inContext : chain.context now = some context)
    (bounded : blockSubsidy (chain.height + 1) + totals.fees ≤ maxSupply)
    (scheduled : chain.issued ≤ genesisPremint + cumulativeEmission chain.height)
    (allowed : schemeAllowed scheme chain.network (chain.height + 1) = true)
    (plain : scheme.isName = false) (spends : ∀ tx ∈ mempool, tx.isCoinbase = false)
    (shaped : ∀ tx ∈ mempool, tx.checkShape = .ok ())
    (looped : mempool.foldlM (checkNext context) ⟨{ confirmed := chain.utxo }, [], 0⟩ =
      .ok totals) :
    checkBesidesWork (chain.candidate beneficiary scheme mempool totals.fees time) chain.utxo
        context =
      checkPlacement (chain.candidate beneficiary scheme mempool totals.fees time) context >>=
        fun _ => require (minOutputValue ≤ blockSubsidy (chain.height + 1) + totals.fees)
          (.dustOutput minOutputValue (blockSubsidy (chain.height + 1) + totals.fees)) >>=
            fun _ => pure totals.fees := by
  obtain ⟨network, height, _, _, _, issued⟩ := context_eq inContext
  have shape : (chain.candidate beneficiary scheme mempool totals.fees time).checkShape = .ok () :=
    candidate_shaped bounded spends shaped
  have uncles : checkUncles (chain.candidate beneficiary scheme mempool totals.fees time) context =
      .ok () := rfl
  have coinbase := candidate_coinbase
    (show (chain.candidate beneficiary scheme mempool totals.fees time).uncles = [] from rfl)
    (show _ = beneficiary from rfl) network height bounded (issued.symm ▸ scheduled) allowed plain
    (uncleRewards (chain.height + 1) 0).perUncle
  rw [checkBesidesWork, shape, ← coinbase]
  refine congrArg _ (funext fun _ => ?_)
  change (mempool.foldlM (checkNext context) ⟨{ confirmed := chain.utxo }, [], 0⟩ >>= fun totals' =>
    checkUncles _ context >>= fun _ => checkCoinbase _ _ context totals'.fees >>= fun _ =>
      pure totals'.fees) = _
  simp only [looped, uncles]
  rfl

end Candidate

variable {context : BlockContext} {now : Nat}

section Reachable
variable [Crypto] [WorkHash] {network : Network} {nonce : UInt64} {history : Set Block}
  {chain : Chain} {blocks : List Block} {beneficiary : Hash256} {scheme : SchemeId}
  {mempool : List Transaction} {timestamp : UInt64}

omit [WorkHash] in
/-- The time can always be chosen. -/
theorem Sound.candidateTime_isSome (sound : Sound (headersOf history) chain)
    (inContext : chain.context now = some context)
    (timestamp : UInt64) : ∃ time, chain.candidateTime timestamp = some time := by
  obtain ⟨entry, found, _⟩ := sound.placed _ _ (Chain.tipId_eq sound.nonempty)
  simp only [Chain.context, Option.bind_eq_bind, Option.bind_eq_some_iff] at inContext
  obtain ⟨times, recent, _⟩ := inContext
  simp only [Chain.candidateTime, recent, found, Option.bind_eq_bind, Option.bind_some]
  split
  · exact ⟨_, rfl⟩
  · exact ⟨_, rfl⟩

/-- Transactions that pass, in a candidate not too large, leave the anchors and the dust rule to
decide. -/
theorem Tracks.candidate (tracks : Tracks network nonce history chain blocks)
    (sound : Sound (headersOf history) chain) (transactions : TransactionsApart history)
    {time : Nat} {totals : BlockTotals}
    (inContext : chain.context now = some context)
    (looped : mempool.foldlM (checkNext context) ⟨{ confirmed := chain.utxo }, [], 0⟩ = .ok totals)
    (allowed : schemeAllowed scheme chain.network (chain.height + 1) = true)
    (plain : scheme.isName = false) (timed : chain.candidateTime timestamp = some time)
    (timely : time ≤ now + maxFutureTime) (clock : now + maxFutureTime < u64Bound)
    (known : ∀ tx ∈ mempool, ∃ block ∈ history, tx ∈ block.transactions)
    (small : ∀ tx ∈ mempool, tx.encode.length ≤ maxBlockSize) :
    chain.assembleCandidate beneficiary scheme mempool [] timestamp =
        some (chain.candidate beneficiary scheme mempool totals.fees time) ∧
      ((chain.candidate beneficiary scheme mempool totals.fees time).encode.length ≤ maxBlockSize →
        checkBesidesWork (chain.candidate beneficiary scheme mempool totals.fees time) chain.utxo
            context =
          checkAnchor chain.network (chain.height + 1)
              (chain.candidate beneficiary scheme mempool totals.fees time).header.blockId >>=
            fun _ => require (minOutputValue ≤ blockSubsidy (chain.height + 1) + totals.fees)
              (.dustOutput minOutputValue (blockSubsidy (chain.height + 1) + totals.fees)) >>=
                fun _ => pure totals.fees) := by
  have ledger := tracks.lineage.sound transactions
  have tracked := ledger.tracked
  have coherent := ledger.coherent
  rw [← tracks.utxo] at tracked coherent
  obtain ⟨valued, scheduled⟩ := sound.tip
  have supply := premint_add_cumulativeEmission_le (chain.height + 1)
  have grows := cumulativeEmission_succ chain.height
  have bound : maxSupply < u64Bound := by decide
  have few : ∀ tx ∈ mempool, tx.outputs.length < 2 ^ 32 :=
    fun tx inside => Transaction.few_outputs (small tx inside)
  have absent : BlockView.lookup { confirmed := chain.utxo } OutPoint.coinbase = none := by
    by_contra found
    obtain ⟨entry, found⟩ := Option.ne_none_iff_exists'.mp found
    exact coinbase_not_mem_createdBy tracks.lineage.few_outputs (tracked.shown _ _ found).1
  have spends := isCoinbase_eq_false_of_loop absent few looped
  have apart : TxidsApart (transactionsOf blocks ++ mempool) := by
    refine Set.InjOn.mono ?_ transactions
    rintro preimage ⟨tx, inside, rfl⟩
    rcases mem_append.mp inside with earlier | here
    · obtain ⟨block, member, inBlock⟩ := mem_flatMap.mp earlier
      exact ⟨block, tracks.lineage.members block member, tx, inBlock, rfl⟩
    · obtain ⟨block, member, inBlock⟩ := known tx here
      exact ⟨block, member, tx, inBlock, rfl⟩
  have sizes : ∀ tx ∈ transactionsOf blocks ++ mempool, tx.Fits := by
    intro tx inside
    rcases mem_append.mp inside with earlier | here
    · exact tracked.fits tx earlier
    · exact Transaction.fits_of_encode (small tx here)
  have mirrored := ((Mirrored.start tracked coherent).run (fun _ _ _ => True)
    (fun _ _ _ _ _ _ _ _ _ => trivial) trivial apart sizes spends looped).1
  have unknown : ∀ tx ∈ mempool, ∀ outpoint ∈ tx.outpoints, chain.utxo.lookup outpoint = none := by
    intro tx inside outpoint created
    by_contra found
    obtain ⟨entry, found⟩ := Option.ne_none_iff_exists'.mp found
    have nodup := mirrored.inBlock.history.nodup
    rw [createdBy, flatMap_append, nodup_append] at nodup
    exact nodup.2.2 outpoint (tracked.shown _ _ found).1 outpoint
      (mem_flatMap.mpr ⟨tx, inside, created⟩) rfl
  have start := Covers.start chain.utxo
  have worth : jointValue chain.utxo.map ∅ = chain.utxo.totalValue := by
    rw [jointValue, total_empty, add_zero, UtxoSet.totalValue]
  have paid := start.loop {} spends looped
  have summed : candidateFees chain.utxo ∅ 0 mempool = some totals.fees := by
    refine candidateFees_eq rfl ?_ ?_ unknown start ?_ looped
    · intro outpoint
      rw [lookup_empty, lookup_empty, Option.map_none]
    · intro outpoint entry found
      cases found
    · dsimp only
      omega
  have shaped : ∀ tx ∈ mempool, tx.checkShape = .ok () := shapes_of_loop looped
  have room := tracks.lineage.length_le
  rw [← tracks.height_eq, activeCapacity] at room
  dsimp only at paid
  refine ⟨assembleCandidate_eq summed (by omega) timed (by omega), ?_⟩
  intro fits
  rw [candidate_checked inContext (by omega) scheduled allowed plain spends shaped looped,
    candidate_placed inContext timed (by omega) timely (by rw [u64Bound]; omega) fits]

omit [Crypto] [WorkHash] in
theorem checkAnchor_eq_ok {height : Nat} {id : Hash256} {done : Unit} :
    checkAnchor network height id = .ok done ↔
      ∀ expected, (height, expected) ∈ anchors network → expected = id := by
  have once : ((anchors network).map Prod.fst).Nodup := by
    cases network <;> decide
  unfold checkAnchor
  split
  · rename_i none
    refine iff_of_true rfl fun expected listed => ?_
    exact absurd (beq_self_eq_true height) (find?_eq_none.mp none _ listed)
  · rename_i place expected found
    obtain rfl : place = height := by simpa using find?_some found
    rw [require_eq_ok]
    constructor
    · rintro rfl other listed
      exact congrArg Prod.snd (inj_on_of_nodup_map once listed (mem_of_find?_eq_some found) rfl)
    · exact fun all => all expected (mem_of_find?_eq_some found)

/-- A candidate of transactions that pass in order is returned, and meets every rule but the work
exactly when its coinbase is not dust and it is the block anchored at its height, if one is. -/
theorem candidate_meets_rules (network : Network) (nonce : UInt64) (apart : HistoryApart history)
    (genesisIn : genesisBlock nonce ∈ history) (calls : List Call)
    (brings : ∀ call ∈ calls, call.From history) (beneficiary : Hash256) (scheme : SchemeId)
    (mempool : List Transaction) (timestamp : UInt64) (now : Nat)
    (known : ∀ tx ∈ mempool, ∃ block ∈ history, tx ∈ block.transactions)
    (small : ∀ tx ∈ mempool, tx.encode.length ≤ maxBlockSize) (plain : scheme.isName = false)
    (clock : now + maxFutureTime < u64Bound) :
    let chain := run calls (Chain.new network (genesisBlock nonce))
    schemeAllowed scheme network (chain.height + 1) = true →
    firstInvalidFrom network (chain.height + 1) 1 { confirmed := chain.utxo } [] mempool = none →
    (∀ time, chain.candidateTime timestamp = some time → time ≤ now + maxFutureTime) →
    ∃ context candidate, chain.context now = some context ∧
      chain.assembleCandidate beneficiary scheme mempool [] timestamp = some candidate ∧
      (candidate.encode.length ≤ maxBlockSize →
        ((∃ fees, checkBesidesWork candidate chain.utxo context = .ok fees) ↔
          minOutputValue ≤ blockSubsidy (chain.height + 1) +
              feesFrom (chain.height + 1) { confirmed := chain.utxo } mempool ∧
            ∀ id, (chain.height + 1, id) ∈ anchors network → id = candidate.header.blockId)) := by
  obtain ⟨sound, blocks, tracks⟩ := followed_run network nonce apart genesisIn brings
  generalize run calls (Chain.new network (genesisBlock nonce)) = chain at sound tracks ⊢
  dsimp only
  intro allowed valid timely
  obtain ⟨context, inContext, _⟩ := tracks.context sound apart.headers now
  obtain ⟨sameNetwork, sameHeight, _⟩ := context_eq inContext
  obtain ⟨time, timed⟩ := sound.candidateTime_isSome inContext timestamp
  have within : jointValue chain.utxo.map ∅ + 0 < u64Bound := by
    exact sound.totalValue_lt
  have start : Covers chain.utxo.map ∅
      (⟨{ confirmed := chain.utxo }, [], 0⟩ : BlockTotals).view.lookup := Covers.start chain.utxo
  rw [← tracks.network, ← sameNetwork, ← sameHeight] at valid
  obtain ⟨totals, looped⟩ := (firstInvalidFrom_eq_none mempool 1 start within).mp valid
  have fees := fees_eq_feesFrom looped
  rw [sameHeight, zero_add] at fees
  rw [← tracks.network] at allowed
  obtain ⟨assembled, checked⟩ := tracks.candidate sound apart.transactions inContext looped allowed
    plain timed (timely time timed) clock known small
  refine ⟨context, _, inContext, assembled, ?_⟩
  intro fits
  rw [checked fits, ← fees, ← tracks.network]
  simp only [bind_eq_ok, require_eq_ok, pure_eq_ok, exists_const, checkAnchor_eq_ok]
  constructor
  · rintro ⟨_, anchored, paying, _⟩
    exact ⟨paying, anchored⟩
  · rintro ⟨paying, anchored⟩
    exact ⟨_, anchored, paying, rfl⟩

end Reachable

/-- The candidate on the genesis. -/
theorem candidate_meets_rules_genesis :
    letI : Crypto := flatCrypto
    letI : WorkHash := zeroWork
    let chain := run [] (Chain.new .regtest (genesisBlock 0))
    ∃ context candidate, chain.context genesisTime.toNat = some context ∧
      chain.assembleCandidate Hash256.zero .mlDsa87 [] [] (genesisTime + 120) = some candidate ∧
      (candidate.encode.length ≤ maxBlockSize →
        ∃ fees, checkBesidesWork candidate chain.utxo context = .ok fees) := by
  let _ := flatCrypto
  let _ := zeroWork
  have timely : ∀ time, (run [] (Chain.new .regtest (genesisBlock 0))).candidateTime
      (genesisTime + 120) = some time → time ≤ genesisTime.toNat + maxFutureTime := by
    have chosen : (run [] (Chain.new .regtest (genesisBlock 0))).candidateTime (genesisTime + 120) =
        some (genesisTime.toNat + 120) := by decide +kernel
    intro time timed
    rw [chosen] at timed
    cases timed
    decide
  obtain ⟨context, candidate, inContext, assembled, met⟩ := candidate_meets_rules .regtest 0
    firstHistory_apart (.inl rfl) [] nofun Hash256.zero .mlDsa87 [] (genesisTime + 120)
    genesisTime.toNat nofun nofun rfl (by decide) rfl rfl timely
  refine ⟨context, candidate, inContext, assembled, fun fits => (met fits).mpr ⟨?_, nofun⟩⟩
  have height : (run [] (Chain.new .regtest (genesisBlock 0))).height = 0 := rfl
  rw [height, feesFrom, add_zero]
  exact minOutputValue_le_blockSubsidy (by decide)

/-! ## When the emission is over -/

section Ended

theorem exists_ended :
    ∃ height < 2 ^ 32, blockSubsidy (height + 1) < minOutputValue := by
  have full : ∀ height, safeHigh ≤ height → cumulativeEmission height = emissionCap :=
    fun height late => le_antisymm (cumulativeEmission_le_cap height)
      (cumulativeEmission_safeHigh.trans (cumulativeEmission_mono late))
  refine ⟨safeHigh, by decide, ?_⟩
  have grows := cumulativeEmission_succ safeHigh
  rw [full _ le_rfl, full _ (Nat.le_succ _)] at grows
  have some' : 0 < minOutputValue := by decide
  omega

/-- A last height whose reward, like every one before it, is not dust. -/
theorem exists_lastPaid :
    ∃ last < 2 ^ 32, blockSubsidy (last + 1) < minOutputValue ∧
      ∀ height < last, minOutputValue ≤ blockSubsidy (height + 1) := by
  obtain ⟨bound, small, ended⟩ := exists_ended
  obtain ⟨last, dust, least⟩ := wellFounded_lt.has_min
    {height | blockSubsidy (height + 1) < minOutputValue} ⟨bound, ended⟩
  have first : last ≤ bound := Nat.le_of_not_lt (least bound ended)
  refine ⟨last, by omega, dust, ?_⟩
  intro height before
  exact Nat.le_of_not_lt fun under => least height under before

/-- One trunk, one second a block. -/
def longTree : BlockTree := sampleTree (fun _ => 0) 0 0 (1, 0)

theorem longTree_marked (height : Nat) : longTree.Marked 0 height := by
  apply sampleTree_marked
  intro place _ _ same
  have branch := (Prod.mk.inj same).1
  rw [BlockTree.owner_zero] at branch
  cases branch

theorem longTree_chosen (place : Nat) : longTree.time 0 place = genesisTime.toNat + place := by
  change _ + (if 0 = 0 ∧ 0 < place then 0 else 0) = _
  rw [ite_self, add_zero]

variable [Crypto]

variable {height : Nat}

theorem longTree_time {place : Nat} (fits : height < 2 ^ 32) (below : place ≤ height) :
    (longTree.block 0 place).header.time.toNat = genesisTime.toNat + place := by
  have start : genesisTime.toNat < 2 ^ 31 := by decide
  cases place with
  | zero => rfl
  | succ place =>
    change (UInt64.ofNat (longTree.time 0 (place + 1))).toNat = _
    rw [longTree_chosen]
    exact UInt64.toNat_ofNat_of_lt' (by show _ < 2 ^ 64; omega)

theorem longTree_earlier (fits : height < 2 ^ 32) :
    ∀ block ∈ longTree.path 0 height,
      block.header.time.toNat < genesisTime.toNat + (height + 1) := by
  intro block listed
  obtain ⟨place, inside, rfl⟩ := mem_map.mp listed
  have below := mem_range.mp inside
  rw [BlockTree.owner_zero, longTree_time fits (by omega)]
  omega

variable [WorkHash]

/-- The trunk is mined up to the end of the rewards. -/
theorem longTree_reached (apart : HistoryApart longTree.history) (easy : EasyWork)
    (fits : height < 2 ^ 32)
    (paid : ∀ place < height, minOutputValue ≤ blockSubsidy (place + 1)) :
    ∃ calls : List Call, (∀ call ∈ calls, call.From longTree.history) ∧
      Tracks .regtest 0 longTree.history (run calls (Chain.new .regtest (genesisBlock 0)))
        (longTree.path 0 height) := by
  have genesisIn : genesisBlock 0 ∈ longTree.history := ⟨0, 0, ⟨.inl rfl, by decide, by decide⟩, rfl⟩
  induction height with
  | zero =>
    refine ⟨[], nofun, ?_⟩
    have tracks := Tracks.new .regtest 0 genesisIn
    rwa [show [genesisBlock 0] = longTree.path 0 0 from rfl] at tracks
  | succ height ih =>
    obtain ⟨calls, brings, tracks⟩ := ih (by omega) fun place below => paid place (by omega)
    obtain ⟨sound, _⟩ := followed_run .regtest 0 apart genesisIn brings
    have start : genesisTime.toNat < 2 ^ 31 := by decide
    have accepts := minedBlock_accepted height (genesisTime.toNat + (height + 1)) 0 easy
      (longTree.path_length 0 height) (by omega) (paid height (Nat.lt_succ_self _))
      (longTree_marked height).issued (longTree_earlier (by omega))
      (show _ < 2 ^ 64 by omega) (Nat.le_add_right _ maxFutureTime)
    have mined : longTree.block 0 (height + 1) = minedBlock (tipOf (longTree.path 0 height))
        (height + 1) (height + 1) (genesisTime.toNat + (height + 1)) 0 := by
      have next := longTree.block_succ 0 height
      have mark := longTree_marked (height + 1) (height + 1) (Nat.succ_pos _) le_rfl
      rwa [mark, BlockTree.owner_zero, longTree_chosen] at next
    rw [← mined] at accepts
    obtain ⟨next, fees, connected⟩ := tracks.connect_of_accepts sound apart.headers accepts
    have member : longTree.block 0 (height + 1) ∈ longTree.history :=
      ⟨0, height + 1, ⟨.inl rfl, by decide, by omega⟩, rfl⟩
    refine ⟨calls ++ [.connect (longTree.block 0 (height + 1))
      (genesisTime.toNat + (height + 1))], ?_, ?_⟩
    · intro call listed
      rcases mem_append.mp listed with earlier | last
      · exact brings call earlier
      · rwa [mem_singleton.mp last]
    · have after : run (calls ++ [.connect (longTree.block 0 (height + 1))
          (genesisTime.toNat + (height + 1))]) (Chain.new .regtest (genesisBlock 0)) = next := by
        rw [run, List.foldl_append, foldl_cons, foldl_nil, ← run, Call.perform, connected]
      rw [after, BlockTree.path_succ, BlockTree.owner_zero]
      exact tracks.connect sound apart.headers member connected

omit [WorkHash] in
/-- A candidate of a coinbase alone is small. -/
theorem candidate_length (chain : Chain) (fees time : Nat) :
    (chain.candidate Hash256.zero .mlDsa87 [] fees time).encode.length ≤ maxBlockSize := by
  simp [Chain.candidate, Chain.candidateBody, Block.withRoots, Chain.candidateCoinbase, Block.encode,
    BlockHeader.encode, Transaction.encode, Transaction.encodeWithoutWitness, TxIn.coinbase,
    encodeInput, encodeOutput, writeU32, writeU64, writeVarint, writeVarBytes,
    Hash256.length_bytes, maxBlockSize]

/-- On the trunk of the regression network the time asked for is the time chosen. -/
theorem longTree_candidateTime {chain : Chain}
    (apart : HistoryApart longTree.history) (sound : Sound (headersOf longTree.history) chain)
    (tracks : Tracks .regtest 0 longTree.history chain (longTree.path 0 height))
    (fits : height < 2 ^ 32) (inContext : chain.context now = some context) :
    chain.candidateTime (UInt64.ofNat (genesisTime.toNat + (height + 1))) =
      some (genesisTime.toNat + (height + 1)) := by
  have start : genesisTime.toNat < 2 ^ 31 := by decide
  have numeral : (UInt64.ofNat (genesisTime.toNat + (height + 1))).toNat =
      genesisTime.toNat + (height + 1) := UInt64.toNat_ofNat_of_lt' (by show _ < 2 ^ 64; omega)
  have loose : ¬ strictTimeActivation chain.network ≤ chain.height + 1 := by
    have far : 2 ^ 32 + 1 < strictTimeActivation .regtest := by decide
    rw [tracks.network, tracks.height_eq, BlockTree.path_length]
    omega
  obtain ⟨other, inOther, core⟩ := tracks.context sound apart.headers now
  rw [inContext] at inOther
  cases inOther
  have median : medianTime context.recentTimes < genesisTime.toNat + (height + 1) := by
    apply medianTime_lt (by omega)
    intro moment listed
    have times := congrArg BlockContext.recentTimes core
    change context.recentTimes = _ at times
    rw [times] at listed
    obtain ⟨header, recent, rfl⟩ := mem_map.mp listed
    have member := mem_of_mem_drop recent
    rw [ledgerOf_headers] at member
    obtain ⟨block, inside, rfl⟩ := mem_map.mp member
    exact longTree_earlier fits block inside
  simp only [Chain.context, Option.bind_eq_bind, Option.bind_eq_some_iff, Option.pure_def,
    Option.some.injEq] at inContext
  obtain ⟨times, recent, rfl⟩ := inContext
  simp only [Chain.candidateTime, recent, Option.bind_eq_bind, Option.bind_some, if_neg loose,
    numeral, Option.pure_def, Option.some.injEq]
  dsimp only at median
  omega

end Ended

/-- Once a reward is dust, a candidate without fees is refused by the rules of its own node. -/
theorem candidate_refused_after_emission :
    letI : Crypto := tailCrypto
    letI : WorkHash := zeroWork
    ∃ (history : Set Block) (calls : List Call) (timestamp : UInt64) (now time : Nat)
      (context : BlockContext) (candidate : Block),
      HistoryApart history ∧ genesisBlock 0 ∈ history ∧ (∀ call ∈ calls, call.From history) ∧
      let chain := run calls (Chain.new .regtest (genesisBlock 0))
      chain.context now = some context ∧ schemeAllowed .mlDsa87 .regtest (chain.height + 1) = true ∧
        chain.candidateTime timestamp = some time ∧ time ≤ now + maxFutureTime ∧
        chain.assembleCandidate Hash256.zero .mlDsa87 [] [] timestamp = some candidate ∧
        candidate.encode.length ≤ maxBlockSize ∧
        checkBesidesWork candidate chain.utxo context =
          .error (.dustOutput minOutputValue (blockSubsidy (chain.height + 1))) := by
  let _ := tailCrypto
  let _ := zeroWork
  have apart : HistoryApart longTree.history := sampleTree_historyApart
  have genesisIn : genesisBlock 0 ∈ longTree.history := ⟨0, 0, ⟨.inl rfl, by decide, by decide⟩, rfl⟩
  have start : genesisTime.toNat < 2 ^ 31 := by decide
  obtain ⟨last, limit, ended, paid⟩ := exists_lastPaid
  obtain ⟨calls, brings, tracks⟩ := longTree_reached apart zeroWork_easy limit paid
  obtain ⟨sound, _⟩ := followed_run .regtest 0 apart genesisIn brings
  refine ⟨longTree.history, calls, UInt64.ofNat (genesisTime.toNat + (last + 1)),
    genesisTime.toNat + (last + 1), genesisTime.toNat + (last + 1), ?_⟩
  generalize run calls (Chain.new .regtest (genesisBlock 0)) = chain at sound tracks ⊢
  obtain ⟨context, inContext, _⟩ := tracks.context sound apart.headers
    (genesisTime.toNat + (last + 1))
  have timed := longTree_candidateTime apart sound tracks limit inContext
  have height : chain.height = last := by
    have tall := tracks.height_eq
    rw [BlockTree.path_length] at tall
    omega
  have network := tracks.network
  have allowed : schemeAllowed .mlDsa87 .regtest (chain.height + 1) = true := rfl
  have clock : genesisTime.toNat + (last + 1) + maxFutureTime < u64Bound := by
    have future : maxFutureTime < 2 ^ 31 := by decide
    rw [u64Bound]
    omega
  obtain ⟨assembled, checked⟩ := tracks.candidate sound apart.transactions inContext
    (show [].foldlM (checkNext context) _ = .ok _ from rfl) (network.symm ▸ allowed) rfl timed
    (Nat.le_add_right _ _) clock nofun nofun
  refine ⟨context, _, apart, genesisIn, brings, inContext, allowed, timed, Nat.le_add_right _ _,
    assembled, candidate_length chain _ _, ?_⟩
  have dust : ¬ minOutputValue ≤ blockSubsidy (chain.height + 1) + 0 := by
    rw [height]
    exact not_le.mpr ended
  rw [checked (candidate_length chain _ _), network, require, if_neg dust]
  rfl

end Q21Formal.Ledger

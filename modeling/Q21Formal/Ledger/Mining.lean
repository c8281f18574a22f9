import Q21Formal.Ledger.Branches

/-!
# Trees of mined blocks

Blocks with nothing but a coinbase, mined on the regression network along a trunk and branches.
Long runs over such blocks are followed by induction where they could not be evaluated.
-/

namespace Q21Formal.Ledger
open Library.Codec Library.Refusal Primitives List

variable {height : Nat}

section
variable (mark : Nat)

theorem scheduledReward_first_epoch (early : height < decayEpochBlocks) :
    scheduledReward height = initialReward * height / slowStartBlocks := by
  have before : ¬ slowStartBlocks ≤ height := by
    have few : decayEpochBlocks < slowStartBlocks := by decide
    omega
  have paid : max (epochBaseReward 0) tailReward = initialReward := by decide
  rw [scheduledReward, Nat.div_eq_of_lt early, paid, applySlowStart, if_neg before]

theorem slow_reward_le (early : height < decayEpochBlocks) :
    initialReward * height / slowStartBlocks ≤ initialReward := by
  have few : height ≤ slowStartBlocks := by
    have window : decayEpochBlocks < slowStartBlocks := by decide
    omega
  apply Nat.div_le_of_le_mul
  rw [Nat.mul_comm]
  exact Nat.mul_le_mul_right _ few

theorem emittedBelow_le_first_epoch (early : height ≤ decayEpochBlocks) :
    emittedBelow height ≤ height * initialReward := by
  induction height with
  | zero => exact Nat.zero_le _
  | succ height ih =>
    rw [emittedBelow_succ, scheduledReward_first_epoch early, Nat.succ_mul]
    exact Nat.add_le_add (ih (Nat.le_of_succ_le early)) (slow_reward_le early)

/-- In the first epoch the reward grows with the height. -/
theorem blockSubsidy_first_epoch (early : height + 1 < decayEpochBlocks) :
    blockSubsidy (height + 1) = initialReward * (height + 1) / slowStartBlocks := by
  have most : emittedBelow (height + 1 + 1) ≤ emissionCap := by
    have whole : decayEpochBlocks * initialReward ≤ emissionCap := by decide
    exact (emittedBelow_le_first_epoch early).trans ((Nat.mul_le_mul_right _ early).trans whole)
  have grows := cumulativeEmission_succ height
  have added := emittedBelow_succ (height + 1)
  rw [cumulativeEmission_eq, cumulativeEmission_eq] at grows
  rw [← scheduledReward_first_epoch early]
  omega

/-- No reward of the first epoch is dust. -/
theorem minOutputValue_le_blockSubsidy (early : height + 1 < decayEpochBlocks) :
    minOutputValue ≤ blockSubsidy (height + 1) := by
  rw [blockSubsidy_first_epoch early, Nat.le_div_iff_mul_le (by decide)]
  have first : minOutputValue * slowStartBlocks ≤ initialReward := by decide
  exact first.trans (Nat.le_mul_of_pos_right _ (Nat.succ_pos height))

theorem blockSubsidy_le_maxSupply (height : Nat) : blockSubsidy height ≤ maxSupply := by
  have supply : emissionCap ≤ maxSupply := by decide
  rw [blockSubsidy]
  split
  · exact Nat.zero_le _
  · exact (Nat.sub_le _ _).trans ((cumulativeEmission_le_cap height).trans supply)

/-! ## Mined blocks -/

/-- A coinbase of the reward of the height it marks. -/
def minedCoinbase : Transaction where
  version := 1
  inputs := [TxIn.coinbase (leBytes 8 mark)]
  outputs := [⟨UInt64.ofNat (blockSubsidy mark), .mlDsa87, Hash256.zero⟩]
  lockTime := 0

theorem minedCoinbase_value : (UInt64.ofNat (blockSubsidy mark)).toNat = blockSubsidy mark := by
  have supply : maxSupply < UInt64.size := by decide
  have most := blockSubsidy_le_maxSupply mark
  rw [UInt64.toNat_ofNat_of_lt' (by omega)]

theorem minedCoinbase_totalOutput : (minedCoinbase mark).totalOutput = .ok (blockSubsidy mark) := by
  have supply : maxSupply < u64Bound := by decide
  have most := blockSubsidy_le_maxSupply mark
  have summed : checkedSum [blockSubsidy mark] = some (blockSubsidy mark) := by
    rw [checkedSum, foldlM_cons, checkedAdd, if_pos (by omega), Nat.zero_add]
    rfl
  rw [Transaction.totalOutput, minedCoinbase, map_singleton, minedCoinbase_value, summed]
  rfl

theorem minedCoinbase_shape : (minedCoinbase mark).checkShape = .ok () := by
  have most := blockSubsidy_le_maxSupply mark
  simp only [Transaction.checkShape, bind_eq_ok, require_eq_ok]
  refine ⟨(), cons_ne_nil _ _, (), cons_ne_nil _ _, (), forM_eq_ok.mpr ?_,
    blockSubsidy mark, minedCoinbase_totalOutput mark, most⟩
  intro output member
  rw [mem_singleton.mp member, require_eq_ok]
  exact (minedCoinbase_value mark).symm ▸ most

theorem minedCoinbase_length : (minedCoinbase mark).encode.length = 105 := by
  simp [minedCoinbase, Transaction.encode, Transaction.encodeWithoutWitness, TxIn.coinbase,
    encodeInput, encodeOutput, writeU32, writeU64, writeVarint, writeVarBytes,
    Hash256.length_bytes]

end

section Mined
variable [Crypto]

def minedBlock (parent : Hash256) (height mark time nonce : Nat) : Block where
  header :=
    { version := 1, prevBlock := parent
      merkleRoot := merkleRoot [(minedCoinbase mark).merkleLeaf]
      unclesRoot := merkleRoot [], miner := Hash256.zero, time := UInt64.ofNat time
      bits := initialBits, height := UInt64.ofNat height, nonce := UInt64.ofNat nonce }
  transactions := [minedCoinbase mark]
  uncles := []

variable (parent : Hash256) (height mark time nonce : Nat)

theorem minedBlock_shape : (minedBlock parent height mark time nonce).checkShape = .ok () := by
  simp only [Block.checkShape, minedBlock, bind_eq_ok, require_eq_ok]
  refine ⟨(), rfl, (), rfl, (), forM_eq_ok.mpr ?_, (), require_eq_ok.mpr rfl, require_eq_ok.mpr rfl⟩
  intro tx member
  rw [mem_singleton.mp member, minedCoinbase_shape]
  rfl

theorem minedBlock_length :
    (minedBlock parent height mark time nonce).encode.length ≤ maxBlockSize := by
  have coinbase := minedCoinbase_length mark
  simp [minedBlock, Block.encode, BlockHeader.encode, writeU32, writeU64, writeVarint,
    writeVarBytes, Hash256.length_bytes, coinbase, maxBlockSize]

omit [Crypto] in
theorem medianTime_lt {times : List UInt64} {bound : Nat} (positive : 0 < bound)
    (earlier : ∀ moment ∈ times, moment.toNat < bound) : medianTime times < bound := by
  rw [medianTime, getD_eq_getElem?_getD]
  cases found : (((times.reverse.take medianTimeSpan).map UInt64.toNat).insertionSort
      (· ≤ ·))[_ / 2]? with
  | none => exact positive
  | some moment =>
    have member := (mem_insertionSort _).mp (mem_of_getElem? found)
    obtain ⟨time, listed, rfl⟩ := mem_map.mp member
    exact earlier time (mem_reverse.mp (mem_of_mem_take listed))

theorem minedBlock_coinbase {context : BlockContext} (network : context.network = .regtest)
    (paying : minOutputValue ≤ blockSubsidy (height + 1)) (onHeight : context.height = height + 1)
    (issued : context.cumulativeIssued = genesisPremint + cumulativeEmission height) :
    checkCoinbase (minedBlock parent (height + 1) (height + 1) time nonce)
      (minedCoinbase (height + 1)) context 0 = .ok () := by
  have value := minedCoinbase_value (height + 1)
  have supply := premint_add_cumulativeEmission_le (height + 1)
  have grows := cumulativeEmission_succ height
  have bound : maxSupply < u64Bound := by decide
  have share : (uncleRewards (height + 1) 0).minerShare = blockSubsidy (height + 1) := by
    rw [uncleRewards, saturatingMul, Nat.mul_zero, Nat.zero_min, Nat.sub_zero]
  simp only [checkCoinbase, bind_eq_ok, require_eq_ok, orRefuse_eq_ok, mapError_eq_ok, onHeight,
    issued, network]
  refine ⟨(), ?_, (), ?_, blockSubsidy (height + 1), ?_, blockSubsidy (height + 1), ?_, (), le_rfl,
    blockSubsidy (height + 1), minedCoinbase_totalOutput _,
    genesisPremint + cumulativeEmission (height + 1), ?_, (), supply, forM_eq_ok.mpr ?_⟩
  · apply forM_eq_ok.mpr
    intro output member
    rwa [mem_singleton.mp member, require_eq_ok, value]
  · exact isPrefixOf_iff_prefix.mpr prefix_rfl
  · simp only [checkPayees, minedCoinbase, minedBlock, bind_eq_ok, require_eq_ok, pure_eq_ok]
    exact ⟨(), rfl, (), trivial, (), rfl, value⟩
  · have uncles : (minedBlock parent (height + 1) (height + 1) time nonce).uncles.length = 0 := rfl
    rw [uncles, share, checkedAdd_eq_some]
    omega
  · rw [checkedAdd_eq_some]
    omega
  · intro output member
    rw [mem_singleton.mp member]
    rfl

variable [WorkHash]

/-- Every header meets the easiest target. -/
def EasyWork : Prop :=
  ∀ (network : Network) (header : BlockHeader), beValue (WorkHash.hash network header) ≤ floorTarget

omit [Crypto] in
theorem checkWork_easy (easy : EasyWork) (network : Network) {header : BlockHeader}
    (bits : header.bits = initialBits) : checkWork network header = .ok () := by
  have target : targetFromCompact initialBits = .ok floorTarget := by decide +kernel
  simp only [checkWork, bits, target, bind_eq_ok, require_eq_ok]
  exact ⟨floorTarget, rfl, (), le_rfl, easy network header⟩

omit [Crypto] [WorkHash] in
theorem zeroWork_easy : @EasyWork zeroWork := by
  have zero : beValue Hash256.zero ≤ floorTarget := by decide +kernel
  exact fun _ _ => zero

/-- The identifier of the last block. -/
def tipOf (blocks : List Block) : Hash256 :=
  (blocks.getLast?.map fun block => block.header.blockId).getD Hash256.zero

/-- A block mined on others, later than all of them and not ahead of the clock, is accepted. -/
theorem minedBlock_accepted {blocks : List Block} {now : Nat} (easy : EasyWork)
    (length : blocks.length = height + 1) (small : height + 1 < 2 ^ 32)
    (paying : minOutputValue ≤ blockSubsidy (height + 1))
    (issued : (ledgerOf blocks).issued = genesisPremint + cumulativeEmission height)
    (later : ∀ block ∈ blocks, block.header.time.toNat < time) (fits : time < 2 ^ 64)
    (present : time ≤ now + maxFutureTime) :
    (ledgerOf blocks).Accepts .regtest
      (minedBlock (tipOf blocks) (height + 1) (height + 1) time nonce) now := by
  have room : 2 ^ 32 < activeCapacity := by decide
  have headers : (ledgerOf blocks).headers.length = height + 1 := by
    rw [ledgerOf_headers, length_map, length]
  have moment : (UInt64.ofNat time).toNat = time := UInt64.toNat_ofNat_of_lt' fits
  have numeral : (UInt64.ofNat (height + 1)).toNat = height + 1 := by
    have within : 2 ^ 32 < UInt64.size := by decide
    exact UInt64.toNat_ofNat_of_lt' (by omega)
  have tip : ((ledgerOf blocks).context .regtest now).prevId = tipOf blocks := by
    rw [LedgerState.context, tipOf, ledgerOf_headers, getLast?_map, Option.map_map]
    rfl
  have positive : 0 < time := by
    obtain ⟨first, rest, rfl⟩ := exists_cons_of_length_eq_add_one length
    exact Nat.zero_lt_of_lt (later first (.head _))
  have median : medianTime ((ledgerOf blocks).context .regtest now).recentTimes < time := by
    apply medianTime_lt positive
    intro other listed
    obtain ⟨header, recent, rfl⟩ := mem_map.mp listed
    have member := mem_of_mem_drop recent
    rw [ledgerOf_headers] at member
    obtain ⟨block, inside, rfl⟩ := mem_map.mp member
    exact later block inside
  have place : checkPlace (minedBlock (tipOf blocks) (height + 1) (height + 1) time nonce)
      ((ledgerOf blocks).context .regtest now) = .ok () := by
    simp only [checkPlace, bind_eq_ok, require_eq_ok, mapError_eq_ok]
    refine ⟨(), minedBlock_length _ _ _ _ _, (), ?_, (), tip.symm, (), rfl, (), .inr ?_, (), ?_, (),
      rfl, (), ?_, checkWork_easy easy _ rfl⟩
    · exact numeral.trans headers.symm
    · exact moment.symm ▸ median
    · have inactive : ¬ (strictTimeActivation .regtest ≤ height + 1) := by
        have far : 2 ^ 32 < strictTimeActivation .regtest := by decide
        omega
      unfold checkAfterParent
      split
      · rfl
      · rw [require_eq_ok]
        rintro ⟨active, _⟩
        exact inactive (headers ▸ active)
    · exact moment.symm ▸ present
  refine ⟨⟨0, ?_⟩, by omega⟩
  simp only [checkBlock, bind_eq_ok, mapError_eq_ok]
  refine ⟨(), place, (), minedBlock_shape _ _ _ _ _, ?_⟩
  simp only [minedBlock, bind_eq_ok, pure_eq_ok]
  exact ⟨_, rfl, (), rfl, (), minedBlock_coinbase _ _ _ _ rfl paying headers issued, rfl⟩

/-- A block whose coinbase marks another height is refused wherever it is put. -/
theorem minedBlock_refused {ledger : LedgerState} {now : Nat} {network : Network}
    (fits : height < 2 ^ 64) (markFits : mark < 2 ^ 64) (wrong : mark ≠ height) :
    ¬ ledger.Accepts network (minedBlock parent height mark time nonce) now := by
  rintro ⟨⟨fees, accepted⟩, _⟩
  obtain ⟨coinbase, rest, checked⟩ := checkBlock_ok accepted
  have listed := checked.transactions
  cases listed
  have onHeight := (checkPlace_ok checked.place).2.1
  have marked := (checkCoinbase_ok checked.uncles checked.coinbaseRules).2
  have numeral : (UInt64.ofNat height).toNat = height := UInt64.toNat_ofNat_of_lt' fits
  have same : leBytes 8 height = leBytes 8 mark := by
    have within := isPrefixOf_iff_prefix.mp marked
    rw [← onHeight] at within
    change leBytes 8 (UInt64.ofNat height).toNat <+: leBytes 8 mark at within
    rw [numeral] at within
    exact within.eq_of_length (by rw [leBytes_length, leBytes_length])
  exact wrong (leBytes_injective markFits fits same.symm)

end Mined

/-! ## Trees -/

/-- A trunk, which is branch 0, and branches that leave it; for each block its time and the height
its coinbase marks. -/
structure BlockTree where
  fork : Nat → Nat
  time : Nat → Nat → Nat
  mark : Nat → Nat → Nat

namespace BlockTree

/-- The branch that the block of `branch` at `height` belongs to. -/
def owner (tree : BlockTree) (branch height : Nat) : Nat :=
  if height ≤ tree.fork branch then 0 else branch

/-- A block's place: on the trunk, or on a branch above its fork. -/
structure Place (tree : BlockTree) (branch height : Nat) : Prop where
  own : branch = 0 ∨ tree.fork branch < height
  branchFits : branch < 2 ^ 32
  heightFits : height < 2 ^ 32

/-- Times rise along every branch, in the first epoch. -/
structure Rising (tree : BlockTree) (limit : Nat) : Prop where
  start : tree.time 0 0 = genesisTime.toNat
  rises : ∀ branch height, height < limit → tree.Place branch (height + 1) →
    tree.time (tree.owner branch height) height < tree.time branch (height + 1)
  fits : ∀ branch height, height < 2 ^ 32 → tree.time branch height < 2 ^ 64
  early : limit < decayEpochBlocks

/-- Every coinbase of the branch marks its own height. -/
def Marked (tree : BlockTree) (branch height : Nat) : Prop :=
  ∀ place, 0 < place → place ≤ height → tree.mark (tree.owner branch place) place = place

variable (tree : BlockTree) {branch height limit : Nat}

theorem Rising.short (rising : tree.Rising limit) : limit < 2 ^ 32 :=
  rising.early.trans (by decide)

theorem owner_zero (height : Nat) : tree.owner 0 height = 0 := by
  rw [owner]
  split <;> rfl

theorem owner_owner_succ (branch height : Nat) :
    tree.owner (tree.owner branch (height + 1)) height = tree.owner branch height := by
  by_cases below : height + 1 ≤ tree.fork branch
  · have still : height ≤ tree.fork branch := by omega
    rw [owner, owner, if_pos below, owner, if_pos still]
    split <;> rfl
  · rw [owner.eq_1 tree branch (height + 1), if_neg below]

theorem place_owner (branchFits : branch < 2 ^ 32) (heightFits : height < 2 ^ 32) :
    tree.Place (tree.owner branch height) height := by
  rw [owner]
  split
  · exact ⟨.inl rfl, by decide, heightFits⟩
  · exact ⟨.inr (by omega), branchFits, heightFits⟩

theorem Place.owner_eq (place : tree.Place branch height) : tree.owner branch height = branch := by
  rcases place.own with rfl | above
  · exact tree.owner_zero height
  · rw [owner, if_neg (by omega)]

section Blocks
variable [Crypto]

def block : Nat → Nat → Block
  | _, 0 => genesisBlock 0
  | branch, height + 1 =>
    minedBlock (block (tree.owner branch height) height).header.blockId (height + 1)
      (tree.mark branch (height + 1)) (tree.time branch (height + 1)) branch

/-- The blocks of a branch up to a height, the genesis first. -/
def path (branch height : Nat) : List Block :=
  (range (height + 1)).map fun place => tree.block (tree.owner branch place) place

def history : Set Block :=
  {block | ∃ branch height, tree.Place branch height ∧ tree.block branch height = block}

theorem path_length (branch height : Nat) : (tree.path branch height).length = height + 1 := by
  rw [path, length_map, length_range]

theorem path_succ (branch height : Nat) : tree.path branch (height + 1) =
      tree.path branch height ++ [tree.block (tree.owner branch (height + 1)) (height + 1)] := by
  rw [path, range_succ, map_append, map_singleton, path]

theorem tipOf_path (branch height : Nat) : tipOf (tree.path branch height) =
      (tree.block (tree.owner branch height) height).header.blockId := by
  rw [tipOf, path, range_succ, map_append, map_singleton, getLast?_concat]
  rfl

/-- The next block of a branch is mined on the path below it. -/
theorem block_succ (branch height : Nat) :
    tree.block (tree.owner branch (height + 1)) (height + 1) =
      minedBlock (tipOf (tree.path branch height)) (height + 1)
        (tree.mark (tree.owner branch (height + 1)) (height + 1))
        (tree.time (tree.owner branch (height + 1)) (height + 1))
        (tree.owner branch (height + 1)) := by
  rw [block, owner_owner_succ, tipOf_path]

theorem path_take (branch : Nat) {below height : Nat} (lower : below ≤ height) :
    (tree.path branch height).take (below + 1) = tree.path branch below := by
  rw [path, ← map_take, take_range, Nat.min_eq_left (by omega), path]

variable {tree}

theorem Rising.time_eq (rising : tree.Rising limit) (place : tree.Place branch height) :
    (tree.block branch height).header.time.toNat = tree.time branch height := by
  cases height with
  | zero =>
    have trunk : branch = 0 := place.own.resolve_right (Nat.not_lt_zero _)
    rw [trunk, rising.start]
    rfl
  | succ height =>
    exact UInt64.toNat_ofNat_of_lt' (rising.fits branch (height + 1) place.heightFits)

theorem Rising.path_time (rising : tree.Rising limit) (branchFits : branch < 2 ^ 32)
    (inside : height ≤ limit) :
    ∀ block ∈ tree.path branch height,
      block.header.time.toNat ≤ tree.time (tree.owner branch height) height := by
  have limited := rising.short
  induction height with
  | zero =>
    intro block listed
    rw [path, range_one, map_singleton, mem_singleton] at listed
    rw [listed, rising.time_eq (tree.place_owner branchFits (by omega))]
  | succ height ih =>
    have rises := rising.rises _ height (by omega)
      (tree.place_owner branchFits (show height + 1 < 2 ^ 32 by omega))
    rw [owner_owner_succ] at rises
    intro block listed
    rw [path_succ, mem_append, mem_singleton] at listed
    rcases listed with below | rfl
    · exact (ih (by omega) block below).trans rises.le
    · rw [rising.time_eq (tree.place_owner branchFits (by omega))]

theorem Marked.issued (marked : tree.Marked branch height) :
    (ledgerOf (tree.path branch height)).issued = genesisPremint + cumulativeEmission height := by
  induction height with
  | zero =>
    have none' : cumulativeEmission 0 = 0 := by
      decide
    rw [none', Nat.add_zero, path, range_one, map_singleton, owner]
    change 0 + (genesisCoinbase.outputValue - 0) = _
    rw [← Transaction.totalOutput_eq genesisCoinbase_totalOutput, Nat.sub_zero, Nat.zero_add]
  | succ height ih =>
    have before := ih fun place positive below => marked place positive (by omega)
    have mark := marked (height + 1) (Nat.succ_pos _) le_rfl
    have value := Transaction.totalOutput_eq (minedCoinbase_totalOutput (height + 1))
    rw [path_succ, ledgerOf_concat, LedgerState.extend, block_succ, mark, before,
      cumulativeEmission_succ, Nat.add_assoc]
    change _ + (_ + ((minedCoinbase (height + 1)).outputValue - 0)) = _
    rw [← value, Nat.sub_zero]

variable [WorkHash]

/-- The next block of a branch is accepted on the path below it. -/
theorem Rising.accepts (rising : tree.Rising limit) (easy : EasyWork)
    (branchFits : branch < 2 ^ 32) (inside : height < limit)
    (marked : tree.Marked branch (height + 1)) {now : Nat}
    (present : tree.time (tree.owner branch (height + 1)) (height + 1) ≤ now + maxFutureTime) :
    (ledgerOf (tree.path branch height)).Accepts .regtest
      (tree.block (tree.owner branch (height + 1)) (height + 1)) now := by
  have limited := rising.short
  have mark := marked (height + 1) (Nat.succ_pos _) le_rfl
  have below : tree.Marked branch height := fun place positive lower =>
    marked place positive (by omega)
  have rises := rising.rises _ height inside
    (tree.place_owner branchFits (show height + 1 < 2 ^ 32 by omega))
  rw [owner_owner_succ] at rises
  rw [block_succ, mark]
  apply minedBlock_accepted _ _ _ easy (tree.path_length branch height) (by omega)
    (minOutputValue_le_blockSubsidy (by linarith [rising.early])) below.issued
  · intro block listed
    exact (rising.path_time branchFits inside.le block listed).trans_lt rises
  · exact rising.fits _ _ (by omega)
  · exact present

/-- No path goes through a block whose coinbase marks another height. -/
theorem not_lineage {step : Nat} (leaves : tree.fork branch ≤ step) (inside : step + 1 ≤ height)
    (fits : height < 2 ^ 32) (markFits : tree.mark branch (step + 1) < 2 ^ 64)
    (wrong : tree.mark branch (step + 1) ≠ step + 1) :
    ¬ Lineage .regtest 0 tree.history (tree.path branch height) := by
  intro lineage
  have own : tree.owner branch (step + 1) = branch := by rw [owner, if_neg (by omega)]
  have split : tree.path branch height = tree.path branch step ++
      tree.block branch (step + 1) :: (tree.path branch height).drop (step + 1 + 1) := by
    have upper := tree.path_take branch inside
    rw [path_succ, own] at upper
    rw [← singleton_append, ← append_assoc, ← upper, take_append_drop]
  have nonempty : tree.path branch step ≠ [] := by
    rw [← length_pos_iff, path_length]
    omega
  obtain ⟨now, accepts⟩ := lineage.accepted _ _ _ split nonempty
  exact minedBlock_refused _ _ _ _ _ (by omega) markFits wrong accepts

end Blocks

end BlockTree

/-- The last 32 bytes of a message. -/
def tailHash (message : Bytes) : Hash256 :=
  ⟨(replicate 32 0 ++ message).drop message.length, by
    rw [length_drop, length_append, length_replicate, Nat.add_sub_cancel]⟩

theorem tailHash_append (front : Bytes) {ending : Bytes} (length : ending.length = 32) :
    (tailHash (front ++ ending)).bytes = ending := by
  have cut : (front ++ ending).length = (replicate 32 (0 : UInt8) ++ front).length := by
    rw [length_append, length_append, length_replicate, length, Nat.add_comm]
  change (replicate 32 0 ++ (front ++ ending)).drop (front ++ ending).length = ending
  rw [cut, ← append_assoc, drop_left]

/-- Functions to follow long runs with: headers and coinbases hash to their last bytes. -/
@[reducible] def tailCrypto : Crypto := { checksumCrypto with sha256 := tailHash }

/-- What the tail of a header consists of. -/
def BlockHeader.ending (header : BlockHeader) : Bytes :=
  header.miner.bytes.drop 28 ++ (writeU64 header.time ++ (writeU32 header.bits ++
    (writeU64 header.height ++ writeU64 header.nonce)))

theorem tailCrypto_blockId (header : BlockHeader) :
    (@BlockHeader.blockId tailCrypto header).bytes = header.ending := by
  have split : header.encode =
      (writeU32 header.version ++ header.prevBlock.bytes ++ header.merkleRoot.bytes ++
        header.unclesRoot.bytes ++ header.miner.bytes.take 28) ++ header.ending := by
    rw [BlockHeader.encode, BlockHeader.ending]
    simp only [append_assoc]
    rw [← append_assoc (header.miner.bytes.take 28), take_append_drop]
  have length : header.ending.length = 32 := by
    simp [BlockHeader.ending, writeU64, writeU32, Hash256.length_bytes]
  change (tailHash (_ ++ _ ++ header.encode)).bytes = _
  rw [split, ← append_assoc]
  exact tailHash_append _ length

theorem BlockHeader.ending_inj {first second : BlockHeader} (same : first.ending = second.ending) :
    first.time = second.time ∧ first.bits = second.bits ∧ first.height = second.height ∧
      first.nonce = second.nonce := by
  have lengths : (first.miner.bytes.drop 28).length = (second.miner.bytes.drop 28).length := by
    rw [length_drop, length_drop, Hash256.length_bytes, Hash256.length_bytes]
  obtain ⟨_, rest⟩ := append_inj same lengths
  obtain ⟨time, rest⟩ := writeU64_selfDelimiting _ _ _ _ rest
  obtain ⟨bits, rest⟩ := writeU32_selfDelimiting _ _ _ _ rest
  obtain ⟨height, rest⟩ := writeU64_selfDelimiting _ _ _ _ rest
  exact ⟨time, bits, height, writeU64_selfDelimiting.injective rest⟩

theorem tailCrypto_coinbase (mark : Nat) :
    (@taggedHash tailCrypto .tx (minedCoinbase mark).txidPreimage).bytes =
      replicate 15 0 ++ (writeU64 0 ++ ([8] ++ leBytes 8 mark)) := by
  have split : (minedCoinbase mark).txidPreimage =
      (writeU32 1 ++ (writeVarint 1 ++ (encodeInput (TxIn.coinbase []) ++ (writeVarint 1 ++
        (writeU64 (UInt64.ofNat (blockSubsidy mark)) ++ ([SchemeId.mlDsa87.asU8] ++
          replicate 17 0)))))) ++
        (replicate 15 0 ++ (writeU64 0 ++ ([8] ++ leBytes 8 mark))) := by
    have zeros : Hash256.zero.bytes = replicate 17 0 ++ replicate 15 0 := rfl
    have data : writeVarBytes (leBytes 8 mark) = [8] ++ leBytes 8 mark := by
      rfl
    have coinbase : (minedCoinbase mark).isCoinbase = true := rfl
    have content : (minedCoinbase mark).coinbaseData = leBytes 8 mark := rfl
    rw [Transaction.txidPreimage, coinbase, if_pos rfl, content, data,
      Transaction.encodeWithoutWitness]
    simp only [minedCoinbase, flatMap_cons, flatMap_nil, append_nil, encodeOutput,
      zeros, append_assoc]
    rfl
  have length : (replicate 15 0 ++ (writeU64 0 ++ ([8] ++ leBytes 8 mark))).length = 32 := by
    simp [writeU64]
  change (tailHash (_ ++ _ ++ (minedCoinbase mark).txidPreimage)).bytes = _
  rw [split, ← append_assoc]
  exact tailHash_append _ length

namespace BlockTree

variable {tree : BlockTree}

theorem tail_headersApart : @HashesApart tailCrypto (@headersOf (@history tree tailCrypto)) := by
  let _ := tailCrypto
  have shape : ∀ {branch height : Nat}, tree.Place branch height →
      (tree.block branch height).header.bits = initialBits ∧
        (tree.block branch height).header.height.toNat = height ∧
        (tree.block branch height).header.nonce.toNat = branch := by
    intro branch height place
    cases height with
    | zero =>
      have trunk : branch = 0 := place.own.resolve_right (Nat.not_lt_zero _)
      subst trunk
      exact ⟨rfl, rfl, rfl⟩
    | succ height =>
      have small : (2 : Nat) ^ 32 < UInt64.size := by decide
      exact ⟨rfl, UInt64.toNat_ofNat_of_lt' (place.heightFits.trans small),
        UInt64.toNat_ofNat_of_lt' (place.branchFits.trans small)⟩
  constructor
  · rintro _ ⟨_, ⟨branch, height, place, rfl⟩, rfl⟩ _ ⟨_, ⟨branch', height', place', rfl⟩, rfl⟩ same
    have endings := congrArg Hash256.bytes same
    rw [tailCrypto_blockId, tailCrypto_blockId] at endings
    obtain ⟨_, _, heights, nonces⟩ := BlockHeader.ending_inj endings
    obtain ⟨_, atHeight, ofBranch⟩ := shape place
    obtain ⟨_, atHeight', ofBranch'⟩ := shape place'
    have sameHeight : height = height' := by rw [← atHeight, ← atHeight', heights]
    have sameBranch : branch = branch' := by rw [← ofBranch, ← ofBranch', nonces]
    rw [sameHeight, sameBranch]
  · rintro _ ⟨_, ⟨branch, height, place, rfl⟩, rfl⟩ zero
    have ending := congrArg Hash256.bytes zero
    let null : BlockHeader := ⟨0, .zero, .zero, .zero, .zero, 0, 0, 0, 0⟩
    have nullEnding : Hash256.zero.bytes = null.ending := by decide
    rw [tailCrypto_blockId, nullEnding] at ending
    obtain ⟨_, bits, _⟩ := BlockHeader.ending_inj ending
    rw [(shape place).1] at bits
    exact absurd bits (by decide)

section
variable (marks : ∀ branch height, tree.Place branch height → tree.mark branch height < 2 ^ 64)
include marks

theorem tail_transactionsApart : @TransactionsApart tailCrypto (@history tree tailCrypto) := by
  let _ := tailCrypto
  have genesisTail : (taggedHash .tx genesisCoinbase.txidPreimage).bytes.head? ≠ some 0 := by
    decide +kernel
  have minedTail : ∀ mark,
      (taggedHash .tx (minedCoinbase mark).txidPreimage).bytes.head? = some 0 := by
    intro mark
    rw [tailCrypto_coinbase]
    rfl
  have kinds : ∀ tx, (∃ block ∈ tree.history, tx ∈ block.transactions) →
      tx = genesisCoinbase ∨ ∃ mark < 2 ^ 64, tx = minedCoinbase mark := by
    rintro tx ⟨_, ⟨branch, height, place, rfl⟩, listed⟩
    cases height with
    | zero => exact .inl (mem_singleton.mp listed)
    | succ height => exact .inr ⟨_, marks branch (height + 1) place, mem_singleton.mp listed⟩
  rintro _ ⟨block, member, tx, listed, rfl⟩ _ ⟨other, member', tx', listed', rfl⟩ same
  rcases kinds tx ⟨block, member, listed⟩ with rfl | ⟨mark, fits, rfl⟩
  · rcases kinds tx' ⟨other, member', listed'⟩ with rfl | ⟨mark', _, rfl⟩
    · rfl
    · have mined := minedTail mark'
      rw [← same] at mined
      exact absurd mined genesisTail
  · rcases kinds tx' ⟨other, member', listed'⟩ with rfl | ⟨mark', fits', rfl⟩
    · have mined := minedTail mark
      rw [same] at mined
      exact absurd mined genesisTail
    · have endings := congrArg Hash256.bytes same
      rw [tailCrypto_coinbase, tailCrypto_coinbase] at endings
      have marked := append_cancel_left (append_cancel_left (append_cancel_left endings))
      rw [leBytes_injective fits fits' marked]

theorem tail_historyApart : @HistoryApart tailCrypto (@history tree tailCrypto) :=
  @HistoryApart.mk tailCrypto _ tail_headersApart (tail_transactionsApart marks)

end

end BlockTree

/-- One second a block, and the trunk above `calm` ahead by `lead`; one coinbase marks no height. -/
def sampleTree (fork : Nat → Nat) (calm lead : Nat) (wrong : Nat × Nat) : BlockTree where
  fork := fork
  time branch height :=
    genesisTime.toNat + height + if branch = 0 ∧ calm < height then lead else 0
  mark branch height := if (branch, height) = wrong then 0 else height

section Sample
variable {fork : Nat → Nat} {calm lead : Nat} {wrong : Nat × Nat} {branch height limit : Nat}

/-- Times rise when every branch leaves the trunk where it is calm. -/
theorem sampleTree_rising (calmForks : ∀ branch, fork branch ≤ calm) (bounded : lead < 2 ^ 40)
    (early : limit < decayEpochBlocks) :
    (sampleTree fork calm lead wrong).Rising limit := by
  refine ⟨?_, ?_, ?_, early⟩
  · change genesisTime.toNat + 0 + (if 0 = 0 ∧ calm < 0 then lead else 0) = _
    rw [if_neg (by omega), Nat.add_zero]
  · intro branch height _ place
    have calmFork := calmForks branch
    have own : (sampleTree fork calm lead wrong).owner branch height =
        if height ≤ fork branch then 0 else branch := rfl
    change genesisTime.toNat + height +
      (if (sampleTree fork calm lead wrong).owner branch height = 0 ∧ calm < height then lead
        else 0) <
      genesisTime.toNat + (height + 1) + if branch = 0 ∧ calm < height + 1 then lead else 0
    rw [own]
    split_ifs <;> omega
  · intro branch height fits
    have start : genesisTime.toNat < 2 ^ 31 := by decide
    change genesisTime.toNat + height + (if branch = 0 ∧ calm < height then lead else 0) < _
    split_ifs <;> omega

theorem sampleTree_time_le (branch height : Nat) :
    (sampleTree fork calm lead wrong).time branch height ≤ genesisTime.toNat + height + lead := by
  change _ + (if branch = 0 ∧ calm < height then lead else 0) ≤ _
  split_ifs <;> omega

theorem sampleTree_time_side (side : branch ≠ 0) (height : Nat) :
    (sampleTree fork calm lead wrong).time branch height = genesisTime.toNat + height := by
  change _ + (if branch = 0 ∧ calm < height then lead else 0) = _
  rw [if_neg fun both => side both.1, Nat.add_zero]

theorem sampleTree_marked (right : ∀ place, 0 < place → place ≤ height →
      ((sampleTree fork calm lead wrong).owner branch place, place) ≠ wrong) :
    (sampleTree fork calm lead wrong).Marked branch height :=
  fun place positive low => if_neg (right place positive low)

theorem sampleTree_historyApart :
    @HistoryApart tailCrypto (@BlockTree.history (sampleTree fork calm lead wrong) tailCrypto) := by
  apply BlockTree.tail_historyApart
  intro branch height place
  have fits := place.heightFits
  change (if (branch, height) = wrong then 0 else height) < _
  split_ifs <;> omega

end Sample

end Q21Formal.Ledger

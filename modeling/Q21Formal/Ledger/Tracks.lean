import Q21Formal.Ledger.Headers
import Q21Formal.Ledger.Recorded

/-!
# A chain follows its blocks

What a chain is for, apart from how a node keeps it: what a list of blocks leaves when they are
applied one after the other.  Behind every state a node can reach stand the blocks of its active
chain: its outputs, emission and undo records are those the blocks leave.
-/

namespace Q21Formal.Ledger
open Library.Refusal Primitives List Option

/-- The context without what only uncles are checked against. -/
def BlockContext.core (context : BlockContext) : BlockContext :=
  { context with ancestors := [], claimedUncles := [], uncleExpectedBits := [] }

section Contexts
variable [Crypto] [WorkHash]

/-- With no uncle allowed, the uncles are checked against nothing. -/
theorem checkUncles_core (block : Block) (context : BlockContext) :
    checkUncles block context.core = checkUncles block context := by
  unfold checkUncles
  cases listed : block.uncles with
  | nil => rfl
  | cons uncle rest =>
    rfl

theorem checkBlock_core (block : Block) (utxo : UtxoSet) (context : BlockContext) :
    checkBlock block utxo context.core = checkBlock block utxo context := by
  have place : checkPlace block context.core = checkPlace block context := rfl
  have next : checkNext context.core = checkNext context := rfl
  have rules : ∀ coinbase fees,
      checkCoinbase block coinbase context.core fees = checkCoinbase block coinbase context fees :=
    fun _ _ => rfl
  unfold checkBlock
  rw [place, next]
  simp only [checkUncles_core, rules]

/-- A later clock, or any that the block's time is not ahead of, accepts what one accepted. -/
theorem checkPlace_now {block : Block} {context : BlockContext} {now : Nat}
    (checked : checkPlace block context = .ok ())
    (present : block.header.time.toNat ≤ now + maxFutureTime) :
    checkPlace block { context with now } = .ok () := by
  simp only [checkPlace, bind_eq_ok, require_eq_ok] at checked ⊢
  obtain ⟨_, size, _, height, _, parent, _, bits, _, median, _, after, _, anchor, _, _, work⟩ :=
    checked
  exact ⟨(), size, (), height, (), parent, (), bits, (), median, (), after, (), anchor, (), present,
    work⟩

theorem checkBlock_now {block : Block} {utxo : UtxoSet} {context : BlockContext} {fees now : Nat}
    (checked : checkBlock block utxo context = .ok fees)
    (present : block.header.time.toNat ≤ now + maxFutureTime) :
    checkBlock block utxo { context with now } = .ok fees := by
  simp only [checkBlock, bind_eq_ok] at checked ⊢
  obtain ⟨_, place, _, shape, checked⟩ := checked
  refine ⟨(), checkPlace_now place present, (), shape, ?_⟩
  exact checked

end Contexts

structure LedgerState where
  headers : List BlockHeader := []
  utxo : UtxoSet := {}
  issued : Nat := 0
  /-- The undo records of all blocks, the newest first. -/
  records : List UndoRecord := []

section Ledgers
variable [Crypto] {now : Nat} {ledger : LedgerState}

section
variable (blocks : List Block) (block : Block)

/-- What the block's coinbase creates beyond the fees. -/
def Block.emission (utxo : UtxoSet) (height : Nat) : Nat :=
  match block.transactions with
  | [] => 0
  | coinbase :: rest => coinbase.outputValue - feesFrom height { confirmed := utxo } rest

def LedgerState.extend (ledger : LedgerState) (block : Block) : LedgerState :=
  let applied :=
    ledger.utxo.applyTransactions {} ledger.headers.length block.transactions
  { headers := ledger.headers ++ [block.header]
    utxo := applied.1
    issued := ledger.issued + block.emission ledger.utxo ledger.headers.length
    records := applied.2 :: ledger.records }

/-- The ledger after the blocks, the genesis first. -/
def ledgerOf : LedgerState := blocks.foldl LedgerState.extend {}

theorem ledgerOf_concat : ledgerOf (blocks ++ [block]) = (ledgerOf blocks).extend block := by
  rw [ledgerOf, foldl_concat, ledgerOf]

theorem ledgerOf_headers : (ledgerOf blocks).headers = blocks.map Block.header := by
  induction blocks using reverseRecOn with
  | nil => rfl
  | append_singleton blocks block ih =>
    rw [ledgerOf_concat, LedgerState.extend, ih, map_append, map_singleton]

/-- The context of the next block. -/
def LedgerState.context (network : Network) (ledger : LedgerState) (now : Nat) : BlockContext where
  network := network
  height := ledger.headers.length
  prevId := (ledger.headers.getLast?.map BlockHeader.blockId).getD Hash256.zero
  recentTimes := (lastOf medianTimeSpan ledger.headers).map BlockHeader.time
  parentTime := ledger.headers.getLast?.map BlockHeader.time
  expectedBits :=
    if network = .regtest then initialBits else nextBits (lastOf (lwmaWindow + 1) ledger.headers)
  now := now
  ancestors := []
  claimedUncles := []
  uncleExpectedBits := []
  cumulativeIssued := ledger.issued

end

variable [WorkHash]

/-- The block is accepted on the ledger at the clock `now`. -/
structure LedgerState.Accepts (network : Network) (ledger : LedgerState) (block : Block) (now : Nat) :
    Prop where
  checked : ∃ fees, checkBlock block ledger.utxo (ledger.context network now) = .ok fees
  room : ledger.headers.length < activeCapacity

/-- Every block after the first was accepted on those before it, at some clock. -/
def Accepted (network : Network) (blocks : List Block) : Prop :=
  ∀ before block after, blocks = before ++ block :: after → before ≠ [] →
    ∃ now, (ledgerOf before).Accepts network block now

variable {network : Network} {blocks : List Block} {block : Block}

theorem Accepted.concat (accepted : Accepted network blocks)
    (next : (ledgerOf blocks).Accepts network block now) :
    Accepted network (blocks ++ [block]) := by
  intro before other after split nonempty
  rcases eq_nil_or_concat after with rfl | ⟨later, last, rfl⟩
  · obtain ⟨rfl, same⟩ := append_inj' split rfl
    cases same
    exact ⟨now, next⟩
  · rw [concat_eq_append, ← cons_append, ← append_assoc] at split
    obtain ⟨earlier, _⟩ := append_inj' split rfl
    exact accepted before other later earlier nonempty

theorem Accepted.dropLast (accepted : Accepted network (blocks ++ [block])) :
    Accepted network blocks := by
  intro before other after split nonempty
  exact accepted before other (after ++ [block]) (by simp [split]) nonempty

section
variable (accepts : ledger.Accepts network block now)
include accepts

theorem LedgerState.Accepts.at {later : Nat}
    (present : block.header.time.toNat ≤ later + maxFutureTime) :
    ledger.Accepts network block later := by
  obtain ⟨fees, checked⟩ := accepts.checked
  have same : { ledger.context network now with now := later } = ledger.context network later := rfl
  refine ⟨⟨fees, ?_⟩, accepts.room⟩
  rw [← same]
  exact checkBlock_now checked present

/-- An accepted block is at the height of the ledger it is accepted on. -/
theorem LedgerState.Accepts.height_eq : block.header.height.toNat = ledger.headers.length := by
  obtain ⟨fees, accepted⟩ := accepts.checked
  obtain ⟨_, _, checked⟩ := checkBlock_ok accepted
  exact (checkPlace_ok checked.place).2.1

/-- An accepted block names the last block of the ledger as its parent. -/
theorem LedgerState.Accepts.parent_eq {last : BlockHeader}
    (tip : ledger.headers.getLast? = some last) : block.header.prevBlock = last.blockId := by
  obtain ⟨fees, accepted⟩ := accepts.checked
  obtain ⟨_, _, checked⟩ := checkBlock_ok accepted
  rw [(checkPlace_ok checked.place).2.2, LedgerState.context, tip]
  rfl

end

end Ledgers

/-! ## Undoing blocks -/

section Undoing
variable [Crypto] {blocks : List Block} {block : Block} {now : Nat}

/-- The tagged hash tells the preimages of the history's transactions apart. -/
def TransactionsApart (history : Set Block) : Prop :=
  Set.InjOn (taggedHash .tx)
    {preimage | ∃ block ∈ history, ∃ tx ∈ block.transactions, tx.txidPreimage = preimage}

theorem TransactionsApart.txidsApart {history : Set Block} (apart : TransactionsApart history)
    (members : ∀ block ∈ blocks, block ∈ history) : TxidsApart (transactionsOf blocks) := by
  refine Set.InjOn.mono ?_ apart
  rintro preimage ⟨tx, listed, rfl⟩
  obtain ⟨block, member, inBlock⟩ := mem_flatMap.mp listed
  exact ⟨block, members block member, tx, inBlock, rfl⟩

/-- The record of the genesis gives back the empty set. -/
theorem genesis_recorded (nonce : UInt64) :
    Recorded ∅ (genesisBlock nonce).transactions (ledgerOf [genesisBlock nonce]).utxo
      (({} : UtxoSet).applyTransactions {} 0 (genesisBlock nonce).transactions).2 := by
  have coinbase : genesisCoinbase.isCoinbase = true := rfl
  have fits : genesisCoinbase.Fits := Transaction.fits_of_encode (by decide +kernel)
  have plain : ∀ output ∈ genesisCoinbase.outputs,
      output.scheme ≠ .nameTag ∧ output.scheme ≠ .nameKey := by decide
  have nothing : Shows [] (UtxoSet.lookup {}) := by
    intro outpoint entry found
    cases found
  have follows : Follows [] genesisCoinbase := by
    refine ⟨fun _ _ => not_mem_nil, ?_⟩
    simp [Transaction.spends, coinbase]
  have empty : Recorded ∅ [] {} {} := .start UtxoSet.Coherent.empty nothing
  have created := (empty.create nothing follows (by decide) fits (Announces.of_plain [] plain)
    (not_nameKey_of_plain plain) 0 true).1
  rwa [← applyTransaction_of_coinbase {} {} 0 coinbase] at created

variable [WorkHash] {network : Network} {nonce : UInt64} {history : Set Block}

/-- The blocks start with the genesis, are of the history and were accepted one by one. -/
structure Lineage (network : Network) (nonce : UInt64) (history : Set Block)
    (blocks : List Block) : Prop where
  genesis : blocks.head? = some (genesisBlock nonce)
  members : ∀ block ∈ blocks, block ∈ history
  accepted : Accepted network blocks

theorem Lineage.dropLast (lineage : Lineage network nonce history (blocks ++ [block]))
    (nonempty : blocks ≠ []) : Lineage network nonce history blocks := by
  refine ⟨?_, fun other member => lineage.members other (mem_append_left _ member),
    lineage.accepted.dropLast⟩
  have first := lineage.genesis
  rwa [head?_append_of_ne_nil _ nonempty] at first

/-- What holds of the outputs a lineage leaves. -/
structure LedgerState.Sound (blocks : List Block) : Prop where
  tracked : Tracked (transactionsOf blocks) (blocks.length - 1) (ledgerOf blocks).utxo
  coherent : (ledgerOf blocks).utxo.Coherent

section
variable (accepts : (ledgerOf blocks).Accepts network block now) (nonempty : blocks ≠ [])
include accepts nonempty

/-- An accepted block in the terms of the loop over its transactions. -/
theorem LedgerState.Accepts.checkedBlock :
    ∃ context fees coinbase rest,
      CheckedBlock block (ledgerOf blocks).utxo context fees coinbase rest ∧
        context.height = blocks.length - 1 + 1 ∧ blocks.length - 1 + 1 < 2 ^ 62 ∧
        (ledgerOf (blocks ++ [block])).utxo = ((ledgerOf blocks).utxo.applyTransactions {}
          (blocks.length - 1 + 1) block.transactions).1 := by
  obtain ⟨fees, accepted⟩ := accepts.checked
  obtain ⟨coinbase, rest, checked⟩ := checkBlock_ok accepted
  have positive := length_pos_iff.mpr nonempty
  have length : (ledgerOf blocks).headers.length = blocks.length := by
    rw [ledgerOf_headers, length_map]
  have height : blocks.length - 1 + 1 = blocks.length := by omega
  refine ⟨_, fees, coinbase, rest, checked, ?_, ?_, ?_⟩
  · rw [height, ← length]
    rfl
  · have room := accepts.room
    rw [length, activeCapacity] at room
    omega
  · rw [ledgerOf_concat, LedgerState.extend, length, height]

theorem LedgerState.Accepts.recorded (sound : LedgerState.Sound blocks)
    (apart : TxidsApart (transactionsOf (blocks ++ [block]))) :
    LedgerState.Sound (blocks ++ [block]) ∧ (ledgerOf (blocks ++ [block])).utxo.undo
        ((ledgerOf blocks).utxo.applyTransactions {} blocks.length block.transactions).2 =
        (ledgerOf blocks).utxo := by
  obtain ⟨context, fees, coinbase, rest, checked, onHeight, small, utxo⟩ :=
    accepts.checkedBlock nonempty
  have positive := length_pos_iff.mpr nonempty
  have height : blocks.length - 1 + 1 = blocks.length := by omega
  have joined : transactionsOf (blocks ++ [block]) = transactionsOf blocks ++ block.transactions := by
    simp [transactionsOf]
  rw [joined] at apart
  have next := (sound.tracked.block small apart checked onHeight).1
  obtain ⟨coherent, undone⟩ := checked.undo_eq sound.tracked sound.coherent small apart onHeight
  rw [← utxo] at next coherent undone
  rw [height] at next undone
  refine ⟨⟨?_, coherent⟩, undone⟩
  rwa [joined, length_append, length_singleton, Nat.add_sub_cancel]

end

theorem Lineage.sound (lineage : Lineage network nonce history blocks)
    (apart : TransactionsApart history) : LedgerState.Sound blocks := by
  induction blocks using reverseRecOn with
  | nil => cases lineage.genesis
  | append_singleton blocks block ih =>
    by_cases nonempty : blocks = []
    · subst nonempty
      obtain rfl : block = genesisBlock nonce := some.inj lineage.genesis
      refine ⟨?_, (genesis_recorded nonce).coherent⟩
      exact Tracked.new network nonce
    · obtain ⟨now, accepts⟩ := lineage.accepted blocks block [] rfl nonempty
      exact (accepts.recorded nonempty (ih (lineage.dropLast nonempty))
        (apart.txidsApart lineage.members)).1

/-- Undoing the last block leaves the ledger of those before it. -/
theorem Lineage.undo_last (lineage : Lineage network nonce history (blocks ++ [block]))
    (apart : TransactionsApart history) :
    (ledgerOf (blocks ++ [block])).utxo.undo
      ((ledgerOf blocks).utxo.applyTransactions {} blocks.length block.transactions).2 =
      (ledgerOf blocks).utxo := by
  by_cases nonempty : blocks = []
  · subst nonempty
    obtain rfl : block = genesisBlock nonce := some.inj lineage.genesis
    have recorded := genesis_recorded nonce
    exact UtxoSet.undo_eq UtxoSet.Coherent.empty recorded.coherent recorded.exact' recorded.plain
  · obtain ⟨now, accepts⟩ := lineage.accepted blocks block [] rfl nonempty
    exact (accepts.recorded nonempty ((lineage.dropLast nonempty).sound apart)
      (apart.txidsApart lineage.members)).2

omit [WorkHash] in
theorem ledgerOf_records_concat (blocks : List Block) (block : Block) :
    (ledgerOf (blocks ++ [block])).records =
      ((ledgerOf blocks).utxo.applyTransactions {} blocks.length block.transactions).2 ::
        (ledgerOf blocks).records := by
  rw [ledgerOf_concat, LedgerState.extend, ledgerOf_headers, length_map]

/-- Undoing the last `count` records leaves the ledger of the blocks below. -/
theorem Lineage.undo_many (lineage : Lineage network nonce history blocks)
    (apart : TransactionsApart history) (count : Nat) :
    ((ledgerOf blocks).records.take count).foldl UtxoSet.undo (ledgerOf blocks).utxo =
      (ledgerOf (blocks.take (blocks.length - count))).utxo := by
  induction blocks using reverseRecOn generalizing count with
  | nil => cases lineage.genesis
  | append_singleton blocks block ih =>
    cases count with
    | zero => rw [take_zero, foldl_nil, Nat.sub_zero, take_length]
    | succ count =>
      rw [ledgerOf_records_concat, take_succ_cons, foldl_cons,
        lineage.undo_last apart, length_append, length_singleton,
        Nat.add_sub_add_right, take_append_of_le_length (Nat.sub_le _ _)]
      by_cases nonempty : blocks = []
      · subst nonempty
        rw [take_nil]
        exact congrArg (List.foldl UtxoSet.undo {}) take_nil
      · exact ih (lineage.dropLast nonempty) count

end Undoing

end Q21Formal.Ledger

/-! ## A node follows the ledger -/

namespace Q21Formal.Ledger
open Library.Refusal Library.Maps Primitives List

section Tracks
variable [Crypto] [WorkHash]

/-- The headers of the history. -/
def headersOf (history : Set Block) : Set BlockHeader := Block.header '' history

/-- The chain is in the state its active blocks leave. -/
structure Tracks (network : Network) (nonce : UInt64) (history : Set Block) (chain : Chain)
    (blocks : List Block) : Prop where
  lineage : Lineage network nonce history blocks
  network : chain.network = network
  active : chain.active = blocks.map fun block => block.header.blockId
  utxo : chain.utxo = (ledgerOf blocks).utxo
  issued : chain.issued = (ledgerOf blocks).issued
  undos : chain.undos <+: (ledgerOf blocks).records
  indexed : ∀ before block after, blocks = before ++ block :: after → ∃ entry,
    chain.index.lookup block.header.blockId = some entry ∧
      entry.issued = (ledgerOf (before ++ [block])).issued
  bodies : ∀ id body, chain.blocks.lookup id = some body → body ∈ history
  sources : ∀ id body, chain.source id = some body → body ∈ history

variable {network : Network} {nonce : UInt64} {history : Set Block} {chain next : Chain}
  {blocks : List Block} {block : Block} {now fees : Nat}

/-- The emission of an accepted block, as the chain counts it. -/
theorem emission_eq {utxo : UtxoSet} {context : BlockContext} {coinbase : Transaction}
    {rest : List Transaction} (checked : CheckedBlock block utxo context fees coinbase rest) :
    block.emission utxo context.height = coinbase.outputValue - fees := by
  obtain ⟨totals, looped, rfl⟩ := checked.loop
  have collected := fees_eq_feesFrom looped
  rw [Nat.zero_add] at collected
  rw [Block.emission, checked.transactions, collected]

omit [WorkHash] in
/-- An unknown block is not active. -/
theorem Sound.unknown_notActive {headers : Set BlockHeader} (sound : Sound headers chain)
    {id : Hash256} (unknown : chain.index.lookup id = none) : id ∉ chain.active := by
  intro member
  obtain ⟨place, here⟩ := mem_iff_getElem?.mp member
  obtain ⟨entry, found, _⟩ := sound.placed place _ here
  rw [unknown] at found
  cases found

section
variable (tracks : Tracks network nonce history chain blocks)
include tracks

theorem Tracks.nonempty : blocks ≠ [] := by
  rintro rfl
  cases tracks.lineage.genesis

theorem Tracks.length_eq : chain.active.length = blocks.length := by
  rw [tracks.active, length_map]

theorem Tracks.height_eq : chain.height + 1 = blocks.length := by
  have positive := length_pos_iff.mpr tracks.nonempty
  rw [Chain.height, tracks.length_eq]
  omega

/-- Changes of nothing the ledger consists of. -/
theorem Tracks.sameLedger (same : SameLedger chain next)
    (sameNetwork : next.network = chain.network) : Tracks network nonce history next blocks := by
  refine ⟨tracks.lineage, sameNetwork.trans tracks.network, same.active.trans tracks.active,
    same.utxo.trans tracks.utxo, same.issued.trans tracks.issued, ?_, ?_, ?_, ?_⟩
  · rw [same.undos]
    exact tracks.undos
  · rw [same.index]
    exact tracks.indexed
  · intro id body found
    exact tracks.bodies id body (same.blocks id body found)
  · rw [same.source]
    exact tracks.sources

/-- A change of the index outside the active chain. -/
theorem Tracks.reindex {index : FiniteMap Hash256 BlockIndex}
    (same : ∀ id ∈ chain.active, index.lookup id = chain.index.lookup id) :
    Tracks network nonce history { chain with index } blocks := by
  refine ⟨tracks.lineage, tracks.network, tracks.active, tracks.utxo, tracks.issued, tracks.undos,
    ?_, tracks.bodies, tracks.sources⟩
  intro before block after split
  have active : block.header.blockId ∈ chain.active := by
    rw [tracks.active, split]
    simp
  rw [same _ active]
  exact tracks.indexed before block after split

theorem Tracks.insertBody (id : Hash256) (member : block ∈ history) :
    Tracks network nonce history { chain with blocks := chain.blocks.insert id block } blocks := by
  refine ⟨tracks.lineage, tracks.network, tracks.active, tracks.utxo, tracks.issued, tracks.undos,
    tracks.indexed, ?_, tracks.sources⟩
  intro other body found
  rw [lookup_insert_eq] at found
  split at found
  · cases found
    exact member
  · exact tracks.bodies other body found

/-- The tip undone: the blocks below it, and the records of those. -/
theorem Tracks.disconnect (transactions : TransactionsApart history) :
    (chain.disconnect.2 = true ∧ ∃ below tip, blocks = below ++ [tip] ∧
        Tracks network nonce history chain.disconnect.1 below ∧
        chain.undos = (ledgerOf blocks).records.head?.toList ++ chain.disconnect.1.undos) ∨
      (chain.disconnect = (chain, false) ∧ (chain.undos = [] ∨ blocks.length = 1)) := by
  obtain ⟨below, tip, rfl⟩ : ∃ below tip, blocks = below ++ [tip] :=
    (eq_nil_or_concat' blocks).resolve_left tracks.nonempty
  have active := tracks.active
  rw [map_append, map_singleton] at active
  have rest : chain.active.dropLast = below.map fun block => block.header.blockId := by
    rw [active, dropLast_concat]
  cases recorded : chain.undos with
  | nil =>
    refine .inr ⟨?_, .inl rfl⟩
    rw [Chain.disconnect, recorded]
  | cons undo undos =>
    rcases eq_nil_or_concat' below with rfl | ⟨older, parent, rfl⟩
    · refine .inr ⟨?_, .inr rfl⟩
      rw [Chain.disconnect, recorded, rest]
      rfl
    · have last : chain.active.dropLast.getLast? = some parent.header.blockId := by
        rw [rest, map_append, map_singleton, getLast?_concat]
      obtain ⟨entry, found, counted⟩ := tracks.indexed older parent [tip] (by simp)
      have prefixed := tracks.undos
      rw [recorded, ledgerOf_records_concat, cons_prefix_cons] at prefixed
      obtain ⟨rfl, shorter⟩ := prefixed
      have lineage := tracks.lineage
      have undone := lineage.undo_last transactions
      rw [← tracks.utxo] at undone
      refine .inl ?_
      rw [Chain.disconnect, recorded, last]
      dsimp only
      rw [found]
      refine ⟨rfl, older ++ [parent], tip, rfl, ?_, ?_⟩
      · refine ⟨lineage.dropLast (by simp), tracks.network, rest, undone, counted, shorter, ?_,
          tracks.bodies, tracks.sources⟩
        intro before block after split
        exact tracks.indexed before block (after ++ [tip]) (by simp [split])
      · rw [ledgerOf_records_concat]
        rfl

theorem Tracks.indexSide (sound : Sound (headersOf history) chain) (member : block ∈ history)
    (unknown : chain.index.lookup block.header.blockId = none) (total : Nat) :
    Tracks network nonce history (chain.indexSide block total) blocks := by
  have outside := sound.unknown_notActive unknown
  have indexed : Tracks network nonce history { chain with
      index := chain.index.insert block.header.blockId ⟨block.header, total, 0⟩ } blocks := by
    apply tracks.reindex
    intro id active
    rw [lookup_insert_eq, if_neg]
    rintro rfl
    exact outside active
  have kept := (indexed.insertBody block.header.blockId member).sameLedger
    (keepBody_sameLedger _ _ _) (keepBody_sameSettings _ _ _).network
  refine kept.sameLedger (keepSideBody_sameLedger _ _ _) ?_
  exact (evictLoop_sameSettings _ _).network

section
variable (sound : Sound (headersOf history) chain) (apart : HashesApart (headersOf history))
include sound apart

/-- The headers the chain reads are those of the blocks. -/
theorem Tracks.activeHeaders : chain.activeHeaders = (ledgerOf blocks).headers := by
  have ids := sound.headersAlong.named
  rw [tracks.active] at ids
  rw [ledgerOf_headers]
  have inside : ∀ header ∈ chain.activeHeaders, header ∈ headersOf history := by
    intro header member
    obtain ⟨entry, found, rfl⟩ := sound.headersAlong.indexed header member
    exact (sound.indexed _ entry found).1
  have members : ∀ header ∈ blocks.map Block.header, header ∈ headersOf history := by
    intro header member
    obtain ⟨block, listed, rfl⟩ := mem_map.mp member
    exact ⟨block, tracks.lineage.members block listed, rfl⟩
  have spelled : (blocks.map Block.header).map BlockHeader.blockId =
      chain.activeHeaders.map BlockHeader.blockId := by
    rwa [map_map]
  generalize chain.activeHeaders = first at inside spelled ⊢
  generalize blocks.map Block.header = second at members spelled ⊢
  induction first generalizing second with
  | nil =>
    cases second with
    | nil => rfl
    | cons header rest => cases spelled
  | cons header rest ih =>
    cases second with
    | nil => cases spelled
    | cons other others =>
      obtain ⟨head, tail⟩ := List.cons.inj spelled
      rw [apart.injective (members other (.head _)) (inside header (.head _)) head]
      rw [ih (fun later member => inside later (.tail _ member)) others
        (fun later member => members later (.tail _ member)) tail]

/-- The chain checks a block against the ledger of its blocks. -/
theorem Tracks.context (now : Nat) :
    ∃ context, chain.context now = some context ∧
      context.core = (ledgerOf blocks).context network now := by
  have headers := tracks.activeHeaders sound apart
  have along := sound.headersAlong
  obtain ⟨before, last, listed, tip, _⟩ := sound.activeHeaders_eq
  obtain ⟨entry, indexed, same⟩ := along.indexed last (by simp [listed])
  have lastHeader : (ledgerOf blocks).headers.getLast? = some last := by
    rw [← headers, listed, getLast?_concat]
  have length : chain.height + 1 = (ledgerOf blocks).headers.length := by
    rw [tracks.height_eq, ledgerOf_headers, length_map]
  have walked : ∀ count, Chain.headersBack chain.index count chain.tipId [] =
      lastOf count (ledgerOf blocks).headers := by
    intro count
    rw [← tip, along.headersBack count [] listed, append_nil, ← listed, headers]
  have bits : chain.nextBitsAfter chain.tipId =
      if network = .regtest then initialBits
      else nextBits (lastOf (lwmaWindow + 1) (ledgerOf blocks).headers) := by
    rw [Chain.nextBitsAfter, tracks.network, walked]
  have times : chain.recentTimesAfter chain.tipId =
      (lastOf medianTimeSpan (ledgerOf blocks).headers).map BlockHeader.time := by
    rw [Chain.recentTimesAfter, walked]
  have parent : (chain.index.lookup chain.tipId).map (fun entry => entry.header.time) =
      some last.time := by
    rw [← tip, indexed, ← same]
    rfl
  rw [Chain.context, sound.recentTimes_eq]
  refine ⟨_, rfl, ?_⟩
  simp only [BlockContext.core, LedgerState.context, lastHeader, length, tracks.network,
    tracks.issued, bits, times, parent, Option.map_some, Option.getD_some, tip]

/-- A block the chain connects is accepted on the ledger of its blocks. -/
theorem Tracks.accepts (connected : chain.connect block now = .ok (next, fees)) :
    (ledgerOf blocks).Accepts network block now := by
  obtain ⟨context, inContext, core⟩ := tracks.context sound apart now
  simp only [Chain.connect, bind_eq_ok, orRefuse_eq_ok, require_eq_ok] at connected
  obtain ⟨context', inContext', paid, accepted, _, _, _, _, _, _, _, room, _⟩ := connected
  rw [inContext] at inContext'
  cases inContext'
  rw [← checkBlock_core, core, tracks.utxo] at accepted
  refine ⟨⟨paid, accepted⟩, ?_⟩
  rwa [ledgerOf_headers, length_map, ← tracks.length_eq]

theorem Tracks.connect (member : block ∈ history)
    (connected : chain.connect block now = .ok (next, fees)) :
    Tracks network nonce history next (blocks ++ [block]) := by
  have accepts := tracks.accepts sound apart connected
  have sameNetwork := (connect_sameSettings connected).network
  obtain ⟨context, coinbase, rest, passed⟩ := connect_ok connected
  obtain ⟨onHeight, _⟩ := passed.onTip
  obtain ⟨_, above, _⟩ := checkPlace_ok passed.checked.place
  rw [onHeight] at above
  obtain ⟨work, same⟩ := passed.extended
  have fresh := sound.notActive apart ⟨block, member, rfl⟩ above
  have length : (ledgerOf blocks).headers.length = chain.height + 1 := by
    rw [ledgerOf_headers, length_map, tracks.height_eq]
  have emission := emission_eq passed.checked
  rw [onHeight] at emission
  have ledger : ledgerOf (blocks ++ [block]) =
      { headers := (ledgerOf blocks).headers ++ [block.header]
        utxo := (chain.utxo.applyTransactions {} (chain.height + 1) block.transactions).1
        issued := chain.issued + (coinbase.outputValue - fees)
        records := (chain.utxo.applyTransactions {} (chain.height + 1) block.transactions).2 ::
          (ledgerOf blocks).records } := by
    rw [ledgerOf_concat, LedgerState.extend, length, ← tracks.utxo, ← tracks.issued, emission]
  have first : (blocks ++ [block]).head? = some (genesisBlock nonce) := by
    rw [head?_append_of_ne_nil _ tracks.nonempty]
    exact tracks.lineage.genesis
  have members : ∀ other ∈ blocks ++ [block], other ∈ history := by
    intro other listed
    rcases mem_append.mp listed with earlier | last
    · exact tracks.lineage.members other earlier
    · rwa [mem_singleton.mp last]
  refine ⟨⟨first, members, tracks.lineage.accepted.concat accepts⟩,
    sameNetwork.trans tracks.network, ?_, ?_, ?_, ?_, ?_, ?_, ?_⟩
  · rw [same.active, map_append, map_singleton, ← tracks.active]
    rfl
  · rw [same.utxo, ledger]
    rfl
  · rw [same.issued, ledger]
    rfl
  · rw [same.undos, ledger]
    exact (List.take_prefix _ _).trans ((prefix_cons_inj _).mpr tracks.undos)
  · intro before other after split
    rw [same.index]
    change ∃ entry, (chain.index.insert block.header.blockId _).lookup other.header.blockId =
      some entry ∧ _
    rw [lookup_insert_eq]
    rcases eq_nil_or_concat after with rfl | ⟨later, last, rfl⟩
    · obtain ⟨rfl, here⟩ := append_inj' split rfl
      cases here
      rw [if_pos rfl]
      refine ⟨_, rfl, ?_⟩
      rw [ledger]
    · rw [concat_eq_append, ← cons_append, ← append_assoc] at split
      obtain ⟨earlier, _⟩ := append_inj' split rfl
      have active : other.header.blockId ∈ chain.active := by
        rw [tracks.active, earlier]
        simp
      have different : other.header.blockId ≠ block.header.blockId := by
        intro equal
        exact fresh (equal ▸ active)
      rw [if_neg different]
      exact tracks.indexed before other later earlier
  · intro id body found
    have held := same.blocks id body found
    exact (tracks.insertBody block.header.blockId member).bodies id body held
  · rw [same.source]
    exact tracks.sources

theorem Tracks.forgetSide (ids : List Hash256) :
    Tracks network nonce history (chain.forgetSide ids) blocks := by
  obtain ⟨_, kept⟩ := sound.forgotten apart ids chain.index.keys.card
  unfold Chain.forgetSide
  dsimp only at kept ⊢
  generalize (Chain.forgetStep chain.index)^[chain.index.keys.card] _ = gone at kept ⊢
  have same : ∀ id ∈ chain.active,
      (retain (fun id => decide (id ∉ gone)) chain.index).lookup id = chain.index.lookup id := by
    intro id active
    rw [lookup_retain, if_pos (decide_eq_true (kept id active))]
  have indexed := tracks.reindex same
  refine ⟨indexed.lineage, indexed.network, indexed.active, indexed.utxo, indexed.issued,
    indexed.undos, indexed.indexed, ?_, indexed.sources⟩
  intro id body found
  rw [lookup_retain] at found
  split at found
  · exact tracks.bodies id body found
  · cases found

end

end

theorem Tracks.new (network : Network) (nonce : UInt64) (genesisIn : genesisBlock nonce ∈ history) :
    Tracks network nonce history (Chain.new network (genesisBlock nonce)) [genesisBlock nonce] := by
  have ledger : (ledgerOf [genesisBlock nonce]).issued = genesisPremint := by
    change 0 + (genesisCoinbase.outputValue - 0) = _
    rw [← Transaction.totalOutput_eq genesisCoinbase_totalOutput, Nat.sub_zero, Nat.zero_add]
  refine ⟨⟨rfl, ?_, ?_⟩, rfl, rfl, rfl, ?_, prefix_rfl, ?_, ?_, ?_⟩
  · intro block member
    rwa [mem_singleton.mp member]
  · intro before block after split nonempty
    cases before with
    | nil => exact absurd rfl nonempty
    | cons first rest =>
      have length := congrArg List.length split
      simp at length
  · rw [new_issued, ledger]
  · intro before block after split
    cases before with
    | nil =>
      obtain ⟨rfl, rfl⟩ := List.cons.inj split
      refine ⟨_, Finmap.lookup_insert _, ?_⟩
      rw [nil_append, ledger]
      exact new_issued network nonce
    | cons first rest =>
      have length := congrArg List.length split
      simp at length
  · intro id body found
    rw [Chain.new, lookup_insert_eq] at found
    split at found
    · cases found
      exact genesisIn
    · cases found
  · intro id body found
    cases found

/-- The chain is sound and in the state some blocks leave. -/
def Followed (network : Network) (nonce : UInt64) (history : Set Block) (chain : Chain) : Prop :=
  Sound (headersOf history) chain ∧ ∃ blocks, Tracks network nonce history chain blocks

theorem followed_stable (network : Network) (nonce : UInt64)
    (apart : HashesApart (headersOf history)) (transactions : TransactionsApart history)
    (archived : Hash256 → Block → Prop) :
    Stable history archived (Followed network nonce history) := by
  refine ⟨⟨⟨?_, ?_, ?_⟩, ?_, ?_, ?_⟩, ?_, ?_⟩
  · rintro chain next block now fees ⟨sound, blocks, tracks⟩ member connected
    exact ⟨sound.connect apart ⟨block, member, rfl⟩ connected, _,
      tracks.connect sound apart member connected⟩
  · rintro chain ⟨sound, blocks, tracks⟩
    refine ⟨sound.disconnect, ?_⟩
    rcases tracks.disconnect transactions with ⟨_, below, _, _, after, _⟩ | ⟨same, _⟩
    · exact ⟨below, after⟩
    · rw [same]
      exact ⟨blocks, tracks⟩
  · rintro chain next ⟨sound, blocks, tracks⟩ same settings
    exact ⟨sound.sameLedger same, blocks, tracks.sameLedger same settings.network⟩
  · rintro chain ⟨_, blocks, tracks⟩ id body found
    rcases Option.or_eq_some_iff.mp found with held | ⟨_, archived⟩
    · exact tracks.bodies id body held
    · exact tracks.sources id body archived
  · rintro chain block total now ⟨sound, blocks, tracks⟩ member admits
    exact ⟨sound.indexSide ⟨block, member, rfl⟩ admits.unknown total, blocks,
      tracks.indexSide sound member admits.unknown total⟩
  · rintro chain ids ⟨sound, blocks, tracks⟩
    exact ⟨sound.forgetSide apart ids, blocks, tracks.forgetSide sound apart ids⟩
  · rintro chain finalityHold returning bound ⟨sound, blocks, tracks⟩
    have same : SameLedger chain { chain with finalityHold, returning, bound } :=
      ⟨rfl, rfl, rfl, rfl, rfl, rfl, Within.refl _⟩
    exact ⟨sound.sameLedger same, blocks, tracks.sameLedger same rfl⟩
  · rintro chain source ⟨sound, blocks, tracks⟩ members
    refine ⟨⟨sound.indexed, sound.bodies, ?_, sound.nonempty, sound.placed, sound.issued,
      sound.rewinds⟩, blocks, ⟨tracks.lineage, tracks.network, tracks.active, tracks.utxo,
      tracks.issued, tracks.undos, tracks.indexed, tracks.bodies, ?_⟩⟩
    · intro id body found
      exact ⟨body, (members id body found).1, rfl⟩
    · intro id body found
      exact (members id body found).1

/-- What the hash must tell apart over a history. -/
structure HistoryApart (history : Set Block) : Prop where
  headers : HashesApart (headersOf history)
  transactions : TransactionsApart history

theorem followed_run (network : Network) (nonce : UInt64) (apart : HistoryApart history)
    (genesisIn : genesisBlock nonce ∈ history) {calls : List Call}
    (brings : ∀ call ∈ calls, call.From history) :
    Followed network nonce history (run calls (Chain.new network (genesisBlock nonce))) := by
  have start : Followed network nonce history (Chain.new network (genesisBlock nonce)) :=
    ⟨Sound.new network nonce ⟨_, genesisIn, rfl⟩, _, Tracks.new network nonce genesisIn⟩
  exact (followed_stable network nonce apart.headers apart.transactions fun _ _ => True).run start
    brings fun call _ => call.reads_all

end Tracks

/-- The genesis and a first block, to evaluate with. -/
def firstHistory [Crypto] : Set Block := {genesisBlock 0, firstBlock 0}

theorem firstHistory_apart :
    letI : Crypto := flatCrypto
    HistoryApart firstHistory := by
  let _ := flatCrypto
  have headers : HashesApart (headersOf firstHistory) := by
    have different : (genesisBlock 0).header.blockId ≠ (firstBlock 0).header.blockId := by
      decide +kernel
    rw [headersOf, firstHistory, Set.image_pair]
    refine ⟨Set.injOn_pair.mpr fun same => absurd same different, ?_⟩
    rintro header (rfl | rfl) <;> decide +kernel
  have transactions : TransactionsApart firstHistory := by
    have different : ∀ first ∈ transactionsOf [genesisBlock 0, firstBlock 0],
        ∀ second ∈ transactionsOf [genesisBlock 0, firstBlock 0],
        first.txid = second.txid → first = second := by decide +kernel
    have listed : ∀ block ∈ firstHistory,
        ∀ tx ∈ block.transactions, tx ∈ transactionsOf [genesisBlock 0, firstBlock 0] := by
      rintro block (rfl | rfl) tx inBlock
      · exact mem_flatMap.mpr ⟨_, mem_cons_self, inBlock⟩
      · exact mem_flatMap.mpr ⟨_, mem_cons_of_mem _ (.head _), inBlock⟩
    rintro _ ⟨block, member, tx, inBlock, rfl⟩ _ ⟨other, otherIn, tx', inOther, rfl⟩ same
    rw [different tx (listed block member tx inBlock) tx' (listed other otherIn tx' inOther) same]
  exact ⟨headers, transactions⟩

section Inverse
variable [Crypto] {blocks : List Block} {chain : Chain}

/-- The outputs of the history, as they enter a set. -/
def entriesOf (history : Set Block) : Set (OutPoint × UtxoEntry) :=
  {entry | ∃ block ∈ history, ∃ tx ∈ block.transactions, entry ∈ tx.entries block.header.height.toNat}

/-- Both sets have an accumulator, and any two that reach them have one digest. -/
structure SameCommitment (known : Set (OutPoint × UtxoEntry)) (before after : UtxoSet) : Prop where
  builtBefore : before.Committable known
  builtAfter : after.Committable known
  same : ∀ first second : CommittedSet, first.Reached known → second.Reached known →
    first.set = before → second.set = after → second.commitment = first.commitment

theorem SameCommitment.of_eq {known : Set (OutPoint × UtxoEntry)} (cancel : ElementsCancel known)
    {before after : UtxoSet} (committable : before.Committable known) (equal : after = before) :
    SameCommitment known before after := by
  refine ⟨committable, equal ▸ committable, ?_⟩
  intro first second reachedFirst reachedSecond sameFirst sameSecond
  rw [reachedSecond.commitment_eq cancel, reachedFirst.commitment_eq cancel, sameFirst, sameSecond,
    equal]

variable [WorkHash] {network : Network} {nonce : UInt64} {history : Set Block}

/-- The outputs of a lineage come from its blocks. -/
theorem Lineage.committable (lineage : Lineage network nonce history blocks) :
    (ledgerOf blocks).utxo.Committable (entriesOf history) := by
  induction blocks using reverseRecOn with
  | nil => cases lineage.genesis
  | append_singleton blocks block ih =>
    have member := lineage.members block (by simp)
    have height : block.header.height.toNat = (ledgerOf blocks).headers.length := by
      by_cases nonempty : blocks = []
      · subst nonempty
        obtain rfl : block = genesisBlock nonce := Option.some.inj lineage.genesis
        rfl
      · obtain ⟨now, accepts⟩ := lineage.accepted blocks block [] rfl nonempty
        exact accepts.height_eq
    have earlier : (ledgerOf blocks).utxo.Committable (entriesOf history) := by
      by_cases nonempty : blocks = []
      · subst nonempty
        exact ⟨{}, .empty, rfl⟩
      · exact ih (lineage.dropLast nonempty)
    rw [ledgerOf_concat, LedgerState.extend]
    apply earlier.applyTransactions
    intro tx inBlock entry created
    rw [← height] at created
    exact ⟨block, member, tx, inBlock, created⟩

/-- The records kept undo to the ledgers of the blocks below. -/
theorem Tracks.undo_many (tracks : Tracks network nonce history chain blocks)
    (transactions : TransactionsApart history) {count : Nat} (kept : count ≤ chain.undos.length) :
    (chain.undos.take count).foldl UtxoSet.undo chain.utxo =
      (ledgerOf (blocks.take (blocks.length - count))).utxo := by
  obtain ⟨older, whole⟩ := tracks.undos
  have records : (ledgerOf blocks).records.take count = chain.undos.take count := by
    rw [← whole, take_append_of_le_length kept]
  rw [← records, tracks.utxo]
  exact tracks.lineage.undo_many transactions count

/-- The block just connected is disconnected without a trace. -/
theorem Tracks.disconnect_connect {next : Chain} {block : Block} {now fees : Nat}
    (tracks : Tracks network nonce history chain blocks) (sound : Sound (headersOf history) chain)
    (apart : HistoryApart history) (member : block ∈ history)
    (connected : chain.connect block now = .ok (next, fees))
    (window : chain.undos.length < bodyWindow) :
    ∃ back, next.disconnect = (back, true) ∧ back.utxo = chain.utxo ∧ back.issued = chain.issued ∧
      back.active = chain.active ∧ back.undos = chain.undos := by
  have after := tracks.connect sound apart.headers member connected
  obtain ⟨context, coinbase, rest, passed⟩ := connect_ok connected
  obtain ⟨work, same⟩ := passed.extended
  have undos : next.undos =
      (chain.utxo.applyTransactions {} (chain.height + 1) block.transactions).2 :: chain.undos := by
    rw [same.undos, Chain.extended]
    exact take_of_length_le window
  rcases after.disconnect apart.transactions with ⟨done, below, tip, split, back, kept⟩ | ⟨_, stuck⟩
  · obtain ⟨rfl, _⟩ := append_inj' split rfl
    refine ⟨next.disconnect.1, ?_, ?_, ?_, ?_, ?_⟩
    · rw [← done]
    · rw [back.utxo, tracks.utxo]
    · rw [back.issued, tracks.issued]
    · rw [back.active, tracks.active]
    · rw [undos, ledgerOf_records_concat] at kept
      exact (List.cons.inj kept).2.symm
  · rcases stuck with none' | single
    · rw [undos] at none'
      cases none'
    · have positive := length_pos_iff.mpr tracks.nonempty
      rw [length_append, length_singleton] at single
      omega

/-- Disconnecting a block just connected restores outputs, indices, commitment, emission, active
chain and records; undoing the last records leaves the outputs of the blocks below. -/
theorem disconnect_inverts_connect (network : Network) (nonce : UInt64)
    (apart : HistoryApart history) (cancel : ElementsCancel (entriesOf history))
    (genesisIn : genesisBlock nonce ∈ history) (calls : List Call)
    (brings : ∀ call ∈ calls, call.From history) :
    let chain := run calls (Chain.new network (genesisBlock nonce))
    (∀ (block : Block) (now fees : Nat) (next : Chain), block ∈ history →
        chain.undos.length < bodyWindow → chain.connect block now = .ok (next, fees) →
        ∃ back, next.disconnect = (back, true) ∧ back.utxo = chain.utxo ∧
          back.issued = chain.issued ∧ back.active = chain.active ∧ back.undos = chain.undos ∧
          SameCommitment (entriesOf history) chain.utxo back.utxo) ∧
      ∃ blocks : List Block, chain.active = blocks.map (fun block => block.header.blockId) ∧
        blocks.head? = some (genesisBlock nonce) ∧ (∀ block ∈ blocks, block ∈ history) ∧
        ∀ count ≤ chain.undos.length, (chain.undos.take count).foldl UtxoSet.undo chain.utxo =
          (ledgerOf (blocks.take (blocks.length - count))).utxo := by
  intro chain
  obtain ⟨sound, blocks, tracks⟩ : Followed network nonce history chain :=
    followed_run network nonce apart genesisIn brings
  refine ⟨?_, blocks, tracks.active, tracks.lineage.genesis, tracks.lineage.members, ?_⟩
  · intro block now fees next member window connected
    obtain ⟨back, undone, utxo, issued, active, undos⟩ :=
      tracks.disconnect_connect sound apart member connected window
    have committable : chain.utxo.Committable (entriesOf history) := by
      rw [tracks.utxo]
      exact tracks.lineage.committable
    exact ⟨back, undone, utxo, issued, active, undos, .of_eq cancel committable utxo⟩
  · intro count kept
    exact tracks.undo_many apart.transactions kept

end Inverse

/-- The first block on the genesis, connected and disconnected. -/
theorem disconnect_inverts_connect_first_block :
    letI : Crypto := flatCrypto
    letI : WorkHash := zeroWork
    let chain := run [] (Chain.new .regtest (genesisBlock 0))
    ∃ next fees back, chain.connect (firstBlock 0) (2 ^ 31) = .ok (next, fees) ∧
      next.disconnect = (back, true) ∧ back.utxo = chain.utxo ∧ back.issued = chain.issued := by
  let _ := flatCrypto
  let _ := zeroWork
  have cancel := flatCrypto_elementsCancel (entriesOf firstHistory)
  obtain ⟨result, connected⟩ : ∃ result, (run [] (Chain.new .regtest (genesisBlock 0))).connect
      (firstBlock 0) (2 ^ 31) = .ok result := exists_eq_ok (by decide +kernel)
  have inverts := (disconnect_inverts_connect .regtest 0 firstHistory_apart cancel (.inl rfl) []
    (by simp)).1
  obtain ⟨back, undone, utxo, issued, _⟩ := inverts (firstBlock 0) (2 ^ 31) result.2 result.1
    (.inr rfl) (by decide +kernel) connected
  exact ⟨result.1, result.2, back, connected, undone, utxo, issued⟩

end Q21Formal.Ledger

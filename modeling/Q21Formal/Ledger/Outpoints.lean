import Q21Formal.Ledger.Supply

/-!
# Outpoints are created once

An identifier commits to what the transaction spends, and for a coinbase to the height.  A repeated
one would spend an outpoint a second time or repeat a height, and neither passes.
-/

namespace Q21Formal.Ledger
open Library.Codec Library.Refusal Library.Maps Primitives List

/-- The outpoints a transaction takes out of the set. -/
def Transaction.spends (tx : Transaction) : List OutPoint :=
  if tx.isCoinbase then [] else tx.inputs.map TxIn.prevOut

def spentBy (transactions : List Transaction) : List OutPoint :=
  transactions.flatMap Transaction.spends

/-- The lengths of a transaction that fits in a block. -/
structure Transaction.Fits (tx : Transaction) : Prop where
  countable : tx.Countable
  outputs : tx.outputs.length ≤ 2 ^ 32

theorem coinbaseData_length_le (tx : Transaction) : tx.coinbaseData.length ≤ tx.encode.length := by
  unfold Transaction.coinbaseData Transaction.encode
  cases listed : tx.inputs with
  | nil => exact Nat.zero_le _
  | cons input rest =>
    simp only [flatMap_cons, length_append, writeVarBytes]
    omega

theorem Transaction.counts_le_encode (tx : Transaction) :
    tx.inputs.length + tx.outputs.length ≤ tx.encode.length := by
  have inputs : tx.inputs.length ≤ (tx.inputs.flatMap encodeInput).length := by
    rw [length_flatMap, ← length_map fun input => (encodeInput input).length]
    refine length_le_sum_of_one_le _ (forall_mem_map.mpr fun input _ => ?_)
    simp only [encodeInput, length_append, input.prevOut.txid.length_bytes]
    omega
  have outputs : tx.outputs.length ≤ (tx.outputs.flatMap encodeOutput).length := by
    rw [length_flatMap, ← length_map fun output => (encodeOutput output).length]
    refine length_le_sum_of_one_le _ (forall_mem_map.mpr fun output _ => ?_)
    simp only [encodeOutput, length_append, length_singleton]
    omega
  simp only [Transaction.encode, Transaction.encodeWithoutWitness, length_append]
  omega

/-- A transaction no longer than a block fits. -/
theorem Transaction.fits_of_encode {tx : Transaction} (small : tx.encode.length ≤ maxBlockSize) :
    tx.Fits := by
  have counts := tx.counts_le_encode
  have content := coinbaseData_length_le tx
  unfold maxBlockSize at small
  exact ⟨⟨by omega, by omega, by omega⟩, by omega⟩

theorem Block.transaction_length_le {block : Block} {tx : Transaction}
    (member : tx ∈ block.transactions) : tx.encode.length ≤ block.encode.length := by
  have inside : (writeVarBytes tx.encode).length ≤
      (block.transactions.flatMap fun tx => writeVarBytes tx.encode).length := by
    rw [length_flatMap]
    exact le_sum_of_mem (mem_map_of_mem member)
  simp only [Block.encode, length_append, writeVarBytes] at inside ⊢
  omega

theorem Block.fits {block : Block} (small : block.encode.length ≤ maxBlockSize) :
    ∀ tx ∈ block.transactions, tx.Fits :=
  fun _ member => Transaction.fits_of_encode ((Block.transaction_length_le member).trans small)

section Created
variable [Crypto] {outpoint query : OutPoint} {map : FiniteMap OutPoint UtxoEntry}
  {height fees now : Nat} {entry : UtxoEntry} {lookup : OutPoint → Option UtxoEntry}
  {utxo : UtxoSet} {context : BlockContext} {totals : BlockTotals} {rest : List Transaction}
  {blocks : List Block} {chain : Chain}

/-- The outpoints a transaction adds to the set. -/
def Transaction.outpoints (tx : Transaction) : List OutPoint :=
  (range tx.outputs.length).map fun index => ⟨tx.txid, UInt32.ofNat index⟩

def createdBy (transactions : List Transaction) : List OutPoint :=
  transactions.flatMap Transaction.outpoints

theorem Transaction.txid_of_mem_outpoints {tx : Transaction} (member : outpoint ∈ tx.outpoints) :
    outpoint.txid = tx.txid := by
  obtain ⟨index, _, rfl⟩ := mem_map.mp member
  rfl

theorem Transaction.Fits.outpoints_nodup {tx : Transaction} (fits : tx.Fits) :
    tx.outpoints.Nodup := by
  refine Nodup.map_on ?_ nodup_range
  intro first firstIn second secondIn same
  rw [mem_range] at firstIn secondIn
  have room := fits.outputs
  have numerals := congrArg UInt32.toNat (OutPoint.mk.inj same).2
  rwa [UInt32.toNat_ofNat_of_lt' (by show first < 2 ^ 32; omega),
    UInt32.toNat_ofNat_of_lt' (by show second < 2 ^ 32; omega)] at numerals

omit [Crypto] in
theorem mem_createMap {txid : Hash256} {index : Nat} {coinbase : Bool} {outputs : List TxOut}
    (found : (UtxoSet.createMap map txid height coinbase index outputs).lookup query = some entry) :
    (∃ offset < outputs.length, query = ⟨txid, UInt32.ofNat (index + offset)⟩) ∨
      map.lookup query = some entry := by
  induction outputs generalizing map index with
  | nil => exact .inr found
  | cons output rest ih =>
    rcases ih found with ⟨offset, inside, rfl⟩ | earlier
    · refine .inl ⟨offset + 1, ?_, ?_⟩
      · simpa using inside
      · rw [Nat.add_right_comm, Nat.add_assoc]
    · rw [lookup_insert_eq] at earlier
      split at earlier
      · rename_i here
        exact .inl ⟨0, by simp, here⟩
      · exact .inr earlier

theorem mem_outpoints_of_createMap {tx : Transaction} {coinbase : Bool}
    (found : (UtxoSet.createMap map tx.txid height coinbase 0 tx.outputs).lookup query = some entry) :
    query ∈ tx.outpoints ∨ map.lookup query = some entry := by
  rcases mem_createMap found with ⟨offset, inside, rfl⟩ | earlier
  · refine .inl (mem_map.mpr ⟨offset, mem_range.mpr inside, ?_⟩)
    rw [Nat.zero_add]
  · exact .inr earlier

/-- Every outpoint was created once, and what was spent had been created. -/
structure History (past : List Transaction) : Prop where
  nodup : (createdBy past).Nodup
  spent : ∀ outpoint ∈ spentBy past, outpoint ∈ createdBy past

/-- Only what was created and is not spent is found. -/
def Shows (past : List Transaction) (lookup : OutPoint → Option UtxoEntry) : Prop :=
  ∀ outpoint entry, lookup outpoint = some entry →
    outpoint ∈ createdBy past ∧ outpoint ∉ spentBy past

/-- A transaction that creates new outpoints and spends created ones. -/
structure Follows (past : List Transaction) (tx : Transaction) : Prop where
  fresh : ∀ outpoint ∈ tx.outpoints, outpoint ∉ createdBy past
  spends : ∀ outpoint ∈ tx.spends, outpoint ∈ createdBy past

variable {past : List Transaction} {tx : Transaction}

theorem createdBy_snoc : createdBy (past ++ [tx]) = createdBy past ++ tx.outpoints := by
  simp [createdBy]

omit [Crypto] in
theorem spentBy_snoc : spentBy (past ++ [tx]) = spentBy past ++ tx.spends := by
  simp [spentBy]

theorem History.snoc (history : History past) (fits : tx.Fits) (follows : Follows past tx) :
    History (past ++ [tx]) := by
  constructor
  · rw [createdBy_snoc, nodup_append]
    refine ⟨history.nodup, fits.outpoints_nodup, ?_⟩
    rintro outpoint earlier _ created rfl
    exact follows.fresh outpoint created earlier
  · intro outpoint spent
    rw [spentBy_snoc, mem_append] at spent
    rw [createdBy_snoc, mem_append]
    rcases spent with earlier | now
    · exact .inl (history.spent outpoint earlier)
    · exact .inl (follows.spends outpoint now)

/-- What a lookup shows after the transaction: what is created, or was shown and is not spent. -/
theorem Shows.snoc {after : OutPoint → Option UtxoEntry} (shows' : Shows past lookup)
    (history : History past) (follows : Follows past tx)
    (moved : ∀ outpoint entry, after outpoint = some entry → outpoint ∈ tx.outpoints ∨
      (outpoint ∉ tx.spends ∧ lookup outpoint = some entry)) : Shows (past ++ [tx]) after := by
  intro outpoint entry found
  rw [createdBy_snoc, spentBy_snoc, mem_append, mem_append, not_or]
  rcases moved outpoint entry found with created | ⟨unspent, earlier⟩
  · have fresh := follows.fresh outpoint created
    exact ⟨.inr created, fun spent => fresh (history.spent outpoint spent),
      fun spent => fresh (follows.spends outpoint spent)⟩
  · obtain ⟨created, notSpent⟩ := shows' outpoint entry earlier
    exact ⟨.inl created, notSpent, unspent⟩

/-- The tagged hash tells the preimages of these transactions apart. -/
def TxidsApart (transactions : List Transaction) : Prop :=
  Set.InjOn (taggedHash .tx) (Transaction.txidPreimage '' {tx | tx ∈ transactions})

/-- A repeated outpoint repeats what its transaction spends and, for a coinbase, its data. -/
theorem repeated_of_mem (apart : TxidsApart (past ++ [tx])) (fits : ∀ earlier ∈ past, earlier.Fits)
    (txFits : tx.Fits) (created : outpoint ∈ tx.outpoints) (before : outpoint ∈ createdBy past) :
    ∃ earlier ∈ past, tx.inputs.map TxIn.stripped = earlier.inputs.map TxIn.stripped ∧
      (tx.isCoinbase = true → tx.coinbaseData = earlier.coinbaseData) := by
  obtain ⟨earlier, member, createdBefore⟩ := mem_flatMap.mp before
  have sameId : tx.txid = earlier.txid :=
    (Transaction.txid_of_mem_outpoints created).symm.trans
      (Transaction.txid_of_mem_outpoints createdBefore)
  have same := apart ⟨tx, mem_append_right _ (.head _), rfl⟩
    ⟨earlier, mem_append_left _ member, rfl⟩ sameId
  obtain ⟨inputs, _, content⟩ := txidPreimage_inj txFits.countable (fits earlier member).countable same
  exact ⟨earlier, member, inputs, content⟩

/-- A transaction that spends what is shown creates nothing a second time. -/
theorem follows_of_present (shows' : Shows past lookup) (apart : TxidsApart (past ++ [tx]))
    (fits : ∀ earlier ∈ past, earlier.Fits) (txFits : tx.Fits) (spends : tx.isCoinbase = false)
    (some' : tx.inputs ≠ []) (present : ∀ input ∈ tx.inputs, (lookup input.prevOut).isSome = true) :
    Follows past tx := by
  have shown : ∀ input ∈ tx.inputs,
      input.prevOut ∈ createdBy past ∧ input.prevOut ∉ spentBy past := by
    intro input member
    obtain ⟨entry, found⟩ := Option.isSome_iff_exists.mp (present input member)
    exact shows' input.prevOut entry found
  constructor
  · intro outpoint created before
    obtain ⟨earlier, member, inputs, _⟩ := repeated_of_mem apart fits txFits created before
    obtain ⟨input, inTx⟩ := exists_mem_of_ne_nil _ some'
    -- The earlier transaction spent the same input.
    have alike : earlier.isCoinbase = false := (isCoinbase_of_stripped inputs).symm.trans spends
    have prevOuts : tx.inputs.map TxIn.prevOut = earlier.inputs.map TxIn.prevOut := by
      have firsts := congrArg (List.map Prod.fst) inputs
      rwa [map_map, map_map] at firsts
    have inEarlier : input.prevOut ∈ earlier.spends := by
      rw [Transaction.spends, alike, if_neg Bool.false_ne_true, ← prevOuts]
      exact mem_map_of_mem inTx
    exact (shown input inTx).2 (mem_flatMap.mpr ⟨earlier, member, inEarlier⟩)
  · intro outpoint spent
    rw [Transaction.spends, spends, if_neg Bool.false_ne_true] at spent
    obtain ⟨input, member, rfl⟩ := mem_map.mp spent
    exact (shown input member).1

/-- The data a coinbase begins with: a height below `next`, or the message of the genesis. -/
def Marked (next : Nat) (tx : Transaction) : Prop :=
  tx.isCoinbase = true → tx.coinbaseData = genesisMessage ∨
    ∃ height < next, (leBytes 8 height).isPrefixOf tx.coinbaseData = true

omit [Crypto] in
theorem height_eq_of_prefixes {first second : Nat} {content : Bytes} (firstFits : first < 2 ^ 64)
    (secondFits : second < 2 ^ 64) (firstIn : (leBytes 8 first).isPrefixOf content = true)
    (secondIn : (leBytes 8 second).isPrefixOf content = true) : first = second := by
  have firstEq := prefix_iff_eq_take.mp (List.isPrefixOf_iff_prefix.mp firstIn)
  have secondEq := prefix_iff_eq_take.mp (List.isPrefixOf_iff_prefix.mp secondIn)
  exact leBytes_injective firstFits secondFits (firstEq.trans secondEq.symm)

omit [Crypto] in
/-- No chain is long enough for a height to spell the message of the genesis. -/
theorem genesisMessage_marks_no_height (small : height < 2 ^ 62) :
    (leBytes 8 height).isPrefixOf genesisMessage = false := by
  by_contra marked
  have spelled : (leBytes 8 0x6f202d2d20313251).isPrefixOf genesisMessage = true := by decide
  have fits : height < 2 ^ 64 := by omega
  have same := height_eq_of_prefixes fits (by norm_num) (by simpa using marked) spelled
  omega

/-- A coinbase marked with the next height creates nothing a second time. -/
theorem follows_of_marked (apart : TxidsApart (past ++ [tx]))
    (fits : ∀ earlier ∈ past, earlier.Fits) (txFits : tx.Fits) (small : height < 2 ^ 62)
    (coinbase : tx.isCoinbase = true)
    (marked : (leBytes 8 height).isPrefixOf tx.coinbaseData = true)
    (earlierMarked : ∀ earlier ∈ past, Marked height earlier) : Follows past tx := by
  constructor
  · intro outpoint created before
    obtain ⟨earlier, member, inputs, content⟩ := repeated_of_mem apart fits txFits created before
    have alike : earlier.isCoinbase = true := (isCoinbase_of_stripped inputs).symm.trans coinbase
    rw [content coinbase] at marked
    rcases earlierMarked earlier member alike with message | ⟨below, lower, other⟩
    · rw [message, genesisMessage_marks_no_height small] at marked
      cases marked
    · have same := height_eq_of_prefixes (by omega) (by omega) marked other
      omega
  · intro outpoint spent
    simp [Transaction.spends, coinbase] at spent

/-! ## The transactions of a block -/

omit [Crypto] in
theorem lookup_eraseInputs {inputs : List TxIn}
    (found : (eraseInputs map inputs).lookup query = some entry) :
    query ∉ inputs.map TxIn.prevOut ∧ map.lookup query = some entry := by
  induction inputs generalizing map with
  | nil => exact ⟨not_mem_nil, found⟩
  | cons input rest ih =>
    obtain ⟨later, earlier⟩ := ih found
    rw [lookup_erase_eq] at earlier
    split at earlier
    · cases earlier
    · rename_i different
      exact ⟨not_mem_cons_of_ne_of_not_mem different later, earlier⟩

/-- After a transaction the set holds what it created and what it did not spend. -/
theorem lookup_applyTransaction (undo : UndoRecord)
    (found : (utxo.applyTransaction undo tx height).1.lookup query = some entry) :
    query ∈ tx.outpoints ∨ (query ∉ tx.spends ∧ utxo.lookup query = some entry) := by
  unfold UtxoSet.lookup at found ⊢
  cases coinbase : tx.isCoinbase with
  | true =>
    rw [applyTransaction_map_of_coinbase utxo undo height coinbase] at found
    rcases mem_outpoints_of_createMap found with created | earlier
    · exact .inl created
    · refine .inr ⟨?_, earlier⟩
      simp [Transaction.spends, coinbase]
  | false =>
    rw [applyTransaction_map_of_spend utxo undo height coinbase] at found
    rcases mem_outpoints_of_createMap found with created | earlier
    · exact .inl created
    · refine .inr ?_
      rw [Transaction.spends, coinbase, if_neg Bool.false_ne_true]
      exact lookup_eraseInputs earlier

/-- What the view shows after a transaction, in the same terms. -/
theorem lookup_viewApply {view : BlockView} (spends : tx.isCoinbase = false)
    (found : (view.apply tx height).lookup query = some entry) :
    query ∈ tx.outpoints ∨ (query ∉ tx.spends ∧ view.lookup query = some entry) := by
  have source := BlockView.lookup_apply found
  cases made : (UtxoSet.createMap ∅ tx.txid height false 0 tx.outputs).lookup query with
  | some new =>
    rcases mem_outpoints_of_createMap made with created | absent
    · exact .inl created
    · cases absent
  | none =>
    rw [made, Option.none_or, without] at source
    split at source
    · cases source
    · refine .inr ⟨?_, source⟩
      rwa [Transaction.spends, spends, if_neg Bool.false_ne_true]

/-- The state of the loop over a block, after the transactions `past` of the chain so far. -/
structure InBlock (past : List Transaction) (view : BlockView) (utxo : UtxoSet) : Prop where
  history : History past
  view : Shows past view.lookup
  utxo : Shows past utxo.lookup

/-- What the loop finds at a transaction: it is new, it spends, and it is accepted. -/
structure BlockStep (context : BlockContext) (past : List Transaction) (tx : Transaction)
    (totals following : BlockTotals) (utxo : UtxoSet) : Prop where
  inBlock : InBlock past totals.view utxo
  follows : Follows past tx
  fits : tx.Fits
  spends : tx.isCoinbase = false
  checked : checkNext context totals tx = .ok following

theorem InBlock.step {following : BlockTotals} (sofar : InBlock past totals.view utxo)
    (apart : TxidsApart (past ++ [tx])) (fits : ∀ earlier ∈ past, earlier.Fits) (txFits : tx.Fits)
    (spends : tx.isCoinbase = false) (checked : checkNext context totals tx = .ok following) :
    BlockStep context past tx totals following utxo := by
  obtain ⟨fee, inputTotals, inputs, _, _, shape⟩ := checkNext_ok checked
  have some' := (Transaction.checkShape_ok shape).1
  exact ⟨sofar, follows_of_present sofar.view apart fits txFits spends some' inputs.present, txFits,
    spends, checked⟩

/-- One more transaction leaves the loop in order. -/
theorem BlockStep.after {following : BlockTotals} (undo : UndoRecord)
    (step : BlockStep context past tx totals following utxo) :
    InBlock (past ++ [tx]) following.view (utxo.applyTransaction undo tx context.height).1 := by
  obtain ⟨sofar, follows, fits, spends, checked⟩ := step
  obtain ⟨_, _, _, _, rfl, _⟩ := checkNext_ok checked
  refine ⟨sofar.history.snoc fits follows, ?_, ?_⟩
  · exact sofar.view.snoc sofar.history follows fun _ _ found => lookup_viewApply spends found
  · exact sofar.utxo.snoc sofar.history follows fun _ _ found =>
      lookup_applyTransaction undo found

theorem TxidsApart.mono {few many : List Transaction} (apart : TxidsApart many)
    (within : ∀ tx ∈ few, tx ∈ many) : TxidsApart few :=
  Set.InjOn.mono (Set.image_mono within) apart

theorem Shows.lookup_eq_none (shows' : Shows past lookup) (follows : Follows past tx) :
    ∀ outpoint ∈ tx.outpoints, lookup outpoint = none := by
  intro outpoint created
  by_contra found
  obtain ⟨entry, found⟩ := Option.ne_none_iff_exists'.mp found
  exact follows.fresh outpoint created (shows' outpoint entry found).1

/-- Applied one after the other, no transaction of the list overwrites an entry. -/
def NeverOverwrites (utxo : UtxoSet) (undo : UndoRecord) (height : Nat)
    (transactions : List Transaction) : Prop :=
  ∀ before tx after, transactions = before ++ tx :: after → ∀ outpoint ∈ tx.outpoints,
    (utxo.applyTransactions undo height before).1.lookup outpoint = none

theorem NeverOverwrites.cons {undo : UndoRecord}
    (first : ∀ outpoint ∈ tx.outpoints, utxo.lookup outpoint = none)
    (others : NeverOverwrites (utxo.applyTransaction undo tx height).1
      (utxo.applyTransaction undo tx height).2 height rest) :
    NeverOverwrites utxo undo height (tx :: rest) := by
  intro before other after split outpoint created
  cases before with
  | nil =>
    obtain ⟨rfl, rfl⟩ := List.cons.inj split
    exact first outpoint created
  | cons head before =>
    obtain ⟨rfl, rfl⟩ := List.cons.inj split
    exact others before other after rfl outpoint created

/-- The loop over transactions that spend: what each step preserves holds after it, and what it adds
in front of a list holds of them all. -/
theorem InBlock.run {final : BlockTotals} {undo : UndoRecord}
    (property : List Transaction → BlockView → UtxoSet → UndoRecord → Prop)
    (clean : UtxoSet → UndoRecord → List Transaction → Prop)
    (empty : ∀ utxo undo, clean utxo undo [])
    (step : ∀ past tx totals following utxo undo, property past totals.view utxo undo →
      BlockStep context past tx totals following utxo →
      property (past ++ [tx]) following.view (utxo.applyTransaction undo tx context.height).1
          (utxo.applyTransaction undo tx context.height).2 ∧
        ∀ rest, clean (utxo.applyTransaction undo tx context.height).1
          (utxo.applyTransaction undo tx context.height).2 rest → clean utxo undo (tx :: rest))
    (holds : property past totals.view utxo undo) (sofar : InBlock past totals.view utxo)
    (apart : TxidsApart (past ++ rest)) (fits : ∀ tx ∈ past ++ rest, tx.Fits)
    (spends : ∀ tx ∈ rest, tx.isCoinbase = false)
    (checked : rest.foldlM (checkNext context) totals = .ok final) :
    InBlock (past ++ rest) final.view (utxo.applyTransactions undo context.height rest).1 ∧
      property (past ++ rest) final.view (utxo.applyTransactions undo context.height rest).1
        (utxo.applyTransactions undo context.height rest).2 ∧ clean utxo undo rest := by
  induction rest generalizing past utxo undo totals with
  | nil =>
    obtain rfl : totals = final := by simpa using checked
    rw [append_nil]
    exact ⟨sofar, holds, empty utxo undo⟩
  | cons tx rest ih =>
    rw [foldlM_cons, bind_eq_ok] at checked
    obtain ⟨next, stepped, looped⟩ := checked
    have shifted : past ++ tx :: rest = (past ++ [tx]) ++ rest := by simp
    rw [shifted] at apart fits ⊢
    have earlierFits : ∀ earlier ∈ past, earlier.Fits := fun earlier member =>
      fits earlier (mem_append_left _ (mem_append_left _ member))
    have txFits : tx.Fits :=
      fits tx (mem_append_left _ (mem_append_right _ (.head _)))
    have now := sofar.step (apart.mono fun _ member => mem_append_left _ member) earlierFits
      txFits (spends tx (.head _)) stepped
    obtain ⟨nextHolds, adds⟩ := step past tx totals next utxo undo holds now
    obtain ⟨finished, held, cleanly⟩ := ih nextHolds (now.after undo) apart fits
      (fun other member => spends other (.tail _ member)) looped
    rw [UtxoSet.applyTransactions]
    exact ⟨finished, held, adds rest cleanly⟩

/-! ## The chain -/

/-- The transactions of a chain so far, and the set they leave. -/
structure Tracked (past : List Transaction) (height : Nat) (utxo : UtxoSet) : Prop where
  history : History past
  shown : Shows past utxo.lookup
  fits : ∀ tx ∈ past, tx.Fits
  marked : ∀ tx ∈ past, Marked (height + 1) tx

/-- An accepted block, from its coinbase on, which the view does not see. -/
theorem CheckedBlock.walk [WorkHash] {block : Block} {coinbase : Transaction}
    (checked : CheckedBlock block utxo context fees coinbase rest)
    (tracked : Tracked past height utxo) (small : height + 1 < 2 ^ 62)
    (apart : TxidsApart (past ++ block.transactions)) (onHeight : context.height = height + 1)
    (property : List Transaction → BlockView → UtxoSet → UndoRecord → Prop)
    (clean : UtxoSet → UndoRecord → List Transaction → Prop)
    (empty : ∀ utxo undo, clean utxo undo [])
    (start : Follows past coinbase → coinbase.Fits →
      property (past ++ [coinbase]) { confirmed := utxo }
          (utxo.applyTransaction {} coinbase context.height).1
          (utxo.applyTransaction {} coinbase context.height).2 ∧
        ∀ rest, clean (utxo.applyTransaction {} coinbase context.height).1
          (utxo.applyTransaction {} coinbase context.height).2 rest → clean utxo {} (coinbase :: rest))
    (step : ∀ past tx totals following utxo undo, property past totals.view utxo undo →
      BlockStep context past tx totals following utxo →
      property (past ++ [tx]) following.view (utxo.applyTransaction undo tx context.height).1
          (utxo.applyTransaction undo tx context.height).2 ∧
        ∀ rest, clean (utxo.applyTransaction undo tx context.height).1
          (utxo.applyTransaction undo tx context.height).2 rest → clean utxo undo (tx :: rest)) :
    Tracked (past ++ block.transactions) (height + 1)
        (utxo.applyTransactions {} (height + 1) block.transactions).1 ∧
      (∃ totals : BlockTotals, rest.foldlM (checkNext context) ⟨{ confirmed := utxo }, [], 0⟩ =
          .ok totals ∧
        property (past ++ block.transactions) totals.view
          (utxo.applyTransactions {} (height + 1) block.transactions).1
          (utxo.applyTransactions {} (height + 1) block.transactions).2) ∧
      clean utxo {} block.transactions := by
  have blockFits := Block.fits (checkPlace_ok checked.place).1
  have mark := (checkCoinbase_ok checked.uncles checked.coinbaseRules).2
  obtain ⟨totals, looped, _⟩ := checked.loop
  rw [checked.transactions] at apart blockFits ⊢
  have shifted : past ++ coinbase :: rest = (past ++ [coinbase]) ++ rest := by simp
  rw [shifted] at apart ⊢
  rw [onHeight] at mark
  have coinbaseFits := blockFits coinbase (.head _)
  have follows := follows_of_marked (apart.mono fun _ member => mem_append_left _ member)
    tracked.fits coinbaseFits small checked.isCoinbase mark tracked.marked
  have inBlock : InBlock (past ++ [coinbase]) { confirmed := utxo }
      (utxo.applyTransaction {} coinbase context.height).1 := by
    refine ⟨tracked.history.snoc coinbaseFits follows, ?_, ?_⟩
    · refine tracked.shown.snoc tracked.history follows ?_
      intro outpoint entry found
      refine .inr ⟨by simp [Transaction.spends, checked.isCoinbase], ?_⟩
      simpa [BlockView.lookup] using found
    · exact tracked.shown.snoc tracked.history follows fun _ _ found =>
        lookup_applyTransaction {} found
  have allFits : ∀ tx ∈ (past ++ [coinbase]) ++ rest, tx.Fits := by
    intro tx member
    rw [← shifted, mem_append] at member
    exact member.elim (tracked.fits tx) (blockFits tx)
  obtain ⟨holds, adds⟩ := start follows coinbaseFits
  obtain ⟨finished, held, cleanly⟩ :=
    inBlock.run property clean empty step holds apart allFits checked.notCoinbase looped
  rw [UtxoSet.applyTransactions, ← onHeight]
  refine ⟨⟨finished.history, finished.utxo, allFits, ?_⟩, ⟨totals, looped, held⟩, adds rest cleanly⟩
  intro tx member isCoinbase
  rw [← shifted, mem_append, mem_cons] at member
  rcases member with earlier | rfl | later
  · rcases tracked.marked tx earlier isCoinbase with message | ⟨below, lower, prefixed⟩
    · exact .inl message
    · exact .inr ⟨below, by omega, prefixed⟩
  · exact .inr ⟨height + 1, by omega, mark⟩
  · rw [checked.notCoinbase tx later] at isCoinbase
    cases isCoinbase

/-- An accepted block creates only new outpoints. -/
theorem Tracked.block [WorkHash] {block : Block} {coinbase : Transaction}
    (tracked : Tracked past height utxo) (small : height + 1 < 2 ^ 62)
    (apart : TxidsApart (past ++ block.transactions))
    (checked : CheckedBlock block utxo context fees coinbase rest)
    (onHeight : context.height = height + 1) :
    Tracked (past ++ block.transactions) (height + 1)
        (utxo.applyTransactions {} (height + 1) block.transactions).1 ∧
      NeverOverwrites utxo {} (height + 1) block.transactions := by
  have empty : ∀ utxo undo, NeverOverwrites utxo undo context.height [] := by
    intro utxo undo before tx after split
    cases before <;> cases split
  obtain ⟨after, _, kept⟩ := checked.walk tracked small apart onHeight (fun _ _ _ _ => True)
    (fun utxo undo rest => NeverOverwrites utxo undo context.height rest) empty
    (fun follows _ =>
      ⟨trivial, fun _ others => others.cons (tracked.shown.lookup_eq_none follows)⟩)
    fun _ _ _ _ _ _ _ step =>
      ⟨trivial, fun _ others => others.cons (step.inBlock.utxo.lookup_eq_none step.follows)⟩
  rw [onHeight] at kept
  exact ⟨after, kept⟩

theorem Tracked.new (network : Network) (nonce : UInt64) :
    Tracked (genesisBlock nonce).transactions 0 (Chain.new network (genesisBlock nonce)).utxo := by
  have coinbase : genesisCoinbase.isCoinbase = true := rfl
  have fits : genesisCoinbase.Fits := Transaction.fits_of_encode (by decide +kernel)
  have empty : History [] := ⟨nodup_nil, fun _ member => by cases member⟩
  have follows : Follows [] genesisCoinbase := by
    refine ⟨fun _ _ => not_mem_nil, ?_⟩
    simp [Transaction.spends, coinbase]
  refine ⟨empty.snoc fits follows, ?_, ?_, ?_⟩
  · have nothing : Shows [] (UtxoSet.lookup {}) := by
      intro outpoint entry found
      cases found
    exact nothing.snoc empty follows fun _ _ found => lookup_applyTransaction {} found
  · intro tx member
    rwa [mem_singleton.mp member]
  · intro tx member _
    rw [mem_singleton.mp member]
    exact .inl rfl

/-- The chains grown from the genesis by connecting blocks. -/
inductive Grown [WorkHash] (network : Network) (nonce : UInt64) : List Block → Chain → Prop where
  | genesis : Grown network nonce [genesisBlock nonce] (Chain.new network (genesisBlock nonce))
  | connect {blocks : List Block} {chain next : Chain} {block : Block} {now fees : Nat}
      (grown : Grown network nonce blocks chain)
      (connected : chain.connect block now = .ok (next, fees)) :
      Grown network nonce (blocks ++ [block]) next

/-- The transactions of a chain of blocks, in order. -/
def transactionsOf (blocks : List Block) : List Transaction := blocks.flatMap Block.transactions

variable [WorkHash] {network : Network} {nonce : UInt64}

theorem Tracked.connect {next : Chain} {block : Block}
    (tracked : Tracked (transactionsOf blocks) chain.height chain.utxo)
    (nonempty : chain.active ≠ []) (apart : TxidsApart (transactionsOf (blocks ++ [block])))
    (connected : chain.connect block now = .ok (next, fees)) :
    (Tracked (transactionsOf (blocks ++ [block])) next.height next.utxo ∧ next.active ≠ []) ∧
      NeverOverwrites chain.utxo {} (chain.height + 1) block.transactions := by
  obtain ⟨context, coinbase, rest, passed⟩ := connect_ok connected
  obtain ⟨work, same⟩ := passed.extended
  have joined : transactionsOf (blocks ++ [block]) = transactionsOf blocks ++ block.transactions := by
    simp [transactionsOf]
  have positive := length_pos_iff.mpr nonempty
  have small : chain.height + 1 < 2 ^ 62 := by
    have room := passed.room
    rw [activeCapacity] at room
    rw [Chain.height]
    omega
  have active : next.active = chain.active ++ [block.header.blockId] := same.active
  have higher : next.height = chain.height + 1 := by
    rw [Chain.height, active, Chain.height, length_append, length_singleton]
    omega
  rw [joined] at apart ⊢
  obtain ⟨after, kept⟩ := tracked.block small apart passed.checked passed.onTip.1
  refine ⟨⟨?_, by simp [active]⟩, kept⟩
  rwa [higher, same.utxo]

theorem Grown.tracked (grown : Grown network nonce blocks chain)
    (apart : TxidsApart (transactionsOf blocks)) :
    Tracked (transactionsOf blocks) chain.height chain.utxo ∧ chain.active ≠ [] := by
  induction grown with
  | genesis =>
    refine ⟨?_, cons_ne_nil _ _⟩
    exact Tracked.new network nonce
  | connect grown connected ih =>
    have before := apart.mono fun tx member => by
      rw [transactionsOf, flatMap_append]
      exact mem_append_left _ member
    obtain ⟨tracked, nonempty⟩ := ih before
    exact (tracked.connect nonempty apart connected).1

/-- No outpoint of the chain is created twice, a connected block overwrites no entry of the set, and
nothing spent is in the set. -/
theorem outpoints_created_once {blocks : List Block} {chain next : Chain} {block : Block}
    {now fees : Nat} (grown : Grown network nonce blocks chain)
    (connected : chain.connect block now = .ok (next, fees))
    (apart : TxidsApart (transactionsOf (blocks ++ [block]))) :
    (createdBy (transactionsOf (blocks ++ [block]))).Nodup ∧
      NeverOverwrites chain.utxo {} (chain.height + 1) block.transactions ∧
      ∀ outpoint ∈ spentBy (transactionsOf (blocks ++ [block])),
        next.utxo.lookup outpoint = none := by
  have before := apart.mono fun tx member => by
    rw [transactionsOf, flatMap_append]
    exact mem_append_left _ member
  obtain ⟨tracked, nonempty⟩ := grown.tracked before
  obtain ⟨⟨after, _⟩, kept⟩ := tracked.connect nonempty apart connected
  refine ⟨after.history.nodup, kept, ?_⟩
  intro outpoint spent
  by_contra found
  obtain ⟨entry, found⟩ := Option.ne_none_iff_exists'.mp found
  exact (after.shown outpoint entry found).2 spent

end Created

/-- A first block on the genesis. -/
theorem outpoints_created_once_first_block :
    letI : Crypto := checksumCrypto
    letI : WorkHash := zeroWork
    ∃ next fees, (Chain.new .regtest (genesisBlock 0)).connect (firstBlock 0) (2 ^ 31) =
        .ok (next, fees) ∧
      (createdBy (transactionsOf [genesisBlock 0, firstBlock 0])).Nodup := by
  let _ := checksumCrypto
  let _ := zeroWork
  obtain ⟨result, connected⟩ : ∃ result, (Chain.new .regtest (genesisBlock 0)).connect (firstBlock 0)
      (2 ^ 31) = .ok result := exists_eq_ok (by decide +kernel)
  have apart : TxidsApart (transactionsOf ([genesisBlock 0] ++ [firstBlock 0])) := by
    have different : ∀ first ∈ transactionsOf [genesisBlock 0, firstBlock 0],
        ∀ second ∈ transactionsOf [genesisBlock 0, firstBlock 0],
        first.txid = second.txid → first = second := by decide +kernel
    rintro _ ⟨first, firstIn, rfl⟩ _ ⟨second, secondIn, rfl⟩ same
    rw [different first firstIn second secondIn same]
  exact ⟨result.1, result.2, connected, (outpoints_created_once (.genesis) connected apart).1⟩

end Q21Formal.Ledger

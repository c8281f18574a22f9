import Q21Formal.Ledger.Tracks

/-!
# Validating a block and applying it

After each transaction the view a block is validated against answers as the set it is applied to.
-/

namespace Q21Formal.Ledger
open Library.Codec Library.Refusal Library.Maps Primitives List

variable {utxo : UtxoSet}

section Clean
variable [Crypto]

/-- Every input is in the set when it is removed from it. -/
def ConsumesPresent (utxo : UtxoSet) : List TxIn → Prop
  | [] => True
  | input :: rest =>
    (utxo.lookup input.prevOut).isSome = true ∧ ConsumesPresent (utxo.remove input.prevOut) rest

/-- No output is in the set when it is inserted into it. -/
def CreatesAbsent (utxo : UtxoSet) (txid : Hash256) (height : Nat) (coinbase : Bool) :
    Nat → List TxOut → Prop
  | _, [] => True
  | index, output :: rest =>
    utxo.lookup ⟨txid, UInt32.ofNat index⟩ = none ∧
      CreatesAbsent (utxo.insert ⟨txid, UInt32.ofNat index⟩ ⟨output, height, coinbase⟩) txid height
        coinbase (index + 1) rest

/-- The set the outputs of a transaction enter: its inputs, unless it is a coinbase, have left. -/
def UtxoSet.spent (utxo : UtxoSet) (tx : Transaction) : UtxoSet :=
  if tx.isCoinbase then utxo else (utxo.spendInputs {} tx.inputs).1

/-- Applied one after the other, the transactions consume what is there and create what is not. -/
def AppliesCleanly (utxo : UtxoSet) (record : UndoRecord) (height : Nat) : List Transaction → Prop
  | [] => True
  | tx :: rest =>
    (tx.isCoinbase = false → ConsumesPresent utxo tx.inputs) ∧
      CreatesAbsent (utxo.spent tx) tx.txid height tx.isCoinbase 0 tx.outputs ∧
      AppliesCleanly (utxo.applyTransaction record tx height).1
        (utxo.applyTransaction record tx height).2 height rest

omit [Crypto] in
theorem consumesPresent_of_nodup {inputs : List TxIn} (distinct : (inputs.map TxIn.prevOut).Nodup)
    (present : ∀ input ∈ inputs, (utxo.lookup input.prevOut).isSome = true) :
    ConsumesPresent utxo inputs := by
  induction inputs generalizing utxo with
  | nil => trivial
  | cons input rest ih =>
    rw [map_cons, nodup_cons] at distinct
    refine ⟨present input (.head _), ih distinct.2 ?_⟩
    intro other member
    have different : other.prevOut ≠ input.prevOut := by
      intro same
      exact distinct.1 (same ▸ mem_map_of_mem member)
    rw [UtxoSet.lookup, UtxoSet.remove_map, lookup_erase_eq, if_neg different]
    exact present other (.tail _ member)

omit [Crypto] in
theorem createsAbsent_of_fresh {txid : Hash256} (height : Nat) (coinbase : Bool)
    {index : Nat} {outputs : List TxOut} (room : index + outputs.length ≤ 2 ^ 32)
    (fresh : ∀ outpoint, outpoint.txid = txid → index ≤ outpoint.index.toNat →
      utxo.lookup outpoint = none) : CreatesAbsent utxo txid height coinbase index outputs := by
  induction outputs generalizing utxo index with
  | nil => trivial
  | cons output rest ih =>
    rw [length_cons] at room
    have numeral : (UInt32.ofNat index).toNat = index :=
      UInt32.toNat_ofNat_of_lt' (by show index < 2 ^ 32; omega)
    refine ⟨fresh _ rfl numeral.ge, ih (by omega) ?_⟩
    intro outpoint own later
    have different : outpoint ≠ ⟨txid, UInt32.ofNat index⟩ := by
      rintro rfl
      dsimp only at later
      omega
    rw [UtxoSet.lookup, UtxoSet.insert_map, lookup_insert_eq, if_neg different]
    exact fresh outpoint own (by omega)

end Clean

section Loop
variable [Crypto]

/-- After the transactions `past`: the set follows them, its record is exact, and the view shows the
set and its names. -/
structure Mirrored (before : FiniteMap OutPoint UtxoEntry) (past : List Transaction)
    (view : BlockView) (utxo : UtxoSet) (record : UndoRecord) : Prop where
  recorded : Recorded before past utxo record
  mirrors : Mirrors view utxo
  inBlock : InBlock past view utxo
  names : SameNames view utxo

variable {before : FiniteMap OutPoint UtxoEntry} {past rest : List Transaction} {tx : Transaction}
  {context : BlockContext} {totals following final : BlockTotals} {utxo : UtxoSet}
  {record : UndoRecord}

/-- What follows has an identifier the set does not know. -/
theorem Follows.lookup_eq_none (follows : Follows past tx) (some' : tx.outputs ≠ [])
    (shown : Shows past utxo.lookup) {outpoint : OutPoint} (own : outpoint.txid = tx.txid) :
    utxo.map.lookup outpoint = none := by
  by_contra found
  obtain ⟨entry, found⟩ := Option.ne_none_iff_exists'.mp found
  exact follows.txid_fresh some' (shown outpoint entry found).1 own

theorem Mirrored.next (mirrored : Mirrored before past totals.view utxo record)
    (now : BlockStep context past tx totals following utxo) :
    Mirrored before (past ++ [tx]) following.view (utxo.applyTransaction record tx context.height).1
        (utxo.applyTransaction record tx context.height).2 ∧
      ConsumesPresent utxo tx.inputs ∧
      CreatesAbsent (utxo.spent tx) tx.txid context.height tx.isCoinbase 0 tx.outputs := by
  have inBlock := now.after record
  obtain ⟨recorded, mirrors⟩ := mirrored.recorded.next mirrored.mirrors now
  obtain ⟨_, follows, txFits, spends, checked⟩ := now
  obtain ⟨fee, inputTotals, inputs, _, rfl, shape⟩ := checkNext_ok checked
  have some' := (Transaction.checkShape_ok shape).2.1
  obtain ⟨registers, money⟩ := checkNext_names checked
  have fresh : ∀ outpoint, outpoint.txid = tx.txid → utxo.map.lookup outpoint = none :=
    fun outpoint own => follows.lookup_eq_none some' mirrored.inBlock.utxo own
  have present : ∀ input ∈ tx.inputs, ∃ entry, utxo.map.lookup input.prevOut = some entry ∧
      entry.output.scheme.isName = false := by
    intro input member
    obtain ⟨entry, found, plain⟩ := money input member
    exact ⟨entry, mirrored.mirrors.outputs _ entry found, plain⟩
  have names := mirrored.names.next record context.height mirrored.recorded.coherent
    recorded.coherent spends txFits fresh
    (by
      intro input member entry found
      obtain ⟨old, held, plain⟩ := present input member
      rw [found] at held
      cases held
      exact plain)
    (by
      rcases checkRegistration_ok registers with ⟨read, _⟩ | ⟨registered, read, _⟩
      · exact ⟨_, read⟩
      · exact ⟨_, read⟩)
  refine ⟨⟨recorded, mirrors, inBlock, names⟩, ?_, ?_⟩
  · refine consumesPresent_of_nodup inputs.distinct ?_
    intro input member
    obtain ⟨entry, held, _⟩ := present input member
    rw [UtxoSet.lookup, held, Option.isSome_some]
  · refine createsAbsent_of_fresh _ _ (by rw [Nat.zero_add]; exact txFits.outputs) ?_
    intro outpoint own _
    have erased : (utxo.spent tx).map = eraseInputs utxo.map tx.inputs := by
      rw [UtxoSet.spent, spends, if_neg Bool.false_ne_true, UtxoSet.spendInputs_map, eraseInputs]
    rw [UtxoSet.lookup, erased, lookup_eraseInputs_eq, fresh outpoint own, ite_self]

/-- The loop of a block keeps the mirror and applies the transactions without a clash. -/
theorem Mirrored.step {property : List Transaction → BlockView → UtxoSet → Prop}
    (step : ∀ past tx totals following utxo record, property past totals.view utxo →
      Mirrored before past totals.view utxo record →
      BlockStep context past tx totals following utxo →
      property (past ++ [tx]) following.view (utxo.applyTransaction record tx context.height).1)
    (held : Mirrored before past totals.view utxo record ∧ property past totals.view utxo)
    (now : BlockStep context past tx totals following utxo) :
    (Mirrored before (past ++ [tx]) following.view
          (utxo.applyTransaction record tx context.height).1
          (utxo.applyTransaction record tx context.height).2 ∧
        property (past ++ [tx]) following.view (utxo.applyTransaction record tx context.height).1) ∧
      ∀ rest, AppliesCleanly (utxo.applyTransaction record tx context.height).1
        (utxo.applyTransaction record tx context.height).2 context.height rest →
        AppliesCleanly utxo record context.height (tx :: rest) := by
  obtain ⟨after, consumes, creates⟩ := held.1.next now
  exact ⟨⟨after, step past tx totals following utxo record held.2 held.1 now⟩,
    fun _ others => ⟨fun _ => consumes, creates, others⟩⟩

theorem Mirrored.run (property : List Transaction → BlockView → UtxoSet → Prop)
    (step : ∀ past tx totals following utxo record, property past totals.view utxo →
      Mirrored before past totals.view utxo record →
      BlockStep context past tx totals following utxo →
      property (past ++ [tx]) following.view (utxo.applyTransaction record tx context.height).1)
    (mirrored : Mirrored before past totals.view utxo record)
    (holds : property past totals.view utxo)
    (apart : TxidsApart (past ++ rest)) (fits : ∀ tx ∈ past ++ rest, tx.Fits)
    (spends : ∀ tx ∈ rest, tx.isCoinbase = false)
    (checked : rest.foldlM (checkNext context) totals = .ok final) :
    Mirrored before (past ++ rest) final.view (utxo.applyTransactions record context.height rest).1
        (utxo.applyTransactions record context.height rest).2 ∧
      property (past ++ rest) final.view (utxo.applyTransactions record context.height rest).1 :=
  (mirrored.inBlock.run
    (fun past view after record => Mirrored before past view after record ∧ property past view after)
    (fun after record rest => AppliesCleanly after record context.height rest)
    (fun _ _ => trivial) (fun _ _ _ _ _ _ held now => Mirrored.step step held now)
    ⟨mirrored, holds⟩ apart fits spends checked).2.1

/-- The view answers about outputs as the set does, and hides only what was once created. -/
structure SameOutputs (past : List Transaction) (view : BlockView) (utxo : UtxoSet) : Prop where
  outputs : ∀ outpoint, view.lookup outpoint = utxo.lookup outpoint
  spent : ∀ outpoint ∈ view.spent, outpoint ∈ createdBy past

theorem SameOutputs.next (same : SameOutputs past totals.view utxo) (record : UndoRecord)
    (now : BlockStep context past tx totals following utxo) :
    SameOutputs (past ++ [tx]) following.view
      (utxo.applyTransaction record tx context.height).1 := by
  obtain ⟨_, follows, _, spends, checked⟩ := now
  obtain ⟨_, _, _, _, rfl, _⟩ := checkNext_ok checked
  have inputs : ∀ outpoint ∈ tx.inputs.map TxIn.prevOut, outpoint ∈ createdBy past := by
    intro outpoint member
    apply follows.spends
    rwa [Transaction.spends, spends, if_neg Bool.false_ne_true]
  constructor
  · intro outpoint
    have before := same.outputs outpoint
    unfold BlockView.lookup UtxoSet.lookup at before ⊢
    rw [applyTransaction_map_of_spend utxo record context.height spends, BlockView.apply_spent,
      BlockView.apply_created, BlockView.apply_confirmed, UtxoSet.lookup_createMap totals.view.created,
      UtxoSet.lookup_createMap (eraseInputs _ _), lookup_eraseInputs_eq, Option.or_assoc, ← before]
    simp only [Finset.mem_union, mem_toFinset]
    cases made : (UtxoSet.createMap ∅ tx.txid context.height false 0 tx.outputs).lookup outpoint with
    | some new =>
      -- What the transaction creates was never spent.
      have created : outpoint ∈ tx.outpoints := by
        rcases mem_outpoints_of_createMap made with created | absent
        · exact created
        · cases absent
      have unspent : ¬ (outpoint ∈ totals.view.spent ∨ outpoint ∈ tx.inputs.map TxIn.prevOut) := by
        rintro (earlier | now)
        · exact follows.fresh outpoint created (same.spent outpoint earlier)
        · exact follows.fresh outpoint created (inputs outpoint now)
      rw [if_neg unspent, Option.some_or, Option.some_or]
    | none =>
      rw [Option.none_or, Option.none_or]
      by_cases now : outpoint ∈ tx.inputs.map TxIn.prevOut
      · rw [if_pos (.inr now), if_pos now]
      · by_cases earlier : outpoint ∈ totals.view.spent
        · rw [if_pos (.inl earlier), if_neg now, if_pos earlier]
        · rw [if_neg (not_or.mpr ⟨earlier, now⟩), if_neg now, if_neg earlier]
  · intro outpoint member
    rw [BlockView.apply_spent, Finset.mem_union, mem_toFinset] at member
    rw [createdBy_snoc]
    rcases member with earlier | now
    · exact mem_append_left _ (same.spent outpoint earlier)
    · exact mem_append_left _ (inputs outpoint now)

/-- Before any transaction of the block. -/
theorem Mirrored.start {height : Nat} (tracked : Tracked past height utxo)
    (coherent : utxo.Coherent) : Mirrored utxo.map past { confirmed := utxo } utxo {} := by
  have shown : BlockView.lookup { confirmed := utxo } = utxo.lookup := by
    funext outpoint
    simp [BlockView.lookup]
  refine ⟨.start coherent tracked.shown, ⟨?_, ?_⟩, ⟨tracked.history, ?_, tracked.shown⟩,
    SameNames.start utxo⟩
  · intro outpoint entry found
    rwa [shown] at found
  · intro text taken
    exact coherent.nameBySkeleton taken
  · exact tracked.shown

theorem SameOutputs.start (past : List Transaction) (utxo : UtxoSet) :
    SameOutputs past { confirmed := utxo } utxo := by
  constructor
  · simp [BlockView.lookup]
  · intro outpoint member
    cases member

/-- After the coinbase, which the view does not see. -/
theorem Mirrored.coinbase {tip : Nat} (tracked : Tracked past tip utxo)
    (coherent : utxo.Coherent) (follows : Follows past tx) (isCoinbase : tx.isCoinbase = true)
    (some' : tx.outputs ≠ []) (fits : tx.Fits)
    (plain : ∀ output ∈ tx.outputs, output.scheme ≠ .nameTag ∧ output.scheme ≠ .nameKey)
    (height : Nat) :
    Mirrored utxo.map (past ++ [tx]) { confirmed := utxo }
        (utxo.applyTransaction {} tx height).1 (utxo.applyTransaction {} tx height).2 ∧
      CreatesAbsent (utxo.spent tx) tx.txid height tx.isCoinbase 0 tx.outputs := by
  have start := Mirrored.start tracked coherent
  have fresh : ∀ outpoint, outpoint.txid = tx.txid → utxo.map.lookup outpoint = none :=
    fun outpoint own => follows.lookup_eq_none some' tracked.shown own
  have map := applyTransaction_map_of_coinbase utxo {} height isCoinbase
  have recorded := (start.recorded.create tracked.shown follows some' fits
    (Announces.of_plain [] plain) (not_nameKey_of_plain plain) height true).1
  rw [← applyTransaction_of_coinbase utxo {} height isCoinbase] at recorded
  have names : (utxo.applyTransaction {} tx height).1.names = utxo.names := by
    refine coherent.names_eq recorded.coherent ?_
    intro tag
    rw [map, registeredAt_create_plain height true fits.outputs fresh plain]
  refine ⟨⟨recorded, ⟨?_, ?_⟩, ⟨tracked.history.snoc fits follows, ?_, ?_⟩,
    start.names.of_names names⟩, ?_⟩
  · intro outpoint entry found
    have held := start.mirrors.outputs outpoint entry found
    have different : outpoint.txid ≠ tx.txid := by
      intro own
      rw [fresh outpoint own] at held
      cases held
    rwa [map, lookup_createMap_at _ _ _ _ fits.outputs, if_neg different]
  · rw [names]
    exact start.mirrors.names
  · refine start.inBlock.view.snoc tracked.history follows ?_
    intro outpoint entry found
    exact .inr ⟨by simp [Transaction.spends, isCoinbase], found⟩
  · exact tracked.shown.snoc tracked.history follows fun _ _ found =>
      lookup_applyTransaction {} found
  · refine createsAbsent_of_fresh _ _ (by rw [Nat.zero_add]; exact fits.outputs) ?_
    intro outpoint own _
    rw [UtxoSet.spent, isCoinbase, if_pos rfl]
    exact fresh outpoint own

/-- A whole accepted block, from the coinbase on, is applied without a clash, and what its steps
preserve holds of the set it leaves. -/
theorem CheckedBlock.mirrored [WorkHash] {height fees : Nat} {block : Block} {coinbase : Transaction}
    (checked : CheckedBlock block utxo context fees coinbase rest)
    (tracked : Tracked past height utxo) (coherent : utxo.Coherent) (small : height + 1 < 2 ^ 62)
    (apart : TxidsApart (past ++ block.transactions)) (onHeight : context.height = height + 1)
    (property : List Transaction → BlockView → UtxoSet → Prop)
    (start : Follows past coinbase → coinbase.Fits →
      (∀ output ∈ coinbase.outputs, output.scheme ≠ .nameTag ∧ output.scheme ≠ .nameKey) →
      property (past ++ [coinbase]) { confirmed := utxo }
        (utxo.applyTransaction {} coinbase context.height).1)
    (step : ∀ past tx totals following after record, property past totals.view after →
      Mirrored utxo.map past totals.view after record →
      BlockStep context past tx totals following after →
      property (past ++ [tx]) following.view (after.applyTransaction record tx context.height).1) :
    (∃ totals : BlockTotals, Mirrored utxo.map (past ++ block.transactions) totals.view
        (utxo.applyTransactions {} (height + 1) block.transactions).1
        (utxo.applyTransactions {} (height + 1) block.transactions).2 ∧
      property (past ++ block.transactions) totals.view
        (utxo.applyTransactions {} (height + 1) block.transactions).1) ∧
      AppliesCleanly utxo {} (height + 1) block.transactions := by
  obtain ⟨some', money⟩ := checkCoinbase_outputs checked.coinbaseRules
  have plain : ∀ output ∈ coinbase.outputs, output.scheme ≠ .nameTag ∧ output.scheme ≠ .nameKey :=
    fun output member => plain_of_isName (money output member)
  obtain ⟨_, ⟨totals, _, finished⟩, cleanly⟩ := checked.walk tracked small apart onHeight
    (fun past view after record => Mirrored utxo.map past view after record ∧
      property past view after)
    (fun after record rest => AppliesCleanly after record context.height rest)
    (fun _ _ => trivial)
    (fun follows fits => by
      obtain ⟨started, creates⟩ := Mirrored.coinbase tracked coherent follows checked.isCoinbase
        some' fits plain context.height
      refine ⟨⟨started, start follows fits plain⟩, fun _ others => ⟨?_, creates, others⟩⟩
      intro spends
      rw [checked.isCoinbase] at spends
      cases spends)
    fun _ _ _ _ _ _ held now => Mirrored.step step held now
  rw [onHeight] at cleanly
  exact ⟨⟨totals, finished⟩, cleanly⟩

end Loop

section FirstInvalid
variable [Crypto]

def firstInvalidFrom (network : Network) (height : Nat) :
    Nat → BlockView → List OutPoint → List Transaction → Option (Nat × ValidationError)
  | _, _, _, [] => none
  | place, view, seen, tx :: rest =>
    match checkTransaction tx view.toView network height seen with
    | .error problem => some (place, problem)
    | .ok (_, seen) => firstInvalidFrom network height (place + 1) (view.apply tx height) seen rest

/-- `first_invalid_transaction`. -/
def firstInvalidTransaction (block : Block) (utxo : UtxoSet) (network : Network) (height : Nat) :
    Option (Nat × ValidationError) :=
  firstInvalidFrom network height 1 { confirmed := utxo } [] block.transactions.tail

/-- The two loops stop at the same transaction, unless the fees overflow. -/
theorem firstInvalidFrom_eq_none {context : BlockContext} {totals : BlockTotals}
    {actual displaced : FiniteMap OutPoint UtxoEntry} (rest : List Transaction) (place : Nat)
    (covers : Covers actual displaced totals.view.lookup)
    (small : jointValue actual displaced + totals.fees < u64Bound) :
    firstInvalidFrom context.network context.height place totals.view totals.seen rest = none ↔
      ∃ final, rest.foldlM (checkNext context) totals = .ok final := by
  induction rest generalizing totals actual displaced place with
  | nil => exact ⟨fun _ => ⟨totals, rfl⟩, fun _ => rfl⟩
  | cons tx rest ih =>
    rw [firstInvalidFrom]
    cases checked : checkTransaction tx totals.view.toView context.network context.height
        totals.seen with
    | error problem =>
      constructor
      · rintro ⟨⟩
      · rintro ⟨final, looped⟩
        simp only [foldlM_cons, checkNext, checked, bind_eq_ok] at looped
        obtain ⟨_, ⟨_, impossible, _⟩, _⟩ := looped
        cases impossible
    | ok result =>
      obtain ⟨fee, seen⟩ := result
      obtain ⟨inputTotals, inputs, rfl, conserved, _⟩ := checkTransaction_ok checked
      have taken := (covers.spend inputs.distinct inputs.present).2
      have added : checkedAdd totals.fees fee = some (totals.fees + fee) := by
        refine checkedAdd_eq_some.mpr ⟨?_, rfl⟩
        have worth : tx.outputValue + fee = spentValue totals.view.lookup tx.inputs := conserved
        omega
      have stepped : checkNext context totals tx =
          .ok ⟨totals.view.apply tx context.height, inputTotals.seen, totals.fees + fee⟩ := by
        simp only [checkNext, checked, bind_eq_ok, orRefuse_eq_ok, pure_eq_ok]
        exact ⟨_, rfl, _, added, rfl⟩
      obtain ⟨nextCovers, lost⟩ := covers.checked stepped
      rw [foldlM_cons, stepped]
      exact ih (place + 1) nextCovers (lost.trans_lt small)

theorem firstInvalidTransaction_eq_none (block : Block)
    (small : utxo.totalValue < u64Bound) (context : BlockContext) :
    firstInvalidTransaction block utxo context.network context.height = none ↔
      ∃ totals, block.transactions.tail.foldlM (checkNext context)
        ⟨{ confirmed := utxo }, [], 0⟩ = .ok totals := by
  have start : Covers utxo.map ∅
      (⟨{ confirmed := utxo }, [], 0⟩ : BlockTotals).view.lookup := Covers.start utxo
  refine firstInvalidFrom_eq_none block.transactions.tail 1 start ?_
  change total UtxoEntry.value utxo.map + 0 + 0 < _
  exact small

end FirstInvalid

/-! ## Every reachable state -/

section Reachable
variable [Crypto] {history : Set Block} {chain : Chain} {block : Block} {context : BlockContext}

theorem Lineage.length_le [WorkHash] {network : Network} {nonce : UInt64} {blocks : List Block}
    (lineage : Lineage network nonce history blocks) : blocks.length ≤ activeCapacity := by
  rcases eq_nil_or_concat' blocks with rfl | ⟨before, block, rfl⟩
  · exact Nat.zero_le _
  · rw [length_append, length_singleton]
    by_cases nonempty : before = []
    · rw [nonempty, length_nil, activeCapacity]
      norm_num
    · obtain ⟨now, accepts⟩ := lineage.accepted before block [] rfl nonempty
      have room := accepts.room
      rwa [ledgerOf_headers, length_map] at room

section Sets
variable {past : List Transaction} {height : Nat} (tracked : Tracked past height utxo)
  (coherent : utxo.Coherent) (apart : TxidsApart (past ++ block.transactions))
include tracked coherent apart

/-- The view of a block after some transactions, on a set that known transactions leave. -/
theorem Tracked.toView_eq (small : block.encode.length ≤ maxBlockSize)
    (shape : block.checkShape = .ok ()) {count : Nat} {totals : BlockTotals}
    (checked : (block.transactions.tail.take count).foldlM (checkNext context)
      ⟨{ confirmed := utxo }, [], 0⟩ = .ok totals) :
    totals.view.toView = (utxo.applyTransactions {} context.height
      (block.transactions.tail.take count)).1.view := by
  obtain ⟨coinbase, rest, listed, _, others, _⟩ := Block.checkShape_ok shape
  have within : ∀ tx ∈ block.transactions.tail.take count, tx ∈ block.transactions :=
    fun tx inside => mem_of_mem_tail (mem_of_mem_take inside)
  have spends : ∀ tx ∈ block.transactions.tail.take count, tx.isCoinbase = false := by
    intro tx inside
    rw [listed] at inside
    exact others tx (mem_of_mem_take inside)
  have apart : TxidsApart (past ++ block.transactions.tail.take count) := by
    refine apart.mono ?_
    intro tx inside
    rcases mem_append.mp inside with earlier | now
    · exact mem_append_left _ earlier
    · exact mem_append_right _ (within tx now)
  have fits : ∀ tx ∈ past ++ block.transactions.tail.take count, tx.Fits := by
    intro tx inside
    rcases mem_append.mp inside with earlier | now
    · exact tracked.fits tx earlier
    · exact Block.fits small tx (within tx now)
  have start := Mirrored.start tracked coherent
  obtain ⟨mirrored, outputs⟩ := start.run SameOutputs
    (fun _ _ _ _ _ record same _ now => same.next record now)
    (SameOutputs.start past utxo) apart fits spends checked
  rw [UtxoSet.view, UtxoView.mk.injEq]
  exact ⟨funext outputs.outputs, funext mirrored.names.names, funext mirrored.names.owners⟩

/-- An accepted block is applied without a clash. -/
theorem Tracked.appliesCleanly [WorkHash] {fees : Nat} (small : height + 1 < 2 ^ 62)
    (onHeight : context.height = height + 1) (checked : checkBlock block utxo context = .ok fees) :
    AppliesCleanly utxo {} context.height block.transactions := by
  obtain ⟨coinbase, rest, accepted⟩ := checkBlock_ok checked
  have cleanly := (accepted.mirrored tracked coherent small apart onHeight (fun _ _ _ => True)
    (fun _ _ _ => trivial) fun _ _ _ _ _ _ _ _ _ => trivial).2
  rwa [← onHeight] at cleanly

end Sets

variable [WorkHash]

omit [WorkHash] in
theorem Sound.totalValue_lt (sound : Sound (headersOf history) chain) :
    chain.utxo.totalValue < u64Bound := by
  obtain ⟨valued, scheduled⟩ := sound.tip
  have capped := premint_add_cumulativeEmission_le chain.height
  have small : maxSupply < u64Bound := by decide
  omega

/-- The set of a reached chain is what known transactions leave, and worth less than 64 bits hold. On
such a set, after any number of the transactions of a block, the view answers as the set they leave,
and an accepted block consumes only outputs that are there and creates only outputs that are not. On
any set worth less than 64 bits hold no transaction is named invalid exactly when the loop accepts
them all. -/
theorem validation_agrees_with_application :
    (∀ network nonce (history : Set Block), HistoryApart history → genesisBlock nonce ∈ history →
      ∀ calls : List Call, (∀ call ∈ calls, call.From history) →
        let utxo := (run calls (Chain.new network (genesisBlock nonce))).utxo
        utxo.Coherent ∧ utxo.totalValue < u64Bound ∧ ∃ past height, Tracked past height utxo ∧
          ∀ block ∈ history, TxidsApart (past ++ block.transactions)) ∧
      (∀ past height utxo block, Tracked past height utxo → utxo.Coherent →
        TxidsApart (past ++ block.transactions) →
        (∀ context count totals, block.encode.length ≤ maxBlockSize → block.checkShape = .ok () →
          (block.transactions.tail.take count).foldlM (checkNext context)
            ⟨{ confirmed := utxo }, [], 0⟩ = .ok totals →
          totals.view.toView = (utxo.applyTransactions {} context.height
            (block.transactions.tail.take count)).1.view) ∧
        ∀ context fees, height + 1 < 2 ^ 62 → context.height = height + 1 →
          checkBlock block utxo context = .ok fees →
          AppliesCleanly utxo {} context.height block.transactions) ∧
      ∀ utxo block context, utxo.totalValue < u64Bound →
        (firstInvalidTransaction block utxo context.network context.height = none ↔
          ∃ totals, block.transactions.tail.foldlM (checkNext context)
            ⟨{ confirmed := utxo }, [], 0⟩ = .ok totals) := by
  refine ⟨?_, ?_, fun utxo block context small =>
    firstInvalidTransaction_eq_none block small context⟩
  · intro network nonce history apart genesisIn calls brings
    obtain ⟨sound, blocks, tracks⟩ := followed_run network nonce apart genesisIn brings
    have ledger := tracks.lineage.sound apart.transactions
    have tracked := ledger.tracked
    have coherent := ledger.coherent
    rw [← tracks.utxo] at tracked coherent
    refine ⟨coherent, sound.totalValue_lt, _, _, tracked, fun block member => ?_⟩
    have joined : transactionsOf (blocks ++ [block]) =
        transactionsOf blocks ++ block.transactions := by simp [transactionsOf]
    rw [← joined]
    refine apart.transactions.txidsApart ?_
    intro other inside
    rcases mem_append.mp inside with earlier | last
    · exact tracks.lineage.members other earlier
    · rwa [mem_singleton.mp last]
  · intro past height utxo block tracked coherent apart
    exact ⟨fun context count totals small shape checked =>
        tracked.toView_eq coherent apart small shape checked,
      fun context fees small onHeight checked =>
        tracked.appliesCleanly coherent apart small onHeight checked⟩

end Reachable

theorem paymentSet_tracked :
    letI : Crypto := checksumCrypto
    Tracked [paymentSource] 0 paymentSet := by
  let _ := checksumCrypto
  have coinbase : paymentSource.isCoinbase = true := rfl
  have created : createdBy [paymentSource] = [⟨paymentSource.txid, 0⟩] := rfl
  have spent : spentBy [paymentSource] = [] := rfl
  refine ⟨⟨?_, ?_⟩, ?_, ?_, ?_⟩
  · rw [created]
    exact nodup_singleton _
  · rw [spent]
    exact fun _ member => absurd member not_mem_nil
  · intro outpoint entry found
    rw [paymentSet, UtxoSet.lookup, UtxoSet.insert_map, lookup_insert_eq] at found
    rw [created, spent]
    split at found
    · rename_i here
      exact ⟨mem_singleton.mpr here, not_mem_nil⟩
    · cases found
  · intro tx member
    rw [mem_singleton.mp member]
    exact Transaction.fits_of_encode (by decide +kernel)
  · intro tx member _
    rw [mem_singleton.mp member]
    exact .inl rfl

theorem paymentSet_coherent [Crypto] : paymentSet.Coherent := by
  refine UtxoSet.Coherent.empty.insert (Finmap.lookup_empty _) ?_
  intro tag _ _ paired
  cases paired

theorem paymentBlock_apart :
    letI : Crypto := checksumCrypto
    TxidsApart ([paymentSource] ++ paymentBlock.transactions) := by
  let _ := checksumCrypto
  have different : ∀ first ∈ [paymentSource] ++ paymentBlock.transactions,
      ∀ second ∈ [paymentSource] ++ paymentBlock.transactions,
      first.txid = second.txid → first = second := by decide +kernel
  rintro _ ⟨first, firstIn, rfl⟩ _ ⟨second, secondIn, rfl⟩ same
  rw [different first firstIn second secondIn same]

/-- The block context of the height after the genesis. -/
def firstContext [Crypto] : BlockContext where
  network := .regtest
  height := 1
  prevId := (genesisBlock 0).header.blockId
  recentTimes := []
  parentTime := none
  expectedBits := initialBits
  now := 2 ^ 31
  ancestors := []
  claimedUncles := []
  uncleExpectedBits := []
  cumulativeIssued := 0

theorem paymentBlock_checked :
    letI : Crypto := checksumCrypto
    letI : WorkHash := zeroWork
    (checkBlock paymentBlock paymentSet firstContext).isOk = true ∧
      firstInvalidTransaction paymentBlock paymentSet .regtest 1 = none := by
  decide +kernel

/-- A block with a payment and the spend of its output. -/
theorem validation_agrees_with_application_payments :
    letI : Crypto := checksumCrypto
    letI : WorkHash := zeroWork
    AppliesCleanly paymentSet {} 1 paymentBlock.transactions ∧
      ∃ totals, [firstPayment, secondPayment].foldlM (checkNext firstContext)
          ⟨{ confirmed := paymentSet }, [], 0⟩ = .ok totals ∧
        totals.view.toView = (paymentSet.applyTransactions {} 1
          [firstPayment, secondPayment]).1.view := by
  let _ := checksumCrypto
  let _ := zeroWork
  obtain ⟨_, agrees, named⟩ := validation_agrees_with_application
  obtain ⟨viewed, clean⟩ := agrees _ _ _ _ paymentSet_tracked paymentSet_coherent
    paymentBlock_apart
  obtain ⟨accepted, uninvalid⟩ := paymentBlock_checked
  obtain ⟨fees, checked⟩ := exists_eq_ok accepted
  obtain ⟨totals, looped⟩ := (named paymentSet paymentBlock firstContext (by decide +kernel)).mp
    uninvalid
  refine ⟨clean firstContext fees (by decide) rfl checked, totals, looped, ?_⟩
  exact viewed firstContext 2 totals (by decide +kernel) (by decide +kernel) looped

section Overflow
variable [Crypto]

/-- Two outputs of the largest amount there is. -/
def overflowSet : UtxoSet :=
  let entry : UtxoEntry := ⟨⟨0xffffffffffffffff, .mlDsa65, pubkeyHash .mlDsa65 paymentKey⟩, 0, false⟩
  (UtxoSet.insert {} ⟨Hash256.zero, 0⟩ entry).insert ⟨Hash256.zero, 1⟩ entry

/-- The spend of one of them, nearly all of it a fee. -/
def overflowSpend (index : UInt32) : Transaction :=
  let unsigned : Transaction :=
    { version := 1, inputs := [⟨⟨Hash256.zero, index⟩, {}, 0⟩]
      outputs := [⟨UInt64.ofNat minOutputValue, .mlDsa65, Hash256.zero⟩], lockTime := 0 }
  let spent : TxOut := ⟨0xffffffffffffffff, .mlDsa65, pubkeyHash .mlDsa65 paymentKey⟩
  let signature := replicate (SchemeId.mlDsa65.sigLen - 32) 0 ++
    (unsigned.sighash 0 .regtest spent).bytes
  { unsigned with inputs := [⟨⟨Hash256.zero, index⟩, ⟨paymentKey, signature⟩, 0⟩] }

def overflowBlock : Block :=
  { firstBlock 0 with
    transactions := (firstBlock 0).transactions ++ [overflowSpend 0, overflowSpend 1] }

/-- The set with a registered name where the first spend creates its output. -/
def overwrittenSet : UtxoSet :=
  (overflowSet.insert ⟨(overflowSpend 0).txid, 0⟩
    ⟨⟨50_000_000, .nameTag, ⟨replicate 3 0x61 ++ replicate 29 0, rfl⟩⟩, 0, false⟩).insert
    ⟨(overflowSpend 0).txid, 1⟩ ⟨⟨0, .nameKey, Hash256.zero⟩, 0, false⟩

def firstCoinbase : Transaction where
  version := 1
  inputs := [TxIn.coinbase (leBytes 8 1)]
  outputs := [⟨UInt64.ofNat (blockSubsidy 1), .mlDsa87, Hash256.zero⟩]
  lockTime := 0

/-- The set with an output where the coinbase of the block creates one. -/
def createdSet : UtxoSet :=
  paymentSet.insert ⟨firstCoinbase.txid, 0⟩ ⟨paymentOutput 1_000_000, 0, false⟩

end Overflow

/-- Sets that no chain has: where the first spend overwrites a registered name, the view still shows
the name; where two fees exceed 64 bits, no transaction is named invalid and the loop refuses them;
and where an output of the block is there already, the block is accepted. -/
theorem other_sets_disagree :
    letI : Crypto := checksumCrypto
    letI : WorkHash := zeroWork
    (∃ totals, [overflowSpend 0].foldlM (checkNext firstContext)
        ⟨{ confirmed := overwrittenSet }, [], 0⟩ = .ok totals ∧
      totals.view.toView ≠
        (overwrittenSet.applyTransactions {} 1 [overflowSpend 0]).1.view) ∧
      (firstInvalidTransaction overflowBlock overflowSet .regtest 1 = none ∧
        ¬ ∃ totals, overflowBlock.transactions.tail.foldlM (checkNext firstContext)
          ⟨{ confirmed := overflowSet }, [], 0⟩ = .ok totals) ∧
      (∃ fees, checkBlock paymentBlock createdSet firstContext = .ok fees) ∧
      ¬ AppliesCleanly createdSet {} 1 paymentBlock.transactions := by
  let _ := checksumCrypto
  let _ := zeroWork
  refine ⟨?_, ⟨by decide +kernel, ?_⟩, exists_eq_ok (by decide +kernel), ?_⟩
  · have accepted : ([overflowSpend 0].foldlM (checkNext firstContext)
        ⟨{ confirmed := overwrittenSet }, [], 0⟩).isOk = true := by decide +kernel
    have shown : (([overflowSpend 0].foldlM (checkNext firstContext)
        ⟨{ confirmed := overwrittenSet }, [], 0⟩).toOption.map fun totals =>
          (totals.view.toView.nameBySkeleton (skeleton (replicate 3 0x61))).isSome) = some true := by
      decide +kernel
    obtain ⟨totals, looped⟩ := exists_eq_ok accepted
    refine ⟨totals, looped, fun same => ?_⟩
    have gone : (totals.view.toView.nameBySkeleton (skeleton (replicate 3 0x61))).isSome =
        false := by
      rw [same]
      decide +kernel
    rw [looped, Except.toOption, Option.map_some, gone] at shown
    cases shown
  · rintro ⟨totals, accepted⟩
    have refused : (overflowBlock.transactions.tail.foldlM (checkNext firstContext)
        ⟨{ confirmed := overflowSet }, [], 0⟩).toOption.isSome = false := by decide +kernel
    rw [accepted] at refused
    cases refused
  · have listed : paymentBlock.transactions = firstCoinbase :: [firstPayment, secondPayment] := rfl
    have paid : firstCoinbase.isCoinbase = true := rfl
    have there : (createdSet.lookup ⟨firstCoinbase.txid, 0⟩).isSome = true := by decide +kernel
    rw [listed]
    rintro ⟨_, creates, _⟩
    rw [UtxoSet.spent, if_pos paid] at creates
    have absent : createdSet.lookup ⟨firstCoinbase.txid, 0⟩ = none := creates.1
    rw [absent] at there
    cases there

end Q21Formal.Ledger

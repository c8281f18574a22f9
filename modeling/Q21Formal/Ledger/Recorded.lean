import Q21Formal.Ledger.Outpoints

/-!
# The record of a block is exact

Outpoints are created once, so the record of a block tells its effect apart from everything else,
and undoing the block gives back the set before it.  A transaction adds to the registrations of a
set the one it announces, and the view inside a block answers for names as the set it leaves.
-/

namespace Q21Formal.Ledger
open Library.Codec Library.Refusal Library.Maps Primitives List Option

/-! ## One transaction of a block -/

section Block
variable [Crypto] {tx coinbase : Transaction} {height fees : Nat} {past rest : List Transaction}
  {utxo : UtxoSet} {record : UndoRecord} {inputs : List TxIn}
  {before : FiniteMap OutPoint UtxoEntry} {context : BlockContext} {totals : BlockTotals}
  {block : Block}

/-- A checked transaction registers at most one free name and spends money only. -/
theorem checkTransaction_names {view : UtxoView} {network : Network} {seen : List OutPoint}
    {result : Nat × List OutPoint}
    (checked : checkTransaction tx view network height seen = .ok result) :
    checkRegistration tx view = .ok () ∧ ∀ input ∈ tx.inputs, ∃ entry,
      view.lookup input.prevOut = some entry ∧ entry.output.scheme.isName = false := by
  constructor
  · simp only [checkTransaction, bind_eq_ok] at checked
    obtain ⟨_, _, _, _, _, registered, _⟩ := checked
    exact registered
  · intro input member
    obtain ⟨_, _, _, accepted⟩ := checkTransaction_inputs checked input member
    simp only [checkInput, bind_eq_ok, require_eq_ok, orRefuse_eq_ok] at accepted
    obtain ⟨_, _, entry, found, _, spendable, _⟩ := accepted
    refine ⟨entry, found, ?_⟩
    simpa [SchemeId.isSpendable] using spendable

theorem checkNext_names {following : BlockTotals}
    (checked : checkNext context totals tx = .ok following) :
    checkRegistration tx totals.view.toView = .ok () ∧ ∀ input ∈ tx.inputs, ∃ entry,
      totals.view.lookup input.prevOut = some entry ∧ entry.output.scheme.isName = false := by
  simp only [checkNext, bind_eq_ok, Prod.exists] at checked
  obtain ⟨_, _, accepted, _⟩ := checked
  exact checkTransaction_names accepted

/-- What is created later has an identifier of its own. -/
theorem Follows.txid_fresh (follows : Follows past tx) (some' : tx.outputs ≠ [])
    {outpoint : OutPoint} (created : outpoint ∈ createdBy past) : outpoint.txid ≠ tx.txid := by
  intro same
  obtain ⟨earlier, member, here⟩ := mem_flatMap.mp created
  have first : ∀ other : Transaction, other.outputs ≠ [] →
      (⟨other.txid, UInt32.ofNat 0⟩ : OutPoint) ∈ other.outpoints := fun other nonempty =>
    mem_map.mpr ⟨0, mem_range.mpr (length_pos_iff.mpr nonempty), rfl⟩
  have nonempty : earlier.outputs ≠ [] := by
    intro empty
    rw [Transaction.outpoints, empty] at here
    cases here
  have again : (⟨tx.txid, UInt32.ofNat 0⟩ : OutPoint) ∈ createdBy past := by
    rw [← same, Transaction.txid_of_mem_outpoints here]
    exact mem_flatMap.mpr ⟨earlier, member, first earlier nonempty⟩
  exact follows.fresh _ (first tx some') again

/-- What the loop over a block has done to the set so far, against the map before the block. -/
structure Recorded (before : FiniteMap OutPoint UtxoEntry) (past : List Transaction)
    (utxo : UtxoSet) (record : UndoRecord) : Prop where
  exact' : UtxoSet.Exact before utxo.map record
  plain : UtxoSet.SpendsPlain record
  coherent : utxo.Coherent
  older : ∀ outpoint entry, before.lookup outpoint = some entry → outpoint ∈ createdBy past
  spent : ∀ outpoint ∈ record.spent.map Prod.fst, outpoint ∈ createdBy past

/-- Before a block nothing is recorded. -/
theorem Recorded.start (coherent : utxo.Coherent) (shown : Shows past utxo.lookup) :
    Recorded utxo.map past utxo {} := by
  refine ⟨.refl _, ?_, coherent, fun outpoint entry found => (shown outpoint entry found).1, ?_⟩
  · intro entry member
    cases member
  · intro outpoint member
    cases member

/-- The view shows no output that is not in the set, and every name of the set is taken in it. -/
structure Mirrors (view : BlockView) (utxo : UtxoSet) : Prop where
  outputs : ∀ outpoint entry, view.lookup outpoint = some entry →
    utxo.map.lookup outpoint = some entry
  names : ∀ text, utxo.names.bySkeleton.lookup text ≠ none → view.toView.nameBySkeleton text ≠ none

omit [Crypto] in
/-- What is recorded as spent was in the set. -/
theorem mem_spent_spendInputs {entry : OutPoint × UtxoEntry}
    (member : entry ∈ (utxo.spendInputs record inputs).2.spent) :
    entry ∈ record.spent ∨
      (entry.1 ∈ inputs.map TxIn.prevOut ∧ utxo.map.lookup entry.1 = some entry.2) := by
  induction inputs generalizing utxo record with
  | nil => exact .inl member
  | cons input rest ih =>
    rw [UtxoSet.spendInputs] at member
    split at member
    · rcases ih member with earlier | ⟨listed, found⟩
      · exact .inl earlier
      · rw [UtxoSet.remove_map] at found
        exact .inr ⟨mem_cons_of_mem _ listed, erase_within _ _ _ _ found⟩
    · rename_i old present
      rcases ih member with earlier | ⟨listed, found⟩
      · rcases mem_append.mp earlier with before | last
        · exact .inl before
        · obtain rfl := mem_singleton.mp last
          exact .inr ⟨mem_cons_self, present⟩
      · rw [UtxoSet.remove_map] at found
        exact .inr ⟨mem_cons_of_mem _ listed, erase_within _ _ _ _ found⟩

omit [Crypto] in
theorem createOutputs_spent (utxo : UtxoSet) (record : UndoRecord) (txid : Hash256) (height : Nat)
    (coinbase : Bool) (index : Nat) (outputs : List TxOut) :
    (utxo.createOutputs record txid height coinbase index outputs).2.spent = record.spent := by
  induction outputs generalizing utxo record index with
  | nil => rfl
  | cons output rest ih => rw [UtxoSet.createOutputs, ih]

/-- Creating the outputs of a transaction that follows is recorded. -/
theorem Recorded.create {shape : Bytes} (recorded : Recorded before past utxo record)
    (shown : Shows past utxo.lookup) (follows : Follows past tx) (some' : tx.outputs ≠ [])
    (fits : tx.Fits) (announces : Announces shape tx.outputs)
    (unlike : (∃ output ∈ tx.outputs, output.scheme = .nameKey) →
      utxo.names.bySkeleton.lookup shape = none) (height : Nat) (coinbase : Bool) :
    Recorded before (past ++ [tx])
        (utxo.createOutputs record tx.txid height coinbase 0 tx.outputs).1
        (utxo.createOutputs record tx.txid height coinbase 0 tx.outputs).2 ∧
      ∀ query, (utxo.createOutputs record tx.txid height coinbase 0
          tx.outputs).1.names.bySkeleton.lookup query ≠ none →
        utxo.names.bySkeleton.lookup query ≠ none ∨
          (query = shape ∧ ∃ output ∈ tx.outputs, output.scheme = .nameKey) := by
  have absent : ∀ outpoint, outpoint.txid = tx.txid → utxo.map.lookup outpoint = none := by
    intro outpoint same
    by_contra found
    obtain ⟨entry, found⟩ := ne_none_iff_exists'.mp found
    exact follows.txid_fresh some' (shown outpoint entry found).1 same
  have creating : utxo.Creating tx.txid shape 0 := by
    refine ⟨recorded.coherent, fun outpoint same _ => absent outpoint same, ?_⟩
    intro outpoint entry same found
    rw [absent outpoint same] at found
    cases found
  have room : 0 + tx.outputs.length ≤ 2 ^ 32 := by
    rw [zero_add]
    exact fits.outputs
  obtain ⟨coherent, names⟩ := creating.createOutputs record height coinbase announces room unlike
  refine ⟨⟨?_, ?_, coherent, ?_, ?_⟩, names⟩
  · apply recorded.exact'.createOutputs
    intro offset _
    constructor
    · by_contra found
      obtain ⟨entry, found⟩ := ne_none_iff_exists'.mp found
      exact follows.txid_fresh some' (recorded.older _ entry found) rfl
    · intro spent
      exact follows.txid_fresh some' (recorded.spent _ spent) rfl
  · intro entry member
    rw [createOutputs_spent] at member
    exact recorded.plain entry member
  · intro outpoint entry found
    rw [createdBy_snoc]
    exact mem_append_left _ (recorded.older outpoint entry found)
  · intro outpoint spent
    rw [createOutputs_spent] at spent
    rw [createdBy_snoc]
    exact mem_append_left _ (recorded.spent outpoint spent)

/-- Spending outputs of money that are in the set is recorded. -/
theorem Recorded.spend (recorded : Recorded before past utxo record)
    (shown : Shows past utxo.lookup)
    (money : ∀ input ∈ inputs, ∃ entry, utxo.map.lookup input.prevOut = some entry ∧
      entry.output.scheme.isName = false) :
    Recorded before past (utxo.spendInputs record inputs).1 (utxo.spendInputs record inputs).2 := by
  refine ⟨recorded.exact'.spendInputs inputs, ?_, recorded.coherent.spendInputs record inputs,
    recorded.older, ?_⟩
  · intro entry member
    rcases mem_spent_spendInputs member with earlier | ⟨listed, found⟩
    · exact recorded.plain entry earlier
    · obtain ⟨input, inTx, same⟩ := mem_map.mp listed
      obtain ⟨old, present, plain⟩ := money input inTx
      rw [same, found] at present
      cases present
      exact plain
  · intro outpoint spent
    obtain ⟨entry, member, rfl⟩ := mem_map.mp spent
    rcases mem_spent_spendInputs member with earlier | ⟨_, found⟩
    · exact recorded.spent _ (mem_map_of_mem earlier)
    · exact (shown entry.1 entry.2 found).1

omit [Crypto] in
theorem lookup_eraseInputs_eq (map : FiniteMap OutPoint UtxoEntry) (inputs : List TxIn)
    (query : OutPoint) : (eraseInputs map inputs).lookup query =
      if query ∈ inputs.map TxIn.prevOut then none else map.lookup query := by
  rw [← UtxoSet.lookup_foldl_erase, foldl_map, eraseInputs]

theorem applyTransaction_of_spend (utxo : UtxoSet) (record : UndoRecord) (height : Nat)
    (spends : tx.isCoinbase = false) :
    utxo.applyTransaction record tx height =
      (utxo.spendInputs record tx.inputs).1.createOutputs (utxo.spendInputs record tx.inputs).2
        tx.txid height false 0 tx.outputs := by
  simp only [UtxoSet.applyTransaction, spends, Bool.false_eq_true, if_false]

theorem applyTransaction_of_coinbase (utxo : UtxoSet) (record : UndoRecord) (height : Nat)
    (coinbase : tx.isCoinbase = true) :
    utxo.applyTransaction record tx height =
      utxo.createOutputs record tx.txid height true 0 tx.outputs := by
  simp only [UtxoSet.applyTransaction, coinbase, if_true]

/-- A name taken in the view stays taken, and the registered one is taken after it. -/
theorem nameBySkeleton_apply (view : BlockView) (tx : Transaction) (height : Nat) (text : Bytes)
    (taken : view.toView.nameBySkeleton text ≠ none ∨
      ∃ registered, registration tx = .ok (some registered) ∧ skeleton registered.name = text) :
    (view.apply tx height).toView.nameBySkeleton text ≠ none := by
  have shown : (view.apply tx height).toView.nameBySkeleton text =
      ((view.apply tx height).named.lookup text).or (view.confirmed.names.nameBySkeleton text) := by
    rw [BlockView.toView, BlockView.apply_confirmed]
  rw [shown, ne_eq, or_eq_none_iff]
  rintro ⟨named, confirmed⟩
  rw [BlockView.toView] at taken
  rw [ne_eq, or_eq_none_iff] at taken
  unfold BlockView.apply at named
  split at named
  · rename_i registered read
    rw [lookup_insert_eq] at named
    split at named
    · cases named
    · rename_i different
      rcases taken with earlier | ⟨other, readOther, shaped⟩
      · exact earlier ⟨named, confirmed⟩
      · rw [read] at readOther
        cases readOther
        exact different shaped.symm
  · rename_i unread
    rcases taken with earlier | ⟨other, readOther, _⟩
    · exact earlier ⟨named, confirmed⟩
    · exact unread other readOther

/-- One more transaction: the record stays exact and the view a mirror of the set. -/
theorem Recorded.next {following : BlockTotals} (recorded : Recorded before past utxo record)
    (mirrors : Mirrors totals.view utxo) (now : BlockStep context past tx totals following utxo) :
    Recorded before (past ++ [tx]) (utxo.applyTransaction record tx context.height).1
        (utxo.applyTransaction record tx context.height).2 ∧
      Mirrors following.view (utxo.applyTransaction record tx context.height).1 := by
  obtain ⟨⟨_, _, shown⟩, follows, fits, spends, checked⟩ := now
  obtain ⟨fee, inputTotals, inputs, _, rfl, shape⟩ := checkNext_ok checked
  have some' := (Transaction.checkShape_ok shape).2.1
  obtain ⟨registers, money⟩ := checkNext_names checked
  have spent := recorded.spend shown fun input member => by
    obtain ⟨entry, found, plain⟩ := money input member
    exact ⟨entry, mirrors.outputs _ entry found, plain⟩
  have map : (utxo.spendInputs record tx.inputs).1.map = eraseInputs utxo.map tx.inputs :=
    UtxoSet.spendInputs_map utxo record tx.inputs
  have shownAfter : Shows past (utxo.spendInputs record tx.inputs).1.lookup := by
    intro outpoint entry found
    rw [UtxoSet.lookup, map] at found
    exact shown outpoint entry (lookup_eraseInputs found).2
  have taken : ∀ text, (utxo.spendInputs record tx.inputs).1.names.bySkeleton.lookup text ≠ none →
      totals.view.toView.nameBySkeleton text ≠ none := by
    intro text held
    obtain ⟨name, found⟩ := ne_none_iff_exists'.mp held
    apply mirrors.names
    rw [UtxoSet.bySkeleton_spendInputs utxo record tx.inputs text name found]
    exact some_ne_none name
  rw [applyTransaction_of_spend utxo record context.height spends]
  have outputs : ∀ outpoint entry, (totals.view.apply tx context.height).lookup outpoint =
      some entry → ((utxo.spendInputs record tx.inputs).1.createOutputs
        (utxo.spendInputs record tx.inputs).2 tx.txid context.height false 0
        tx.outputs).1.map.lookup outpoint = some entry := by
    intro outpoint entry found
    rw [UtxoSet.createOutputs_map, map, UtxoSet.lookup_createMap, lookup_eraseInputs_eq]
    rcases or_eq_some_iff.mp (BlockView.lookup_apply found) with made | ⟨unmade, kept⟩
    · rw [made, some_or]
    · unfold without at kept
      rw [unmade, none_or]
      split at kept
      · cases kept
      · rename_i unspent
        rw [if_neg unspent]
        exact mirrors.outputs outpoint entry kept
  rcases checkRegistration_ok registers with ⟨_, plain⟩ | ⟨registered, read, announces, free⟩
  · obtain ⟨after, names⟩ := spent.create shownAfter follows some' fits (Announces.of_plain [] plain)
      (not_nameKey_of_plain plain) context.height false
    refine ⟨after, outputs, ?_⟩
    intro text held
    apply nameBySkeleton_apply
    rcases names text held with earlier | ⟨_, output, member, key⟩
    · exact .inl (taken text earlier)
    · exact absurd key (plain output member).2
  · have unlike : (utxo.spendInputs record tx.inputs).1.names.bySkeleton.lookup
        (skeleton registered.name) = none := by
      by_contra held
      exact taken _ held free
    obtain ⟨after, names⟩ := spent.create shownAfter follows some' fits announces
      (fun _ => unlike) context.height false
    refine ⟨after, outputs, ?_⟩
    intro text held
    apply nameBySkeleton_apply
    rcases names text held with earlier | ⟨rfl, _⟩
    · exact .inl (taken text earlier)
    · exact .inr ⟨registered, read, rfl⟩

omit [Crypto] in
/-- A coinbase has an output, and no name among its outputs. -/
theorem checkCoinbase_outputs (checked : checkCoinbase block coinbase context fees = .ok ()) :
    coinbase.outputs ≠ [] ∧ ∀ output ∈ coinbase.outputs, output.scheme.isName = false := by
  simp only [checkCoinbase, bind_eq_ok, require_eq_ok, orRefuse_eq_ok, mapError_eq_ok] at checked
  obtain ⟨_, _, _, _, claimed, paid, _, _, _, _, _, _, _, _, _, _, outputs⟩ := checked
  constructor
  · intro empty
    simp [checkPayees, empty] at paid
  · intro output member
    have allowed := forM_eq_ok.mp outputs output member
    simp only [bind_eq_ok, require_eq_ok] at allowed
    obtain ⟨_, money, _⟩ := allowed
    exact money

omit [Crypto] in
theorem plain_of_isName {scheme : SchemeId} (plain : scheme.isName = false) :
    scheme ≠ .nameTag ∧ scheme ≠ .nameKey := by
  constructor <;> rintro rfl <;> cases plain

omit [Crypto] in
/-- A name in the index of a coherent set is found by its skeleton. -/
theorem UtxoSet.Coherent.nameBySkeleton (coherent : utxo.Coherent) {text : Bytes}
    (taken : utxo.names.bySkeleton.lookup text ≠ none) : utxo.names.nameBySkeleton text ≠ none := by
  obtain ⟨registered, _, holds⟩ := coherent.names
  obtain ⟨name, found⟩ := ne_none_iff_exists'.mp taken
  obtain ⟨_, _, _, rfl, shaped⟩ := (holds.bySkeleton text name).mp found
  rw [NameIndex.nameBySkeleton, found, bind_some]
  intro undecoded
  rw [skeletonOf, undecoded] at shaped
  cases shaped

section Accepted
variable [WorkHash] (checked : CheckedBlock block utxo context fees coinbase rest)
  (tracked : Tracked past height utxo) (coherent : utxo.Coherent) (small : height + 1 < 2 ^ 62)
  (apart : TxidsApart (past ++ block.transactions)) (onHeight : context.height = height + 1)
include checked tracked coherent small apart onHeight

/-- A whole accepted block is recorded. -/
theorem CheckedBlock.recorded :
    Recorded utxo.map (past ++ block.transactions)
      (utxo.applyTransactions {} (height + 1) block.transactions).1
      (utxo.applyTransactions {} (height + 1) block.transactions).2 := by
  obtain ⟨some', plain⟩ := checkCoinbase_outputs checked.coinbaseRules
  have unnamed : ∀ output ∈ coinbase.outputs, output.scheme ≠ .nameTag ∧ output.scheme ≠ .nameKey :=
    fun output member => plain_of_isName (plain output member)
  have empty : Recorded utxo.map past utxo {} := .start coherent tracked.shown
  refine (checked.walk tracked small apart onHeight
    (fun past view after record => Recorded utxo.map past after record ∧ Mirrors view after)
    (fun _ _ _ => True) (fun _ _ => trivial) ?_ ?_).2.1.elim fun _ finished => finished.2.1
  · intro follows fits
    obtain ⟨started, names⟩ := empty.create tracked.shown follows some' fits
      (Announces.of_plain [] unnamed) (not_nameKey_of_plain unnamed) context.height true
    rw [← applyTransaction_of_coinbase utxo {} context.height checked.isCoinbase] at started names
    refine ⟨⟨started, ?_, ?_⟩, fun _ _ => trivial⟩
    · intro outpoint entry found
      have held : utxo.map.lookup outpoint = some entry := by
        simpa [BlockView.lookup, UtxoSet.lookup] using found
      rw [applyTransaction_map_of_coinbase _ _ _ checked.isCoinbase, UtxoSet.lookup_createMap, held]
      cases made : (UtxoSet.createMap ∅ coinbase.txid context.height true 0
          coinbase.outputs).lookup outpoint with
      | none => rfl
      | some new =>
        rcases mem_outpoints_of_createMap made with created | absent
        · exact absurd (tracked.shown outpoint entry held).1 (follows.fresh outpoint created)
        · cases absent
    · intro text taken
      rcases names text taken with earlier | ⟨_, output, member, key⟩
      · have shown := coherent.nameBySkeleton earlier
        simpa [BlockView.toView] using shown
      · exact absurd key (unnamed output member).2
  · intro past tx totals following after record held step
    exact ⟨held.1.next held.2 step, fun _ _ => trivial⟩

/-- The set after an accepted block is coherent, and undoing the block gives back the set before. -/
theorem CheckedBlock.undo_eq :
    (utxo.applyTransactions {} (height + 1) block.transactions).1.Coherent ∧
      (utxo.applyTransactions {} (height + 1) block.transactions).1.undo
        (utxo.applyTransactions {} (height + 1) block.transactions).2 = utxo := by
  have recorded := checked.recorded tracked coherent small apart onHeight
  exact ⟨recorded.coherent,
    UtxoSet.undo_eq coherent recorded.coherent recorded.exact' recorded.plain⟩

end Accepted

end Block

variable {outputs : List TxOut}

section
variable (map : FiniteMap OutPoint UtxoEntry) (txid : Hash256) (height : Nat) (coinbase : Bool)

/-- The entry a transaction leaves at an outpoint, from position `index` on. -/
theorem lookup_createMap_from {index : Nat} (room : index + outputs.length ≤ 2 ^ 32)
    (query : OutPoint) :
    (UtxoSet.createMap map txid height coinbase index outputs).lookup query =
      if query.txid = txid ∧ index ≤ query.index.toNat then
        (outputs[query.index.toNat - index]?.map fun output =>
          (⟨output, height, coinbase⟩ : UtxoEntry)).or (map.lookup query)
      else map.lookup query := by
  induction outputs generalizing map index with
  | nil => simp [UtxoSet.createMap]
  | cons output rest ih =>
    rw [length_cons] at room
    have numeral : (UInt32.ofNat index).toNat = index :=
      UInt32.toNat_ofNat_of_lt' (by show index < 2 ^ 32; omega)
    have here : query = ⟨txid, UInt32.ofNat index⟩ ↔
        query.txid = txid ∧ query.index.toNat = index := by
      constructor
      · rintro rfl
        exact ⟨rfl, numeral⟩
      · rintro ⟨same, placed⟩
        obtain ⟨queryTxid, queryIndex⟩ := query
        dsimp only at same placed
        rw [same, UInt32.toNat_inj.mp (placed.trans numeral.symm)]
    rw [UtxoSet.createMap, ih _ (by omega), lookup_insert_eq]
    by_cases sameTxid : query.txid = txid
    · by_cases first : query.index.toNat = index
      · rw [if_pos (here.mpr ⟨sameTxid, first⟩), if_neg (by omega),
          if_pos ⟨sameTxid, first.ge⟩, first, Nat.sub_self]
        rfl
      · rw [if_neg fun same => first (here.mp same).2]
        by_cases later : index < query.index.toNat
        · rw [if_pos ⟨sameTxid, later⟩, if_pos ⟨sameTxid, later.le⟩,
            show query.index.toNat - index = query.index.toNat - (index + 1) + 1 by omega,
            getElem?_cons_succ]
        · rw [if_neg (by omega), if_neg (by omega)]
    · rw [if_neg fun same => sameTxid (here.mp same).1, if_neg fun both => sameTxid both.1,
        if_neg fun both => sameTxid both.1]

theorem lookup_createMap_at (room : outputs.length ≤ 2 ^ 32) (query : OutPoint) :
    (UtxoSet.createMap map txid height coinbase 0 outputs).lookup query =
      if query.txid = txid then
        (outputs[query.index.toNat]?.map fun output =>
          (⟨output, height, coinbase⟩ : UtxoEntry)).or (map.lookup query)
      else map.lookup query := by
  rw [lookup_createMap_from map txid height coinbase (by omega) query, Nat.sub_zero]
  simp only [Nat.zero_le, and_true]

theorem mem_outputsOf {scheme : SchemeId} {output : TxOut} {place : Nat} :
    (output, place) ∈ outputsOf scheme outputs ↔
      outputs[place]? = some output ∧ output.scheme = scheme := by
  rw [outputsOf, mem_filter, mem_zipIdx_iff_getElem?, beq_iff_eq]

/-- A registration is the pair of its two outputs, the only name outputs of the transaction. -/
structure Registration.Pairs (registered : Registration) (tx : Transaction) : Prop where
  pair : ∃ tag key, tx.outputs[registered.tagIndex]? = some tag ∧
    tx.outputs[registered.tagIndex + 1]? = some key ∧ tag.scheme = .nameTag ∧
    key.scheme = .nameKey ∧ decodeName tag.pubkeyHash = some registered.name ∧
    key.pubkeyHash = registered.owner
  onlyTag : ∀ place output, tx.outputs[place]? = some output → output.scheme = .nameTag →
    place = registered.tagIndex
  onlyKey : ∀ place output, tx.outputs[place]? = some output → output.scheme = .nameKey →
    place = registered.tagIndex + 1

end

variable {registered : Registration}

theorem registration_pairs {tx : Transaction}
    (named : registration tx = .ok (some registered)) : registered.Pairs tx := by
  unfold registration at named
  split at named
  · cases named
  · rename_i tag tagIndex key keyIndex oneTag oneKey
    split at named
    · rename_i adjacent
      simp only [bind_eq_ok, require_eq_ok, orRefuse_eq_ok, pure_eq_ok] at named
      obtain ⟨_, _, _, _, name, decoded, same⟩ := named
      cases same
      have tagHere := mem_outputsOf.mp (oneTag ▸ mem_singleton_self (tag, tagIndex))
      have keyHere := mem_outputsOf.mp (oneKey ▸ mem_singleton_self (key, keyIndex))
      subst adjacent
      refine ⟨⟨tag, key, tagHere.1, keyHere.1, tagHere.2, keyHere.2, decoded, rfl⟩, ?_, ?_⟩
      · intro place output found scheme
        have member := mem_outputsOf.mpr ⟨found, scheme⟩
        rw [oneTag, mem_singleton] at member
        exact congrArg Prod.snd member
      · intro place output found scheme
        have member := mem_outputsOf.mpr ⟨found, scheme⟩
        rw [oneKey, mem_singleton] at member
        exact congrArg Prod.snd member
    · cases named
  all_goals cases named

variable {map : FiniteMap OutPoint UtxoEntry} {tx : Transaction} {txid : Hash256}

/-- Spending money ends no registration. -/
theorem registeredAt_eraseInputs {inputs : List TxIn}
    (money : ∀ input ∈ inputs, ∀ entry, map.lookup input.prevOut = some entry →
      entry.output.scheme.isName = false) (tag : OutPoint) :
    registeredAt (eraseInputs map inputs) tag = registeredAt map tag := by
  induction inputs generalizing map with
  | nil => rfl
  | cons input rest ih =>
    have step : registeredAt (map.erase input.prevOut) tag = registeredAt map tag := by
      cases found : map.lookup input.prevOut with
      | none => rw [erase_of_lookup_none found]
      | some entry =>
        have plain := money input (.head _) entry found
        rw [registeredAt_erase found, UtxoSet.pairTag_of_not_name plain, if_neg (by simp)]
    rw [eraseInputs, foldl_cons, ← step]
    apply ih
    intro other member entry found
    exact money other (.tail _ member) entry (erase_within _ _ _ _ found)

/-- The outputs of a transaction without a registration register nothing. -/
theorem registeredAt_create_plain (height : Nat) (coinbase : Bool)
    (room : tx.outputs.length ≤ 2 ^ 32)
    (fresh : ∀ outpoint, outpoint.txid = txid → map.lookup outpoint = none)
    (plain : ∀ output ∈ tx.outputs, output.scheme ≠ .nameTag ∧ output.scheme ≠ .nameKey)
    (tag : OutPoint) :
    registeredAt (UtxoSet.createMap map txid height coinbase 0 tx.outputs) tag =
      registeredAt map tag := by
  by_cases own : tag.txid = txid
  · have before : registeredAt map tag = none := registeredAt_eq_none (.inl (fresh tag own))
    rw [before]
    by_contra held
    obtain ⟨entry, found⟩ := ne_none_iff_exists'.mp held
    obtain ⟨tagEntry, _, tagHere, _, _, scheme, _⟩ := registeredAt_eq_some found
    rw [lookup_createMap_at _ _ _ _ room, if_pos own, fresh tag own, or_none] at tagHere
    obtain ⟨output, listed, rfl⟩ := map_eq_some_iff.mp tagHere
    exact (plain output (mem_of_getElem? listed)).1 scheme
  · apply registeredAt_congr
    · rw [lookup_createMap_at _ _ _ _ room, if_neg own]
    · rw [lookup_createMap_at _ _ _ _ room, if_neg own]

/-- The positions of the pair are the indices of its outpoints. -/
theorem Registration.Pairs.numerals (pairs : registered.Pairs tx)
    (room : tx.outputs.length ≤ 2 ^ 32) : registered.tagIndex + 1 < tx.outputs.length ∧
      (UInt32.ofNat registered.tagIndex).toNat = registered.tagIndex ∧
      (UInt32.ofNat registered.tagIndex + 1).toNat = registered.tagIndex + 1 := by
  obtain ⟨_, _, _, keyHere, _⟩ := pairs.pair
  have inside : registered.tagIndex + 1 < tx.outputs.length :=
    (List.getElem?_eq_some_iff.mp keyHere).1
  have numeral : (UInt32.ofNat registered.tagIndex).toNat = registered.tagIndex :=
    UInt32.toNat_ofNat_of_lt' (by show registered.tagIndex < 2 ^ 32; omega)
  have one : (1 : UInt32).toNat = 1 := rfl
  have next : (UInt32.ofNat registered.tagIndex + 1).toNat = registered.tagIndex + 1 := by
    rw [UInt32.toNat_add, numeral, one, Nat.mod_eq_of_lt (by omega)]
  exact ⟨inside, numeral, next⟩

/-- The outputs of a registration register its name, and nothing else. -/
theorem registeredAt_create (pairs : registered.Pairs tx) (height : Nat)
    (coinbase : Bool) (room : tx.outputs.length ≤ 2 ^ 32)
    (fresh : ∀ outpoint, outpoint.txid = txid → map.lookup outpoint = none) :
    ∃ name, decodeName name = some registered.name ∧ ∀ tag,
      registeredAt (UtxoSet.createMap map txid height coinbase 0 tx.outputs) tag =
        if tag = ⟨txid, UInt32.ofNat registered.tagIndex⟩ then
          some ⟨name, registered.owner, height⟩
        else registeredAt map tag := by
  obtain ⟨tagOut, keyOut, tagHere, keyHere, tagScheme, keyScheme, decoded, owner⟩ := pairs.pair
  obtain ⟨inside, numeral, next⟩ := pairs.numerals room
  refine ⟨tagOut.pubkeyHash, decoded, ?_⟩
  intro tag
  by_cases own : tag.txid = txid
  · split
    · rename_i here
      subst here
      rw [registeredAt, lookup_createMap_at _ _ _ _ room, lookup_createMap_at _ _ _ _ room]
      simp only [if_true, numeral, next, tagHere, keyHere, map_some, some_or,
        tagScheme, keyScheme, decoded, isSome_some, and_true, owner]
      rw [if_pos (by omega)]
    · rename_i elsewhere
      rw [show registeredAt map tag = none from registeredAt_eq_none (.inl (fresh tag own))]
      by_contra held
      obtain ⟨entry, found⟩ := ne_none_iff_exists'.mp held
      obtain ⟨tagEntry, _, tagFound, _, _, scheme, _⟩ := registeredAt_eq_some found
      rw [lookup_createMap_at _ _ _ _ room, if_pos own, fresh tag own, or_none] at tagFound
      obtain ⟨output, listed, rfl⟩ := map_eq_some_iff.mp tagFound
      have placed := pairs.onlyTag _ output listed scheme
      obtain ⟨tagTxid, tagIndex⟩ := tag
      dsimp only at own placed
      rw [own, UInt32.toNat_inj.mp (placed.trans numeral.symm)] at elsewhere
      exact elsewhere rfl
  · have different : tag ≠ ⟨txid, UInt32.ofNat registered.tagIndex⟩ := by
      rintro rfl
      exact own rfl
    rw [if_neg different]
    apply registeredAt_congr
    · rw [lookup_createMap_at _ _ _ _ room, if_neg own]
    · rw [lookup_createMap_at _ _ _ _ room, if_neg own]

/-! ## What validation asks of the names -/

section Answers
variable {utxo after : UtxoSet}

/-- A skeleton designates the registered name that has it. -/
theorem UtxoSet.Coherent.nameBySkeleton_eq_some (coherent : utxo.Coherent) {text name : Bytes} :
    utxo.names.nameBySkeleton text = some name ↔ ∃ tag entry,
      registeredAt utxo.map tag = some entry ∧ decodeName entry.name = some name ∧
        skeleton name = text := by
  obtain ⟨registered, shown, holds⟩ := coherent.names
  rw [NameIndex.nameBySkeleton, bind_eq_some_iff]
  constructor
  · rintro ⟨raw, found, decoded⟩
    obtain ⟨tag, entry, held, rfl, shaped⟩ := (holds.bySkeleton text raw).mp found
    rw [skeletonOf, decoded, map_some] at shaped
    exact ⟨tag, entry, (shown tag).symm.trans held, decoded, some.inj shaped⟩
  · rintro ⟨tag, entry, held, decoded, rfl⟩
    refine ⟨entry.name, (holds.bySkeleton _ _).mpr ⟨tag, entry, ?_, rfl, ?_⟩, decoded⟩
    · rw [shown, held]
    · rw [skeletonOf, decoded, map_some]

theorem NameIndex.Holds.owned_eq {index : NameIndex} {registered : FiniteMap OutPoint Registered}
    (holds : index.Holds registered) (owner : Hash256) :
    index.owned owner = ownedBy registered owner := by
  rw [NameIndex.owned, holds.perOwner]
  split
  · rename_i none'
    rw [none', getD_none]
  · rw [getD_some]

/-- The registrations leave no choice of the index. -/
theorem UtxoSet.Coherent.names_eq (coherent : utxo.Coherent) (later : after.Coherent)
    (same : ∀ tag, registeredAt after.map tag = registeredAt utxo.map tag) :
    after.names = utxo.names := by
  obtain ⟨registered, shown, holds⟩ := coherent.names
  obtain ⟨registered', shown', holds'⟩ := later.names
  obtain rfl : registered' = registered := by
    apply Finmap.ext_lookup
    intro tag
    rw [shown', same, shown]
  exact holds'.unique holds

/-- One registration more is one name more, and one more for its owner. -/
theorem UtxoSet.Coherent.names_add (coherent : utxo.Coherent) (later : after.Coherent)
    {tag : OutPoint} {new : Registered} {text : Bytes} (fresh : registeredAt utxo.map tag = none)
    (added : ∀ other, registeredAt after.map other =
      if other = tag then some new else registeredAt utxo.map other)
    (decoded : decodeName new.name = some text) :
    (∀ query, after.names.nameBySkeleton query =
        if query = skeleton text then some text else utxo.names.nameBySkeleton query) ∧
      ∀ owner, after.names.owned owner =
        utxo.names.owned owner + if new.owner = owner then 1 else 0 := by
  constructor
  · intro query
    apply Option.ext
    intro name
    rw [later.nameBySkeleton_eq_some]
    split
    · rename_i here
      rw [some.injEq]
      constructor
      · rintro ⟨other, entry, held, named, shaped⟩
        -- Two registrations of one skeleton are one.
        obtain ⟨registered, shown, holds⟩ := later.names
        have newHeld : registered.lookup tag = some new := by rw [shown, added, if_pos rfl]
        have otherHeld : registered.lookup other = some entry := (shown other).trans held
        have alike : skeletonOf entry.name = skeletonOf new.name := by
          rw [skeletonOf, skeletonOf, named, decoded, map_some, map_some, shaped, here]
        obtain rfl := holds.distinct other tag entry new otherHeld newHeld alike
        rw [otherHeld] at newHeld
        cases newHeld
        rw [named] at decoded
        exact (some.inj decoded).symm
      · rintro rfl
        exact ⟨tag, new, by rw [added, if_pos rfl], decoded, here.symm⟩
    · rename_i elsewhere
      rw [coherent.nameBySkeleton_eq_some]
      constructor
      · rintro ⟨other, entry, held, named, shaped⟩
        rw [added] at held
        split at held
        · cases held
          rw [decoded] at named
          cases named
          exact absurd shaped.symm elsewhere
        · exact ⟨other, entry, held, named, shaped⟩
      · rintro ⟨other, entry, held, named, shaped⟩
        refine ⟨other, entry, ?_, named, shaped⟩
        rw [added, if_neg]
        · exact held
        · rintro rfl
          rw [fresh] at held
          cases held
  · obtain ⟨registered, shown, holds⟩ := coherent.names
    obtain ⟨registered', shown', holds'⟩ := later.names
    obtain rfl : registered' = registered.insert tag new := by
      apply Finmap.ext_lookup
      intro other
      rw [shown', added, lookup_insert_eq, shown]
    intro owner
    rw [holds'.owned_eq, holds.owned_eq, NameIndex.ownedBy_insert]
    rw [shown, fresh]

end Answers

section Views
variable [Crypto] {utxo : UtxoSet} {view : BlockView} {tx : Transaction}

/-- The view and the set answer alike about names. -/
structure SameNames (view : BlockView) (utxo : UtxoSet) : Prop where
  names : ∀ text, view.toView.nameBySkeleton text = utxo.names.nameBySkeleton text
  owners : ∀ owner, view.toView.namesOwned owner = utxo.names.owned owner

omit [Crypto] in
/-- Before any transaction. -/
theorem SameNames.start (utxo : UtxoSet) : SameNames { confirmed := utxo } utxo := by
  constructor
  · simp [BlockView.toView]
  · simp [BlockView.toView]

omit [Crypto] in
theorem SameNames.of_names {other : UtxoSet} (same : SameNames view utxo)
    (names : other.names = utxo.names) : SameNames view other := by
  constructor
  · rw [names]
    exact same.names
  · rw [names]
    exact same.owners

theorem BlockView.apply_unnamed (view : BlockView) (height : Nat)
    (unnamed : registration tx = .ok none) :
    (view.apply tx height).toView.nameBySkeleton = view.toView.nameBySkeleton ∧
      (view.apply tx height).toView.namesOwned = view.toView.namesOwned := by
  unfold BlockView.apply BlockView.toView
  simp only [unnamed, and_self]

theorem BlockView.apply_named (view : BlockView) (height : Nat)
    (named : registration tx = .ok (some registered)) :
    (∀ text, (view.apply tx height).toView.nameBySkeleton text =
        if text = skeleton registered.name then some registered.name
        else view.toView.nameBySkeleton text) ∧
      ∀ owner, (view.apply tx height).toView.namesOwned owner =
        view.toView.namesOwned owner + if registered.owner = owner then 1 else 0 := by
  unfold BlockView.apply BlockView.toView
  simp only [named]
  constructor
  · intro text
    rw [lookup_insert_eq]
    split
    · rw [some_or]
    · rfl
  · intro owner
    rw [lookup_insert_eq]
    by_cases same : owner = registered.owner
    · rw [if_pos same, if_pos same.symm, getD_some, same, Nat.add_assoc]
    · rw [if_neg same, if_neg (Ne.symm same), Nat.add_zero]

/-- One more transaction, where the set is coherent before and after. -/
theorem SameNames.next (same : SameNames view utxo) (record : UndoRecord) (height : Nat)
    (coherent : utxo.Coherent) (later : (utxo.applyTransaction record tx height).1.Coherent)
    (spends : tx.isCoinbase = false) (fits : tx.Fits)
    (fresh : ∀ outpoint, outpoint.txid = tx.txid → utxo.map.lookup outpoint = none)
    (money : ∀ input ∈ tx.inputs, ∀ entry, utxo.map.lookup input.prevOut = some entry →
      entry.output.scheme.isName = false) (read : ∃ found, registration tx = .ok found) :
    SameNames (view.apply tx height) (utxo.applyTransaction record tx height).1 := by
  have map := applyTransaction_map_of_spend utxo record height spends
  have erased := registeredAt_eraseInputs money
  have stillFresh : ∀ outpoint, outpoint.txid = tx.txid →
      (eraseInputs utxo.map tx.inputs).lookup outpoint = none := by
    intro outpoint own
    rw [lookup_eraseInputs_eq, fresh outpoint own, ite_self]
  obtain ⟨found, read⟩ := read
  cases found with
  | none =>
    have names := coherent.names_eq later fun tag => by
      rw [map, registeredAt_create_plain height false fits.outputs stillFresh
        (registration_none read), erased]
    obtain ⟨sameNames, sameOwners⟩ := view.apply_unnamed height read
    constructor
    · intro text
      rw [sameNames, names, same.names]
    · intro owner
      rw [sameOwners, names, same.owners]
  | some registered =>
    obtain ⟨name, decoded, added⟩ := registeredAt_create (registration_pairs read) height false
      fits.outputs stillFresh
    have unregistered : registeredAt utxo.map ⟨tx.txid, UInt32.ofNat registered.tagIndex⟩ = none :=
      registeredAt_eq_none (.inl (fresh _ rfl))
    have addedHere : ∀ tag, registeredAt (utxo.applyTransaction record tx height).1.map tag =
        if tag = ⟨tx.txid, UInt32.ofNat registered.tagIndex⟩ then
          some ⟨name, registered.owner, height⟩
        else registeredAt utxo.map tag := by
      intro tag
      rw [map, added, erased]
    obtain ⟨setNames, setOwners⟩ := coherent.names_add later unregistered addedHere decoded
    obtain ⟨viewNames, viewOwners⟩ := view.apply_named height read
    constructor
    · intro text
      rw [viewNames, setNames, same.names]
    · intro owner
      rw [viewOwners, setOwners, same.owners]

end Views

end Q21Formal.Ledger

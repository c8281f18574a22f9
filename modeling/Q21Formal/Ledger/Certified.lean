import Q21Formal.Ledger.PoolIndex
import Q21Formal.Ledger.Candidate

/-!
# Checking again, and where the outputs of the pool come from

A checked transaction passes again, at another height and before another view, if it finds the same
outputs there, ripe and allowed, and its name free.  An identifier commits to the outputs, so an
outpoint shows the same output wherever it is found, and each entry carries a certificate, given as
it entered, that no change of the chain invalidates.
-/

namespace Q21Formal.Ledger
open Library.Refusal Library.Maps Primitives List

section Recheck
variable [Crypto] {tx : Transaction} {network : Network} {height later inputIndex : Nat}
  {view other : UtxoView} {input : TxIn} {before after : UtxoEntry} {totals : InputTotals}
  {seen : List OutPoint}

/-- The entry holds the same output as another one and may be spent at `height`. -/
structure Reopens (network : Network) (height : Nat) (input : TxIn) (before after : UtxoEntry) :
    Prop where
  output : after.output = before.output
  mature : after.isCoinbase = false ∨ after.height + coinbaseMaturity ≤ height
  allowed : schemeAllowed after.output.scheme network height = true
  unlocked : Mempool.availableAt after input.witness ≤ height

theorem precheckSpend_again (reopens : Reopens network later input before after)
    (isPolicy : before.output.scheme = .policy) {path : Path}
    (checked : precheckSpend network before height input.witness = .ok path) :
    precheckSpend network after later input.witness = .ok path := by
  simp only [precheckSpend, bind_eq_ok, mapError_eq_ok, require_eq_ok] at checked ⊢
  obtain ⟨⟨policy, walked⟩, read, _, _, keys⟩ := checked
  have ripe := reopens.unlocked
  rw [Mempool.availableAt, reopens.output, isPolicy, read] at ripe
  refine ⟨(policy, walked), ?_, (), ripe, keys⟩
  rwa [reopens.output]

theorem checkLock_again (reopens : Reopens network later input before after)
    (checked : checkLock tx inputIndex network before height input.witness = .ok ()) :
    checkLock tx inputIndex network after later input.witness = .ok () := by
  unfold checkLock at checked ⊢
  rw [reopens.output]
  split at checked
  · rename_i isPolicy
    rw [if_pos isPolicy]
    simp only [checkSpend, bind_eq_ok] at checked ⊢
    obtain ⟨path, prechecked, signed⟩ := checked
    rw [reopens.output]
    exact ⟨path, precheckSpend_again reopens isPolicy prechecked, signed⟩
  · rename_i plain
    rwa [if_neg plain]

/-- Every input finds the output it found before. -/
def SameSpends (network : Network) (height : Nat) (view other : UtxoView) (inputs : List TxIn) :
    Prop :=
  ∀ input ∈ inputs, ∀ before, view.lookup input.prevOut = some before →
    ∃ after, other.lookup input.prevOut = some after ∧ Reopens network height input before after

theorem precheckInput_again (same : SameSpends network later view other [input])
    (present : (view.lookup input.prevOut).isSome = true)
    (checked : precheckInput view network height input = .ok ())
    (allowed : ∀ entry, view.lookup input.prevOut = some entry →
      schemeAllowed entry.output.scheme network height = true) :
    precheckInput other network later input = .ok () := by
  obtain ⟨before, found⟩ := Option.isSome_iff_exists.mp present
  obtain ⟨after, foundAgain, reopens⟩ := same input (mem_singleton_self input) before found
  unfold precheckInput at checked ⊢
  rw [found] at checked
  rw [foundAgain]
  dsimp only at checked ⊢
  split
  · rename_i both
    rw [reopens.output] at both
    rw [if_pos ⟨both.1, allowed before found⟩] at checked
    simp only [bind_eq_ok, pure_eq_ok] at checked ⊢
    obtain ⟨path, prechecked, _⟩ := checked
    exact ⟨path, precheckSpend_again reopens both.1 prechecked, trivial⟩
  · rfl

theorem checkInput_again {indexed : TxIn × Nat} {next : InputTotals}
    (same : SameSpends network later view other [indexed.1]) (unseen : indexed.1.prevOut ∉ seen)
    (checked : checkInput tx view network height totals indexed = .ok next) :
    checkInput tx other network later ⟨seen, totals.total⟩ indexed =
      .ok ⟨indexed.1.prevOut :: seen, next.total⟩ := by
  simp only [checkInput, bind_eq_ok, require_eq_ok, orRefuse_eq_ok, pure_eq_ok] at checked ⊢
  obtain ⟨_, _, before, found, _, spendable, _, _, _, _, _, lock, total, added, rfl⟩ := checked
  obtain ⟨after, foundAgain, reopens⟩ :=
    same indexed.1 (mem_singleton_self indexed.1) before found
  have worth : after.value = before.value := by rw [UtxoEntry.value, reopens.output]; rfl
  refine ⟨(), unseen, after, foundAgain, (), ?_, (), reopens.mature, (), reopens.allowed, (),
    checkLock_again reopens lock, total, ?_, rfl⟩
  · rwa [reopens.output]
  · rwa [worth]

/-- The loop over the inputs, with what another loop saw before. -/
theorem checkInputs_again {indexed : List (TxIn × Nat)} {final : InputTotals}
    (same : SameSpends network later view other (indexed.map Prod.fst))
    (distinct : (indexed.map fun entry => entry.1.prevOut).Nodup)
    (unseen : ∀ entry ∈ indexed, entry.1.prevOut ∉ seen)
    (looped : indexed.foldlM (checkInput tx view network height) totals = .ok final) :
    ∃ finalSeen, indexed.foldlM (checkInput tx other network later) ⟨seen, totals.total⟩ =
        .ok ⟨finalSeen, final.total⟩ ∧
      ∀ outpoint, outpoint ∈ finalSeen ↔
        outpoint ∈ seen ∨ outpoint ∈ indexed.map fun entry => entry.1.prevOut := by
  induction indexed generalizing totals seen with
  | nil =>
    simp only [foldlM_nil, pure_eq_ok] at looped
    subst looped
    exact ⟨seen, rfl, by simp⟩
  | cons entry rest ih =>
    simp only [foldlM_cons, bind_eq_ok] at looped
    obtain ⟨next, stepped, restLooped⟩ := looped
    rw [map_cons, nodup_cons] at distinct
    have first := checkInput_again (fun input member => same input (by
        rw [mem_singleton.mp member]
        exact (.head _)))
      (unseen entry (.head _)) stepped
    have restUnseen : ∀ later ∈ rest, later.1.prevOut ∉ entry.1.prevOut :: seen := by
      intro later member
      rw [mem_cons, not_or]
      refine ⟨?_, unseen later (.tail _ member)⟩
      intro repeated
      exact distinct.1 (repeated ▸ mem_map_of_mem member)
    obtain ⟨finalSeen, others, listed⟩ := ih
      (fun input member => same input (.tail _ member)) distinct.2 restUnseen
      restLooped
    refine ⟨finalSeen, ?_, ?_⟩
    · simp only [foldlM_cons, bind_eq_ok]
      exact ⟨_, first, others⟩
    · intro outpoint
      rw [listed, mem_cons, map_cons, mem_cons]
      tauto

theorem checkRegistration_again (same : SameSpends network later view other tx.inputs)
    (present : ∀ input ∈ tx.inputs, (view.lookup input.prevOut).isSome = true)
    (checked : checkRegistration tx view = .ok ())
    (free : ∀ registered, registration tx = .ok (some registered) →
      other.nameBySkeleton (skeleton registered.name) = none ∧
        other.namesOwned registered.owner < maxNamesPerOwner) :
    checkRegistration tx other = .ok () := by
  simp only [checkRegistration, bind_eq_ok, mapError_eq_ok] at checked ⊢
  obtain ⟨found, read, checked⟩ := checked
  refine ⟨found, read, ?_⟩
  cases found with
  | none => rfl
  | some registered =>
    simp only [bind_eq_ok, require_eq_ok] at checked ⊢
    obtain ⟨_, signs, _⟩ := checked
    obtain ⟨name, quota⟩ := free registered read
    refine ⟨(), ?_, (), name, quota⟩
    rw [any_eq_true] at signs ⊢
    obtain ⟨input, member, signs⟩ := signs
    obtain ⟨before, found⟩ := Option.isSome_iff_exists.mp (present input member)
    obtain ⟨after, foundAgain, reopens⟩ := same input member before found
    refine ⟨input, member, ?_⟩
    rw [found] at signs
    rw [foundAgain]
    dsimp only at signs ⊢
    rwa [reopens.output]

theorem checkTransaction_allowed {result : Nat × List OutPoint}
    (checked : checkTransaction tx view network height seen = .ok result) :
    ∀ input ∈ tx.inputs, ∀ entry, view.lookup input.prevOut = some entry →
      schemeAllowed entry.output.scheme network height = true := by
  intro input member entry found
  obtain ⟨_, _, _, accepted⟩ := checkTransaction_inputs checked input member
  simp only [checkInput, bind_eq_ok, require_eq_ok, orRefuse_eq_ok] at accepted
  obtain ⟨_, _, held, heldFound, _, _, _, _, _, allowed, _⟩ := accepted
  rw [found] at heldFound
  cases heldFound
  exact allowed

/-- A checked transaction passes wherever its outputs are allowed, its inputs found and its name
free. -/
theorem checkTransaction_again {fee : Nat} {earlier : List OutPoint}
    (checked : checkTransaction tx view network height [] = .ok (fee, earlier))
    (allowed : ∀ output ∈ tx.outputs, schemeAllowed output.scheme network later = true)
    (same : SameSpends network later view other tx.inputs)
    (unseen : ∀ input ∈ tx.inputs, input.prevOut ∉ seen)
    (free : ∀ registered, registration tx = .ok (some registered) →
      other.nameBySkeleton (skeleton registered.name) = none ∧
        other.namesOwned registered.owner < maxNamesPerOwner) :
    ∃ finalSeen, checkTransaction tx other network later seen = .ok (fee, finalSeen) ∧
      ∀ outpoint, outpoint ∈ finalSeen ↔
        outpoint ∈ seen ∨ outpoint ∈ tx.inputs.map TxIn.prevOut := by
  obtain ⟨inputTotals, inputs, _⟩ := checkTransaction_ok checked
  have spendable := checkTransaction_allowed checked
  simp only [checkTransaction, bind_eq_ok, mapError_eq_ok, require_eq_ok, pure_eq_ok,
    Prod.mk.injEq] at checked ⊢
  obtain ⟨_, shape, _, outputs, _, registers, _, prechecks, totals, looped, value, summed, _,
    conserved, same', _⟩ := checked
  have places : tx.inputs.zipIdx.map (fun entry => entry.1.prevOut) =
      tx.inputs.map TxIn.prevOut := by
    have mapped := congrArg (List.map TxIn.prevOut) (zipIdx_map_fst 0 tx.inputs)
    rwa [map_map] at mapped
  obtain ⟨finalSeen, loopedAgain, listed⟩ := checkInputs_again
    (by rwa [zipIdx_map_fst]) (by rw [places]; exact inputs.distinct)
    (fun entry member => unseen entry.1 (by
      rw [← zipIdx_map_fst 0 tx.inputs]
      exact mem_map_of_mem member)) looped
  rw [places] at listed
  refine ⟨finalSeen, ⟨(), shape, (), ?_, (), ?_, (), ?_, _, loopedAgain, value, summed, (),
    conserved, same', rfl⟩, listed⟩
  · rw [forM_eq_ok] at outputs ⊢
    intro output member
    have before := outputs output member
    simp only [checkOutput, bind_eq_ok, require_eq_ok] at before ⊢
    exact ⟨(), allowed output member, before.choose_spec.2⟩
  · exact checkRegistration_again same inputs.present registers free
  · rw [forM_eq_ok] at prechecks ⊢
    intro input member
    exact precheckInput_again (fun one listed => same one (mem_singleton.mp listed ▸ member))
      (inputs.present input member) (prechecks input member) (spendable input member)

end Recheck

/-! ## Outputs of known transactions -/

section Authentic
variable [Crypto] {known : Set Transaction} {lookup other : OutPoint → Option UtxoEntry}

/-- Every output shown was made by a known transaction. -/
def Authentic (known : Set Transaction) (lookup : OutPoint → Option UtxoEntry) : Prop :=
  ∀ outpoint entry, lookup outpoint = some entry → ∃ tx ∈ known, tx.Fits ∧
    tx.txid = outpoint.txid ∧ tx.outputs[outpoint.index.toNat]? = some entry.output

/-- An outpoint shows one output. -/
theorem Authentic.output_eq (authentic : Authentic known lookup) (alike : Authentic known other)
    (apart : Mempool.OfferedApart known) {outpoint : OutPoint} {first second : UtxoEntry}
    (found : lookup outpoint = some first) (foundThere : other outpoint = some second) :
    first.output = second.output := by
  obtain ⟨one, oneIn, oneFits, oneId, oneOutput⟩ := authentic outpoint first found
  obtain ⟨two, twoIn, twoFits, twoId, twoOutput⟩ := alike outpoint second foundThere
  have same := apart.outputs_eq oneIn twoIn oneFits twoFits (oneId.trans twoId.symm)
  rw [same, twoOutput] at oneOutput
  exact (Option.some.inj oneOutput).symm

theorem Authentic.applyTransaction {utxo : UtxoSet} {tx : Transaction}
    (authentic : Authentic known utxo.lookup) (member : tx ∈ known) (fits : tx.Fits)
    (record : UndoRecord) (height : Nat) :
    Authentic known (utxo.applyTransaction record tx height).1.lookup := by
  have created : ∀ (map : FiniteMap OutPoint UtxoEntry) (coinbase : Bool) outpoint entry,
      (UtxoSet.createMap map tx.txid height coinbase 0 tx.outputs).lookup outpoint = some entry →
      (tx.txid = outpoint.txid ∧ tx.outputs[outpoint.index.toNat]? = some entry.output) ∨
        map.lookup outpoint = some entry := by
    intro map coinbase outpoint entry found
    rw [lookup_createMap_at _ _ _ _ fits.outputs] at found
    split at found
    · rename_i own
      rcases Option.or_eq_some_iff.mp found with made | ⟨_, earlier⟩
      · obtain ⟨output, listed, rfl⟩ := Option.map_eq_some_iff.mp made
        exact .inl ⟨own.symm, listed⟩
      · exact .inr earlier
    · exact .inr found
  intro outpoint entry found
  unfold UtxoSet.lookup at found
  cases coinbase : tx.isCoinbase with
  | true =>
    rw [applyTransaction_map_of_coinbase utxo record height coinbase] at found
    rcases created _ _ outpoint entry found with made | earlier
    · exact ⟨tx, member, fits, made⟩
    · exact authentic outpoint entry earlier
  | false =>
    rw [applyTransaction_map_of_spend utxo record height coinbase] at found
    rcases created _ _ outpoint entry found with made | earlier
    · exact ⟨tx, member, fits, made⟩
    · exact authentic outpoint entry (lookup_eraseInputs earlier).2

theorem Authentic.applyTransactions {utxo : UtxoSet} {transactions : List Transaction}
    (authentic : Authentic known utxo.lookup)
    (members : ∀ tx ∈ transactions, tx ∈ known ∧ tx.Fits) (record : UndoRecord) (height : Nat) :
    Authentic known (utxo.applyTransactions record height transactions).1.lookup := by
  induction transactions generalizing utxo record with
  | nil => exact authentic
  | cons tx rest ih =>
    obtain ⟨member, fits⟩ := members tx (.head _)
    rw [UtxoSet.applyTransactions]
    exact ih (authentic.applyTransaction member fits record height)
      (fun other listed => members other (.tail _ listed)) _

/-- The outputs of a chain are those of its transactions. -/
theorem ledgerOf_authentic {blocks : List Block}
    (members : ∀ tx ∈ transactionsOf blocks, tx ∈ known ∧ tx.Fits) :
    Authentic known (ledgerOf blocks).utxo.lookup := by
  induction blocks using reverseRecOn with
  | nil =>
    intro outpoint entry found
    cases found
  | append_singleton blocks block ih =>
    have joined : transactionsOf (blocks ++ [block]) =
        transactionsOf blocks ++ block.transactions := by simp [transactionsOf]
    rw [joined] at members
    rw [ledgerOf_concat]
    exact (ih fun tx listed => members tx (mem_append_left _ listed)).applyTransactions
      (fun tx listed => members tx (mem_append_right _ listed)) _ _

/-- Confirmed outputs: all of known transactions, none of a transaction that spends it. -/
structure Confirmed (known : Set Transaction) (utxo : UtxoSet) : Prop where
  authentic : Authentic known utxo.lookup
  unspent : ∀ tx ∈ known, tx.Fits → ∀ outpoint ∈ tx.inputs.map TxIn.prevOut,
    outpoint.txid = tx.txid → utxo.lookup outpoint = none

variable [WorkHash] {network : Network} {nonce : UInt64} {history : Set Block} {blocks : List Block}

omit [WorkHash] in
theorem Mempool.OfferedApart.transactionsApart (apart : Mempool.OfferedApart known)
    (within : ∀ block ∈ history, ∀ tx ∈ block.transactions, tx ∈ known) :
    TransactionsApart history := by
  refine Set.InjOn.mono ?_ apart
  rintro preimage ⟨block, member, tx, inBlock, rfl⟩
  exact ⟨tx, within block member tx inBlock, rfl⟩

theorem Lineage.confirmed (lineage : Lineage network nonce history blocks)
    (apart : Mempool.OfferedApart known)
    (within : ∀ block ∈ history, ∀ tx ∈ block.transactions, tx ∈ known) :
    Confirmed known (ledgerOf blocks).utxo := by
  have inside : ∀ tx ∈ transactionsOf blocks, tx ∈ known := by
    intro tx listed
    obtain ⟨block, member, inBlock⟩ := mem_flatMap.mp listed
    exact within block (lineage.members block member) tx inBlock
  have tracked := (lineage.sound (apart.transactionsApart within)).tracked
  refine ⟨ledgerOf_authentic fun tx listed => ⟨inside tx listed, tracked.fits tx listed⟩, ?_⟩
  intro tx member fits outpoint spent own
  by_contra shown
  obtain ⟨entry, found⟩ := Option.ne_none_iff_exists'.mp shown
  obtain ⟨created, unspent⟩ := tracked.shown outpoint entry found
  -- The transaction on the chain with this identifier spends the same outpoints.
  obtain ⟨maker, listed, makes⟩ := mem_flatMap.mp created
  have sameId : tx.txid = maker.txid :=
    own.symm.trans (Transaction.txid_of_mem_outpoints makes)
  have inputs := (txidPreimage_inj fits.countable (tracked.fits maker listed).countable
    (apart ⟨tx, member, rfl⟩ ⟨maker, inside maker listed, rfl⟩ sameId)).1
  have prevOuts : tx.inputs.map TxIn.prevOut = maker.inputs.map TxIn.prevOut := by
    have firsts := congrArg (List.map Prod.fst) inputs
    rwa [map_map, map_map] at firsts
  rw [prevOuts] at spent
  cases coinbase : maker.isCoinbase with
  | true =>
    unfold Transaction.isCoinbase at coinbase
    split at coinbase
    · rename_i input single
      rw [single, map_singleton, mem_singleton, beq_iff_eq.mp coinbase] at spent
      rw [spent] at created
      exact coinbase_not_mem_createdBy lineage.few_outputs created
    · cases coinbase
  | false =>
    refine unspent (mem_flatMap.mpr ⟨maker, listed, ?_⟩)
    rwa [Transaction.spends, coinbase, if_neg Bool.false_ne_true]

end Authentic

namespace Mempool

section Certificates
variable [Crypto] {known : Set Transaction} {network : Network} {pool : Mempool} {utxo : UtxoSet}
  {promise : MempoolEntry → Prop}

/-- What stays true of an entry: it passed the checks once, on outputs of known transactions. -/
structure Certificate (network : Network) (known : Set Transaction) (entry : MempoolEntry) :
    Prop where
  checked : ∃ (view : UtxoView) (height : Nat) (seen : List OutPoint),
    checkTransaction entry.tx view network height [] = .ok (entry.fee, seen) ∧
      Authentic known view.lookup ∧ entry.policy = touchesPolicy entry.tx view
  weight : entry.weight = entry.tx.weight witnessDiscount
  apart : ∀ input ∈ entry.tx.inputs, input.prevOut.txid ≠ entry.tx.txid

theorem certificate_lasting : Lasting (Certificate network known) :=
  fun _ certified => ⟨certified.checked, certified.weight, certified.apart⟩

omit [Crypto] in
theorem view_lookup {outpoint : OutPoint} {entry : UtxoEntry}
    (found : (pool.view utxo).lookup outpoint = some entry) :
    pool.created.lookup outpoint = some entry ∨
      (pool.created.lookup outpoint = none ∧ utxo.lookup outpoint = some entry) := by
  unfold view at found
  dsimp only at found
  split at found
  · rename_i made
    exact .inl (made.trans found)
  · rename_i made
    split at found
    · cases found
    · exact .inr ⟨made, found⟩

/-- What the pool made is of its entries. -/
theorem Consistent.created_authentic (holds : Consistent known promise pool) :
    Authentic known fun outpoint => pool.created.lookup outpoint := by
  intro outpoint entry found
  dsimp only at found
  have output := holds.indexed.created outpoint
  rw [found, Option.map_some] at output
  obtain ⟨maker, held, listed⟩ := Option.bind_eq_some_iff.mp output.symm
  obtain ⟨member, fits⟩ := holds.traced.entry _ maker held
  exact ⟨maker.tx, member, fits, (holds.indexed.entry _ maker held).identified, listed⟩

theorem Consistent.view_authentic (holds : Consistent known promise pool)
    (confirmed : Confirmed known utxo) : Authentic known (pool.view utxo).lookup := by
  intro outpoint entry found
  rcases view_lookup found with made | ⟨_, earlier⟩
  · exact holds.created_authentic outpoint entry made
  · exact confirmed.authentic outpoint entry earlier

/-- Whatever passes the checks against a set of confirmed outputs has its certificate. -/
theorem Confirmed.grants (confirmed : Confirmed known utxo) (height : Nat) :
    Grants known (Certificate network known) utxo network height := by
  intro pool tx admission holds member examined
  obtain ⟨seen, checked⟩ := examined.checked
  obtain ⟨inputTotals, inputs, _⟩ := checkTransaction_ok checked
  refine ⟨⟨pool.view utxo, height + 1, seen, ?_, holds.view_authentic confirmed, ?_⟩, ?_, ?_⟩
  · rwa [examined.carries]
  · rw [examined.carries]
    exact examined.policy
  · rw [examined.carries]
    exact examined.weight
  · rw [examined.carries]
    intro input spends own
    obtain ⟨entry, found⟩ := Option.isSome_iff_exists.mp (inputs.present input spends)
    rcases view_lookup found with made | ⟨_, earlier⟩
    · have output := holds.indexed.created input.prevOut
      rw [outputAt, own, examined.fresh, made] at output
      cases output
    · rw [confirmed.unspent tx member examined.fits _ (mem_map_of_mem spends) own] at earlier
      cases earlier

end Certificates

end Mempool

end Q21Formal.Ledger

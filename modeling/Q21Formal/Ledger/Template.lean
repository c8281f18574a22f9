import Q21Formal.Ledger.Revalidation
import Q21Formal.Ledger.Certified

/-!
# Block templates and the view of the pool

The selection for a block takes each entry once, after its parents, within the weight.  From a pool
just revalidated against the tip, its transactions pass the checks of a block one after the other.
The pool's view answers as the set does after they were applied, except for an output made in the
pool and spent there, which is still shown.
-/

namespace Q21Formal.Ledger
open Library.Refusal Library.Maps Primitives List

namespace Mempool

section Selection
variable [Crypto] {pool : Mempool} {maxWeight : Nat} {order : MapOrder} {chosen : List MempoolEntry}
  {selection : Selection} {listed : Hash256 × MempoolEntry}

/-- The identifiers of the entries, in order. -/
def idsOf (chosen : List MempoolEntry) : List Hash256 := chosen.map fun entry => entry.tx.txid

/-- Entries of the pool, each once and after its parents. -/
structure ParentsFirst (pool : Mempool) (chosen : List MempoolEntry) : Prop where
  genuine : ∀ entry ∈ chosen, pool.entries.lookup entry.tx.txid = some entry
  nodup : (idsOf chosen).Nodup
  parents : ∀ before entry after, chosen = before ++ entry :: after →
    ∀ parent, ParentOf pool.entries parent entry.tx.txid → parent ∈ idsOf before

theorem ParentsFirst.nil (pool : Mempool) : ParentsFirst pool [] := by
  refine ⟨?_, nodup_nil, ?_⟩
  · intro entry member
    cases member
  · intro before entry after split
    cases before <;> cases split

theorem ParentsFirst.snoc {entry : MempoolEntry} (first : ParentsFirst pool chosen)
    (genuine : pool.entries.lookup entry.tx.txid = some entry)
    (fresh : entry.tx.txid ∉ idsOf chosen)
    (parents : ∀ parent, ParentOf pool.entries parent entry.tx.txid → parent ∈ idsOf chosen) :
    ParentsFirst pool (chosen ++ [entry]) := by
  refine ⟨?_, ?_, ?_⟩
  · intro other member
    rcases mem_append.mp member with earlier | last
    · exact first.genuine other earlier
    · rwa [mem_singleton.mp last]
  · rw [idsOf, map_append, map_singleton]
    refine nodup_append.mpr ⟨first.nodup, nodup_singleton _, ?_⟩
    intro id earlier other last same
    rw [mem_singleton.mp last] at same
    exact fresh (same ▸ earlier)
  · intro before other after split
    rcases eq_nil_or_concat' after with rfl | ⟨rest, last, rfl⟩
    · obtain ⟨rfl, same⟩ := append_inj' split rfl
      obtain rfl : entry = other := by simpa using same
      exact parents
    · rw [← cons_append, ← append_assoc] at split
      obtain ⟨same, _⟩ := append_inj' split rfl
      exact first.parents before other rest same

/-- What the selection has done so far. -/
structure Selected (pool : Mempool) (maxWeight : Nat) (selection : Selection) : Prop where
  parentsFirst : ParentsFirst pool selection.chosen
  selected : ∀ id, id ∈ selection.selected ↔ id ∈ idsOf selection.chosen
  weight : selection.weight = (selection.chosen.map MempoolEntry.weight).sum
  light : selection.weight ≤ maxWeight
  waiting : ∀ id listed, listed ∈ (selection.waiting.lookup id).getD [] →
    pool.entries.lookup listed.1 = some listed.2

theorem Selected.wait (selected : Selected pool maxWeight selection) (parent : Hash256)
    (genuine : pool.entries.lookup listed.1 = some listed.2) :
    Selected pool maxWeight (selection.wait parent listed) := by
  refine ⟨selected.parentsFirst, selected.selected, selected.weight, selected.light, ?_⟩
  intro id other member
  unfold Selection.wait at member
  rw [lookup_insert_eq] at member
  split at member
  · rcases mem_append.mp member with earlier | last
    · exact selected.waiting parent other earlier
    · rwa [mem_singleton.mp last]
  · exact selected.waiting id other member

theorem Selected.choose (selected : Selected pool maxWeight selection) (indexed : Indexed pool)
    (genuine : pool.entries.lookup listed.1 = some listed.2) (fresh : listed.1 ∉ selection.selected)
    (fits : selection.weight + listed.2.weight ≤ maxWeight)
    (complete : pool.missingParent selection.selected listed.1 = none) :
    Selected pool maxWeight (selection.choose listed) := by
  have identified := (indexed.entry listed.1 listed.2 genuine).identified
  have parents : ∀ parent, ParentOf pool.entries parent listed.1 →
      parent ∈ idsOf selection.chosen := by
    intro parent related
    obtain ⟨recorded, present⟩ := (indexed.parents parent listed.1).mpr related
    have missing := find?_eq_none.mp complete parent recorded
    rw [present, Bool.and_true, decide_eq_true_eq, not_not] at missing
    exact (selected.selected parent).mp missing
  refine ⟨?_, ?_, ?_, fits, ?_⟩
  · refine selected.parentsFirst.snoc ?_ ?_ ?_
    · rwa [identified]
    · rwa [identified, ← selected.selected]
    · rwa [identified]
  · intro id
    change id ∈ insert listed.1 selection.selected ↔ id ∈ idsOf (selection.chosen ++ [listed.2])
    rw [Finset.mem_insert, selected.selected, idsOf, idsOf, map_append, mem_append,
      map_singleton, mem_singleton, identified, or_comm]
  · change selection.weight + listed.2.weight = _
    rw [selected.weight, Selection.choose, map_append, sum_append, map_singleton,
      sum_singleton]
  · intro id other member
    unfold Selection.choose at member
    rw [lookup_erase_eq] at member
    split at member
    · cases member
    · exact selected.waiting id other member

/-- One start, with whatever waited for it. -/
theorem Selected.settle (indexed : Indexed pool) (stack : List (Hash256 × MempoolEntry))
    (selection : Selection) (selected : Selected pool maxWeight selection)
    (genuine : ∀ listed ∈ stack, pool.entries.lookup listed.1 = some listed.2) :
    Selected pool maxWeight (Mempool.settle pool maxWeight stack selection) := by
  induction stack, selection using Mempool.settle.induct pool maxWeight with
  | case1 selection =>
    rwa [Mempool.settle]
  | case2 selection listed stack skipped ih =>
    rw [Mempool.settle, if_pos skipped]
    exact ih selected fun other member => genuine other (.tail _ member)
  | case3 selection listed stack taken parent missing ih =>
    rw [Mempool.settle, if_neg taken, missing]
    exact ih (selected.wait parent (genuine listed (.head _)))
      fun other member => genuine other (.tail _ member)
  | case4 selection listed stack taken complete ih =>
    rw [Mempool.settle, if_neg taken, complete]
    rw [not_or, Nat.not_lt] at taken
    refine ih (selected.choose indexed (genuine listed (.head _)) taken.1 taken.2
      complete) ?_
    intro other member
    rcases mem_append.mp member with waited | later
    · exact selected.waiting listed.1 other waited
    · exact genuine other (.tail _ later)

/-- The whole selection: parents first, within the weight. -/
theorem blockOrder_selected (indexed : Indexed pool) (order : MapOrder) (maxWeight : Nat) :
    ParentsFirst pool (pool.blockOrder order maxWeight) ∧
      ((pool.blockOrder order maxWeight).map MempoolEntry.weight).sum ≤ maxWeight := by
  have start : Selected pool maxWeight {} := by
    refine ⟨ParentsFirst.nil pool, ?_, rfl, Nat.zero_le _, ?_⟩
    · intro id
      exact ⟨fun member => absurd member (Finset.notMem_empty id), fun member => by cases member⟩
    · intro id listed member
      cases member
  have general : ∀ (starts : List (Hash256 × MempoolEntry)) (selection : Selection),
      (∀ listed ∈ starts, pool.entries.lookup listed.1 = some listed.2) →
      Selected pool maxWeight selection → Selected pool maxWeight
        (starts.foldl (fun selection start => Mempool.settle pool maxWeight [start] selection)
          selection) := by
    intro starts
    induction starts with
    | nil => exact fun selection _ selected => selected
    | cons start rest ih =>
      intro selection genuine selected
      refine ih _ (fun listed member => genuine listed (.tail _ member)) ?_
      refine Selected.settle indexed [start] selection selected ?_
      intro listed member
      rw [mem_singleton.mp member]
      exact genuine start (.head _)
  have finished := general ((order.entries.list pool.entries).insertionSort
      fun first second => blockRank first ≤ blockRank second) {} (fun listed member => by
    rw [mem_insertionSort] at member
    exact order.entries.mem_list.mp member) start
  exact ⟨finished.parentsFirst, finished.weight ▸ finished.light⟩

/-- Where no lock depends on the age of an output made here, nothing is dropped. -/
theorem withoutUnripePolicySpends_eq {created : FiniteMap OutPoint UtxoEntry}
    (ripe : ∀ entry ∈ chosen, ∀ input ∈ entry.tx.inputs, ∀ spent,
      created.lookup input.prevOut = some spent → unconfirmedLockFree spent input.witness = true) :
    withoutUnripePolicySpends chosen created = chosen.map MempoolEntry.tx := by
  have general : ∀ kept : List Transaction, chosen.foldl (ripen created) ⟨∅, kept⟩ =
      ⟨∅, kept ++ chosen.map MempoolEntry.tx⟩ := by
    induction chosen with
    | nil =>
      intro kept
      rw [foldl_nil, map_nil, append_nil]
    | cons entry rest ih =>
      intro kept
      have stays : ripen created ⟨∅, kept⟩ entry = ⟨∅, kept ++ [entry.tx]⟩ := by
        refine if_neg ?_
        rw [any_eq_true]
        rintro ⟨input, member, unripe⟩
        rw [Bool.or_eq_true, decide_eq_true_eq] at unripe
        rcases unripe with dropped | locked
        · exact absurd dropped (Finset.notMem_empty _)
        · cases found : created.lookup input.prevOut with
          | none =>
            rw [found] at locked
            cases locked
          | some spent =>
            rw [found, Option.any_some, ripe entry (.head _) input member spent found]
              at locked
            cases locked
      rw [foldl_cons, stays, ih fun other member => ripe other
        (.tail _ member), append_assoc, map_cons, singleton_append]
  rw [withoutUnripePolicySpends, general []]
  rfl

end Selection

section Packing
variable [Crypto] {known : Set Transaction} {network : Network} {utxo : UtxoSet} {height : Nat}
  {pool : Mempool} {done : List MempoolEntry} {entry : MempoolEntry} {view : BlockView}
  {seen : List OutPoint}

/-- The outpoints the entries spend. -/
def spentBy (entries : List MempoolEntry) : List OutPoint :=
  entries.flatMap fun entry => entry.tx.inputs.map TxIn.prevOut

/-- The view after the entries done so far, with what the loop has seen. -/
structure Packed (utxo : UtxoSet) (height : Nat) (done : List MempoolEntry) (view : BlockView)
    (seen : List OutPoint) : Prop where
  confirmed : view.confirmed = utxo
  seen : ∀ outpoint, outpoint ∈ seen ↔ outpoint ∈ spentBy done
  spent : ∀ outpoint, outpoint ∈ view.spent ↔ outpoint ∈ spentBy done
  made : ∀ maker ∈ done, ∀ outpoint output, outpoint.txid = maker.tx.txid →
    maker.tx.outputs[outpoint.index.toNat]? = some output →
    view.created.lookup outpoint = some ⟨output, height, false⟩
  unmade : ∀ outpoint, outpoint.txid ∉ idsOf done → view.created.lookup outpoint = none
  names : ∀ text, utxo.names.nameBySkeleton text = none →
    (∀ other ∈ done, ∀ registered, registrationOf other.tx = some registered →
      skeleton registered.name ≠ text) → view.toView.nameBySkeleton text = none
  owners : ∀ owner, view.toView.namesOwned owner =
    utxo.names.owned owner + (done.map (registersFor owner)).sum

theorem Packed.start (utxo : UtxoSet) (height : Nat) :
    Packed utxo height [] { confirmed := utxo } [] where
  confirmed := rfl
  seen := fun _ => Iff.rfl
  spent := fun outpoint =>
    ⟨fun member => absurd member (Finset.notMem_empty outpoint), fun member => by cases member⟩
  made := fun _ member => by cases member
  unmade := fun _ _ => rfl
  names := fun _ free _ => free
  owners := fun _ => rfl

theorem Packed.next (packed : Packed utxo height done view seen) (fits : entry.tx.Fits)
    (fresh : entry.tx.txid ∉ idsOf done) (read : ∃ found, registration entry.tx = .ok found)
    {seenNext : List OutPoint} (listed : ∀ outpoint, outpoint ∈ seenNext ↔
      outpoint ∈ seen ∨ outpoint ∈ entry.tx.inputs.map TxIn.prevOut) :
    Packed utxo height (done ++ [entry]) (view.apply entry.tx height) seenNext := by
  have joined : ∀ outpoint, outpoint ∈ spentBy (done ++ [entry]) ↔
      outpoint ∈ spentBy done ∨ outpoint ∈ entry.tx.inputs.map TxIn.prevOut := by
    intro outpoint
    rw [spentBy, flatMap_append, mem_append, flatMap_singleton]
    exact Iff.rfl
  have created := fun outpoint => lookup_createMap_at view.created entry.tx.txid height false
    fits.outputs outpoint
  refine
    { confirmed := ?_, seen := ?_, spent := ?_, made := ?_, unmade := ?_, names := ?_
      owners := ?_ }
  · rw [BlockView.apply_confirmed, packed.confirmed]
  · intro outpoint
    rw [listed, packed.seen, joined]
  · intro outpoint
    rw [BlockView.apply_spent, Finset.mem_union, mem_toFinset, packed.spent, joined]
  · intro maker member outpoint output own inside
    rw [BlockView.apply_created, created]
    rcases mem_append.mp member with earlier | last
    · rw [if_neg]
      · exact packed.made maker earlier outpoint output own inside
      · intro same
        exact fresh (same ▸ own ▸ mem_map_of_mem earlier)
    · obtain rfl := mem_singleton.mp last
      rw [if_pos own, inside, Option.map_some, Option.some_or]
  · intro outpoint outside
    rw [idsOf, map_append, mem_append, not_or, map_singleton,
      mem_singleton] at outside
    rw [BlockView.apply_created, created, if_neg outside.2]
    exact packed.unmade outpoint outside.1
  · intro text free others
    have before := packed.names text free fun other member =>
      others other (mem_append_left _ member)
    obtain ⟨found, read⟩ := read
    cases found with
    | none =>
      rwa [(view.apply_unnamed height read).1]
    | some registered =>
      rw [(view.apply_named height read).1, if_neg]
      · exact before
      · exact (others entry (mem_append_right _ (mem_singleton_self entry)) registered
          (registrationOf_eq_some.mpr read)).symm
  · intro owner
    rw [map_append, sum_append, map_singleton, sum_singleton, ← Nat.add_assoc,
      ← packed.owners]
    obtain ⟨found, read⟩ := read
    cases found with
    | none =>
      rw [(view.apply_unnamed height read).2, registersFor, registrationOf, read, Option.any_none,
        if_neg Bool.false_ne_true, Nat.add_zero]
    | some registered =>
      rw [(view.apply_named height read).2, registersFor, registrationOf, read, Option.any_some]
      simp only [beq_iff_eq]

end Packing

/-! ## The checks of a template -/

section Checks
variable [Crypto] {known : Set Transaction} {network : Network} {utxo : UtxoSet} {height : Nat}
  {pool : Mempool} {done rest : List MempoolEntry} {entry : MempoolEntry} {view : BlockView}
  {seen : List OutPoint} {spent : UtxoEntry} {input : TxIn} {old : UtxoView}
  {earlierSeen : List OutPoint}

omit [Crypto] in
/-- Schemes allowed at one height and active at another are allowed there. -/
theorem schemeAllowed_again {scheme : SchemeId} {before later : Nat}
    (allowed : schemeAllowed scheme network before = true)
    (policy : scheme = .policy → policyActivation network ≤ later)
    (name : scheme.isName = true → nameActivation network ≤ later) :
    schemeAllowed scheme network later = true := by
  cases scheme with
  | policy => exact decide_eq_true (policy rfl)
  | nameTag | nameKey => exact decide_eq_true (name rfl)
  | _ => exact allowed

/-- A lock that asks for no age opens at the same height wherever the output is born. -/
theorem availableAt_of_lockFree (free : unconfirmedLockFree spent input.witness = true)
    (born : Nat) (coinbase : Bool) :
    availableAt ⟨spent.output, born, coinbase⟩ input.witness = availableAt spent input.witness := by
  rw [unconfirmedLockFree, beq_iff_eq, relativeLock] at free
  unfold availableAt
  split
  · rfl
  · rename_i isPolicy
    rw [if_neg isPolicy] at free
    cases read : readSpend spent.output input.witness with
    | error problem => rfl
    | ok result =>
      rw [read] at free
      simp only [Path.availableAt, free, Nat.lt_irrefl, if_false]

/-- Where an entry's input stands in the next block. -/
inductive Ripe (pool : Mempool) (utxo : UtxoSet) (height : Nat) (input : TxIn) :
    UtxoEntry → Prop where
  | confirmed {spent : UtxoEntry} (found : utxo.lookup input.prevOut = some spent)
      (mature : spent.isCoinbase = false ∨ spent.height + coinbaseMaturity ≤ height + 1)
      (unlocked : availableAt spent input.witness ≤ height + 1) :
      Ripe pool utxo height input spent
  | made {spent : UtxoEntry} (absent : utxo.lookup input.prevOut = none)
      (found : pool.created.lookup input.prevOut = some spent)
      (free : unconfirmedLockFree spent input.witness = true)
      (unlocked : availableAt spent input.witness ≤ height + 1) :
      Ripe pool utxo height input spent

theorem ripe_of_available (available : pool.available utxo height input = true) :
    ∃ spent, Ripe pool utxo height input spent := by
  unfold Mempool.available at available
  split at available
  · rename_i spent found
    rw [Bool.and_eq_true, Bool.or_eq_true, Bool.not_eq_true', decide_eq_true_eq, policyLocksMet,
      decide_eq_true_eq] at available
    exact ⟨spent, .confirmed found available.1 available.2⟩
  · rename_i absent
    cases found : pool.created.lookup input.prevOut with
    | none =>
      rw [found] at available
      cases available
    | some spent =>
      rw [found, Option.any_some, Bool.and_eq_true, policyLocksMet, decide_eq_true_eq] at available
      exact ⟨spent, .made absent found available.1 available.2⟩

/-- The entry's turn: it is next, after its parents, on a pool just revalidated. -/
structure Turn (network : Network) (known : Set Transaction) (pool : Mempool) (utxo : UtxoSet)
    (height : Nat) (done : List MempoolEntry) (entry : MempoolEntry) : Prop where
  holds : Consistent known (Certificate network known) pool
  revalidated : Revalidated utxo network height pool
  genuine : pool.entries.lookup entry.tx.txid = some entry
  earlier : ∀ other ∈ done, pool.entries.lookup other.tx.txid = some other
  fresh : entry.tx.txid ∉ idsOf done
  parents : ∀ parent, ParentOf pool.entries parent entry.tx.txid → parent ∈ idsOf done

/-- Distinct entries that register for an owner are counted by any list of them. -/
theorem sum_registersFor_le {owner : Hash256} {ids : List Hash256} (distinct : (idsOf done).Nodup)
    (listed : ∀ other ∈ done, ∀ registered, registrationOf other.tx = some registered →
      registered.owner = owner → other.tx.txid ∈ ids) :
    (done.map (registersFor owner)).sum ≤ ids.length := by
  let registers : MempoolEntry → Bool := fun other =>
    (registrationOf other.tx).any fun registered => registered.owner == owner
  have counted : (done.map (registersFor owner)).sum = (idsOf (done.filter registers)).length := by
    rw [idsOf, length_map, ← countP_eq_length_filter]
    clear distinct listed
    induction done with
    | nil => rfl
    | cons other rest ih =>
      rw [map_cons, sum_cons, ih, countP_cons, Nat.add_comm, registersFor]
  rw [counted]
  have sublist : (idsOf (done.filter registers)).Nodup :=
    distinct.sublist (List.filter_sublist.map _)
  refine (sublist.subperm ?_).length_le
  intro id member
  obtain ⟨other, inside, rfl⟩ := mem_map.mp member
  obtain ⟨present, applies⟩ := mem_filter.mp inside
  cases carries : registrationOf other.tx with
  | none =>
    simp only [registers, carries, Option.any_none, Bool.false_eq_true] at applies
  | some registered =>
    simp only [registers, carries, Option.any_some, beq_iff_eq] at applies
    exact listed other present registered carries applies

theorem checkTransaction_outputs {tx : Transaction} {before : Nat} {result : Nat × List OutPoint}
    (checked : checkTransaction tx old network before earlierSeen = .ok result) :
    ∀ output ∈ tx.outputs, schemeAllowed output.scheme network before = true := by
  simp only [checkTransaction, bind_eq_ok] at checked
  obtain ⟨_, _, _, outputs, _⟩ := checked
  rw [forM_eq_ok] at outputs
  intro output member
  have one := outputs output member
  simp only [checkOutput, bind_eq_ok, require_eq_ok] at one
  exact one.choose_spec.1

section
variable (turn : Turn network known pool utxo height done entry)
include turn

theorem Turn.unspent (spends : input ∈ entry.tx.inputs) : input.prevOut ∉ spentBy done := by
  intro spent
  obtain ⟨other, member, alsoSpends⟩ := mem_flatMap.mp spent
  have same := turn.holds.indexed.spender_unique
    ⟨entry, turn.genuine, mem_map_of_mem spends⟩ ⟨other, turn.earlier other member, alsoSpends⟩
  exact turn.fresh (same ▸ mem_map_of_mem member)

section
variable (apart : OfferedApart known) (confirmed : Confirmed known utxo)
include apart confirmed

/-- What the block shows of an input whose output is there. -/
theorem Turn.lookup (packed : Packed utxo (height + 1) done view seen)
    (spends : input ∈ entry.tx.inputs) (ripe : Ripe pool utxo height input spent) :
    ∃ shown, view.lookup input.prevOut = some shown ∧ shown.output = spent.output ∧
      (shown.isCoinbase = false ∨ shown.height + coinbaseMaturity ≤ height + 1) ∧
      availableAt shown input.witness ≤ height + 1 := by
  have unspent : input.prevOut ∉ view.spent := by
    rw [packed.spent]
    exact turn.unspent spends
  cases ripe with
  | confirmed found mature unlocked =>
    refine ⟨spent, ?_, rfl, mature, unlocked⟩
    rw [BlockView.lookup, if_neg unspent, packed.confirmed, found, packed.unmade, Option.none_or]
    -- An entry done so far has no output in the set.
    intro listed
    obtain ⟨maker, member, own⟩ := mem_map.mp listed
    have held := turn.earlier maker member
    obtain ⟨offered, makerFits⟩ := turn.holds.traced.entry _ maker held
    obtain ⟨tx, inKnown, fits, same, inside⟩ := confirmed.authentic _ spent found
    rw [apart.outputs_eq inKnown offered fits makerFits (same.trans own.symm)] at inside
    have absent := turn.revalidated.outlasting.unconfirmed _ maker held input.prevOut own.symm
      (List.getElem?_eq_some_iff.mp inside).1
    rw [found] at absent
    cases absent
  | made absent found free unlocked =>
    have output := turn.holds.indexed.created input.prevOut
    rw [found, Option.map_some] at output
    have related : ParentOf pool.entries input.prevOut.txid entry.tx.txid := by
      refine ⟨(turn.holds.kept _ entry turn.genuine).apart input spends, input.prevOut,
        ⟨entry, turn.genuine, mem_map_of_mem spends⟩, rfl, ?_⟩
      rw [← output]
      rfl
    obtain ⟨maker, member, own⟩ := mem_map.mp (turn.parents _ related)
    obtain ⟨holder, held, inside⟩ := Option.bind_eq_some_iff.mp output.symm
    rw [← own, turn.earlier maker member] at held
    cases held
    refine ⟨⟨spent.output, height + 1, false⟩, ?_, rfl, .inl rfl, ?_⟩
    · rw [BlockView.lookup, if_neg unspent,
        packed.made maker member input.prevOut spent.output own.symm inside, Option.some_or]
    · rwa [availableAt_of_lockFree free]

/-- An output found when the entry entered is the one that is there now. -/
theorem Turn.sameOutput (authentic : Authentic known old.lookup) {before : UtxoEntry}
    (found : old.lookup input.prevOut = some before) (ripe : Ripe pool utxo height input spent) :
    spent.output = before.output := by
  cases ripe with
  | confirmed here _ _ => exact confirmed.authentic.output_eq authentic apart here found
  | made _ here _ _ =>
    exact turn.holds.created_authentic.output_eq authentic apart here found

omit apart confirmed in
/-- The name an entry registers is free at its turn. -/
theorem Turn.free (distinct : (idsOf done).Nodup) (packed : Packed utxo (height + 1) done view seen)
    {registered : Registration} (carries : registrationOf entry.tx = some registered) :
    view.toView.nameBySkeleton (skeleton registered.name) = none ∧
      view.toView.namesOwned registered.owner < maxNamesPerOwner := by
  have named : ∀ other, pool.entries.lookup other.tx.txid = some other →
      ∀ one, registrationOf other.tx = some one → other.name = true := by
    intro other held one registers
    rw [(turn.holds.indexed.entry _ other held).named, registers]
    rfl
  refine ⟨packed.names _ ?_ ?_, ?_⟩
  · exact turn.revalidated.outlasting.free _ entry registered turn.genuine
      (named entry turn.genuine registered carries) carries
  · intro other member one registers alike
    have same := turn.holds.indexed.registrar_unique ⟨other, turn.earlier other member, registers⟩
      ⟨entry, turn.genuine, carries⟩ alike
    exact turn.fresh (same ▸ mem_map_of_mem member)
  · obtain ⟨ids, few, listed⟩ := turn.revalidated.outlasting.quota registered.owner
    have all : ∀ other ∈ done ++ [entry], pool.entries.lookup other.tx.txid = some other := by
      intro other member
      rcases mem_append.mp member with earlier | last
      · exact turn.earlier other earlier
      · rw [mem_singleton.mp last]
        exact turn.genuine
    have together : (idsOf (done ++ [entry])).Nodup := by
      rw [idsOf, map_append, map_singleton]
      refine nodup_append.mpr ⟨distinct, nodup_singleton _, ?_⟩
      intro id earlier other last same
      rw [mem_singleton.mp last] at same
      exact turn.fresh (same ▸ earlier)
    have counted := sum_registersFor_le together fun other member one registers own =>
      listed _ other one (all other member) (named other (all other member) one registers)
        registers own
    have own : registersFor registered.owner entry = 1 := by simp [registersFor, carries]
    rw [map_append, sum_append, map_singleton, sum_singleton, own] at counted
    rw [packed.owners]
    omega

theorem Turn.sameSpends (packed : Packed utxo (height + 1) done view seen) {before : Nat}
    (checked : checkTransaction entry.tx old network before [] = .ok (entry.fee, earlierSeen))
    (authentic : Authentic known old.lookup) (policy : entry.policy = touchesPolicy entry.tx old) :
    SameSpends network (height + 1) old view.toView entry.tx.inputs := by
  intro input spends was found
  obtain ⟨spent, ripe⟩ := ripe_of_available
    (turn.revalidated.available _ entry turn.genuine input spends)
  obtain ⟨shown, lookup, output, mature, unlocked⟩ :=
    turn.lookup apart confirmed packed spends ripe
  have same := turn.sameOutput apart confirmed authentic found ripe
  refine ⟨shown, lookup, output.trans same, mature, ?_, unlocked⟩
  rw [output, same]
  refine schemeAllowed_again (checkTransaction_allowed checked input spends was found) ?_ ?_
  · intro isPolicy
    refine turn.revalidated.outlasting.policy _ entry turn.genuine ?_
    rw [policy, touchesPolicy, Bool.or_eq_true]
    refine .inr (any_eq_true.mpr ⟨input, spends, ?_⟩)
    rw [found, Option.any_some, isPolicy]
    rfl
  · intro isName
    obtain ⟨_, money⟩ := checkTransaction_names checked
    obtain ⟨entry, held, plain⟩ := money input spends
    rw [found] at held
    cases held
    rw [isName] at plain
    cases plain

omit apart confirmed in
theorem Turn.outputs {before : Nat}
    (checked : checkTransaction entry.tx old network before [] = .ok (entry.fee, earlierSeen))
    (policy : entry.policy = touchesPolicy entry.tx old) :
    ∀ output ∈ entry.tx.outputs, schemeAllowed output.scheme network (height + 1) = true := by
  intro output member
  refine schemeAllowed_again (checkTransaction_outputs checked output member) ?_ ?_
  · intro isPolicy
    refine turn.revalidated.outlasting.policy _ entry turn.genuine ?_
    rw [policy, touchesPolicy, Bool.or_eq_true]
    refine .inl (any_eq_true.mpr ⟨output, member, ?_⟩)
    rw [isPolicy]
    rfl
  · intro isName
    refine turn.revalidated.outlasting.name _ entry turn.genuine ?_
    rw [(turn.holds.indexed.entry _ entry turn.genuine).named]
    rcases checkRegistration_ok (checkTransaction_names checked).1 with ⟨read, _⟩ | ⟨_, read, _⟩
    · cases scheme : output.scheme <;> simp_all [SchemeId.isName]
    · rw [registrationOf_eq_some.mpr read]
      rfl

/-- At its turn the entry passes, with the fee it entered with. -/
theorem Turn.checked (distinct : (idsOf done).Nodup)
    (packed : Packed utxo (height + 1) done view seen) :
    ∃ seenNext, checkTransaction entry.tx view.toView network (height + 1) seen =
        .ok (entry.fee, seenNext) ∧
      Packed utxo (height + 1) (done ++ [entry]) (view.apply entry.tx (height + 1)) seenNext := by
  obtain ⟨old, before, earlierSeen, checked, authentic, policy⟩ :=
    (turn.holds.kept _ entry turn.genuine).checked
  have read : ∃ found, registration entry.tx = .ok found := by
    rcases checkRegistration_ok (checkTransaction_names checked).1 with ⟨read, _⟩ | ⟨_, read, _⟩
    · exact ⟨_, read⟩
    · exact ⟨_, read⟩
  obtain ⟨seenNext, again, listed⟩ := checkTransaction_again checked (turn.outputs checked policy)
    (turn.sameSpends apart confirmed packed checked authentic policy)
    (fun input spends found => turn.unspent spends ((packed.seen _).mp found))
    (fun registered carries => turn.free distinct packed (registrationOf_eq_some.mpr carries))
  exact ⟨seenNext, again, packed.next (turn.holds.traced.entry _ entry turn.genuine).2 turn.fresh
    read listed⟩

end

end

/-- The turn of each entry of a list with parents first. -/
theorem ParentsFirst.turn (first : ParentsFirst pool (done ++ entry :: rest))
    (holds : Consistent known (Certificate network known) pool)
    (revalidated : Revalidated utxo network height pool) :
    Turn network known pool utxo height done entry where
  holds := holds
  revalidated := revalidated
  genuine := first.genuine entry (mem_append_right _ (.head _))
  earlier := fun other member => first.genuine other (mem_append_left _ member)
  fresh := by
    have distinct := first.nodup
    rw [idsOf, map_append, map_cons, nodup_append] at distinct
    intro repeated
    exact distinct.2.2 _ repeated _ (.head _) rfl
  parents := first.parents done entry rest rfl

theorem ParentsFirst.firstInvalid (first : ParentsFirst pool (done ++ rest))
    (holds : Consistent known (Certificate network known) pool)
    (revalidated : Revalidated utxo network height pool) (apart : OfferedApart known)
    (confirmed : Confirmed known utxo) (packed : Packed utxo (height + 1) done view seen)
    (place : Nat) :
    firstInvalidFrom network (height + 1) place view seen (rest.map MempoolEntry.tx) = none := by
  induction rest generalizing done view seen place with
  | nil => rfl
  | cons entry rest ih =>
    have distinct : (idsOf done).Nodup := by
      have all := first.nodup
      rw [idsOf, map_append, nodup_append] at all
      exact all.1
    obtain ⟨seenNext, checked, next⟩ := (first.turn holds revalidated).checked apart confirmed
      distinct packed
    rw [map_cons, firstInvalidFrom, checked]
    rw [append_cons] at first
    exact ih first next (place + 1)

/-- The template of a revalidated pool is its selection: the last filter finds nothing unripe. -/
theorem selectForBlock_eq (holds : Consistent known (Certificate network known) pool)
    (revalidated : Revalidated utxo network height pool) (order : MapOrder) (maxWeight : Nat) :
    pool.selectForBlock order maxWeight =
      (pool.blockOrder order maxWeight).map MempoolEntry.tx := by
  refine withoutUnripePolicySpends_eq ?_
  intro entry member input spends spent found
  have genuine := (blockOrder_selected holds.indexed order maxWeight).1.genuine entry member
  obtain ⟨other, ripe⟩ := ripe_of_available
    (revalidated.available _ entry genuine input spends)
  cases ripe with
  | confirmed confirmed _ _ =>
    -- What the pool makes is not in the set.
    have output := holds.indexed.created input.prevOut
    rw [found, Option.map_some] at output
    obtain ⟨maker, held, inside⟩ := Option.bind_eq_some_iff.mp output.symm
    have absent := revalidated.outlasting.unconfirmed _ maker held input.prevOut rfl
      (List.getElem?_eq_some_iff.mp inside).1
    rw [confirmed] at absent
    cases absent
  | made _ here free _ =>
    rw [found] at here
    cases here
    exact free

end Checks

section Templates
variable [Crypto] [WorkHash] {network : Network} {known : Set Transaction}

/-- The call admits transactions of the network against a set of outputs of known transactions. -/
def PoolCall.Against (network : Network) (known : Set Transaction) : PoolCall → Prop
  | .accept _ _ utxo own _ => own = network ∧ Confirmed known utxo
  | .acceptLocal _ _ utxo own _ => own = network ∧ Confirmed known utxo
  | .returnAbandoned _ _ utxo own _ => own = network ∧ Confirmed known utxo
  | _ => True

omit [WorkHash] in
theorem PoolCall.Against.grants {call : PoolCall} (against : call.Against network known) :
    call.Grants known (Certificate network known) := by
  cases call with
  | accept order tx utxo own height =>
    obtain ⟨rfl, confirmed⟩ := against
    exact Confirmed.grants confirmed height
  | acceptLocal order tx utxo own height =>
    obtain ⟨rfl, confirmed⟩ := against
    exact Confirmed.grants confirmed height
  | returnAbandoned order blocks utxo own height =>
    obtain ⟨rfl, confirmed⟩ := against
    exact Confirmed.grants confirmed height
  | remove | onBlockConnected | revalidate => trivial

omit [WorkHash] in
theorem performAll_certified (maxBytes : Nat) {poolCalls : List PoolCall}
    (apart : OfferedApart known) (offers : offeredBy poolCalls ⊆ known)
    (against : ∀ call ∈ poolCalls, call.Against network known) :
    Consistent known (Certificate network known) (performAll { maxBytes } poolCalls) :=
  (Consistent.fresh known (Certificate network known) maxBytes).performAll apart
    certificate_lasting (fun call member => (against call member).grants)
    fun call member _ offered => offers ⟨call, member, offered⟩

omit [Crypto] [WorkHash] in
/-- A start that fits and waits for nothing, and that nothing waits for, is chosen alone. -/
theorem settle_ready {pool : Mempool} {maxWeight : Nat} {selection : Selection}
    {listed : Hash256 × MempoolEntry} (fresh : listed.1 ∉ selection.selected)
    (fits : selection.weight + listed.2.weight ≤ maxWeight)
    (ready : pool.missingParent selection.selected listed.1 = none)
    (idle : selection.waiting = ∅) :
    settle pool maxWeight [listed] selection = selection.choose listed := by
  rw [settle, if_neg (not_or.mpr ⟨fresh, fits.not_gt⟩), ready]
  dsimp only
  rw [idle, Finmap.lookup_empty, Option.getD_none, nil_append, settle]

/-- The set of a reached chain holds outputs of known transactions. A template over such a set, on
which the pool was just revalidated: no transaction twice, within the weight, parents before their
children, and accepted by the loop of a block of the next height. -/
theorem template_valid (maxBytes : Nat) (poolCalls : List PoolCall) (apart : OfferedApart known)
    (offers : offeredBy poolCalls ⊆ known)
    (against : ∀ call ∈ poolCalls, call.Against network known) :
    (∀ nonce (history : Set Block), HashesApart (headersOf history) →
      genesisBlock nonce ∈ history → (∀ block ∈ history, ∀ tx ∈ block.transactions, tx ∈ known) →
      ∀ calls : List Call, (∀ call ∈ calls, call.From history) →
        let utxo := (run calls (Chain.new network (genesisBlock nonce))).utxo
        Confirmed known utxo ∧ utxo.totalValue < u64Bound) ∧
      ∀ utxo height, Confirmed known utxo → utxo.totalValue < u64Bound →
        ∀ (order later : MapOrder) (maxWeight : Nat),
          let pool := (performAll { maxBytes } poolCalls).revalidate order utxo network height
          let template := pool.selectForBlock later maxWeight
          (template.map Transaction.txid).Nodup ∧
            (template.map fun tx => tx.weight witnessDiscount).sum ≤ maxWeight ∧
            (∀ before tx after, template = before ++ tx :: after → ∀ parent,
              ParentOf pool.entries parent tx.txid → parent ∈ before.map Transaction.txid) ∧
            ∀ context : BlockContext, context.network = network → context.height = height + 1 →
              ∃ totals, template.foldlM (checkNext context) ⟨{ confirmed := utxo }, [], 0⟩ =
                .ok totals := by
  constructor
  · intro nonce history headers genesisIn within calls brings
    have transactions := apart.transactionsApart within
    obtain ⟨sound, blocks, tracks⟩ :=
      followed_run network nonce ⟨headers, transactions⟩ genesisIn brings
    refine ⟨?_, sound.totalValue_lt⟩
    rw [tracks.utxo]
    exact tracks.lineage.confirmed apart within
  intro utxo height confirmed small order later maxWeight pool template
  have entered := performAll_certified maxBytes apart offers against
  have holds : Consistent _ _ pool :=
    (removed_revalidate _ order utxo network height).consistent entered
  have revalidated : Revalidated utxo network height pool :=
    revalidate_revalidated _ order utxo network height
  obtain ⟨first, light⟩ := blockOrder_selected holds.indexed later maxWeight
  have selected : template = (pool.blockOrder later maxWeight).map MempoolEntry.tx :=
    selectForBlock_eq holds revalidated later maxWeight
  rw [selected]
  refine ⟨?_, ?_, ?_, ?_⟩
  · rw [map_map]
    exact first.nodup
  · rw [map_map]
    refine le_trans (le_of_eq (congrArg sum (map_congr_left ?_))) light
    intro entry member
    exact (holds.kept _ entry (first.genuine entry member)).weight.symm
  · intro before tx after split parent related
    obtain ⟨done, others, chosen, rfl, mapped⟩ := map_eq_append_iff.mp split
    obtain ⟨entry, rest, rfl, rfl, rfl⟩ := map_eq_cons_iff.mp mapped
    rw [map_map]
    exact first.parents done entry rest chosen parent related
  · intro context rfl onHeight
    have alone : ParentsFirst pool ([] ++ pool.blockOrder later maxWeight) := first
    have invalid := alone.firstInvalid holds revalidated apart confirmed
      (Packed.start utxo (height + 1)) 1
    rw [← onHeight] at invalid
    refine (firstInvalidFrom_eq_none _ 1 (Covers.start utxo) ?_).mp invalid
    change total UtxoEntry.value utxo.map + 0 + 0 < _
    exact small

end Templates

/-- The transactions behind the payments. -/
def paymentHistory [Crypto] : List Transaction := [paymentSource, firstPayment, secondPayment]

theorem paymentSet_confirmed :
    letI : Crypto := checksumCrypto
    Confirmed {tx | tx ∈ paymentHistory} paymentSet := by
  let _ := checksumCrypto
  constructor
  · intro outpoint entry found
    rw [paymentSet, UtxoSet.lookup, UtxoSet.insert_map, lookup_insert_eq] at found
    split at found
    · rename_i here
      refine ⟨paymentSource, mem_cons_self,
        Transaction.fits_of_encode (by decide +kernel), ?_, ?_⟩
      · rw [here]
      · rw [here, ← Option.some.inj found]
        rfl
    · cases found
  · have apart : ∀ tx ∈ paymentHistory, ∀ outpoint ∈ tx.inputs.map TxIn.prevOut,
        outpoint.txid ≠ tx.txid := by decide +kernel
    exact fun tx member _ outpoint spends own => absurd own (apart tx member outpoint spends)

theorem paymentHistory_apart :
    letI : Crypto := checksumCrypto
    OfferedApart {tx | tx ∈ paymentHistory} := by
  let _ := checksumCrypto
  have different : ∀ first ∈ paymentHistory, ∀ second ∈ paymentHistory,
      first.txid = second.txid → first = second := by decide +kernel
  rintro _ ⟨first, firstIn, rfl⟩ _ ⟨second, secondIn, rfl⟩ same
  rw [different first firstIn second secondIn same]

theorem chainedCalls_within :
    letI : Crypto := checksumCrypto
    offeredBy chainedCalls ⊆ {tx | tx ∈ paymentHistory} ∧
      ∀ call ∈ chainedCalls, call.Against .regtest {tx | tx ∈ paymentHistory} := by
  let _ := checksumCrypto
  constructor
  · rintro tx ⟨call, member, offers⟩
    simp only [chainedCalls, mem_cons, not_mem_nil, or_false] at member
    rcases member with rfl | rfl
    · exact .tail _ (mem_singleton.mp offers ▸ mem_cons_self)
    · exact .tail _ (.tail _ (mem_singleton.mp offers ▸ mem_cons_self))
  · intro call member
    simp only [chainedCalls, mem_cons, not_mem_nil, or_false] at member
    rcases member with rfl | rfl
    · exact ⟨rfl, paymentSet_confirmed⟩
    · exact ⟨rfl, paymentSet_confirmed⟩

/-- The payment is chosen first, then the spend of its output. -/
theorem selectForBlock_payments :
    letI : Crypto := checksumCrypto
    ((performAll {} chainedCalls).revalidate sortedOrder paymentSet .regtest 0).selectForBlock
      sortedOrder 100_000 = [firstPayment, secondPayment] := by
  let _ := checksumCrypto
  have holds := (removed_revalidate _ sortedOrder paymentSet .regtest 0).consistent
    (performAll_certified 0 paymentHistory_apart chainedCalls_within.1 chainedCalls_within.2)
  have revalidated :=
    revalidate_revalidated (performAll {} chainedCalls) sortedOrder paymentSet .regtest 0
  obtain ⟨pool, made⟩ : ∃ pool, (performAll {} chainedCalls).revalidate sortedOrder paymentSet
      .regtest 0 = pool := ⟨_, rfl⟩
  rw [made] at holds revalidated ⊢
  have starts : ((sortedOrder.entries.list pool.entries).insertionSort
        fun first second => blockRank first ≤ blockRank second).map
          (fun listed => (listed.1, listed.2.tx, listed.2.weight)) =
      [(firstPayment.txid, firstPayment, 6041), (secondPayment.txid, secondPayment, 6041)] := by
    rw [← made]
    decide +kernel
  have parents : pool.missingParent ∅ firstPayment.txid = none ∧
      pool.missingParent {firstPayment.txid} secondPayment.txid = none ∧
      secondPayment.txid ≠ firstPayment.txid := by
    rw [← made]
    decide +kernel
  rw [selectForBlock_eq holds revalidated, blockOrder]
  obtain ⟨first, others, listed, one, starts⟩ := map_eq_cons_iff.mp starts
  obtain ⟨second, others, rfl, two, starts⟩ := map_eq_cons_iff.mp starts
  rw [map_eq_nil_iff.mp starts] at listed
  obtain ⟨firstId, firstEntry⟩ := first
  obtain ⟨secondId, secondEntry⟩ := second
  obtain ⟨rfl, firstTx, firstWeight⟩ : firstId = _ ∧ firstEntry.tx = _ ∧ firstEntry.weight = _ := by
    simpa using one
  obtain ⟨rfl, secondTx, secondWeight⟩ :
      secondId = _ ∧ secondEntry.tx = _ ∧ secondEntry.weight = _ := by simpa using two
  have alone : settle pool 100_000 [(firstPayment.txid, firstEntry)] {} =
      ({} : Selection).choose (firstPayment.txid, firstEntry) :=
    settle_ready (Finset.notMem_empty _) (by simp [firstWeight]) parents.1 rfl
  rw [listed, foldl_cons, foldl_cons, foldl_nil, alone,
    settle_ready (by simpa [Selection.choose] using parents.2.2)
      (by simp [Selection.choose, firstWeight, secondWeight])
      (by simpa [Selection.choose] using parents.2.1) rfl]
  simp [Selection.choose, firstTx, secondTx]

/-- The template with a payment and the spend of its output. -/
theorem template_valid_payments :
    letI : Crypto := checksumCrypto
    let pool := (performAll {} chainedCalls).revalidate sortedOrder paymentSet .regtest 0
    pool.selectForBlock sortedOrder 100_000 = [firstPayment, secondPayment] ∧
      ∃ totals, [firstPayment, secondPayment].foldlM (checkNext firstContext)
        ⟨{ confirmed := paymentSet }, [], 0⟩ = .ok totals := by
  let _ := checksumCrypto
  let _ := zeroWork
  obtain ⟨_, _, _, accepted⟩ := (template_valid 0 chainedCalls paymentHistory_apart
    chainedCalls_within.1 chainedCalls_within.2).2 paymentSet 0 paymentSet_confirmed
    (by decide +kernel) sortedOrder sortedOrder 100_000
  have loop := accepted firstContext rfl rfl
  rw [selectForBlock_payments] at loop
  exact ⟨selectForBlock_payments, loop⟩

end Mempool

end Q21Formal.Ledger

/-! ## The view against the transactions applied -/

namespace Q21Formal.Ledger
open Primitives List

section Applied
variable [Crypto] {utxo : UtxoSet} {height : Nat} {tx : Transaction}
  {transactions : List Transaction} {outpoint : OutPoint}

section
variable (record : UndoRecord)

/-- The output a transaction creates at an outpoint. -/
def Transaction.outputAt (tx : Transaction) (outpoint : OutPoint) : Option TxOut :=
  if outpoint.txid = tx.txid then tx.outputs[outpoint.index.toNat]? else none

theorem lookup_applyTransaction_eq (spends : tx.isCoinbase = false) (fits : tx.Fits) :
    (utxo.applyTransaction record tx height).1.lookup outpoint =
      ((tx.outputAt outpoint).map fun output => (⟨output, height, false⟩ : UtxoEntry)).or
        (if outpoint ∈ tx.inputs.map TxIn.prevOut then none else utxo.lookup outpoint) := by
  unfold UtxoSet.lookup Transaction.outputAt
  rw [applyTransaction_map_of_spend utxo record height spends,
    lookup_createMap_at _ _ _ _ fits.outputs, lookup_eraseInputs_eq]
  split
  · rfl
  · rw [Option.map_none, Option.none_or]

section
variable (plain : ∀ tx ∈ transactions, tx.isCoinbase = false ∧ tx.Fits)
include plain

/-- What no transaction spends or creates stays. -/
theorem lookup_applied_untouched
    (unspent : ∀ tx ∈ transactions, outpoint ∉ tx.inputs.map TxIn.prevOut)
    (unmade : ∀ tx ∈ transactions, tx.outputAt outpoint = none) :
    (utxo.applyTransactions record height transactions).1.lookup outpoint =
      utxo.lookup outpoint := by
  induction transactions generalizing utxo record with
  | nil => rfl
  | cons tx rest ih =>
    obtain ⟨spends, fits⟩ := plain tx (.head _)
    rw [UtxoSet.applyTransactions, ih _ (fun other member => plain other (.tail _ member))
      (fun other member => unspent other (.tail _ member))
      (fun other member => unmade other (.tail _ member)),
      lookup_applyTransaction_eq record spends fits, unmade tx (.head _),
      if_neg (unspent tx (.head _))]
    rfl

/-- What a transaction spends and none creates is gone. -/
theorem lookup_applied_spent (unmade : ∀ tx ∈ transactions, tx.outputAt outpoint = none) (gone :
      utxo.lookup outpoint = none ∨ ∃ tx ∈ transactions, outpoint ∈ tx.inputs.map TxIn.prevOut) :
    (utxo.applyTransactions record height transactions).1.lookup outpoint = none := by
  induction transactions generalizing utxo record with
  | nil =>
    rcases gone with absent | ⟨_, member, _⟩
    · exact absent
    · cases member
  | cons tx rest ih =>
    obtain ⟨spends, fits⟩ := plain tx (.head _)
    have still : (utxo.applyTransaction record tx height).1.lookup outpoint = none ∨
        ∃ later ∈ rest, outpoint ∈ later.inputs.map TxIn.prevOut := by
      rw [lookup_applyTransaction_eq record spends fits, unmade tx (.head _)]
      rcases gone with absent | ⟨spender, member, spent⟩
      · rw [absent, ite_self]
        exact .inl rfl
      · rcases mem_cons.mp member with rfl | later
        · rw [if_pos spent]
          exact .inl rfl
        · exact .inr ⟨spender, later, spent⟩
    rw [UtxoSet.applyTransactions]
    exact ih _ (fun other member => plain other (.tail _ member))
      (fun other member => unmade other (.tail _ member)) still

/-- What a transaction spends, and neither it nor a later one creates, is gone. -/
theorem lookup_applied_consumed {before after : List Transaction} {spender : Transaction}
    (split : transactions = before ++ spender :: after)
    (unmade : ∀ tx ∈ spender :: after, tx.outputAt outpoint = none)
    (spent : outpoint ∈ spender.inputs.map TxIn.prevOut) :
    (utxo.applyTransactions record height transactions).1.lookup outpoint = none := by
  induction before generalizing transactions utxo record with
  | nil =>
    obtain rfl : transactions = spender :: after := split
    exact lookup_applied_spent record plain unmade (.inr ⟨spender, .head _, spent⟩)
  | cons tx before ih =>
    obtain rfl : transactions = tx :: (before ++ spender :: after) := split
    rw [UtxoSet.applyTransactions]
    exact ih _ (fun other member => plain other (.tail _ member)) rfl

/-- What one transaction creates and none spends is there. -/
theorem lookup_applied_made {maker : Transaction} {output : TxOut}
    (unspent : ∀ tx ∈ transactions, outpoint ∉ tx.inputs.map TxIn.prevOut)
    (distinct : (transactions.map Transaction.txid).Nodup) (member : maker ∈ transactions)
    (made : maker.outputAt outpoint = some output) :
    (utxo.applyTransactions record height transactions).1.lookup outpoint =
      some ⟨output, height, false⟩ := by
  induction transactions generalizing utxo record with
  | nil => cases member
  | cons tx rest ih =>
    obtain ⟨spends, fits⟩ := plain tx (.head _)
    rw [map_cons, nodup_cons] at distinct
    have restPlain := fun other inside => plain other (mem_cons_of_mem tx inside)
    have restUnspent := fun other inside => unspent other (mem_cons_of_mem tx inside)
    rw [UtxoSet.applyTransactions]
    rcases mem_cons.mp member with rfl | later
    · rw [lookup_applied_untouched _ restPlain restUnspent,
        lookup_applyTransaction_eq record spends fits, made]
      · rfl
      · intro other inside
        unfold Transaction.outputAt at made ⊢
        split at made
        · rename_i own
          refine if_neg fun same => distinct.1 ?_
          rw [← own, same]
          exact mem_map_of_mem inside
        · cases made
    · exact ih _ restPlain restUnspent distinct.2 later

end

end

end Applied

namespace Mempool

section View
variable [Crypto] {pool : Mempool} {offered : Set Transaction} {utxo : UtxoSet} {height : Nat}
  {promise : MempoolEntry → Prop} {chosen : List MempoolEntry} {outpoint : OutPoint}

/-- All the entries of the pool, each once. -/
structure Lists (pool : Mempool) (chosen : List MempoolEntry) : Prop where
  genuine : ∀ entry ∈ chosen, pool.entries.lookup entry.tx.txid = some entry
  complete : ∀ id entry, pool.entries.lookup id = some entry → entry ∈ chosen
  nodup : (idsOf chosen).Nodup

theorem Lists.outputAt (lists : Lists pool chosen) {maker : MempoolEntry}
    (member : maker ∈ chosen) {output : TxOut}
    (made : maker.tx.outputAt outpoint = some output) :
    Mempool.outputAt pool.entries outpoint = some output := by
  unfold Transaction.outputAt at made
  split at made
  · rename_i own
    rwa [Mempool.outputAt, own, lists.genuine maker member]
  · cases made

theorem Lists.of_keys (keys : pool.entries.keys = (idsOf chosen).toFinset)
    (genuine : ∀ entry ∈ chosen, pool.entries.lookup entry.tx.txid = some entry)
    (nodup : (idsOf chosen).Nodup) : Lists pool chosen := by
  refine ⟨genuine, ?_, nodup⟩
  intro id entry here
  have listed := Finmap.mem_keys.mpr (Finmap.mem_of_lookup_eq_some here)
  rw [keys, mem_toFinset] at listed
  obtain ⟨other, member, rfl⟩ := mem_map.mp listed
  rw [genuine other member] at here
  rwa [← Option.some.inj here]

theorem Lists.pair {one two : Transaction} (keys : pool.entries.keys = {one.txid, two.txid})
    (found : (pool.entries.lookup one.txid).map MempoolEntry.tx = some one)
    (found' : (pool.entries.lookup two.txid).map MempoolEntry.tx = some two)
    (different : one.txid ≠ two.txid) :
    ∃ chosen, Lists pool chosen ∧ chosen.map MempoolEntry.tx = [one, two] := by
  obtain ⟨first, here, rfl⟩ := Option.map_eq_some_iff.mp found
  obtain ⟨second, here', rfl⟩ := Option.map_eq_some_iff.mp found'
  refine ⟨[first, second], Lists.of_keys ?_ ?_ ?_, rfl⟩
  · simp [keys, idsOf]
  · simp [here, here']
  · simp [idsOf, different]

/-- No entry spends an output of itself or of one after it. -/
def InOrder (chosen : List MempoolEntry) : Prop :=
  ∀ before entry after, chosen = before ++ entry :: after →
    ∀ input ∈ entry.tx.inputs, input.prevOut.txid ∉ idsOf (entry :: after)

theorem InOrder.pair {one two : Transaction} (listed : chosen.map MempoolEntry.tx = [one, two])
    (source : ∀ input ∈ one.inputs, input.prevOut.txid ∉ [one.txid, two.txid])
    (source' : ∀ input ∈ two.inputs, input.prevOut.txid ≠ two.txid) : InOrder chosen := by
  rintro before entry after rfl
  have ids : idsOf (entry :: after) =
      (entry.tx :: after.map MempoolEntry.tx).map Transaction.txid := by
    rw [idsOf, ← map_cons, map_map]
    rfl
  rw [ids]
  rw [map_append, map_cons] at listed
  rcases before with _ | ⟨earlier, _ | ⟨next, others⟩⟩
  · obtain ⟨same, rest⟩ := cons_eq_cons.mp listed
    rw [rest, same]
    exact source
  · obtain ⟨same, rest⟩ := cons_eq_cons.mp (cons_eq_cons.mp listed).2
    rw [rest, same]
    simpa using source'
  · simp at listed

/-- What the view shows, where the entries do not both create and spend. -/
theorem Consistent.view_eq_applied (holds : Consistent offered promise pool)
    (lists : Lists pool chosen) (plain : ∀ entry ∈ chosen, entry.tx.isCoinbase = false)
    (apart : (Mempool.outputAt pool.entries outpoint).isSome = true →
      ∀ id, ¬ Spends pool.entries id outpoint) :
    let applied := (utxo.applyTransactions {} height (chosen.map MempoolEntry.tx)).1
    ((pool.view utxo).lookup outpoint).map UtxoEntry.output =
        (applied.lookup outpoint).map UtxoEntry.output ∧
      (Mempool.outputAt pool.entries outpoint = none →
        (pool.view utxo).lookup outpoint = applied.lookup outpoint) := by
  have fitting : ∀ tx ∈ chosen.map MempoolEntry.tx, tx.isCoinbase = false ∧ tx.Fits := by
    intro tx listed
    obtain ⟨entry, member, rfl⟩ := mem_map.mp listed
    exact ⟨plain entry member, (holds.traced.entry _ entry (lists.genuine entry member)).2⟩
  have created := holds.indexed.created outpoint
  cases made : Mempool.outputAt pool.entries outpoint with
  | some output =>
    -- The pool makes the output, and none of its entries spends it.
    rw [made] at apart created
    obtain ⟨entry, found, rfl⟩ := Option.map_eq_some_iff.mp created
    have shown : (pool.view utxo).lookup outpoint = some entry := by
      unfold view
      simp only [found]
    obtain ⟨maker, held, inside⟩ := Option.bind_eq_some_iff.mp made
    have own : maker.tx.outputAt outpoint = some entry.output := by
      rwa [Transaction.outputAt, (holds.indexed.entry _ maker held).identified, if_pos rfl]
    have applied : (utxo.applyTransactions {} height
        (chosen.map MempoolEntry.tx)).1.lookup outpoint = some ⟨entry.output, height, false⟩ := by
      refine lookup_applied_made {} fitting ?_ ?_ (mem_map_of_mem (lists.complete _ maker held)) own
      · intro tx listed spent
        obtain ⟨spender, member, rfl⟩ := mem_map.mp listed
        exact apart rfl _ ⟨spender, lists.genuine spender member, spent⟩
      · rw [map_map]
        exact lists.nodup
    dsimp only
    rw [shown, applied]
    refine ⟨rfl, fun impossible => ?_⟩
    cases impossible
  | none =>
    rw [made, Option.map_eq_none_iff] at created
    have unmade : ∀ tx ∈ chosen.map MempoolEntry.tx, tx.outputAt outpoint = none := by
      intro tx listed
      obtain ⟨maker, member, rfl⟩ := mem_map.mp listed
      by_contra some'
      obtain ⟨output, own⟩ := Option.ne_none_iff_exists'.mp some'
      rw [lists.outputAt member own] at made
      cases made
    have same : (pool.view utxo).lookup outpoint = (utxo.applyTransactions {} height
        (chosen.map MempoolEntry.tx)).1.lookup outpoint := by
      unfold view
      simp only [created]
      cases held : pool.committed.lookup outpoint with
      | some id =>
        obtain ⟨spender, found, spent⟩ := (holds.indexed.committed outpoint id).mp held
        rw [lookup_applied_spent {} fitting unmade (.inr ⟨spender.tx,
          mem_map_of_mem (lists.complete id spender found), spent⟩)]
        rfl
      | none =>
        rw [lookup_applied_untouched {} fitting ?_ unmade]
        · rfl
        · intro tx listed spent
          obtain ⟨spender, member, rfl⟩ := mem_map.mp listed
          have committed := (holds.indexed.committed outpoint _).mpr
            ⟨spender, lists.genuine spender member, spent⟩
          rw [held] at committed
          cases committed
    exact ⟨congrArg (Option.map UtxoEntry.output) same, fun _ => same⟩

/-- What the pool creates is shown, spent or not. -/
theorem Consistent.view_shows_created (holds : Consistent offered promise pool)
    (made : (Mempool.outputAt pool.entries outpoint).isSome = true) :
    ((pool.view utxo).lookup outpoint).isSome = true := by
  rw [← holds.indexed.created outpoint, Option.isSome_map] at made
  obtain ⟨entry, found⟩ := Option.isSome_iff_exists.mp made
  unfold view
  simp only [found]
  rfl

/-- What one entry creates and another spends is gone once all are applied in order. -/
theorem Consistent.applied_linked (holds : Consistent offered promise pool)
    (lists : Lists pool chosen) (plain : ∀ entry ∈ chosen, entry.tx.isCoinbase = false)
    (ordered : InOrder chosen) {id : Hash256} (spends : Spends pool.entries id outpoint) :
    (utxo.applyTransactions {} height (chosen.map MempoolEntry.tx)).1.lookup outpoint = none := by
  obtain ⟨spender, found, spent⟩ := spends
  obtain ⟨before, after, split⟩ := append_of_mem (lists.complete id spender found)
  have fitting : ∀ tx ∈ chosen.map MempoolEntry.tx, tx.isCoinbase = false ∧ tx.Fits := by
    intro tx listed
    obtain ⟨entry, member, rfl⟩ := mem_map.mp listed
    exact ⟨plain entry member, (holds.traced.entry _ entry (lists.genuine entry member)).2⟩
  obtain ⟨input, listed, rfl⟩ := mem_map.mp spent
  refine lookup_applied_consumed {} fitting (by rw [split, map_append, map_cons]) ?_ spent
  rw [← map_cons]
  intro tx inside
  obtain ⟨entry, member, rfl⟩ := mem_map.mp inside
  refine if_neg fun own => ordered before spender after split input listed ?_
  rw [own]
  exact mem_map_of_mem member

/-- An outpoint is answered as by the set after all entries were applied in order exactly where the
entries do not both create and spend it. -/
theorem view_is_pool_applied (maxBytes : Nat) (calls : List PoolCall)
    (apart : OfferedApart (offeredBy calls)) (utxo : UtxoSet) (height : Nat)
    (chosen : List MempoolEntry) (lists : Lists (performAll { maxBytes } calls) chosen)
    (plain : ∀ entry ∈ chosen, entry.tx.isCoinbase = false) (ordered : InOrder chosen)
    (outpoint : OutPoint) :
    let pool := performAll { maxBytes } calls
    let applied := (utxo.applyTransactions {} height (chosen.map MempoolEntry.tx)).1
    (((pool.view utxo).lookup outpoint).map UtxoEntry.output =
        (applied.lookup outpoint).map UtxoEntry.output ↔
      ¬ ((Mempool.outputAt pool.entries outpoint).isSome = true ∧
        ∃ id, Spends pool.entries id outpoint)) ∧
      (Mempool.outputAt pool.entries outpoint = none →
        (pool.view utxo).lookup outpoint = applied.lookup outpoint) := by
  intro pool applied
  have holds := performAll_consistent maxBytes calls apart
  refine ⟨⟨?_, ?_⟩, ?_⟩
  · rintro same ⟨made, id, spends⟩
    have shown := @Consistent.view_shows_created _ pool _ utxo _ outpoint holds made
    have gone : applied.lookup outpoint = none := holds.applied_linked lists plain ordered spends
    rw [gone, Option.map_none, Option.map_eq_none_iff] at same
    rw [same] at shown
    cases shown
  · intro unlinked
    exact (holds.view_eq_applied lists plain
      fun made id spends => unlinked ⟨made, id, spends⟩).1
  · intro unmade
    refine (holds.view_eq_applied lists plain fun made => ?_).2 unmade
    rw [show Mempool.outputAt pool.entries outpoint = none from unmade] at made
    cases made

end View

section Payments
variable [Crypto]

/-- The set after transactions were applied at the next height. -/
def appliedTo (utxo : UtxoSet) (transactions : List Transaction) : UtxoSet :=
  (utxo.applyTransactions {} 1 transactions).1

end Payments

/-- The output of the first payment, which the second spends, is gone once both are applied, and the
view still shows it. -/
theorem view_shows_spent_output :
    letI : Crypto := checksumCrypto
    let pool := performAll {} chainedCalls
    (pool.entries.lookup firstPayment.txid).isSome = true ∧
      (pool.entries.lookup secondPayment.txid).isSome = true ∧ pool.entries.keys.card = 2 ∧
      (firstInvalidFrom .regtest 1 1 { confirmed := paymentSet } []
        [firstPayment, secondPayment]).isNone = true ∧
      ((pool.view paymentSet).lookup ⟨firstPayment.txid, 0⟩).isSome = true ∧
      ((appliedTo paymentSet [firstPayment, secondPayment]).lookup
        ⟨firstPayment.txid, 0⟩).isSome = false := by
  decide +kernel

/-- The output of the second payment, in the pool and in the set both are applied to. -/
theorem view_is_pool_applied_payment :
    letI : Crypto := checksumCrypto
    let pool := performAll {} chainedCalls
    ∃ chosen, Lists pool chosen ∧ chosen.map MempoolEntry.tx = [firstPayment, secondPayment] ∧
      ((pool.view paymentSet).lookup ⟨secondPayment.txid, 0⟩).map UtxoEntry.output =
        ((appliedTo paymentSet (chosen.map MempoolEntry.tx)).lookup
          ⟨secondPayment.txid, 0⟩).map UtxoEntry.output := by
  let _ := checksumCrypto
  have kept : (performAll {} chainedCalls).entries.keys = {firstPayment.txid, secondPayment.txid} ∧
      ((performAll {} chainedCalls).entries.lookup firstPayment.txid).map MempoolEntry.tx =
        some firstPayment ∧
      ((performAll {} chainedCalls).entries.lookup secondPayment.txid).map MempoolEntry.tx =
        some secondPayment ∧ firstPayment.txid ≠ secondPayment.txid := by
    decide +kernel
  have spends : (∀ tx ∈ [firstPayment, secondPayment], tx.isCoinbase = false) ∧
      (∀ input ∈ firstPayment.inputs,
        input.prevOut.txid ∉ [firstPayment.txid, secondPayment.txid]) ∧
      ∀ input ∈ secondPayment.inputs, input.prevOut.txid ≠ secondPayment.txid := by
    decide +kernel
  obtain ⟨keys, found, found', different⟩ := kept
  obtain ⟨plain, source, source'⟩ := spends
  obtain ⟨chosen, lists, listed⟩ := Lists.pair keys found found' different
  have ordered : InOrder chosen := .pair listed source source'
  have spending : ∀ entry ∈ chosen, entry.tx.isCoinbase = false :=
    fun entry member => plain _ (listed ▸ mem_map_of_mem member)
  have agrees := (view_is_pool_applied 0 chainedCalls chainedCalls_apart paymentSet 1 chosen lists
    spending ordered ⟨secondPayment.txid, 0⟩).1
  refine ⟨chosen, lists, listed, ?_⟩
  unfold appliedTo
  rw [agrees]
  rintro ⟨_, id, spender, here, spent⟩
  have member : spender.tx ∈ [firstPayment, secondPayment] :=
    listed ▸ mem_map_of_mem (lists.complete id spender here)
  obtain ⟨input, inside, origin⟩ := mem_map.mp spent
  have made : input.prevOut.txid = secondPayment.txid := congrArg OutPoint.txid origin
  rcases mem_cons.mp member with same | same
  · rw [same] at inside
    refine source input inside ?_
    rw [made]
    exact mem_cons_of_mem _ (.head _)
  · rw [mem_singleton.mp same] at inside
    exact source' input inside made

end Mempool

end Q21Formal.Ledger

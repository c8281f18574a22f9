import Q21Formal.Ledger.PoolTables

/-!
# The tables along every run of the pool

Making room for a newcomer never takes one of its ancestors: what leaves with a transaction is below
it, and the ancestors are closed upwards.  So after any calls each table is what the entries
determine.
-/

namespace Q21Formal.Ledger
open Library.Codec Library.Refusal Library.Maps Library.Listing Library.Reach Primitives List

namespace Mempool

section Room
variable {pool : Mempool} {order : MapOrder} {rate need freed : Nat} {shielded : Finset Hash256}
  {priority : Bool} {out : List Hash256}

theorem freeLeaves_outside {keys : List EvictionKey} (outside : ∀ id ∈ out, id ∉ shielded) :
    ∀ id ∈ (pool.freeLeaves rate need shielded priority keys freed out).2, id ∉ shielded := by
  induction keys generalizing freed out with
  | nil => exact outside
  | cons key rest ih =>
    unfold freeLeaves
    dsimp only
    split
    · exact outside
    · split
      · exact outside
      · split
        · exact ih outside
        · refine ih fun id member => ?_
          rcases mem_append.mp member with earlier | last
          · exact outside id earlier
          · rwa [mem_singleton.mp last]

theorem mem_takePackages {packages : List Package} {taken : Finset Hash256} {id : Hash256}
    (member : id ∈ (pool.takePackages need packages freed taken out).2) :
    id ∈ out ∨ ∃ package ∈ packages, package.root = id := by
  induction packages generalizing freed taken out with
  | nil => exact .inl member
  | cons package rest ih =>
    unfold takePackages at member
    split at member
    · exact .inl member
    · rcases ih member with earlier | ⟨other, listed, here⟩
      · split at earlier
        · exact .inl earlier
        · rcases mem_append.mp earlier with earlier | last
          · exact .inl earlier
          · exact .inr ⟨package, mem_cons_self, (mem_singleton.mp last).symm⟩
      · exact .inr ⟨other, mem_cons_of_mem _ listed, here⟩

theorem packageOf_root {root : Hash256} {package : Package}
    (made : pool.packageOf rate priority root = some package) : package.root = root := by
  obtain ⟨members, _, made⟩ := Option.bind_eq_some_iff.mp made
  dsimp only at made
  split at made
  · cases made
    rfl
  · cases made

/-- Nothing shielded is among what to push out. -/
theorem roomFor_outside {size : Nat} {ids : List Hash256}
    (room : pool.roomFor order rate size shielded priority = some ids) :
    ∀ id ∈ ids, id ∉ shielded := by
  have leaves : ∀ id ∈ (pool.freeLeaves rate (pool.bytes + size - pool.capacity) shielded priority
      (listing pool.evictable) 0 []).2, id ∉ shielded := freeLeaves_outside (by simp)
  unfold roomFor at room
  dsimp only at room
  split at room
  · cases room
    exact leaves
  · split at room
    · cases room
      intro id member
      rcases mem_takePackages member with earlier | ⟨package, listed, here⟩
      · exact leaves id earlier
      · rw [mem_insertionSort, mem_filterMap] at listed
        obtain ⟨key, candidate, made⟩ := listed
        have inside := mem_of_mem_take candidate
        rw [mem_insertionSort, mem_map] at inside
        obtain ⟨⟨root, entry⟩, kept, rfl⟩ := inside
        have free := (mem_filter.mp kept).2
        rw [packageRoot, Bool.and_eq_true, Bool.and_eq_true, Bool.and_eq_true,
          decide_eq_true_eq] at free
        rw [← here, packageOf_root made]
        exact free.1.1.2
    · cases room

/-- What a step that erases one entry leaves when it is run over a list. -/
theorem lookup_eraseMany {step : Mempool → Hash256 → Mempool}
    (erases : ∀ pool id, (step pool id).entries = pool.entries.erase id) (pool : Mempool)
    (ids : List Hash256) (query : Hash256) :
    (ids.foldl step pool).entries.lookup query =
      if query ∈ ids then none else pool.entries.lookup query := by
  induction ids generalizing pool with
  | nil => simp
  | cons id rest ih =>
    rw [foldl_cons, ih, erases, lookup_erase_eq]
    by_cases later : query ∈ rest
    · simp [later]
    · simp [later]

theorem lookup_remove (pool : Mempool) (id query : Hash256) :
    (pool.remove id).entries.lookup query =
      if query ∈ pool.descendants id then none else pool.entries.lookup query := by
  rw [remove, lookup_eraseMany removeOne_entries]
  simp only [mem_reverse]

end Room

section Calls
variable [Crypto] {pool before after : Mempool} {offered : Set Transaction} {admission : Admission}
  {order : MapOrder} {tx : Transaction} {utxo : UtxoSet} {network : Network} {height : Nat}
  {isLocal returned : Bool} {shielded : Finset Hash256} {id : Hash256} {ids : List Hash256}

/-- What the checks of a newcomer established, and what they hand on. -/
structure Examined (pool : Mempool) (tx : Transaction) (utxo : UtxoSet) (network : Network)
    (height : Nat) (admission : Admission) : Prop where
  fresh : pool.entries.lookup tx.txid = none
  parents : tx.inputs.foldlM (pool.inputParent utxo tx.txid) [] = .ok admission.parents
  shielded : admission.shielded = pool.ancestors admission.parents
  small : tx.encode.length ≤ maxUsableBlockSize ∧ tx.weight witnessDiscount ≤ maxUsableWeight
  unlocked : unconfirmedRelativeLock tx pool.created height = .ok ()
  checked : ∃ seen, checkTransaction tx (pool.view utxo) network (height + 1) [] =
    .ok (admission.entry.fee, seen)
  registered : admission.registered = registrationOf tx
  weight : admission.entry.weight = tx.weight witnessDiscount
  size : admission.entry.size = tx.encode.length
  arrival : admission.entry.arrival = pool.counter
  policy : admission.entry.policy = touchesPolicy tx (pool.view utxo)
  name : admission.entry.name = (registrationOf tx).isSome
  carries : admission.entry.tx = tx

theorem examine_ok
    (examined : pool.examine order tx utxo network height isLocal returned = .ok admission) :
    Examined pool tx utxo network height admission := by
  simp only [examine, bind_eq_ok, require_eq_ok, mapError_eq_ok, pure_eq_ok] at examined
  obtain ⟨_, fresh, parents, looped, _, small, _, _, _, _, _, _, _, unlocked, ⟨fee, seen⟩, checked,
    _, _, rfl⟩ := examined
  exact
    { fresh, parents := looped, shielded := rfl, small, unlocked, checked := ⟨seen, checked⟩
      registered := rfl, weight := rfl, size := rfl, arrival := rfl, policy := rfl, name := rfl
      carries := rfl }

theorem Examined.fits (examined : Examined pool tx utxo network height admission) :
    tx.Fits := by
  refine Transaction.fits_of_encode (examined.small.1.trans ?_)
  unfold maxUsableBlockSize
  omega

omit [Crypto] in
theorem inputParents_ok {txid : Hash256} {inputs : List TxIn} {parents : List Hash256}
    (looped : inputs.foldlM (pool.inputParent utxo txid) [] = .ok parents) :
    (∀ parent, parent ∈ parents ↔ ∃ outpoint ∈ inputs.map TxIn.prevOut,
      outpoint.txid = parent ∧ (pool.created.lookup outpoint).isSome = true) ∧
    ∀ outpoint ∈ inputs.map TxIn.prevOut,
      ∀ id, pool.committed.lookup outpoint = some id → id = txid := by
  have finished := foldlM_invariant
    (fun (before : List TxIn) (parents : List Hash256) =>
      (∀ parent, parent ∈ parents ↔ ∃ outpoint ∈ before.map TxIn.prevOut,
        outpoint.txid = parent ∧ (pool.created.lookup outpoint).isSome = true) ∧
      ∀ outpoint ∈ before.map TxIn.prevOut,
        ∀ id, pool.committed.lookup outpoint = some id → id = txid)
    (fun before input parents next soFar stepped => by
      obtain ⟨listed, alone⟩ := soFar
      simp only [inputParent, bind_eq_ok, require_eq_ok] at stepped
      obtain ⟨_, conflict, stepped⟩ := stepped
      constructor
      · intro parent
        split at stepped
        · rename_i created
          rw [pure_eq_ok] at stepped
          rw [← stepped, mem_append, listed, map_append, mem_singleton]
          simp only [mem_append, map_cons, map_nil, mem_singleton, or_and_right,
            exists_or, exists_eq_left, created, and_true]
          exact or_congr_right eq_comm
        · rename_i absent
          simp only [bind_eq_ok, pure_eq_ok] at stepped
          obtain ⟨_, _, rfl⟩ := stepped
          rw [listed, map_append]
          simp only [mem_append, map_cons, map_nil, mem_singleton, or_and_right,
            exists_or, exists_eq_left, absent, and_false, or_false, Bool.false_eq_true]
      · intro outpoint member id held
        rw [map_append, mem_append] at member
        rcases member with earlier | last
        · exact alone outpoint earlier id held
        · rw [map_singleton, mem_singleton] at last
          rw [← last, held] at conflict
          simpa using conflict)
    [] ⟨by simp, by simp⟩ looped
  simpa using finished

/-- The checks of a newcomer give what its entry asks. -/
theorem Examined.enters (examined : Examined pool tx utxo network height admission)
    (indexed : Indexed pool) : Enters pool.entries admission := by
  obtain ⟨listed, alone⟩ := inputParents_ok examined.parents
  have output : ∀ outpoint, (pool.created.lookup outpoint).isSome =
      (outputAt pool.entries outpoint).isSome := by
    intro outpoint
    rw [← indexed.created, Option.isSome_map]
  refine
    { fresh := ?_, entry := ?_, unspent := ?_, parents := ?_, registered := ?_, unnamed := ?_ }
  · rw [examined.carries]
    exact examined.fresh
  · have counts := tx.counts_le_encode
    have small := examined.small.1
    refine ⟨rfl, ?_, ?_, ?_⟩
    · rw [examined.size, examined.carries]
    · rw [examined.name, examined.carries]
    · rw [examined.carries]
      unfold maxUsableBlockSize maxBlockSize at small
      omega
  · rw [examined.carries]
    intro outpoint member id spends
    have own := alone outpoint member id ((indexed.committed outpoint id).mpr spends)
    obtain ⟨entry, found, _⟩ := spends
    rw [own, examined.fresh] at found
    cases found
  · rw [examined.carries]
    intro parent
    rw [listed]
    simp only [output]
  · rw [examined.registered, examined.carries]
  · intro registered carried id other registers alike
    rw [examined.registered, registrationOf_eq_some] at carried
    obtain ⟨seen, checked⟩ := examined.checked
    obtain ⟨unnamed, _⟩ | ⟨own, read, _, free⟩ :=
      checkRegistration_ok (checkTransaction_names checked).1
    · rw [carried] at unnamed
      cases unnamed
    rw [carried] at read
    cases read
    have held := (indexed.pendingNames (skeleton registered.name) other.name id).mpr
      ⟨other, registers, alike, rfl⟩
    change ((pool.pendingNames.lookup _).map Prod.fst).or _ = none at free
    rw [held] at free
    cases free

section
variable (indexed : Indexed before)
  (closed : ClosedIn before.entries.keys before.parentsOf shielded) (removed : Removed before pool)
include indexed closed removed

/-- A set closed upwards in the pool keeps its entries when what leaves is outside it. -/
theorem remove_shielded {root : Hash256} (outside : root ∉ shielded) (member : id ∈ shielded) :
    (pool.remove root).entries.lookup id = pool.entries.lookup id := by
  have now := removed.indexed indexed
  rw [lookup_remove, if_neg]
  intro below
  refine outside ?_
  have reached := reached_of_mem_sweep below
  clear below
  induction reached with
  | refl => exact member
  | @tail parent child _ follows ih =>
    refine ih ?_
    have related := ((now.children parent child).mp follows).mono removed.within
    obtain ⟨recorded, present⟩ := (indexed.parents parent child).mpr related
    exact closed child member parent recorded
      (Finmap.mem_keys.mpr (Finmap.lookup_isSome.mp present))

theorem removeAll_shielded (outside : ∀ id ∈ ids, id ∉ shielded) (member : id ∈ shielded) :
    (pool.removeAll ids).entries.lookup id = pool.entries.lookup id := by
  induction ids generalizing pool with
  | nil => rfl
  | cons root rest ih =>
    have later := ih (removed.trans (removed_remove pool root)) fun other listed =>
      outside other (.tail _ listed)
    exact later.trans (remove_shielded indexed closed removed
      (outside root (.head _)) member)

end

theorem Enters.shrink {entries smaller : FiniteMap Hash256 MempoolEntry}
    (enters : Enters entries admission) (within : Within smaller entries)
    (kept : ∀ parent ∈ admission.parents, smaller.lookup parent = entries.lookup parent) :
    Enters smaller admission := by
  refine
    { fresh := ?_, entry := enters.entry, unspent := ?_, parents := ?_
      registered := enters.registered, unnamed := ?_ }
  · by_contra present
    obtain ⟨entry, found⟩ := Option.ne_none_iff_exists'.mp present
    have before := within _ entry found
    rw [enters.fresh] at before
    cases before
  · intro outpoint member id spends
    exact enters.unspent outpoint member id (spends.mono within)
  · intro parent
    constructor
    · intro member
      obtain ⟨outpoint, spent, rfl, created⟩ := (enters.parents parent).mp member
      refine ⟨outpoint, spent, rfl, ?_⟩
      rwa [outputAt, kept _ member]
    · rintro ⟨outpoint, spent, rfl, created⟩
      obtain ⟨output, created⟩ := Option.isSome_iff_exists.mp created
      exact (enters.parents _).mpr ⟨outpoint, spent, rfl,
        Option.isSome_iff_exists.mpr ⟨output, outputAt_mono within created⟩⟩
  · rintro registered carried id other ⟨entry, found, carries⟩
    exact enters.unnamed registered carried id other ⟨entry, within id entry found, carries⟩

/-- Making room for a newcomer leaves what its entry asks. -/
theorem Examined.enters_after (examined : Examined pool tx utxo network height admission)
    (indexed : Indexed pool) (outside : ∀ id ∈ ids, id ∉ admission.shielded) :
    Enters (pool.removeAll ids).entries admission := by
  have enters := examined.enters indexed
  obtain ⟨closed, roots⟩ := mark_closed pool.entries.keys pool.parentsOf admission.parents
  refine enters.shrink (removed_removeAll pool ids).within fun parent member => ?_
  rw [examined.shielded] at outside
  refine removeAll_shielded indexed closed .refl outside (roots parent member ?_)
  obtain ⟨outpoint, _, rfl, created⟩ := (enters.parents parent).mp member
  obtain ⟨output, created⟩ := Option.isSome_iff_exists.mp created
  obtain ⟨entry, found, _⟩ := Option.bind_eq_some_iff.mp created
  exact Finmap.mem_keys.mpr (Finmap.lookup_isSome.mp (by rw [found]; rfl))

/-- The pool holds together: tables, recorded parents, bound, and what was promised of each entry.
-/
structure Consistent (offered : Set Transaction) (promise : MempoolEntry → Prop) (pool : Mempool) :
    Prop where
  indexed : Indexed pool
  traced : Traced offered pool
  bounded : pool.bytes ≤ pool.capacity
  kept : ∀ id entry, pool.entries.lookup id = some entry → promise entry

/-- The promise holds of whatever passes the checks against the set, at the height. -/
def Grants (offered : Set Transaction) (promise : MempoolEntry → Prop) (utxo : UtxoSet)
    (network : Network) (height : Nat) : Prop :=
  ∀ pool tx admission, Consistent offered promise pool → tx ∈ offered →
    Examined pool tx utxo network height admission → promise admission.entry

/-- The promise does not depend on the protection of returned entries. -/
def Lasting (promise : MempoolEntry → Prop) : Prop :=
  ∀ entry, promise entry → promise { entry with returned := false }

variable {promise : MempoolEntry → Prop}

theorem Removed.consistent (removed : Removed before after)
    (holds : Consistent offered promise before) : Consistent offered promise after where
  indexed := removed.indexed holds.indexed
  traced := removed.traced holds.traced holds.indexed
  bounded := by
    have fewer := removed.bytes_le holds.indexed
    have bounded := holds.bounded
    unfold capacity at bounded ⊢
    rw [removed.maxBytes]
    omega
  kept := fun id entry found => holds.kept id entry (removed.within id entry found)

section
variable (holds : Consistent offered promise pool) (apart : OfferedApart offered)
include holds apart

theorem Consistent.enter (enters : Enters pool.entries admission)
    (known : admission.entry.tx ∈ offered) (fits : admission.entry.tx.Fits)
    (room : pool.bytes + admission.entry.size ≤ pool.capacity) (promised : promise admission.entry)
    (height : Nat) :
    Consistent offered promise (pool.enter admission height) where
  indexed := holds.indexed.enter enters holds.traced apart known fits height
  traced := holds.traced.enter holds.indexed enters known fits height
  bounded := room
  kept := by
    intro id entry found
    change Finmap.lookup id (pool.entries.insert _ _) = some entry at found
    rw [lookup_insert_eq] at found
    split at found
    · cases found
      exact promised
    · exact holds.kept id entry found

section
variable (grants : Grants offered promise utxo network height) (known : tx ∈ offered)
include grants known

theorem Consistent.acceptWith (order : MapOrder) (isLocal returned : Bool) :
    Consistent offered promise
      (pool.acceptWith order tx utxo network height isLocal returned).2 := by
  unfold Mempool.acceptWith
  cases examined : pool.examine order tx utxo network height isLocal returned with
  | error problem => exact holds
  | ok admission =>
    have passed := examine_ok examined
    have known' : admission.entry.tx ∈ offered := by rwa [passed.carries]
    have fits' : admission.entry.tx.Fits := by
      rw [passed.carries]
      exact passed.fits
    have promised := grants pool tx admission holds known passed
    dsimp only
    split
    · rename_i room
      exact holds.enter apart (passed.enters holds.indexed) known' fits' room promised height
    · unfold makeRoom
      cases found : pool.roomFor order admission.entry.feeRate admission.entry.size
          admission.shielded returned with
      | none => exact holds
      | some ids =>
        have smaller := (removed_removeAll pool ids).consistent holds
        dsimp only
        split
        · rename_i roomy
          exact smaller.enter apart (passed.enters_after holds.indexed (roomFor_outside found))
            known' fits' (of_decide_eq_true roomy) promised height
        · exact smaller

theorem Consistent.returnOne (order : MapOrder) (count : Nat) :
    Consistent offered promise
      (Mempool.returnOne order utxo network height (count, pool) tx).2 := by
  have forgotten := (Removed.refl.remember (pool.localConfirmed.erase tx.txid)).consistent holds
  have accepted := forgotten.acceptWith apart grants known order
    (decide (tx.txid ∈ pool.localConfirmed)) true
  unfold Mempool.returnOne
  dsimp only
  split
  · rename_i result
    rwa [result] at accepted
  · rename_i result
    rwa [result] at accepted

end

end

/-- What every transaction of a list keeps, the list keeps. -/
theorem Consistent.returnList (apart : OfferedApart offered)
    (grants : Grants offered promise utxo network height) (order : MapOrder)
    {transactions : List Transaction} (known : ∀ tx ∈ transactions, tx ∈ offered)
    {state : Nat × Mempool} (holds : Consistent offered promise state.2) :
    Consistent offered promise
      (transactions.foldl (Mempool.returnOne order utxo network height) state).2 := by
  induction transactions generalizing state with
  | nil => exact holds
  | cons tx rest ih =>
    exact ih (fun other member => known other (.tail _ member))
      (holds.returnOne apart grants (known tx (.head _)) order state.1)

section
variable (holds : Consistent offered promise pool)
include holds

theorem Consistent.returnAbandoned (apart : OfferedApart offered)
    (grants : Grants offered promise utxo network height) {blocks : List Block}
    (known : ∀ block ∈ blocks, ∀ tx ∈ block.transactions, tx ∈ offered) (order : MapOrder) :
    Consistent offered promise (pool.returnAbandoned order blocks utxo network height).2 := by
  have general : ∀ state : Nat × Mempool, Consistent offered promise state.2 →
      Consistent offered promise (blocks.foldl (fun state block =>
        (block.transactions.drop 1).foldl (Mempool.returnOne order utxo network height) state)
          state).2 := by
    induction blocks with
    | nil => exact fun state holds => holds
    | cons block rest ih =>
      intro state holds
      refine ih (fun other member => known other (.tail _ member)) _ ?_
      exact Consistent.returnList apart grants order (fun tx member =>
        known block (.head _) tx (mem_of_mem_drop member)) holds
  exact general (0, pool) holds

/-! ## The end of a protection -/

omit holds in
/-- A returned entry that becomes ordinary changes no table but that of the leaves. -/
theorem Indexed.unprotect (indexed : Indexed pool) {entry : MempoolEntry}
    (found : pool.entries.lookup id = some entry) (wasReturned : entry.returned = true) :
    Indexed
      { pool with
        entries := pool.entries.insert id { entry with returned := false }
        evictable :=
          if !entry.isLocal && (pool.childrenOf id).isEmpty then
            insert (evictionKey id { entry with returned := false }) pool.evictable
          else pool.evictable } := by
  have entries : ∀ query, (pool.entries.insert id { entry with returned := false }).lookup query =
      if query = id then some { entry with returned := false } else pool.entries.lookup query :=
    fun query => lookup_insert_eq _ _ _ _
  have same : SameTransactions (pool.entries.insert id { entry with returned := false })
      pool.entries := by
    intro query
    rw [entries]
    split
    · rename_i here
      rw [here, found]
      rfl
    · rfl
  have weighed : ∀ weight : MempoolEntry → Nat,
      weight { entry with returned := false } = weight entry →
      total weight (pool.entries.insert id { entry with returned := false }) =
        total weight pool.entries := by
    intro weight unchanged
    have moved := total_insert_of_lookup weight found { entry with returned := false }
    omega
  refine
    { entry := ?_
      committed := fun outpoint spender =>
        (indexed.committed outpoint spender).trans same.spends.symm
      created := fun outpoint => (indexed.created outpoint).trans same.outputAt.symm
      plain := indexed.plain
      children := fun parent child => (indexed.children parent child).trans same.parentOf.symm
      parents := ?_
      evictable := ?_
      bytes := indexed.bytes.trans (weighed _ rfl).symm
      pendingNames := ?_
      pendingOwned := ?_ }
  · intro query held lookup
    rw [entries] at lookup
    split at lookup
    · rename_i here
      cases lookup
      have original := indexed.entry id entry found
      rw [here]
      exact ⟨original.identified, original.measured, original.named, original.few⟩
    · exact indexed.entry query held lookup
  · intro parent child
    refine Iff.trans ?_ ((indexed.parents parent child).trans same.parentOf.symm)
    have present := congrArg Option.isSome (same parent)
    rw [Option.isSome_map, Option.isSome_map] at present
    rw [present]
    exact Iff.rfl
  · intro key
    have leaves := indexed.evictable key
    have childless : (pool.childrenOf id).isEmpty = true ↔
        ∀ child, ¬ ParentOf pool.entries id child := by
      rw [List.isEmpty_iff, eq_nil_iff_forall_not_mem]
      exact forall_congr' fun child => not_congr (indexed.children id child)
    unfold LeafKey at leaves ⊢
    simp only [same.parentOf, entries]
    constructor
    · intro member
      split at member
      · rename_i free
        rw [Bool.and_eq_true, Bool.not_eq_true', childless] at free
        rcases Finset.mem_insert.mp member with rfl | before
        · exact ⟨id, _, if_pos rfl, by simp [MempoolEntry.ordinary, free.1], free.2, rfl⟩
        · obtain ⟨leaf, holder, held, ordinary, alone, rfl⟩ := leaves.mp before
          refine ⟨leaf, holder, ?_, ordinary, alone, rfl⟩
          rw [if_neg]
          · exact held
          · rintro rfl
            rw [found] at held
            cases held
            simp [MempoolEntry.ordinary, wasReturned] at ordinary
      · obtain ⟨leaf, holder, held, ordinary, alone, rfl⟩ := leaves.mp member
        refine ⟨leaf, holder, ?_, ordinary, alone, rfl⟩
        rw [if_neg]
        · exact held
        · rintro rfl
          rw [found] at held
          cases held
          simp [MempoolEntry.ordinary, wasReturned] at ordinary
    · rintro ⟨leaf, holder, held, ordinary, alone, rfl⟩
      split at held
      · rename_i here
        cases held
        subst here
        have free : (!entry.isLocal && (pool.childrenOf leaf).isEmpty) = true := by
          rw [Bool.and_eq_true, childless]
          refine ⟨?_, alone⟩
          simpa [MempoolEntry.ordinary] using ordinary
        rw [if_pos free]
        exact Finset.mem_insert_self _ _
      · have before := leaves.mpr ⟨leaf, holder, held, ordinary, alone, rfl⟩
        split
        · exact Finset.mem_insert_of_mem before
        · exact before
  · intro text name holder
    refine (indexed.pendingNames text name holder).trans ?_
    simp only [same.registers]
  · intro owner
    rw [pendingFor, weighed _ rfl]
    exact indexed.pendingOwned owner

theorem Consistent.endProtection (lasting : Lasting promise) (since : Nat) (id : Hash256) :
    Consistent offered promise (pool.endProtection since id) := by
  obtain ⟨indexed, traced, bounded, kept⟩ := holds
  unfold Mempool.endProtection
  split
  · dsimp only
    -- The record of the return is in no table.
    have forgotten : Indexed { pool with returnedAt := pool.returnedAt.erase id } :=
      ⟨indexed.entry, indexed.committed, indexed.created, indexed.plain, indexed.children,
        indexed.parents, indexed.evictable, indexed.bytes, indexed.pendingNames,
        indexed.pendingOwned⟩
    split
    · exact ⟨forgotten, ⟨traced.entry, traced.parent⟩, bounded, kept⟩
    · rename_i entry found
      split
      · rename_i wasReturned
        refine ⟨forgotten.unprotect found wasReturned, ⟨?_, ?_⟩, bounded, ?_⟩
        · intro query held lookup
          rw [lookup_insert_eq] at lookup
          split at lookup
          · cases lookup
            exact traced.entry id entry found
          · exact traced.entry query held lookup
        · intro parent child member
          obtain ⟨different, tx, known, fits, same, outpoint, spends, rest⟩ :=
            traced.parent parent child member
          refine ⟨different, tx, known, fits, same, outpoint, ?_, rest⟩
          obtain ⟨holder, held, spent⟩ := spends
          by_cases here : child = id
          · subst here
            rw [found] at held
            cases held
            exact ⟨_, (lookup_insert_eq _ _ _ _).trans (if_pos rfl), spent⟩
          · exact ⟨holder, (lookup_insert_eq _ _ _ _).trans ((if_neg here).trans held), spent⟩
        · intro query held lookup
          rw [lookup_insert_eq] at lookup
          split at lookup
          · cases lookup
            exact lasting entry (kept id entry found)
          · exact kept query held lookup
      · exact ⟨forgotten, ⟨traced.entry, traced.parent⟩, bounded, kept⟩
  · exact ⟨indexed, traced, bounded, kept⟩

/-- The pool apart from the dates of its returns. -/
theorem Consistent.redate (blocksSeen : Nat) (returnedSince : List (Nat × Hash256)) :
    Consistent offered promise { pool with blocksSeen, returnedSince } where
  indexed := ⟨holds.indexed.entry, holds.indexed.committed, holds.indexed.created,
    holds.indexed.plain, holds.indexed.children, holds.indexed.parents, holds.indexed.evictable,
    holds.indexed.bytes, holds.indexed.pendingNames, holds.indexed.pendingOwned⟩
  traced := ⟨holds.traced.entry, holds.traced.parent⟩
  bounded := holds.bounded
  kept := holds.kept

theorem Consistent.endExpiredProtection (lasting : Lasting promise) (records : List (Nat × Hash256)) :
    Consistent offered promise (pool.endExpiredProtection records) := by
  induction records generalizing pool with
  | nil => exact holds.redate pool.blocksSeen []
  | cons record rest ih =>
    unfold Mempool.endExpiredProtection
    split
    · exact holds.redate pool.blocksSeen _
    · exact ih (holds.endProtection lasting record.1 record.2)

theorem Consistent.onBlockConnected (lasting : Lasting promise) (block : Block) :
    Consistent offered promise (pool.onBlockConnected block) := by
  have emptied := (Removed.foldl (fun pool (tx : Transaction) =>
    (removed_confirmOne pool tx.txid).trans
      (Removed.foldl removed_dropConflict tx.inputs _)) block.transactions pool).consistent holds
  exact (emptied.redate _ _).endExpiredProtection lasting _

end

end Calls

/-! ## Runs -/

/-- A call of the pool, with what it is given. -/
inductive PoolCall where
  | accept (order : MapOrder) (tx : Transaction) (utxo : UtxoSet) (network : Network) (height : Nat)
  | acceptLocal (order : MapOrder) (tx : Transaction) (utxo : UtxoSet) (network : Network)
      (height : Nat)
  | returnAbandoned (order : MapOrder) (blocks : List Block) (utxo : UtxoSet) (network : Network)
      (height : Nat)
  | remove (id : Hash256)
  | onBlockConnected (block : Block)
  | revalidate (order : MapOrder) (utxo : UtxoSet) (network : Network) (height : Nat)

/-- The transactions a call offers to the pool. -/
def PoolCall.offers : PoolCall → List Transaction
  | .accept _ tx _ _ _ => [tx]
  | .acceptLocal _ tx _ _ _ => [tx]
  | .returnAbandoned _ blocks _ _ _ => blocks.flatMap Block.transactions
  | _ => []

section Runs
variable [Crypto]

def perform (pool : Mempool) : PoolCall → Mempool
  | .accept order tx utxo network height => (pool.accept order tx utxo network height).2
  | .acceptLocal order tx utxo network height => (pool.acceptLocal order tx utxo network height).2
  | .returnAbandoned order blocks utxo network height =>
    (pool.returnAbandoned order blocks utxo network height).2
  | .remove id => pool.remove id
  | .onBlockConnected block => pool.onBlockConnected block
  | .revalidate order utxo network height => pool.revalidate order utxo network height

def performAll (pool : Mempool) (calls : List PoolCall) : Mempool := calls.foldl perform pool

/-- The transactions offered along a run. -/
def offeredBy (calls : List PoolCall) : Set Transaction :=
  {tx | ∃ call ∈ calls, tx ∈ call.offers}

/-- The promise holds of whatever the call admits. -/
def PoolCall.Grants (offered : Set Transaction) (promise : MempoolEntry → Prop) : PoolCall → Prop
  | .accept _ _ utxo network height => Mempool.Grants offered promise utxo network height
  | .acceptLocal _ _ utxo network height => Mempool.Grants offered promise utxo network height
  | .returnAbandoned _ _ utxo network height => Mempool.Grants offered promise utxo network height
  | _ => True

variable {pool : Mempool} {offered : Set Transaction} {promise : MempoolEntry → Prop}

section
variable (holds : Consistent offered promise pool) (apart : OfferedApart offered)
  (lasting : Lasting promise)
include holds apart lasting

theorem Consistent.perform {call : PoolCall} (grants : call.Grants offered promise)
    (known : ∀ tx ∈ call.offers, tx ∈ offered) :
    Consistent offered promise (pool.perform call) := by
  cases call with
  | accept order tx utxo network height =>
    exact holds.acceptWith apart grants (known tx (mem_singleton_self tx)) order false false
  | acceptLocal order tx utxo network height =>
    exact holds.acceptWith apart grants (known tx (mem_singleton_self tx)) order true false
  | returnAbandoned order blocks utxo network height =>
    exact holds.returnAbandoned apart grants (fun block member tx listed =>
      known tx (mem_flatMap.mpr ⟨block, member, listed⟩)) order
  | remove id => exact (removed_remove pool id).consistent holds
  | onBlockConnected block => exact holds.onBlockConnected lasting block
  | revalidate order utxo network height =>
    exact (removed_revalidate pool order utxo network height).consistent holds

theorem Consistent.performAll {calls : List PoolCall}
    (grants : ∀ call ∈ calls, call.Grants offered promise)
    (known : ∀ call ∈ calls, ∀ tx ∈ call.offers, tx ∈ offered) :
    Consistent offered promise (pool.performAll calls) := by
  induction calls generalizing pool with
  | nil => exact holds
  | cons call rest ih =>
    exact ih (holds.perform apart lasting (grants call (.head _))
        (known call (.head _)))
      (fun other member => grants other (.tail _ member))
      fun other member => known other (.tail _ member)

end

theorem Consistent.fresh (offered : Set Transaction) (promise : MempoolEntry → Prop)
    (maxBytes : Nat) : Consistent offered promise { maxBytes } :=
  ⟨Indexed.empty maxBytes, Traced.empty offered maxBytes, Nat.zero_le _,
    fun _ _ found => (Option.some_ne_none _ found.symm).elim⟩

/-- A fresh pool holds together after any calls, when nothing is promised of its entries. -/
theorem performAll_consistent (maxBytes : Nat) (calls : List PoolCall)
    (apart : OfferedApart (offeredBy calls)) :
    Consistent (offeredBy calls) (fun _ => True) (performAll { maxBytes } calls) := by
  have unconditional : ∀ call : PoolCall, call.Grants (offeredBy calls) fun _ => True := by
    intro call
    cases call <;> first | trivial | exact fun _ _ _ _ _ _ => trivial
  exact (Consistent.fresh (offeredBy calls) (fun _ => True) maxBytes).performAll apart
    (fun _ _ => trivial) (fun call _ => unconditional call)
    fun call member tx listed => ⟨call, member, listed⟩

/-- Every recorded parent is in the pool. -/
def Tied (pool : Mempool) : Prop :=
  ∀ parent child, parent ∈ pool.parentsOf child → (pool.entries.lookup parent).isSome = true

/-- No transaction offered spends an output of the one with this id. -/
def Childless (offered : Set Transaction) (id : Hash256) : Prop :=
  ∀ tx ∈ offered, ∀ input ∈ tx.inputs, input.prevOut.txid ≠ id

/-- The pool holds together and records no parent that has left. -/
structure Settled (offered : Set Transaction) (pool : Mempool) : Prop where
  holds : Consistent offered (fun _ => True) pool
  tied : Tied pool

section
variable (settled : Settled offered pool)
include settled

/-- Where a recorded parent is gone from what removals leave, its child left by itself. -/
theorem Settled.removed {after : Mempool} (removed : Removed pool after)
    (records : ∀ parent child, parent ∈ after.parentsOf child → parent ∈ pool.parentsOf child)
    (together : ∀ parent child, ParentOf pool.entries parent child →
      after.entries.lookup parent = none → after.entries.lookup child = none) :
    Settled offered after := by
  have holds := removed.consistent settled.holds
  refine ⟨holds, fun parent child recorded => ?_⟩
  have before := records parent child recorded
  have related := (settled.holds.indexed.parents parent child).mp
    ⟨before, settled.tied parent child before⟩
  obtain ⟨_, _, _, _, _, _, ⟨entry, found, _⟩, _⟩ := holds.traced.parent parent child recorded
  by_contra gone
  rw [Bool.not_eq_true, Option.isSome_eq_false_iff, Option.isNone_iff_eq_none] at gone
  rw [together parent child related gone] at found
  cases found

omit settled in
theorem mem_parentsOf_removed {after : Mempool} (removed : Removed pool after)
    (indexed : Indexed pool) {parent child : Hash256} (recorded : parent ∈ after.parentsOf child) :
    parent ∈ pool.parentsOf child := by
  induction removed with
  | refl => exact recorded
  | @one middle removed id ih =>
    cases found : middle.entries.lookup id with
    | none =>
      rw [removeOne_of_none found] at recorded
      exact ih recorded
    | some entry =>
      rw [removeOne_eq found ((removed.indexed indexed).entry id entry found), parentsOf,
        lookup_erase_eq] at recorded
      split at recorded
      · cases recorded
      · exact ih recorded
  | remember _ own ih => exact ih recorded

theorem Settled.remove (id : Hash256) : Settled offered (pool.remove id) := by
  have indexed := settled.holds.indexed
  refine settled.removed (removed_remove pool id)
    (fun _ _ => mem_parentsOf_removed (removed_remove pool id) indexed) ?_
  intro parent child related gone
  rw [lookup_remove] at gone ⊢
  have present := related.parent_mem
  split at gone
  · rename_i below
    refine if_pos (sweep_closed ?_ id parent below child ((indexed.children parent child).mpr related))
    intro item outside
    rw [childrenOf, Finmap.lookup_eq_none.mpr (mt Finmap.mem_keys.mpr outside)]
    rfl
  · rw [gone] at present
    cases present

theorem Settled.removeAll (ids : List Hash256) : Settled offered (pool.removeAll ids) := by
  induction ids generalizing pool with
  | nil => exact settled
  | cons id rest ih => exact ih (settled.remove id)

theorem Settled.confirmOne {id : Hash256}
    (childless : (pool.entries.lookup id).isSome = true → Childless offered id) :
    Settled offered (pool.confirmOne id) := by
  have removed := removed_confirmOne pool id
  refine settled.removed removed
    (fun _ _ => mem_parentsOf_removed removed settled.holds.indexed) ?_
  intro parent child related gone
  have entries : (pool.confirmOne id).entries = pool.entries.erase id := by
    unfold Mempool.confirmOne
    dsimp only
    split <;> exact removeOne_entries pool id
  have present := related.parent_mem
  rw [entries, lookup_erase_eq] at gone
  split at gone
  · rename_i same
    subst same
    obtain ⟨_, outpoint, ⟨entry, found, spends⟩, own, _⟩ := related
    obtain ⟨input, listed, rfl⟩ := mem_map.mp spends
    exact absurd own (childless present entry.tx (settled.holds.traced.entry _ entry found).1
      input listed)
  · rw [gone] at present
    cases present

theorem Settled.dropConflict (input : TxIn) : Settled offered (pool.dropConflict input) := by
  unfold Mempool.dropConflict
  split
  · exact settled
  · exact settled.remove _

theorem Settled.enter {admission : Admission} {height : Nat}
    (entered : Consistent offered (fun _ => True) (pool.enter admission height))
    (enters : Enters pool.entries admission) : Settled offered (pool.enter admission height) := by
  refine ⟨entered, fun parent child recorded => ?_⟩
  have kept : (pool.entries.lookup parent).isSome = true →
      ((pool.enter admission height).entries.lookup parent).isSome = true := by
    intro present
    change (Finmap.lookup parent (pool.entries.insert _ _)).isSome = true
    rw [lookup_insert_eq]
    split
    · rfl
    · exact present
  rcases (mem_parentsOf_enter pool admission height parent child).mp recorded with
    ⟨_, rfl⟩ | earlier
  · change (Finmap.lookup _ (pool.entries.insert _ _)).isSome = true
    rw [lookup_insert_eq, if_pos rfl]
    rfl
  · split at earlier
    · obtain ⟨outpoint, _, rfl, made⟩ := (enters.parents parent).mp earlier
      obtain ⟨output, created⟩ := Option.isSome_iff_exists.mp made
      obtain ⟨entry, found, _⟩ := Option.bind_eq_some_iff.mp created
      exact kept (by rw [found]; rfl)
    · exact kept (settled.tied parent child earlier)

section
variable (apart : OfferedApart offered) {tx : Transaction} (known : tx ∈ offered) {utxo : UtxoSet}
  {network : Network} {height : Nat}
include apart known

theorem Settled.acceptWith (order : MapOrder) (isLocal returned : Bool) :
    Settled offered (pool.acceptWith order tx utxo network height isLocal returned).2 := by
  have accepted : Consistent offered (fun _ => True)
      (pool.acceptWith order tx utxo network height isLocal returned).2 :=
    settled.holds.acceptWith apart (fun _ _ _ _ _ _ => trivial) known order isLocal returned
  unfold Mempool.acceptWith at accepted ⊢
  cases examined : pool.examine order tx utxo network height isLocal returned with
  | error problem => exact settled
  | ok admission =>
    have passed := examine_ok examined
    rw [examined] at accepted
    dsimp only at accepted ⊢
    split
    · rename_i room
      rw [if_pos room] at accepted
      exact settled.enter accepted (passed.enters settled.holds.indexed)
    · rename_i full
      rw [if_neg full] at accepted
      unfold makeRoom at accepted ⊢
      cases found : pool.roomFor order admission.entry.feeRate admission.entry.size
          admission.shielded returned with
      | none => exact settled
      | some ids =>
        rw [found] at accepted
        dsimp only at accepted ⊢
        split
        · rename_i roomy
          rw [if_pos roomy] at accepted
          exact (settled.removeAll ids).enter accepted
            (passed.enters_after settled.holds.indexed (roomFor_outside found))
        · exact settled.removeAll ids

theorem Settled.returnOne (order : MapOrder) (count : Nat) :
    Settled offered (Mempool.returnOne order utxo network height (count, pool) tx).2 := by
  have forgotten : Settled offered
      { pool with localConfirmed := pool.localConfirmed.erase tx.txid } :=
    ⟨(Removed.refl.remember _).consistent settled.holds, settled.tied⟩
  have accepted : Settled offered (Mempool.acceptWith
      { pool with localConfirmed := pool.localConfirmed.erase tx.txid } order tx utxo network height
        (decide (tx.txid ∈ pool.localConfirmed)) true).2 :=
    forgotten.acceptWith apart known order _ true
  unfold Mempool.returnOne
  dsimp only
  split
  · rename_i outcome
    rwa [outcome] at accepted
  · rename_i outcome
    rwa [outcome] at accepted

end

theorem Settled.returnAbandoned (apart : OfferedApart offered) {blocks : List Block}
    (known : ∀ block ∈ blocks, ∀ tx ∈ block.transactions, tx ∈ offered) (order : MapOrder)
    (utxo : UtxoSet) (network : Network) (height : Nat) :
    Settled offered (pool.returnAbandoned order blocks utxo network height).2 := by
  have listed : ∀ (transactions : List Transaction) (state : Nat × Mempool),
      (∀ tx ∈ transactions, tx ∈ offered) → Settled offered state.2 → Settled offered
        (transactions.foldl (Mempool.returnOne order utxo network height) state).2 := by
    intro transactions
    induction transactions with
    | nil => exact fun state _ settled => settled
    | cons tx rest ih =>
      intro state known settled
      exact ih _ (fun other member => known other (.tail _ member))
        (settled.returnOne apart (known tx (.head _)) order state.1)
  have general : ∀ state : Nat × Mempool, Settled offered state.2 → Settled offered
      (blocks.foldl (fun state block =>
        (block.transactions.drop 1).foldl (Mempool.returnOne order utxo network height) state)
          state).2 := by
    induction blocks with
    | nil => exact fun state settled => settled
    | cons block rest ih =>
      intro state settled
      exact ih (fun other member => known other (.tail _ member)) _ (listed _ state
        (fun tx member => known block (.head _) tx (mem_of_mem_drop member)) settled)
  exact general (0, pool) settled

omit [Crypto] settled in
theorem Tied.endProtection (tied : Tied pool) (since : Nat) (id : Hash256) :
    Tied (pool.endProtection since id) := by
  unfold Mempool.endProtection
  split
  · dsimp only
    split
    · exact tied
    · split
      · intro parent child recorded
        change (Finmap.lookup parent (pool.entries.insert _ _)).isSome = true
        rw [lookup_insert_eq]
        split
        · rfl
        · exact tied parent child recorded
      · exact tied
  · exact tied

omit [Crypto] settled in
theorem Tied.endExpiredProtection (tied : Tied pool) (records : List (Nat × Hash256)) :
    Tied (pool.endExpiredProtection records) := by
  induction records generalizing pool with
  | nil => exact tied
  | cons record rest ih =>
    unfold Mempool.endExpiredProtection
    split
    · exact tied
    · exact ih (tied.endProtection record.1 record.2)

theorem Settled.onBlockConnected {block : Block}
    (childless : ∀ tx ∈ offered, tx.txid ∈ block.transactions.map Transaction.txid →
      Childless offered tx.txid) : Settled offered (pool.onBlockConnected block) := by
  have known : ∀ pool : Mempool, Settled offered pool → ∀ id, (pool.entries.lookup id).isSome = true →
      ∃ tx ∈ offered, tx.txid = id := by
    intro pool settled id present
    obtain ⟨entry, found⟩ := Option.isSome_iff_exists.mp present
    exact ⟨entry.tx, (settled.holds.traced.entry id entry found).1,
      (settled.holds.indexed.entry id entry found).identified⟩
  have conflicts : ∀ (inputs : List TxIn) (pool : Mempool), Settled offered pool →
      Settled offered (inputs.foldl Mempool.dropConflict pool) := by
    intro inputs
    induction inputs with
    | nil => exact fun pool settled => settled
    | cons input rest ih => exact fun pool settled => ih _ (settled.dropConflict input)
  have emptied : ∀ (transactions : List Transaction) (pool : Mempool),
      (∀ tx ∈ transactions, tx ∈ block.transactions) → Settled offered pool →
      Settled offered (transactions.foldl (fun pool tx =>
        tx.inputs.foldl Mempool.dropConflict (pool.confirmOne tx.txid)) pool) := by
    intro transactions
    induction transactions with
    | nil => exact fun pool _ settled => settled
    | cons tx rest ih =>
      intro pool inside settled
      refine ih _ (fun other member => inside other (.tail _ member))
        (conflicts _ _ (settled.confirmOne fun present => ?_))
      obtain ⟨own, ownIn, same⟩ := known pool settled _ present
      rw [← same]
      exact childless own ownIn (same ▸ mem_map_of_mem (inside tx (.head _)))
  have unspent := emptied block.transactions pool (fun _ member => member) settled
  refine ⟨settled.holds.onBlockConnected (fun _ _ => trivial) block, ?_⟩
  unfold Mempool.onBlockConnected
  generalize block.transactions.foldl _ pool = emptied at unspent ⊢
  have tied : Tied { emptied with blocksSeen := emptied.blocksSeen + 1 } := unspent.tied
  exact tied.endExpiredProtection _

theorem Settled.revalidate {utxo : UtxoSet}
    (childless : ∀ tx ∈ offered, (∃ index, (utxo.lookup ⟨tx.txid, index⟩).isSome = true) →
      Childless offered tx.txid) (order : MapOrder) (network : Network) (height : Nat) :
    Settled offered (pool.revalidate order utxo network height) := by
  have confirmed : ∀ (ids : List Hash256) (pool : Mempool), Settled offered pool →
      (∀ id ∈ ids, ∃ index, (utxo.lookup ⟨id, index⟩).isSome = true) →
      Settled offered (ids.foldl Mempool.confirmOne pool) := by
    intro ids
    induction ids with
    | nil => exact fun pool settled _ => settled
    | cons id rest ih =>
      intro pool settled inside
      refine ih _ (settled.confirmOne fun present => ?_) fun other member =>
        inside other (.tail _ member)
      obtain ⟨entry, found⟩ := Option.isSome_iff_exists.mp present
      have same := (settled.holds.indexed.entry id entry found).identified
      rw [← same]
      exact childless entry.tx (settled.holds.traced.entry id entry found).1
        (same ▸ inside id (.head _))
  have orphans : ∀ (fuel : Nat) (pool : Mempool), Settled offered pool →
      Settled offered (dropOrphans order utxo height fuel pool) := by
    intro fuel
    induction fuel with
    | zero => exact fun pool settled => settled
    | succ fuel ih =>
      intro pool settled
      unfold dropOrphans
      split
      · exact settled
      · exact ih _ (settled.removeAll _)
  have dormant : ∀ (active : Prop) [Decidable active] (condition : MempoolEntry → Bool)
      (pool : Mempool), Settled offered pool →
      Settled offered (if active then pool else pool.removeWhere order condition) := by
    intro active _ condition pool settled
    split
    · exact settled
    · exact settled.removeAll _
  refine orphans _ _ ((dormant _ _ _ (dormant _ _ _ (confirmed _ _ settled ?_))).removeAll _)
  intro id listed
  obtain ⟨⟨_, entry⟩, kept, rfl⟩ := mem_map.mp listed
  obtain ⟨index, _, there⟩ := any_eq_true.mp (mem_filter.mp kept).2
  exact ⟨_, there⟩

end

/-- The call confirms the transaction with this id: a block holds it, or a set one of its outputs. -/
def PoolCall.Confirms : PoolCall → Hash256 → Prop
  | .onBlockConnected block, id => id ∈ block.transactions.map Transaction.txid
  | .revalidate _ utxo _ _, id => ∃ index, (utxo.lookup ⟨id, index⟩).isSome = true
  | _, _ => False

theorem Settled.performAll {calls : List PoolCall} (apart : OfferedApart offered)
    (known : ∀ call ∈ calls, ∀ tx ∈ call.offers, tx ∈ offered)
    (childless : ∀ call ∈ calls, ∀ tx ∈ offered, call.Confirms tx.txid → Childless offered tx.txid)
    (settled : Settled offered pool) : Settled offered (pool.performAll calls) := by
  induction calls generalizing pool with
  | nil => exact settled
  | cons call rest ih =>
    refine ih (fun other member => known other (.tail _ member))
      (fun other member => childless other (.tail _ member)) ?_
    have offers := known call (.head _)
    have confirms := childless call (.head _)
    cases call with
    | accept order tx utxo network height =>
      exact settled.acceptWith apart (offers tx (mem_singleton_self tx)) order false false
    | acceptLocal order tx utxo network height =>
      exact settled.acceptWith apart (offers tx (mem_singleton_self tx)) order true false
    | returnAbandoned order blocks utxo network height =>
      exact settled.returnAbandoned apart (fun block member tx listed =>
        offers tx (mem_flatMap.mpr ⟨block, member, listed⟩)) order utxo network height
    | remove id => exact settled.remove id
    | onBlockConnected block => exact settled.onBlockConnected confirms
    | revalidate order utxo network height => exact settled.revalidate confirms order network height

def sortedOrder : MapOrder := ⟨Iteration.sorted _ _, Iteration.sorted _ _⟩

/-- A payment and the spend of its output. -/
def chainedCalls : List PoolCall :=
  [.accept sortedOrder firstPayment paymentSet .regtest 0,
    .accept sortedOrder secondPayment paymentSet .regtest 0]

/-- The two payments, then a block with the first alone. -/
def paymentCalls : List PoolCall :=
  chainedCalls ++ [.onBlockConnected ⟨(firstBlock 0).header, [firstPayment], []⟩]

end Runs

theorem paymentCalls_apart :
    letI : Crypto := checksumCrypto
    OfferedApart (offeredBy paymentCalls) := by
  let _ := checksumCrypto
  have different : firstPayment.txid ≠ secondPayment.txid := by decide +kernel
  have listed : ∀ tx ∈ offeredBy paymentCalls, tx = firstPayment ∨ tx = secondPayment := by
    rintro tx ⟨call, member, offers⟩
    simp only [paymentCalls, chainedCalls, cons_append, nil_append, mem_cons, not_mem_nil,
      or_false] at member
    rcases member with rfl | rfl | rfl
    · exact .inl (mem_singleton.mp offers)
    · exact .inr (mem_singleton.mp offers)
    · cases offers
  rintro _ ⟨one, oneIn, rfl⟩ _ ⟨other, otherIn, rfl⟩ same
  rcases listed one oneIn with rfl | rfl <;> rcases listed other otherIn with rfl | rfl
  · rfl
  · exact (different same).elim
  · exact (different same.symm).elim
  · rfl

theorem chainedCalls_apart :
    letI : Crypto := checksumCrypto
    OfferedApart (offeredBy chainedCalls) := by
  let _ := checksumCrypto
  refine paymentCalls_apart.mono (Set.image_mono ?_)
  rintro tx ⟨call, member, offers⟩
  exact ⟨call, mem_append_left _ member, offers⟩

end Mempool

end Q21Formal.Ledger

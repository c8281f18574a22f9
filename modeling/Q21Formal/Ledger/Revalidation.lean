import Q21Formal.Ledger.PoolIndex

/-!
# What revalidation leaves

After a revalidation no entry is confirmed, none relies on a rule not in force, no name an entry
registers is taken, and every input is there.  An entry falls for a reason of its own, or because
the entry that makes an output it spends falls or has left the pool.
-/

namespace Q21Formal.Ledger
open Library.Maps Library.Reach Primitives List Finmap Prod

namespace Mempool

variable {id : Hash256}

section Removals
variable {pool before after : Mempool} {order : MapOrder}

theorem Removed.lookup_none (removed : Removed before after)
    (absent : before.entries.lookup id = none) : after.entries.lookup id = none := by
  by_contra present
  obtain ⟨entry, found⟩ := Option.ne_none_iff_exists'.mp present
  have earlier := removed.within id entry found
  rw [absent] at earlier
  cases earlier

theorem lookup_remove_self (pool : Mempool) (id : Hash256) :
    (pool.remove id).entries.lookup id = none := by
  rw [lookup_remove]
  exact if_pos (root_mem_sweep _ _ id)

theorem lookup_removeAll_of_mem {ids : List Hash256} (member : id ∈ ids)
    (pool : Mempool) : (pool.removeAll ids).entries.lookup id = none := by
  induction ids generalizing pool with
  | nil => cases member
  | cons first rest ih =>
    rcases mem_cons.mp member with here | later
    · rw [← here]
      exact (removed_removeAll (pool.remove id) rest).lookup_none (lookup_remove_self pool id)
    · exact ih later (pool.remove first)

theorem confirmOne_entries (pool : Mempool) (id : Hash256) :
    (pool.confirmOne id).entries = pool.entries.erase id := by
  unfold confirmOne
  dsimp only
  split
  · exact removeOne_entries pool id
  · exact removeOne_entries pool id

/-- Nothing is left that the condition selects. -/
theorem removeWhere_spec (pool : Mempool) (order : MapOrder) (condition : MempoolEntry → Bool)
    {entry : MempoolEntry}
    (found : (pool.removeWhere order condition).entries.lookup id = some entry) :
    condition entry = false := by
  by_contra selected
  have held := (removed_removeAll pool _).within id entry found
  have listed : id ∈ ((order.entries.list pool.entries).filter fun listed =>
      condition listed.2).map fst := by
    refine mem_map.mpr ⟨(id, entry), mem_filter.mpr ⟨?_, ?_⟩, rfl⟩
    · exact order.entries.mem_list.mpr held
    · simpa using selected
  rw [removeWhere, lookup_removeAll_of_mem listed] at found
  cases found

end Removals

section Names
variable {pool : Mempool} {order : MapOrder} {utxo : UtxoSet}

/-- A registration that is malformed or meets a taken name. -/
def meetsTaken (utxo : UtxoSet) (listed : Hash256 × MempoolEntry) : Bool :=
  listed.2.name && (registrationOf listed.2.tx).all fun registered =>
    (utxo.names.nameBySkeleton (skeleton registered.name)).isSome

/-- The entry registers a free name for the owner. -/
def waitsFor (utxo : UtxoSet) (owner : Hash256) (listed : Hash256 × MempoolEntry) : Bool :=
  listed.2.name && (registrationOf listed.2.tx).any fun registered =>
    decide (registered.owner = owner) &&
      (utxo.names.nameBySkeleton (skeleton registered.name)).isNone

/-- The queue of an owner, as the entries are met. -/
def queueOf (utxo : UtxoSet) (owner : Hash256) (listed : List (Hash256 × MempoolEntry)) :
    List (Nat × Hash256) :=
  (listed.filter (waitsFor utxo owner)).map fun listed => (listed.2.arrival, listed.1)

theorem sortRegistration_eq (utxo : UtxoSet) (sorted : Registrations)
    (listed : Hash256 × MempoolEntry) :
    (sortRegistration utxo sorted listed).clashing =
        sorted.clashing ++ ([listed].filter (meetsTaken utxo)).map fst ∧
      ∀ owner, ((sortRegistration utxo sorted listed).byOwner.lookup owner).getD [] =
        (sorted.byOwner.lookup owner).getD [] ++ queueOf utxo owner [listed] := by
  cases named : listed.2.name with
  | false => simp [sortRegistration, meetsTaken, waitsFor, queueOf, named]
  | true =>
    cases carried : registrationOf listed.2.tx with
    | none =>
      have malformed : ∀ registered, registration listed.2.tx ≠ .ok (some registered) := by
        intro registered same
        rw [← registrationOf_eq_some, carried] at same
        cases same
      have clashes : sortRegistration utxo sorted listed =
          { sorted with clashing := sorted.clashing ++ [listed.1] } := by
        unfold sortRegistration
        rw [if_pos named]
        split
        · rename_i registered same
          exact absurd same (malformed registered)
        · rfl
      simp [clashes, meetsTaken, waitsFor, queueOf, named, carried]
    | some registered =>
      have carries := registrationOf_eq_some.mp carried
      cases taken : utxo.names.nameBySkeleton (skeleton registered.name) with
      | some other =>
        simp [sortRegistration, meetsTaken, waitsFor, queueOf, named, carried, carries, taken]
      | none =>
        refine ⟨?_, fun owner => ?_⟩
        · simp [sortRegistration, meetsTaken, named, carried, carries, taken]
        · by_cases own : registered.owner = owner
          · subst own
            simp [sortRegistration, waitsFor, queueOf, named, carried, carries, taken]
          · simp [sortRegistration, waitsFor, queueOf, named, carried, carries, taken, own,
              Ne.symm own]

theorem sortRegistrations_eq (utxo : UtxoSet) (listed : List (Hash256 × MempoolEntry)) :
    (listed.foldl (sortRegistration utxo) {}).clashing =
        (listed.filter (meetsTaken utxo)).map fst ∧
      ∀ owner, ((listed.foldl (sortRegistration utxo) {}).byOwner.lookup owner).getD [] =
        queueOf utxo owner listed := by
  induction listed using reverseRecOn with
  | nil => exact ⟨rfl, fun _ => rfl⟩
  | append_singleton listed last ih =>
    obtain ⟨clashing, byOwner⟩ :=
      sortRegistration_eq utxo (listed.foldl (sortRegistration utxo) {}) last
    rw [List.foldl_append, foldl_cons, foldl_nil]
    refine ⟨?_, fun owner => ?_⟩
    · rw [clashing, ih.1, filter_append, map_append]
    · rw [byOwner, ih.2, queueOf, queueOf, queueOf, filter_append, map_append]

/-- The entries that leave because their name is taken or the queue of its owner is too long. -/
theorem mem_clashingIds : id ∈ pool.clashingIds order utxo ↔
    (∃ entry, pool.entries.lookup id = some entry ∧ meetsTaken utxo (id, entry) = true) ∨
      ∃ owner, id ∈ beyondQuota utxo owner (queueOf utxo owner (order.entries.list pool.entries)) := by
  obtain ⟨clashing, byOwner⟩ := sortRegistrations_eq utxo (order.entries.list pool.entries)
  rw [clashingIds, mem_append, clashing]
  refine or_congr ?_ ?_
  · simp only [mem_map, mem_filter, Iteration.mem_list, Prod.exists, exists_and_right,
      exists_eq_right]
  · rw [mem_flatMap]
    constructor
    · rintro ⟨⟨owner, waiting⟩, listed, beyond⟩
      have held := byOwner owner
      rw [order.owners.mem_list.mp listed, Option.getD_some] at held
      exact ⟨owner, held ▸ beyond⟩
    · rintro ⟨owner, beyond⟩
      rw [← byOwner] at beyond
      cases held : ((order.entries.list pool.entries).foldl (sortRegistration utxo) {}).byOwner.lookup
          owner with
      | none =>
        rw [held] at beyond
        simp [beyondQuota] at beyond
      | some waiting =>
        rw [held] at beyond
        exact ⟨(owner, waiting), order.owners.mem_list.mpr held, beyond⟩

/-- At most as many registrations of an owner stay as it may still make. -/
theorem exists_withinQuota (pool : Mempool) (order : MapOrder) (utxo : UtxoSet) (owner : Hash256) :
    ∃ ids : List Hash256, ids.length ≤ maxNamesPerOwner - utxo.names.owned owner ∧
      ∀ id entry registered, pool.entries.lookup id = some entry → entry.name = true →
        registrationOf entry.tx = some registered → registered.owner = owner →
        id ∉ pool.clashingIds order utxo → id ∈ ids := by
  refine ⟨((((queueOf utxo owner (order.entries.list pool.entries)).map toLex).insertionSort
    (· ≤ ·)).take (maxNamesPerOwner - utxo.names.owned owner)).map fun waiting =>
      (ofLex waiting).2, ?_, ?_⟩
  · rw [length_map]
    exact length_take_le _ _
  · intro id entry registered found named carries owned kept
    rw [mem_clashingIds, not_or] at kept
    have free : utxo.names.nameBySkeleton (skeleton registered.name) = none := by
      by_contra taken
      refine kept.1 ⟨entry, found, ?_⟩
      simp [meetsTaken, named, carries, Option.isSome_iff_ne_none, taken]
    have waits : waitsFor utxo owner (id, entry) = true := by
      simp [waitsFor, named, carries, owned, free]
    have queued : (entry.arrival, id) ∈ queueOf utxo owner (order.entries.list pool.entries) :=
      mem_map.mpr ⟨(id, entry), mem_filter.mpr ⟨order.entries.mem_list.mpr found, waits⟩, rfl⟩
    have listed := (mem_insertionSort (· ≤ ·)).mpr (mem_map_of_mem (f := toLex) queued)
    rw [← take_append_drop (maxNamesPerOwner - utxo.names.owned owner)
      (insertionSort _ _), mem_append] at listed
    rcases listed with inside | beyond
    · exact mem_map.mpr ⟨_, inside, rfl⟩
    · exact (kept.2 ⟨owner, mem_map.mpr ⟨_, beyond, rfl⟩⟩).elim

end Names

section Orphans
variable [Crypto] {pool : Mempool} {order : MapOrder} {utxo : UtxoSet} {height : Nat}

theorem mem_orphanIds : id ∈ pool.orphanIds order utxo height ↔
    ∃ entry, pool.entries.lookup id = some entry ∧
      ∃ input ∈ entry.tx.inputs, pool.available utxo height input = false := by
  simp only [orphanIds, mem_map, mem_filter, Iteration.mem_list, Prod.exists,
    exists_and_right, exists_eq_right, Bool.not_eq_true', all_eq_false, Bool.not_eq_true]

omit [Crypto] in
/-- A round that finds an orphan leaves fewer entries. -/
theorem card_removeAll_lt {ids : List Hash256} {entry : MempoolEntry}
    (found : pool.entries.lookup id = some entry) (member : id ∈ ids) :
    (pool.removeAll ids).entries.keys.card < pool.entries.keys.card := by
  refine Finset.card_lt_card (Finset.ssubset_iff_of_subset ?_ |>.mpr ⟨id, ?_, ?_⟩)
  · intro key held
    obtain ⟨kept, present⟩ := mem_iff.mp (Finmap.mem_keys.mp held)
    exact Finmap.mem_keys.mpr
      (mem_of_lookup_eq_some ((removed_removeAll pool ids).within key kept present))
  · exact Finmap.mem_keys.mpr (mem_of_lookup_eq_some found)
  · rw [Finmap.mem_keys, ← Finmap.lookup_eq_none]
    exact lookup_removeAll_of_mem member pool

theorem orphanIds_dropOrphans (fuel : Nat) (pool : Mempool)
    (enough : pool.entries.keys.card ≤ fuel) :
    (dropOrphans order utxo height fuel pool).orphanIds order utxo height = [] := by
  induction fuel generalizing pool with
  | zero =>
    refine eq_nil_iff_forall_not_mem.mpr fun id orphan => ?_
    obtain ⟨entry, found, -⟩ := mem_orphanIds.mp orphan
    have present := Finmap.mem_keys.mpr (mem_of_lookup_eq_some found)
    rw [dropOrphans, Finset.card_eq_zero.mp (Nat.le_zero.mp enough)] at present
    exact absurd present (Finset.notMem_empty id)
  | succ fuel ih =>
    rw [dropOrphans]
    split
    · assumption
    · rename_i id rest orphans
      have orphan : id ∈ pool.orphanIds order utxo height := by
        rw [orphans]
        exact (.head _)
      obtain ⟨entry, found, -⟩ := mem_orphanIds.mp orphan
      have fewer := card_removeAll_lt found (mem_cons_self (a := id) (l := rest))
      exact ih _ (by omega)

end Orphans

section Revalidated
variable [Crypto] {pool before after : Mempool} {order : MapOrder} {utxo : UtxoSet}
  {network : Network} {height : Nat} {id : Hash256} {entry : MempoolEntry}

/-- What no removal undoes of a revalidation. -/
structure Outlasting (utxo : UtxoSet) (network : Network) (height : Nat) (pool : Mempool) :
    Prop where
  unconfirmed : ∀ id entry, pool.entries.lookup id = some entry → ∀ outpoint : OutPoint,
    outpoint.txid = id → outpoint.index.toNat < entry.tx.outputs.length →
    utxo.lookup outpoint = none
  policy : ∀ id entry, pool.entries.lookup id = some entry → entry.policy = true →
    policyActivation network ≤ height + 1
  name : ∀ id entry, pool.entries.lookup id = some entry → entry.name = true →
    nameActivation network ≤ height + 1
  free : ∀ id entry registered, pool.entries.lookup id = some entry → entry.name = true →
    registrationOf entry.tx = some registered →
    utxo.names.nameBySkeleton (skeleton registered.name) = none
  quota : ∀ owner, ∃ ids : List Hash256, ids.length ≤ maxNamesPerOwner - utxo.names.owned owner ∧
    ∀ id entry registered, pool.entries.lookup id = some entry → entry.name = true →
      registrationOf entry.tx = some registered → registered.owner = owner → id ∈ ids

omit [Crypto] in
theorem Outlasting.removed (outlasting : Outlasting utxo network height before)
    (removed : Removed before after) : Outlasting utxo network height after where
  unconfirmed id entry found := outlasting.unconfirmed id entry (removed.within id entry found)
  policy id entry found := outlasting.policy id entry (removed.within id entry found)
  name id entry found := outlasting.name id entry (removed.within id entry found)
  free id entry registered found :=
    outlasting.free id entry registered (removed.within id entry found)
  quota owner := by
    obtain ⟨ids, few, listed⟩ := outlasting.quota owner
    exact ⟨ids, few, fun id entry registered found =>
      listed id entry registered (removed.within id entry found)⟩

/-- The state of the pool after a revalidation against a set and a height. -/
structure Revalidated (utxo : UtxoSet) (network : Network) (height : Nat) (pool : Mempool) :
    Prop where
  outlasting : Outlasting utxo network height pool
  available : ∀ id entry, pool.entries.lookup id = some entry → ∀ input ∈ entry.tx.inputs,
    pool.available utxo height input = true

omit [Crypto] in
theorem confirmAll_unconfirmed
    (found : ((pool.confirmedIds order utxo).foldl confirmOne pool).entries.lookup id = some entry)
    {outpoint : OutPoint} (own : outpoint.txid = id)
    (inside : outpoint.index.toNat < entry.tx.outputs.length) : utxo.lookup outpoint = none := by
  by_contra confirmed
  have held := (Removed.foldl removed_confirmOne (pool.confirmedIds order utxo) pool).within
    id entry found
  have listed : id ∈ pool.confirmedIds order utxo := by
    refine mem_map.mpr ⟨(id, entry), mem_filter.mpr ⟨?_, ?_⟩, rfl⟩
    · exact order.entries.mem_list.mpr held
    · refine any_eq_true.mpr ⟨outpoint.index.toNat, mem_range.mpr inside, ?_⟩
      rw [UInt32.ofNat_toNat, ← own]
      exact Option.isSome_iff_ne_none.mpr confirmed
  rw [lookup_eraseMany confirmOne_entries, if_pos listed] at found
  cases found

omit [Crypto] in
/-- A rule not yet in force keeps out whatever relies on it. -/
theorem activated_of_lookup {active : Prop} [Decidable active] {relies : MempoolEntry → Bool}
    (found : (if active then pool else pool.removeWhere order relies).entries.lookup id =
      some entry) (applies : relies entry = true) : active := by
  by_contra inactive
  rw [if_neg inactive] at found
  have excluded := removeWhere_spec pool order relies found
  rw [applies] at excluded
  cases excluded

omit [Crypto] in
theorem removed_unlessActive (active : Prop) [Decidable active] (pool : Mempool) (order : MapOrder)
    (relies : MempoolEntry → Bool) :
    Removed pool (if active then pool else pool.removeWhere order relies) := by
  split
  · exact Removed.refl
  · exact removed_removeAll pool _

omit [Crypto] in
theorem removeAll_clashing_free
    (found : (pool.removeAll (pool.clashingIds order utxo)).entries.lookup id = some entry) :
    pool.entries.lookup id = some entry ∧ id ∉ pool.clashingIds order utxo := by
  refine ⟨(removed_removeAll pool _).within id entry found, fun listed => ?_⟩
  rw [lookup_removeAll_of_mem listed] at found
  cases found

/-- A revalidation does what it is for. -/
theorem revalidate_revalidated (pool : Mempool) (order : MapOrder) (utxo : UtxoSet)
    (network : Network) (height : Nat) :
    Revalidated utxo network height (pool.revalidate order utxo network height) := by
  let unconfirmed := (pool.confirmedIds order utxo).foldl confirmOne pool
  let policed := if policyActivation network ≤ height + 1 then unconfirmed
    else unconfirmed.removeWhere order MempoolEntry.policy
  let named := if nameActivation network ≤ height + 1 then policed
    else policed.removeWhere order MempoolEntry.name
  let cleared := named.removeAll (named.clashingIds order utxo)
  have toPoliced : Removed unconfirmed policed := removed_unlessActive _ unconfirmed order _
  have toNamed : Removed policed named := removed_unlessActive _ policed order _
  have toCleared : Removed named cleared := removed_removeAll named _
  have settled : Outlasting utxo network height cleared := by
    refine ⟨?_, ?_, ?_, ?_, ?_⟩
    · intro id entry found outpoint own inside
      have earliest := (toPoliced.trans (toNamed.trans toCleared)).within id entry found
      exact confirmAll_unconfirmed earliest own inside
    · intro id entry found relies
      have earlier := (toNamed.trans toCleared).within id entry found
      exact activated_of_lookup earlier relies
    · intro id entry found relies
      exact activated_of_lookup (toCleared.within id entry found) relies
    · intro id entry registered found relies carries
      obtain ⟨held, kept⟩ := removeAll_clashing_free found
      by_contra taken
      refine kept (mem_clashingIds.mpr (.inl ⟨entry, held, ?_⟩))
      simp [meetsTaken, relies, carries, Option.isSome_iff_ne_none, taken]
    · intro owner
      obtain ⟨ids, few, listed⟩ := exists_withinQuota named order utxo owner
      refine ⟨ids, few, fun id entry registered found relies carries own => ?_⟩
      obtain ⟨held, kept⟩ := removeAll_clashing_free found
      exact listed id entry registered held relies carries own kept
  refine ⟨settled.removed (removed_dropOrphans order utxo height _ cleared), ?_⟩
  intro id entry found input spends
  by_contra missing
  have orphan : id ∈ (pool.revalidate order utxo network height).orphanIds order utxo height :=
    mem_orphanIds.mpr ⟨entry, found, input, spends, Bool.not_eq_true _ ▸ missing⟩
  have none : (pool.revalidate order utxo network height).orphanIds order utxo height = [] :=
    orphanIds_dropOrphans cleared.entries.keys.card cleared (le_refl _)
  rw [none] at orphan
  cases orphan

end Revalidated

end Mempool

end Q21Formal.Ledger

/-! ## Exactly what a revalidation keeps -/

namespace Q21Formal.Ledger
open Library.Maps Library.Listing Library.Reach Primitives List Finmap

namespace Mempool

/-- An output of the entry is in the set. -/
def Mined (utxo : UtxoSet) (id : Hash256) (entry : MempoolEntry) : Prop :=
  ∃ outpoint : OutPoint, outpoint.txid = id ∧ outpoint.index.toNat < entry.tx.outputs.length ∧
    utxo.lookup outpoint ≠ none

/-- The entry waits to register a free name for the owner. -/
structure Waits (pool : Mempool) (utxo : UtxoSet) (owner id : Hash256) (entry : MempoolEntry) :
    Prop where
  held : pool.entries.lookup id = some entry
  unconfirmed : ¬ Mined utxo id entry
  registers : ∃ registered, registrationOf entry.tx = some registered ∧
    registered.owner = owner ∧ utxo.names.nameBySkeleton (skeleton registered.name) = none

/-- As many entries that count as the owner may still register names wait before this one. -/
def Crowded (pool : Mempool) (utxo : UtxoSet) (counts : Hash256 → Prop) (owner id : Hash256)
    (entry : MempoolEntry) : Prop :=
  ∃ earlier : List (Nat ×ₗ Hash256), earlier.Nodup ∧
    maxNamesPerOwner - utxo.names.owned owner ≤ earlier.length ∧
    ∀ place ∈ earlier, (place < toLex (entry.arrival, id) ∧ ∃ waiting,
      Waits pool utxo owner (ofLex place).2 waiting ∧ waiting.arrival = (ofLex place).1) ∧
        counts (ofLex place).2

section Falling
variable [Crypto]

/-- The reasons to leave the pool, where the entries that `counts` holds of count against the names
an owner may still register. -/
inductive Falls (pool : Mempool) (utxo : UtxoSet) (network : Network) (height : Nat)
    (counts : Hash256 → Prop) : Hash256 → Prop
  | dormantPolicy {id : Hash256} {entry : MempoolEntry} (held : pool.entries.lookup id = some entry)
      (relies : entry.policy = true) (early : height + 1 < policyActivation network) :
      Falls pool utxo network height counts id
  | dormantName {id : Hash256} {entry : MempoolEntry} (held : pool.entries.lookup id = some entry)
      (relies : entry.name = true) (early : height + 1 < nameActivation network) :
      Falls pool utxo network height counts id
  | taken {id : Hash256} {entry : MempoolEntry} {registered : Registration}
      (held : pool.entries.lookup id = some entry)
      (carries : registrationOf entry.tx = some registered)
      (taken : utxo.names.nameBySkeleton (skeleton registered.name) ≠ none) :
      Falls pool utxo network height counts id
  | crowded {id owner : Hash256} {entry : MempoolEntry} (waits : Waits pool utxo owner id entry)
      (crowded : Crowded pool utxo counts owner id entry) : Falls pool utxo network height counts id
  | unavailable {id : Hash256} {entry : MempoolEntry} {input : TxIn}
      (held : pool.entries.lookup id = some entry) (spends : input ∈ entry.tx.inputs)
      (missing : pool.available utxo height input = false) :
      Falls pool utxo network height counts id
  | orphaned {id : Hash256} {entry parent : MempoolEntry} {input : TxIn}
      (held : pool.entries.lookup id = some entry) (spends : input ∈ entry.tx.inputs)
      (absent : utxo.lookup input.prevOut = none)
      (made : pool.entries.lookup input.prevOut.txid = some parent)
      (confirmed : Mined utxo input.prevOut.txid parent) : Falls pool utxo network height counts id
  | descends {id : Hash256} {entry : MempoolEntry} {input : TxIn}
      (held : pool.entries.lookup id = some entry) (spends : input ∈ entry.tx.inputs)
      (absent : utxo.lookup input.prevOut = none)
      (falls : Falls pool utxo network height counts input.prevOut.txid) :
      Falls pool utxo network height counts id

end Falling

section Leaving
variable [Crypto] {pool after : Mempool} {order : MapOrder} {utxo : UtxoSet} {network : Network}
  {height : Nat}

/-- Removals take outputs from the pool and change none. -/
theorem Removed.created_within (removed : Removed pool after) (indexed : Indexed pool) :
    Within after.created pool.created := by
  induction removed with
  | refl => exact Within.refl _
  | @one middle removed id ih =>
    cases found : middle.entries.lookup id with
    | none => rwa [removeOne_of_none found]
    | some entry =>
      have now := removed.indexed indexed
      intro outpoint spent lookup
      rw [removeOne_eq found (now.entry id entry found)] at lookup
      rw [now.lookup_created_removed found] at lookup
      split at lookup
      · cases lookup
      · exact ih outpoint spent lookup
  | remember _ own ih => exact ih

/-- What is available after removals was available before. -/
theorem Removed.available (removed : Removed pool after) (indexed : Indexed pool) {input : TxIn}
    (there : after.available utxo height input = true) :
    pool.available utxo height input = true := by
  unfold Mempool.available at there ⊢
  cases confirmed : utxo.lookup input.prevOut with
  | some spent =>
    rwa [confirmed] at there
  | none =>
    rw [confirmed] at there
    cases made : after.created.lookup input.prevOut with
    | none =>
      rw [made] at there
      cases there
    | some spent =>
      rw [made] at there
      rwa [removed.created_within indexed _ _ made]

omit [Crypto] in
theorem outputAt_isSome {entries : FiniteMap Hash256 MempoolEntry} {outpoint : OutPoint} :
    (outputAt entries outpoint).isSome = true ↔ ∃ entry, entries.lookup outpoint.txid = some entry ∧
        outpoint.index.toNat < entry.tx.outputs.length := by
  rw [outputAt, Option.isSome_iff_exists]
  simp only [Option.bind_eq_some_iff, List.getElem?_eq_some_iff]
  constructor
  · rintro ⟨_, entry, found, inside, _⟩
    exact ⟨entry, found, inside⟩
  · rintro ⟨entry, found, inside⟩
    exact ⟨_, entry, found, inside, rfl⟩

/-- The maker of an output of the pool is an entry. -/
theorem Indexed.maker (indexed : Indexed pool) {outpoint : OutPoint} :
    (pool.created.lookup outpoint).isSome = true ↔ ∃ entry,
      pool.entries.lookup outpoint.txid = some entry ∧
        outpoint.index.toNat < entry.tx.outputs.length := by
  have same := congrArg Option.isSome (indexed.created outpoint)
  rw [Option.isSome_map] at same
  rw [same, outputAt_isSome]

end Leaving

section Stages
variable [Crypto] {pool current : Mempool} {order : MapOrder} {utxo : UtxoSet} {network : Network}
  {height : Nat} {id owner : Hash256} {entry : MempoolEntry}

/-- The pool without what is confirmed. -/
def unconfirmed (pool : Mempool) (order : MapOrder) (utxo : UtxoSet) : Mempool :=
  (pool.confirmedIds order utxo).foldl confirmOne pool

section
variable (indexed : Indexed pool)
include indexed

theorem mem_confirmedIds : id ∈ pool.confirmedIds order utxo ↔
      ∃ entry, pool.entries.lookup id = some entry ∧ Mined utxo id entry := by
  simp only [confirmedIds, mem_map, mem_filter, Iteration.mem_list, any_eq_true,
    mem_range, Prod.exists, exists_and_right, exists_eq_right]
  refine exists_congr fun entry => and_congr_right fun held => ?_
  have few := (indexed.entry id entry held).few
  constructor
  · rintro ⟨index, inside, there⟩
    have number : (UInt32.ofNat index).toNat = index :=
      UInt32.toNat_ofNat_of_lt' (inside.trans few)
    exact ⟨⟨id, UInt32.ofNat index⟩, rfl, by rwa [number], Option.isSome_iff_ne_none.mp there⟩
  · rintro ⟨⟨_, index⟩, rfl, inside, there⟩
    exact ⟨index.toNat, inside, by
      rw [UInt32.ofNat_toNat]
      exact Option.isSome_iff_ne_none.mpr there⟩

theorem lookup_unconfirmed :
    (pool.unconfirmed order utxo).entries.lookup id = some entry ↔
      pool.entries.lookup id = some entry ∧ ¬ Mined utxo id entry := by
  rw [unconfirmed, lookup_eraseMany confirmOne_entries]
  split
  · rename_i listed
    obtain ⟨other, held, confirmed⟩ := (mem_confirmedIds indexed).mp listed
    constructor
    · rintro ⟨⟩
    · rintro ⟨found, unconfirmed⟩
      cases held.symm.trans found
      exact absurd confirmed unconfirmed
  · rename_i kept
    refine ⟨fun found => ⟨found, fun confirmed => kept ?_⟩, And.left⟩
    exact (mem_confirmedIds indexed).mpr ⟨entry, found, confirmed⟩

/-- The current pool is the unconfirmed part of the first one. -/
def UnconfirmedPart (pool current : Mempool) (utxo : UtxoSet) : Prop :=
  ∀ id entry, current.entries.lookup id = some entry ↔
    pool.entries.lookup id = some entry ∧ ¬ Mined utxo id entry

theorem mem_queueOf (part : UnconfirmedPart pool current utxo) {place : Nat × Hash256} :
    place ∈ queueOf utxo owner (order.entries.list current.entries) ↔
      ∃ entry, Waits pool utxo owner place.2 entry ∧ entry.arrival = place.1 := by
  simp only [queueOf, mem_map, mem_filter, Iteration.mem_list, Prod.exists, part _ _]
  constructor
  · rintro ⟨id, entry, ⟨⟨held, unconfirmed⟩, waits⟩, rfl⟩
    simp only [waitsFor, Bool.and_eq_true, Option.any_eq_true, decide_eq_true_eq,
      Option.isNone_iff_eq_none] at waits
    obtain ⟨_, registered, carries, own, free⟩ := waits
    exact ⟨entry, ⟨held, unconfirmed, registered, carries, own, free⟩, rfl⟩
  · rintro ⟨entry, ⟨held, unconfirmed, registered, carries, own, free⟩, arrived⟩
    refine ⟨place.2, entry, ⟨⟨held, unconfirmed⟩, ?_⟩, Prod.ext arrived rfl⟩
    have named := (indexed.entry _ entry held).named
    simp [waitsFor, named, carries, own, free]

/-- Beyond the quota of an owner is what a crowd waits before. -/
theorem mem_beyondQuota (part : UnconfirmedPart pool current utxo) :
    id ∈ beyondQuota utxo owner (queueOf utxo owner (order.entries.list current.entries)) ↔
      ∃ entry, Waits pool utxo owner id entry ∧ Crowded pool utxo (fun _ => True) owner id entry := by
  have distinct : ((queueOf utxo owner (order.entries.list current.entries)).map toLex).Nodup := by
    refine Nodup.of_map (fun place => (ofLex place).2) ?_
    rw [queueOf, map_map, map_map]
    exact (order.entries.enumerates current.entries).nodup.sublist
      (List.filter_sublist.map Prod.fst)
  have queued : ∀ place : Nat ×ₗ Hash256,
      place ∈ (queueOf utxo owner (order.entries.list current.entries)).map toLex ↔
        ∃ entry, Waits pool utxo owner (ofLex place).2 entry ∧ entry.arrival = (ofLex place).1 := by
    intro place
    rw [← mem_queueOf indexed part, mem_map]
    exact exists_eq_right
  simp only [beyondQuota, mem_map (f := fun waiting : Nat ×ₗ Hash256 => (ofLex waiting).2),
    mem_drop_insertionSort distinct, queued]
  constructor
  · rintro ⟨place, ⟨⟨entry, waits, arrived⟩, earlier, apart, many, before⟩, rfl⟩
    refine ⟨entry, waits, earlier, apart, many, fun other listed => ?_⟩
    obtain ⟨waiting, lower⟩ := before other listed
    exact ⟨⟨arrived ▸ lower, waiting⟩, trivial⟩
  · rintro ⟨entry, waits, earlier, apart, many, before⟩
    exact ⟨toLex (entry.arrival, id), ⟨⟨entry, waits, rfl⟩, earlier, apart, many,
      fun other listed => (before other listed).1.symm⟩, rfl⟩

/-- The rules in force at the next height, and nothing that relies on others. -/
def inForce (pool : Mempool) (order : MapOrder) (network : Network) (height : Nat) : Mempool :=
  let pool :=
    if policyActivation network ≤ height + 1 then pool
    else pool.removeWhere order MempoolEntry.policy
  if nameActivation network ≤ height + 1 then pool
  else pool.removeWhere order MempoolEntry.name

/-- The pool once its names are allowed. -/
def allowed (pool : Mempool) (order : MapOrder) (utxo : UtxoSet) (network : Network)
    (height : Nat) : Mempool :=
  let pool := (pool.unconfirmed order utxo).inForce order network height
  pool.removeAll (pool.clashingIds order utxo)

omit indexed in
theorem revalidate_eq : pool.revalidate order utxo network height =
    dropOrphans order utxo height (pool.allowed order utxo network height).entries.keys.card
      (pool.allowed order utxo network height) := rfl

omit [Crypto] indexed in
/-- Names come into force after policies, so with names in force nothing is dormant. -/
theorem inForce_eq_self (active : nameActivation network ≤ height + 1) :
    pool.inForce order network height = pool := by
  have earlier : policyActivation network ≤ nameActivation network := by
    cases network <;> decide
  rw [inForce, if_pos active, if_pos (earlier.trans active)]

theorem unconfirmed_part : UnconfirmedPart pool (pool.unconfirmed order utxo) utxo :=
  fun _ _ => lookup_unconfirmed indexed

theorem lookup_allowed_of_crowded (active : nameActivation network ≤ height + 1)
    (waits : Waits pool utxo owner id entry)
    (crowded : Crowded pool utxo (fun _ => True) owner id entry) :
    (pool.allowed order utxo network height).entries.lookup id = none := by
  refine lookup_removeAll_of_mem (mem_clashingIds.mpr (.inr ⟨owner, ?_⟩)) _
  rw [inForce_eq_self active]
  exact (mem_beyondQuota indexed (unconfirmed_part indexed)).mpr ⟨entry, waits, crowded⟩

/-- Of what falls nothing is left. -/
theorem Falls.leaves (falls : Falls pool utxo network height (fun _ => True) id) :
    (pool.revalidate order utxo network height).entries.lookup id = none := by
  have removed := removed_revalidate pool order utxo network height
  have now := removed.indexed indexed
  have done := revalidate_revalidated pool order utxo network height
  -- An entry that is left is the one held before.
  have gone : ∀ {id entry}, pool.entries.lookup id = some entry →
      ((pool.revalidate order utxo network height).entries.lookup id = some entry → False) →
      (pool.revalidate order utxo network height).entries.lookup id = none := by
    intro id entry held refuted
    by_contra present
    obtain ⟨kept, found⟩ := Option.ne_none_iff_exists'.mp present
    cases held.symm.trans (removed.within id kept found)
    exact refuted found
  -- An output the set does not hold is there as long as its maker is.
  have made : ∀ {id entry} {input : TxIn},
      (pool.revalidate order utxo network height).entries.lookup id = some entry →
      input ∈ entry.tx.inputs → utxo.lookup input.prevOut = none →
      ∃ parent, (pool.revalidate order utxo network height).entries.lookup input.prevOut.txid =
        some parent := by
    intro id entry input found spends absent
    have available := done.available id entry found input spends
    rw [Mempool.available, absent, Option.any_eq_true] at available
    obtain ⟨spent, lookup, -⟩ := available
    obtain ⟨parent, held, -⟩ := now.maker.mp (Option.isSome_iff_exists.mpr ⟨spent, lookup⟩)
    exact ⟨parent, held⟩
  induction falls with
  | dormantPolicy held relies early =>
    refine gone held fun found => ?_
    have active := done.outlasting.policy _ _ found relies
    omega
  | dormantName held relies early =>
    refine gone held fun found => ?_
    have active := done.outlasting.name _ _ found relies
    omega
  | @taken id entry registered held carries taken =>
    refine gone held fun found => taken (done.outlasting.free _ _ _ found ?_ carries)
    rw [(indexed.entry id entry held).named, carries]
    rfl
  | @crowded id owner entry waits crowded =>
    refine gone waits.held fun found => ?_
    obtain ⟨registered, carries, -⟩ := waits.registers
    have named := (indexed.entry id entry waits.held).named
    rw [carries] at named
    have active := done.outlasting.name _ _ found named
    have absent : (pool.allowed order utxo network height).entries.lookup id = none :=
      lookup_allowed_of_crowded indexed active waits crowded
    rw [revalidate_eq, (removed_dropOrphans order utxo height _ _).lookup_none absent] at found
    cases found
  | unavailable held spends missing =>
    refine gone held fun found => ?_
    have available := removed.available indexed (done.available _ _ found _ spends)
    rw [missing] at available
    cases available
  | orphaned held spends absent parentHeld confirmed =>
    refine gone held fun found => ?_
    obtain ⟨parent, kept⟩ := made found spends absent
    cases parentHeld.symm.trans (removed.within _ _ kept)
    obtain ⟨outpoint, own, inside, there⟩ := confirmed
    exact there (done.outlasting.unconfirmed _ _ kept outpoint own inside)
  | descends held spends absent _ ih =>
    refine gone held fun found => ?_
    obtain ⟨parent, kept⟩ := made found spends absent
    rw [ih] at kept
    cases kept

end

end Stages

/-! ## Exactly what is kept -/

section Kept
variable [Crypto]

variable {pool : Mempool} {utxo : UtxoSet} {network : Network} {height : Nat} {id : Hash256}
  {counts more : Hash256 → Prop}

/-- The more entries count against an owner, the more fall. -/
theorem Falls.mono (falls : Falls pool utxo network height counts id)
    (crowds : ∀ owner id entry, Waits pool utxo owner id entry →
      Crowded pool utxo counts owner id entry → Falls pool utxo network height more id) :
    Falls pool utxo network height more id := by
  induction falls with
  | dormantPolicy held relies early => exact .dormantPolicy held relies early
  | dormantName held relies early => exact .dormantName held relies early
  | taken held carries taken => exact .taken held carries taken
  | crowded waits crowded => exact crowds _ _ _ waits crowded
  | unavailable held spends missing => exact .unavailable held spends missing
  | orphaned held spends absent made confirmed => exact .orphaned held spends absent made confirmed
  | descends held spends absent _ ih => exact .descends held spends absent ih

omit [Crypto] in
theorem Crowded.all {owner : Hash256} {entry : MempoolEntry}
    (crowded : Crowded pool utxo counts owner id entry) :
    Crowded pool utxo (fun _ => True) owner id entry := by
  obtain ⟨earlier, distinct, many, before⟩ := crowded
  exact ⟨earlier, distinct, many, fun place listed => ⟨(before place listed).1, trivial⟩⟩

end Kept

end Mempool

end Q21Formal.Ledger

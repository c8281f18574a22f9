import Q21Formal.Ledger.Mempool
import Q21Formal.Ledger.Recorded

/-!
# The tables of the pool

Each table beside the entries says something the entries alone determine; a single removal keeps it
so, and a newcomer takes its place in each.  A parent recorded for an entry may have left the pool;
should it come back, its child is still its child, because an identifier commits to the outputs.
-/

namespace Q21Formal.Ledger
open Library.Codec Library.Maps Library.Listing Primitives List

namespace Mempool

section Determined
variable {entries larger : FiniteMap Hash256 MempoolEntry} {id parent child : Hash256}
  {entry : MempoolEntry} {outpoint : OutPoint} {removed : Hash256} {registered : Registration}

/-- The entry spends the outpoint. -/
def Spends (entries : FiniteMap Hash256 MempoolEntry) (id : Hash256) (outpoint : OutPoint) : Prop :=
  ∃ entry, entries.lookup id = some entry ∧ outpoint ∈ entry.tx.inputs.map TxIn.prevOut

/-- The output some entry creates at the outpoint. -/
def outputAt (entries : FiniteMap Hash256 MempoolEntry) (outpoint : OutPoint) : Option TxOut :=
  (entries.lookup outpoint.txid).bind fun entry => entry.tx.outputs[outpoint.index.toNat]?

/-- One entry spends an output of another. -/
def ParentOf (entries : FiniteMap Hash256 MempoolEntry) (parent child : Hash256) : Prop :=
  parent ≠ child ∧ ∃ outpoint, Spends entries child outpoint ∧ outpoint.txid = parent ∧
    (outputAt entries outpoint).isSome = true

/-- The key of an ordinary entry no other depends on. -/
def LeafKey (entries : FiniteMap Hash256 MempoolEntry) (key : EvictionKey) : Prop :=
  ∃ id entry, entries.lookup id = some entry ∧ entry.ordinary = true ∧
    (∀ child, ¬ ParentOf entries id child) ∧ key = evictionKey id entry

/-- The entry registers the name. -/
def Registers (entries : FiniteMap Hash256 MempoolEntry) (id : Hash256)
    (registered : Registration) : Prop :=
  ∃ entry, entries.lookup id = some entry ∧ registrationOf entry.tx = some registered

/-- One for an entry that registers a name for the owner. -/
def registersFor (owner : Hash256) (entry : MempoolEntry) : Nat :=
  if (registrationOf entry.tx).any fun registered => registered.owner == owner then 1 else 0

/-- The names the entries register for an owner. -/
def pendingFor (entries : FiniteMap Hash256 MempoolEntry) (owner : Hash256) : Nat :=
  total (registersFor owner) entries

section
variable (within : Within entries larger)
include within

theorem Spends.mono (spends : Spends entries id outpoint) : Spends larger id outpoint := by
  obtain ⟨entry, found, spent⟩ := spends
  exact ⟨entry, within id entry found, spent⟩

theorem outputAt_mono {output : TxOut} (created : outputAt entries outpoint = some output) :
    outputAt larger outpoint = some output := by
  obtain ⟨entry, found, placed⟩ := Option.bind_eq_some_iff.mp created
  exact Option.bind_eq_some_iff.mpr ⟨entry, within _ entry found, placed⟩

theorem ParentOf.mono (related : ParentOf entries parent child) : ParentOf larger parent child := by
  obtain ⟨different, outpoint, spends, here, created⟩ := related
  obtain ⟨output, created⟩ := Option.isSome_iff_exists.mp created
  exact ⟨different, outpoint, spends.mono within, here,
    Option.isSome_iff_exists.mpr ⟨output, outputAt_mono within created⟩⟩

end

theorem creator_mem (created : (outputAt entries outpoint).isSome = true) :
    (entries.lookup outpoint.txid).isSome = true := by
  obtain ⟨output, created⟩ := Option.isSome_iff_exists.mp created
  obtain ⟨entry, found, _⟩ := Option.bind_eq_some_iff.mp created
  rw [found]
  rfl

theorem ParentOf.parent_mem (related : ParentOf entries parent child) :
    (entries.lookup parent).isSome = true := by
  obtain ⟨_, outpoint, _, rfl, created⟩ := related
  exact creator_mem created

theorem ParentOf.child_mem (related : ParentOf entries parent child) :
    (entries.lookup child).isSome = true := by
  obtain ⟨_, _, ⟨entry, found, _⟩, _⟩ := related
  rw [found]
  rfl

/-- Two entries have the same key only if they have the same identifier. -/
theorem evictionKey_id {first second : Hash256} {one other : MempoolEntry}
    (same : evictionKey first one = evictionKey second other) : first = second :=
  congrArg (fun key : EvictionKey => (ofLex (ofLex key).2).2) same

theorem spends_erase :
    Spends (entries.erase removed) id outpoint ↔ id ≠ removed ∧ Spends entries id outpoint := by
  unfold Spends
  by_cases here : id = removed
  · subst here
    simp
  · simp [here]

theorem outputAt_erase (removed : Hash256) :
    outputAt (entries.erase removed) outpoint =
      if outpoint.txid = removed then none else outputAt entries outpoint := by
  unfold outputAt
  rw [lookup_erase_eq]
  split <;> rfl

theorem parentOf_erase :
    ParentOf (entries.erase removed) parent child ↔
      parent ≠ removed ∧ child ≠ removed ∧ ParentOf entries parent child := by
  constructor
  · rintro ⟨different, outpoint, spends, rfl, created⟩
    rw [outputAt_erase] at created
    split at created
    · cases created
    · rename_i kept
      obtain ⟨other, spends⟩ := spends_erase.mp spends
      exact ⟨kept, other, different, outpoint, spends, rfl, created⟩
  · rintro ⟨kept, other, different, outpoint, spends, rfl, created⟩
    refine ⟨different, outpoint, spends_erase.mpr ⟨other, spends⟩, rfl, ?_⟩
    rwa [outputAt_erase, if_neg kept]

theorem registers_erase :
    Registers (entries.erase removed) id registered ↔
      id ≠ removed ∧ Registers entries id registered := by
  unfold Registers
  by_cases here : id = removed
  · subst here
    simp
  · simp [here]

theorem spends_insert (fresh : entries.lookup id = none) {other : Hash256} :
    Spends (entries.insert id entry) other outpoint ↔
      (other = id ∧ outpoint ∈ entry.tx.inputs.map TxIn.prevOut) ∨
        Spends entries other outpoint := by
  unfold Spends
  by_cases here : other = id
  · subst here
    simp [fresh]
  · simp [here]

theorem outputAt_insert (id : Hash256) (entry : MempoolEntry) :
    outputAt (entries.insert id entry) outpoint =
      if outpoint.txid = id then entry.tx.outputs[outpoint.index.toNat]?
      else outputAt entries outpoint := by
  unfold outputAt
  rw [lookup_insert_eq]
  split <;> rfl

theorem registers_insert (fresh : entries.lookup id = none) {other : Hash256} :
    Registers (entries.insert id entry) other registered ↔
      (other = id ∧ registrationOf entry.tx = some registered) ∨
        Registers entries other registered := by
  unfold Registers
  by_cases here : other = id
  · subst here
    simp [fresh]
  · simp [here]

theorem within_insert (fresh : entries.lookup id = none) (entry : MempoolEntry) :
    Within entries (entries.insert id entry) := by
  intro query value found
  rw [lookup_insert_eq, if_neg]
  · exact found
  · rintro rfl
    rw [fresh] at found
    cases found

/-- The two pools hold the same transactions under the same identifiers. -/
def SameTransactions (entries other : FiniteMap Hash256 MempoolEntry) : Prop :=
  ∀ id, (entries.lookup id).map MempoolEntry.tx = (other.lookup id).map MempoolEntry.tx

variable {other : FiniteMap Hash256 MempoolEntry}

section
variable (same : SameTransactions entries other)
include same

theorem SameTransactions.spends : Spends entries id outpoint ↔ Spends other id outpoint := by
  have shown : ∀ pool : FiniteMap Hash256 MempoolEntry, Spends pool id outpoint ↔
      ∃ tx, (pool.lookup id).map MempoolEntry.tx = some tx ∧
        outpoint ∈ tx.inputs.map TxIn.prevOut := by
    simp [Spends]
  rw [shown, shown, same]

theorem SameTransactions.outputAt :
    outputAt entries outpoint = Mempool.outputAt other outpoint := by
  have shown : ∀ pool : FiniteMap Hash256 MempoolEntry, Mempool.outputAt pool outpoint =
      ((pool.lookup outpoint.txid).map MempoolEntry.tx).bind fun tx =>
        tx.outputs[outpoint.index.toNat]? := by
    intro pool
    rw [Mempool.outputAt, Option.bind_map]
    rfl
  rw [shown, shown, same]

theorem SameTransactions.parentOf :
    ParentOf entries parent child ↔ ParentOf other parent child := by
  unfold ParentOf
  simp only [same.spends, same.outputAt]

theorem SameTransactions.registers :
    Registers entries id registered ↔ Registers other id registered := by
  have shown : ∀ pool : FiniteMap Hash256 MempoolEntry, Registers pool id registered ↔
      ∃ tx, (pool.lookup id).map MempoolEntry.tx = some tx ∧
        registrationOf tx = some registered := by
    simp [Registers]
  rw [shown, shown, same]

end

end Determined

/-! ## The tables, one update at a time -/

section Tables
variable {entries : FiniteMap Hash256 MempoolEntry} {id : Hash256}

theorem lookup_releaseSpends (id : Hash256) (inputs : List TxIn)
    (committed : FiniteMap OutPoint Hash256) (query : OutPoint) :
    (releaseSpends id inputs committed).lookup query =
      if query ∈ inputs.map TxIn.prevOut ∧ committed.lookup query = some id then none
      else committed.lookup query := by
  unfold releaseSpends
  induction inputs generalizing committed with
  | nil => simp
  | cons input rest ih =>
    rw [foldl_cons, ih]
    by_cases held : committed.lookup input.prevOut = some id
    · rw [if_pos held, lookup_erase_eq]
      by_cases here : query = input.prevOut
      · subst here
        simp [held]
      · simp [here]
    · rw [if_neg held]
      by_cases here : query = input.prevOut
      · subst here
        simp [held]
      · simp [here]

theorem lookup_releaseOutputs (id : Hash256) {count : Nat} (few : count ≤ 2 ^ 32)
    (created : FiniteMap OutPoint UtxoEntry) (query : OutPoint) :
    (releaseOutputs id count created).lookup query =
      if query.txid = id ∧ query.index.toNat < count then none else created.lookup query := by
  unfold releaseOutputs
  induction count with
  | zero => simp
  | succ count ih =>
    have numeral : (UInt32.ofNat count).toNat = count :=
      UInt32.toNat_ofNat_of_lt' (by show count < 2 ^ 32; omega)
    have here : query = ⟨id, UInt32.ofNat count⟩ ↔
        query.txid = id ∧ query.index.toNat = count := by
      constructor
      · rintro rfl
        exact ⟨rfl, numeral⟩
      · rintro ⟨same, placed⟩
        obtain ⟨queryTxid, queryIndex⟩ := query
        dsimp only at same placed
        rw [same, UInt32.toNat_inj.mp (placed.trans numeral.symm)]
    rw [range_succ, List.foldl_append, foldl_cons, foldl_nil, lookup_erase_eq,
      ih (by omega)]
    by_cases last : query = ⟨id, UInt32.ofNat count⟩
    · rw [if_pos last, if_pos ⟨(here.mp last).1, by have := (here.mp last).2; omega⟩]
    · rw [if_neg last]
      refine if_congr ⟨fun both => ⟨both.1, by omega⟩, fun both => ⟨both.1, ?_⟩⟩ rfl rfl
      have apart : query.index.toNat ≠ count := fun placed => last (here.mpr ⟨both.1, placed⟩)
      omega

theorem lookup_commit (id : Hash256) (inputs : List TxIn) (committed : FiniteMap OutPoint Hash256)
    (query : OutPoint) :
    (inputs.foldl (fun committed input => committed.insert input.prevOut id) committed).lookup
        query =
      if query ∈ inputs.map TxIn.prevOut then some id else committed.lookup query := by
  induction inputs generalizing committed with
  | nil => simp
  | cons input rest ih =>
    rw [foldl_cons, ih, lookup_insert_eq]
    by_cases here : query = input.prevOut
    · simp [here]
    · simp [here]

section
variable (entries : FiniteMap Hash256 MempoolEntry) (child : Hash256)

section
variable (parents : List Hash256) (tables : ParentTables) (key : EvictionKey)

/-- Every parent of the list loses the child, the others keep what they have. -/
theorem unlinkParent_children (query : Hash256) :
    (parents.foldl (unlinkParent entries child) tables).children.lookup query =
      (tables.children.lookup query).map fun siblings =>
        if query ∈ parents then siblings.filter fun sibling => sibling != child
        else siblings := by
  induction parents generalizing tables with
  | nil => simp
  | cons parent rest ih =>
    rw [foldl_cons, ih]
    unfold unlinkParent
    cases found : tables.children.lookup parent with
    | none =>
      by_cases here : query = parent
      · subst here
        simp [found]
      · simp [here]
    | some siblings =>
      rw [lookup_insert_eq]
      by_cases here : query = parent
      · subst here
        simp [found]
      · simp [here]

/-- The parent has no other child. -/
def OnlyChild (children : FiniteMap Hash256 (List Hash256)) (parent child : Hash256) : Prop :=
  ∃ siblings, children.lookup parent = some siblings ∧ ∀ sibling ∈ siblings, sibling = child

theorem onlyChild_unlinkParent (unlinked parent : Hash256) :
    OnlyChild (unlinkParent entries child tables unlinked).children parent child ↔
      OnlyChild tables.children parent child := by
  have after := unlinkParent_children entries child [unlinked] tables parent
  rw [foldl_cons, foldl_nil] at after
  unfold OnlyChild
  rw [after]
  cases tables.children.lookup parent with
  | none => simp
  | some siblings =>
    by_cases here : parent = unlinked
    · simp only [mem_singleton, here, if_true, Option.map_some, Option.some.injEq,
        exists_eq_left', mem_filter, bne_iff_ne, ne_eq]
      constructor
      · intro all sibling member
        by_contra different
        exact different (all sibling ⟨member, different⟩)
      · intro all sibling member
        exact all sibling member.1
    · simp [here]

theorem mem_unlinkParent_evictable (parent : Hash256) (key : EvictionKey) :
    key ∈ (unlinkParent entries child tables parent).evictable ↔
      key ∈ tables.evictable ∨ ∃ entry, OnlyChild tables.children parent child ∧
        entries.lookup parent = some entry ∧ entry.ordinary = true ∧
          key = evictionKey parent entry := by
  unfold unlinkParent OnlyChild
  cases tables.children.lookup parent with
  | none => simp
  | some siblings =>
    cases entries.lookup parent with
    | none => simp
    | some entry =>
      have emptied : (siblings.filter fun sibling => sibling != child).isEmpty = true ↔
          ∀ sibling ∈ siblings, sibling = child := by
        rw [List.isEmpty_iff, filter_eq_nil_iff]
        simp
      dsimp only
      split
      · rename_i leaf
        obtain ⟨empty, ordinary⟩ := Bool.and_eq_true_iff.mp leaf
        have only := emptied.mp empty
        simp only [Finset.mem_insert, Option.some.injEq, exists_eq_left']
        constructor
        · rintro (here | before)
          · exact .inr ⟨entry, only, rfl, ordinary, here⟩
          · exact .inl before
        · rintro (before | ⟨_, _, rfl, _, here⟩)
          · exact .inr before
          · exact .inl here
      · rename_i kept
        constructor
        · exact .inl
        · rintro (before | ⟨_, ⟨_, same, only⟩, found, ordinary, _⟩)
          · exact before
          · cases same
            cases found
            exact (kept (Bool.and_eq_true_iff.mpr ⟨emptied.mpr only, ordinary⟩)).elim

/-- The keys added are those of the ordinary parents the child was the only one of. -/
theorem unlinkParents_evictable :
    key ∈ (parents.foldl (unlinkParent entries child) tables).evictable ↔
      key ∈ tables.evictable ∨ ∃ parent ∈ parents, ∃ entry,
        OnlyChild tables.children parent child ∧ entries.lookup parent = some entry ∧
          entry.ordinary = true ∧ key = evictionKey parent entry := by
  induction parents generalizing tables with
  | nil => simp
  | cons parent rest ih =>
    rw [foldl_cons, ih]
    simp only [onlyChild_unlinkParent, mem_unlinkParent_evictable, mem_cons,
      exists_eq_or_imp, or_assoc]

theorem linkParents_children (parent other : Hash256) :
    other ∈ ((parents.foldl (linkParent entries child) tables).children.lookup parent).getD [] ↔
      other ∈ (tables.children.lookup parent).getD [] ∨ (parent ∈ parents ∧ other = child) := by
  induction parents generalizing tables with
  | nil => simp
  | cons first rest ih =>
    rw [foldl_cons, ih]
    simp only [linkParent, lookup_insert_eq, mem_cons]
    by_cases here : parent = first
    · subst here
      simp only [if_true, Option.getD_some, mem_append, mem_singleton, true_or,
        true_and]
      tauto
    · simp [here]

theorem linkParents_evictable :
    key ∈ (parents.foldl (linkParent entries child) tables).evictable ↔
      key ∈ tables.evictable ∧ ∀ parent ∈ parents, ∀ entry,
        entries.lookup parent = some entry → key ≠ evictionKey parent entry := by
  induction parents generalizing tables with
  | nil => simp
  | cons first rest ih =>
    rw [foldl_cons, ih]
    unfold linkParent
    cases found : entries.lookup first with
    | none => simp [found]
    | some entry =>
      simp only [Finset.mem_erase, forall_mem_cons, found, Option.some.injEq,
        forall_eq']
      tauto

end

end

theorem adoptChildren_parents (id : Hash256) (children : List Hash256)
    (parents : FiniteMap Hash256 (List Hash256)) (child other : Hash256) :
    other ∈ ((children.foldl (adoptChild id) parents).lookup child).getD [] ↔
      other ∈ (parents.lookup child).getD [] ∨ (child ∈ children ∧ other = id) := by
  induction children generalizing parents with
  | nil => simp
  | cons first rest ih =>
    rw [foldl_cons, ih]
    simp only [adoptChild, lookup_insert_eq, mem_cons]
    by_cases here : child = first
    · subst here
      simp only [if_true, Option.getD_some, true_or, true_and]
      split
      · rename_i known
        constructor
        · rintro (before | ⟨_, rfl⟩)
          · exact .inl before
          · exact .inl known
        · rintro (before | rfl)
          · exact .inl before
          · exact .inl known
      · simp only [mem_append, mem_singleton]
        tauto
    · simp [here]

theorem mem_sortedUnique {ids : List Hash256} {id : Hash256} : id ∈ sortedUnique ids ↔ id ∈ ids := by
  rw [sortedUnique, mem_listing, mem_toFinset]

/-- An entry is registered for when its own transaction carries the registration. -/
theorem registrationOf_eq_some {tx : Transaction} {registered : Registration} :
    registrationOf tx = some registered ↔ registration tx = .ok (some registered) := by
  unfold registrationOf
  split <;> simp_all

theorem removeOne_of_none {pool : Mempool} (absent : pool.entries.lookup id = none) :
    pool.removeOne id = pool := by
  unfold removeOne
  rw [absent]

end Tables

section Invariant
variable [Crypto]

/-- What an entry records of its transaction. -/
structure EntryOf (id : Hash256) (entry : MempoolEntry) : Prop where
  identified : entry.tx.txid = id
  measured : entry.size = entry.tx.encode.length
  named : entry.name = (registrationOf entry.tx).isSome
  few : entry.tx.outputs.length < 2 ^ 32

/-- Every table is what a recomputation from the entries gives; parents recorded may have left the
pool. -/
structure Indexed (pool : Mempool) : Prop where
  entry : ∀ id entry, pool.entries.lookup id = some entry → EntryOf id entry
  committed : ∀ outpoint id,
    pool.committed.lookup outpoint = some id ↔ Spends pool.entries id outpoint
  created : ∀ outpoint,
    (pool.created.lookup outpoint).map UtxoEntry.output = outputAt pool.entries outpoint
  plain : ∀ outpoint entry, pool.created.lookup outpoint = some entry → entry.isCoinbase = false
  children : ∀ parent child, child ∈ pool.childrenOf parent ↔ ParentOf pool.entries parent child
  parents : ∀ parent child,
    (parent ∈ pool.parentsOf child ∧ (pool.entries.lookup parent).isSome = true) ↔
      ParentOf pool.entries parent child
  evictable : ∀ key, key ∈ pool.evictable ↔ LeafKey pool.entries key
  bytes : pool.bytes = total MempoolEntry.size pool.entries
  pendingNames : ∀ text name id, pool.pendingNames.lookup text = some (name, id) ↔
    ∃ registered, Registers pool.entries id registered ∧ skeleton registered.name = text ∧
      registered.name = name
  pendingOwned : ∀ owner, pool.pendingOwned.lookup owner =
    if pendingFor pool.entries owner = 0 then none else some (pendingFor pool.entries owner)

variable {pool : Mempool} {id : Hash256} {entry : MempoolEntry}

theorem Indexed.empty (maxBytes : Nat) : Indexed { maxBytes } := by
  constructor
  · intro id entry found
    cases found
  · intro outpoint id
    constructor
    · rintro ⟨⟩
    · rintro ⟨_, found, _⟩
      cases found
  · intro outpoint
    rfl
  · intro outpoint entry found
    cases found
  · intro parent child
    constructor
    · rintro ⟨⟩
    · intro related
      cases related.parent_mem
  · intro parent child
    constructor
    · rintro ⟨member, _⟩
      cases member
    · intro related
      cases related.parent_mem
  · intro key
    constructor
    · rintro ⟨⟩
    · rintro ⟨_, _, found, _⟩
      cases found
  · rfl
  · intro text name id
    constructor
    · rintro ⟨⟩
    · rintro ⟨_, ⟨_, found, _⟩, _⟩
      cases found
  · intro owner
    rfl

/-- The tables a removal leaves, for an entry that is there. -/
theorem removeOne_eq (found : pool.entries.lookup id = some entry) (entryOf : EntryOf id entry) :
    pool.removeOne id =
      { pool with
        entries := pool.entries.erase id
        bytes := pool.bytes - entry.size
        committed := releaseSpends id entry.tx.inputs pool.committed
        created := releaseOutputs id entry.tx.outputs.length pool.created
        parents := pool.parents.erase id
        children := ((pool.parentsOf id).foldl (unlinkParent (pool.entries.erase id) id)
          ⟨pool.children, pool.evictable.erase (evictionKey id entry)⟩).children.erase id
        evictable := ((pool.parentsOf id).foldl (unlinkParent (pool.entries.erase id) id)
          ⟨pool.children, pool.evictable.erase (evictionKey id entry)⟩).evictable
        pendingNames := ((registrationOf entry.tx).map
          (releaseName pool.pendingNames id)).getD pool.pendingNames
        pendingOwned := ((registrationOf entry.tx).map fun registered =>
          NameIndex.releaseOwner pool.pendingOwned registered.owner).getD pool.pendingOwned } := by
  unfold removeOne
  rw [found]
  dsimp only
  cases carried : registrationOf entry.tx with
  | none =>
    have unnamed : entry.name = false := by rw [entryOf.named, carried]; rfl
    rw [unnamed]
    rfl
  | some registered =>
    have named : entry.name = true := by rw [entryOf.named, carried]; rfl
    rw [named, registrationOf_eq_some.mp carried]
    rfl

section
variable (indexed : Indexed pool)
include indexed

/-- No two entries spend one outpoint. -/
theorem Indexed.spender_unique {first second : Hash256} {outpoint : OutPoint}
    (one : Spends pool.entries first outpoint) (other : Spends pool.entries second outpoint) :
    first = second := by
  rw [← indexed.committed] at one other
  exact Option.some.inj (one.symm.trans other)

/-- No two entries register look-alike names. -/
theorem Indexed.registrar_unique {first second : Hash256} {one other : Registration}
    (registers : Registers pool.entries first one)
    (alsoRegisters : Registers pool.entries second other)
    (alike : skeleton one.name = skeleton other.name) : first = second := by
  have held := (indexed.pendingNames (skeleton one.name) one.name first).mpr
    ⟨one, registers, rfl, rfl⟩
  have alsoHeld := (indexed.pendingNames (skeleton one.name) other.name second).mpr
    ⟨other, alsoRegisters, alike.symm, rfl⟩
  rw [held, Option.some.injEq, Prod.mk.injEq] at alsoHeld
  exact alsoHeld.2

theorem Indexed.children_removed (evictable : Finset EvictionKey) (parent child : Hash256) :
    child ∈ ((((pool.parentsOf id).foldl (unlinkParent (pool.entries.erase id) id)
        ⟨pool.children, evictable⟩).children.erase id).lookup parent).getD [] ↔
      ParentOf (pool.entries.erase id) parent child := by
  rw [lookup_erase_eq, parentOf_erase, unlinkParent_children]
  by_cases own : parent = id
  · rw [if_pos own]
    constructor
    · rintro ⟨⟩
    · rintro ⟨other, _⟩
      exact (other own).elim
  · rw [if_neg own]
    have before := indexed.children parent child
    have linked := indexed.parents parent id
    rw [childrenOf] at before
    cases held : pool.children.lookup parent with
    | none =>
      rw [held] at before
      constructor
      · rintro ⟨⟩
      · rintro ⟨_, _, related⟩
        cases before.mpr related
    | some siblings =>
      rw [held, Option.getD_some] at before
      rw [Option.map_some, Option.getD_some]
      split
      · rw [mem_filter, before, bne_iff_ne]
        tauto
      · rename_i apart
        rw [before]
        refine ⟨fun related => ⟨own, ?_, related⟩, fun both => both.2.2⟩
        rintro rfl
        exact apart (linked.mpr related).1

theorem Indexed.parents_removed (parent child : Hash256) :
    (parent ∈ ((pool.parents.erase id).lookup child).getD [] ∧
        ((pool.entries.erase id).lookup parent).isSome = true) ↔
      ParentOf (pool.entries.erase id) parent child := by
  rw [parentOf_erase, ← indexed.parents, lookup_erase_eq, lookup_erase_eq]
  by_cases ownChild : child = id
  · rw [if_pos ownChild]
    constructor
    · rintro ⟨member, _⟩
      cases member
    · rintro ⟨_, other, _⟩
      exact (other ownChild).elim
  · by_cases ownParent : parent = id
    · simp [ownParent]
    · simp [ownParent, ownChild, parentsOf]

section
variable (found : pool.entries.lookup id = some entry)
include found

/-- The tables after the removal of an entry that is there, each from what it was before. -/
theorem Indexed.committed_removed (outpoint : OutPoint) (spender : Hash256) :
    (releaseSpends id entry.tx.inputs pool.committed).lookup outpoint = some spender ↔
      Spends (pool.entries.erase id) spender outpoint := by
  rw [lookup_releaseSpends, spends_erase, ← indexed.committed]
  constructor
  · intro held
    split at held
    · cases held
    · rename_i kept
      refine ⟨?_, held⟩
      rintro rfl
      obtain ⟨other, same, spent⟩ := (indexed.committed outpoint spender).mp held
      rw [found] at same
      cases same
      exact kept ⟨spent, held⟩
  · rintro ⟨different, held⟩
    rw [if_neg]
    · exact held
    · rintro ⟨_, own⟩
      rw [held] at own
      exact different (Option.some.inj own)

theorem Indexed.lookup_created_removed (outpoint : OutPoint) :
    (releaseOutputs id entry.tx.outputs.length pool.created).lookup outpoint =
      if outpoint.txid = id then none else pool.created.lookup outpoint := by
  have few := (indexed.entry id entry found).few
  rw [lookup_releaseOutputs id few.le]
  by_cases own : outpoint.txid = id
  · split
    · rfl
    · rename_i beyond
      have nothing := indexed.created outpoint
      rw [outputAt, own, found, Option.bind_some,
        getElem?_eq_none (Nat.le_of_not_lt fun inside => beyond ⟨own, inside⟩)] at nothing
      exact Option.map_eq_none_iff.mp nothing
  · rw [if_neg own, if_neg fun both => own both.1]

theorem Indexed.evictable_removed (key : EvictionKey) :
    key ∈ ((pool.parentsOf id).foldl (unlinkParent (pool.entries.erase id) id)
        ⟨pool.children, pool.evictable.erase (evictionKey id entry)⟩).evictable ↔
      LeafKey (pool.entries.erase id) key := by
  rw [unlinkParents_evictable, Finset.mem_erase, indexed.evictable]
  constructor
  · rintro (⟨other, leaf, holder, held, ordinary, childless, rfl⟩ |
      ⟨parent, _, holder, ⟨siblings, listed, only⟩, held, ordinary, rfl⟩)
    · have different : leaf ≠ id := by
        rintro rfl
        rw [found] at held
        cases held
        exact other rfl
      refine ⟨leaf, holder, ?_, ordinary, ?_, rfl⟩
      · rwa [lookup_erase_eq, if_neg different]
      · intro child related
        exact childless child (parentOf_erase.mp related).2.2
    · refine ⟨parent, holder, held, ordinary, ?_, rfl⟩
      intro child related
      obtain ⟨_, different, related⟩ := parentOf_erase.mp related
      have member := (indexed.children parent child).mpr related
      rw [childrenOf, listed, Option.getD_some] at member
      exact different (only child member)
  · rintro ⟨leaf, holder, held, ordinary, childless, rfl⟩
    have different : leaf ≠ id := by
      rintro rfl
      rw [lookup_erase_eq, if_pos rfl] at held
      cases held
    have before : pool.entries.lookup leaf = some holder := by
      rwa [lookup_erase_eq, if_neg different] at held
    -- Either it was a leaf already, or the removed entry was its only child.
    by_cases alone : ∀ child, ¬ ParentOf pool.entries leaf child
    · exact .inl ⟨fun same => different (evictionKey_id same),
        leaf, holder, before, ordinary, alone, rfl⟩
    · obtain ⟨child, related⟩ := not_forall_not.mp alone
      have onlyId : ∀ other, ParentOf pool.entries leaf other → other = id := by
        intro other related
        by_contra apart
        exact childless other (parentOf_erase.mpr ⟨different, apart, related⟩)
      obtain rfl := onlyId child related
      have member := (indexed.children leaf child).mpr related
      rw [childrenOf] at member
      cases listed : pool.children.lookup leaf with
      | none =>
        rw [listed] at member
        cases member
      | some siblings =>
        refine .inr ⟨leaf, ((indexed.parents leaf child).mpr related).1, holder,
          ⟨siblings, listed, ?_⟩, held, ordinary, rfl⟩
        intro sibling inside
        refine onlyId sibling ((indexed.children leaf sibling).mp ?_)
        rwa [childrenOf, listed]

theorem Indexed.names_removed (text name : Bytes) (holder : Hash256) :
    (((registrationOf entry.tx).map (releaseName pool.pendingNames id)).getD
        pool.pendingNames).lookup text = some (name, holder) ↔
      ∃ registered, Registers (pool.entries.erase id) holder registered ∧
        skeleton registered.name = text ∧ registered.name = name := by
  have before := indexed.pendingNames text name holder
  simp only [registers_erase]
  cases carried : registrationOf entry.tx with
  | none =>
    rw [Option.map_none, Option.getD_none, before]
    constructor
    · rintro ⟨registered, registers, same⟩
      refine ⟨registered, ⟨?_, registers⟩, same⟩
      rintro rfl
      obtain ⟨other, here, carries⟩ := registers
      rw [found] at here
      cases here
      rw [carried] at carries
      cases carries
    · rintro ⟨registered, ⟨_, registers⟩, same⟩
      exact ⟨registered, registers, same⟩
  | some own =>
    have held := (indexed.pendingNames (skeleton own.name) own.name id).mpr
      ⟨own, ⟨entry, found, carried⟩, rfl, rfl⟩
    have released : releaseName pool.pendingNames id own =
        pool.pendingNames.erase (skeleton own.name) := by
      rw [releaseName, held]
      simp
    rw [Option.map_some, Option.getD_some, released, lookup_erase_eq]
    split
    · rename_i here
      constructor
      · intro none'
        cases none'
      · rintro ⟨registered, ⟨different, registers⟩, same, _⟩
        have other := (indexed.pendingNames text registered.name holder).mpr
          ⟨registered, registers, same, rfl⟩
        rw [here, held, Option.some.injEq, Prod.mk.injEq] at other
        exact (different other.2.symm).elim
    · rename_i apart
      rw [before]
      constructor
      · rintro ⟨registered, registers, same, named⟩
        refine ⟨registered, ⟨?_, registers⟩, same, named⟩
        rintro rfl
        obtain ⟨other, here, carries⟩ := registers
        rw [found] at here
        cases here
        rw [carried] at carries
        cases carries
        exact apart same.symm
      · rintro ⟨registered, ⟨_, registers⟩, same⟩
        exact ⟨registered, registers, same⟩

theorem Indexed.owned_removed (owner : Hash256) :
    (((registrationOf entry.tx).map fun registered =>
        NameIndex.releaseOwner pool.pendingOwned registered.owner).getD
          pool.pendingOwned).lookup owner =
      if pendingFor (pool.entries.erase id) owner = 0 then none
      else some (pendingFor (pool.entries.erase id) owner) := by
  have counted : ∀ holder, pendingFor (pool.entries.erase id) holder +
      registersFor holder entry = pendingFor pool.entries holder :=
    fun holder => total_erase_add (registersFor holder) found
  cases carried : registrationOf entry.tx with
  | none =>
    have same := counted owner
    simp only [registersFor, carried, Option.any_none, Bool.false_eq_true, if_false,
      Nat.add_zero] at same
    rw [Option.map_none, Option.getD_none, indexed.pendingOwned, same]
  | some own =>
    have mine := counted own.owner
    have one : registersFor own.owner entry = 1 := by simp [registersFor, carried]
    have held := indexed.pendingOwned own.owner
    rw [if_neg (by omega)] at held
    rw [Option.map_some, Option.getD_some, NameIndex.releaseOwner, held]
    dsimp only
    rw [show pendingFor pool.entries own.owner - 1 =
      pendingFor (pool.entries.erase id) own.owner by omega]
    by_cases here : owner = own.owner
    · subst here
      split
      · rw [lookup_erase_eq, if_pos rfl]
      · rw [lookup_insert_eq, if_pos rfl]
    · have same := counted owner
      have zero : registersFor owner entry = 0 := by
        simp [registersFor, carried, Ne.symm here]
      rw [zero, Nat.add_zero] at same
      split
      · rw [lookup_erase_eq, if_neg here, indexed.pendingOwned, same]
      · rw [lookup_insert_eq, if_neg here, indexed.pendingOwned, same]

end

/-- One removal keeps every table. -/
theorem Indexed.removeOne (id : Hash256) : Indexed (pool.removeOne id) := by
  cases found : pool.entries.lookup id with
  | none => rwa [removeOne_of_none found]
  | some entry =>
    rw [removeOne_eq found (indexed.entry id entry found)]
    refine
      { entry := ?_
        committed := indexed.committed_removed found
        created := ?_
        plain := ?_
        children := indexed.children_removed _
        parents := indexed.parents_removed
        evictable := indexed.evictable_removed found
        bytes := ?_
        pendingNames := indexed.names_removed found
        pendingOwned := indexed.owned_removed found }
    · intro other kept here
      exact indexed.entry other kept (erase_within _ _ _ _ here)
    · intro outpoint
      rw [indexed.lookup_created_removed found, outputAt_erase]
      split
      · rfl
      · exact indexed.created outpoint
    · intro outpoint kept here
      rw [indexed.lookup_created_removed found] at here
      split at here
      · cases here
      · exact indexed.plain outpoint kept here
    · have weighed := total_erase_add MempoolEntry.size found
      have bytes := indexed.bytes
      dsimp only
      omega

end

omit [Crypto] in
@[simp] theorem removeOne_entries (pool : Mempool) (id : Hash256) :
    (pool.removeOne id).entries = pool.entries.erase id := by
  unfold Mempool.removeOne
  cases found : pool.entries.lookup id with
  | none => exact (erase_of_lookup_none found).symm
  | some entry => rfl

/-- What leaves the pool leaves it one entry at a time. -/
inductive Removed (before : Mempool) : Mempool → Prop
  | refl : Removed before before
  | one {after : Mempool} (removed : Removed before after) (id : Hash256) :
      Removed before (after.removeOne id)
  | remember {after : Mempool} (removed : Removed before after) (own : Finset Hash256) :
      Removed before { after with localConfirmed := own }

variable {before middle after : Mempool}

omit [Crypto] in
theorem Removed.trans (first : Removed before middle) (second : Removed middle after) :
    Removed before after := by
  induction second with
  | refl => exact first
  | one _ id ih => exact ih.one id
  | remember _ own ih => exact ih.remember own

omit [Crypto] in
theorem Removed.foldl {α : Type} {step : Mempool → α → Mempool}
    (each : ∀ pool item, Removed pool (step pool item)) (items : List α) (pool : Mempool) :
    Removed pool (items.foldl step pool) := by
  induction items generalizing pool with
  | nil => exact .refl
  | cons item rest ih => exact (each pool item).trans (ih _)

omit [Crypto] in
theorem removed_remove (pool : Mempool) (id : Hash256) : Removed pool (pool.remove id) :=
  Removed.foldl (fun _ id => Removed.refl.one id) _ pool

omit [Crypto] in
theorem removed_removeAll (pool : Mempool) (ids : List Hash256) :
    Removed pool (pool.removeAll ids) :=
  Removed.foldl removed_remove ids pool

omit [Crypto] in
theorem removed_confirmOne (pool : Mempool) (id : Hash256) : Removed pool (pool.confirmOne id) := by
  unfold confirmOne
  dsimp only
  split
  · exact (Removed.refl.one id).remember _
  · exact Removed.refl.one id

omit [Crypto] in
theorem removed_dropConflict (pool : Mempool) (input : TxIn) :
    Removed pool (pool.dropConflict input) := by
  unfold dropConflict
  split
  · exact .refl
  · exact removed_remove pool _

theorem removed_dropOrphans (order : MapOrder) (utxo : UtxoSet) (height fuel : Nat)
    (pool : Mempool) : Removed pool (dropOrphans order utxo height fuel pool) := by
  induction fuel generalizing pool with
  | zero => exact .refl
  | succ fuel ih =>
    unfold dropOrphans
    split
    · exact .refl
    · exact (removed_removeAll pool _).trans (ih _)

theorem removed_revalidate (pool : Mempool) (order : MapOrder) (utxo : UtxoSet)
    (network : Network) (height : Nat) :
    Removed pool (pool.revalidate order utxo network height) := by
  have dormant : ∀ (active : Prop) [Decidable active] (condition : MempoolEntry → Bool)
      (pool : Mempool), Removed pool (if active then pool else pool.removeWhere order condition) := by
    intro active _ condition pool
    split
    · exact .refl
    · exact removed_removeAll pool _
  exact ((((Removed.foldl removed_confirmOne _ pool).trans (dormant _ _ _)).trans
    (dormant _ _ _)).trans (removed_removeAll _ _)).trans (removed_dropOrphans _ _ _ _ _)

section
variable (removed : Removed before after)
include removed

omit [Crypto] in
theorem Removed.within : Within after.entries before.entries := by
  induction removed with
  | refl => exact Within.refl _
  | one _ id ih =>
    rw [removeOne_entries]
    exact (erase_within _ id).trans ih
  | remember _ own ih => exact ih

omit [Crypto] in
theorem Removed.maxBytes : after.maxBytes = before.maxBytes := by
  induction removed with
  | refl => rfl
  | one _ id ih =>
    rw [← ih]
    unfold Mempool.removeOne
    split
    · rfl
    · split <;> rfl
  | remember _ own ih => exact ih

theorem Removed.indexed (indexed : Indexed before) : Indexed after := by
  induction removed with
  | refl => exact indexed
  | one _ id ih => exact ih.removeOne id
  | remember _ own ih =>
    exact ⟨ih.entry, ih.committed, ih.created, ih.plain, ih.children, ih.parents, ih.evictable,
      ih.bytes, ih.pendingNames, ih.pendingOwned⟩

/-- Removals free bytes. -/
theorem Removed.bytes_le (indexed : Indexed before) : after.bytes ≤ before.bytes := by
  rw [(removed.indexed indexed).bytes, indexed.bytes]
  exact total_mono _ removed.within

end

end Invariant

end Mempool

namespace Mempool

section Entry
variable [Crypto] {pool before after : Mempool} {id : Hash256} {entry : MempoolEntry}

/-- The tagged hash tells the transactions offered to the pool apart. -/
def OfferedApart (offered : Set Transaction) : Prop :=
  Set.InjOn (taggedHash .tx) (Transaction.txidPreimage '' offered)

theorem OfferedApart.outputs_eq {offered : Set Transaction} (apart : OfferedApart offered)
    {first second : Transaction} (firstIn : first ∈ offered) (secondIn : second ∈ offered)
    (firstFits : first.Fits) (secondFits : second.Fits) (same : first.txid = second.txid) :
    first.outputs = second.outputs :=
  (txidPreimage_inj firstFits.countable secondFits.countable
    (apart ⟨first, firstIn, rfl⟩ ⟨second, secondIn, rfl⟩ same)).2.1

/-- Every entry was offered, and so was every recorded parent, one of whose outputs its child
spends. -/
structure Traced (offered : Set Transaction) (pool : Mempool) : Prop where
  entry : ∀ id entry, pool.entries.lookup id = some entry → entry.tx ∈ offered ∧ entry.tx.Fits
  parent : ∀ parent child, parent ∈ pool.parentsOf child → parent ≠ child ∧
    ∃ tx ∈ offered, tx.Fits ∧ tx.txid = parent ∧ ∃ outpoint, Spends pool.entries child outpoint ∧
      outpoint.txid = parent ∧ outpoint.index.toNat < tx.outputs.length

variable {offered : Set Transaction}

theorem Traced.empty (offered : Set Transaction) (maxBytes : Nat) : Traced offered { maxBytes } := by
  constructor
  · intro id entry found
    cases found
  · intro parent child member
    cases member

theorem Traced.removeOne (traced : Traced offered pool) (indexed : Indexed pool) (id : Hash256) :
    Traced offered (pool.removeOne id) := by
  cases found : pool.entries.lookup id with
  | none => rwa [removeOne_of_none found]
  | some entry =>
    rw [removeOne_eq found (indexed.entry id entry found)]
    constructor
    · intro other kept here
      exact traced.entry other kept (erase_within _ _ _ _ here)
    · intro parent child member
      rw [parentsOf, lookup_erase_eq] at member
      split at member
      · cases member
      · rename_i kept
        obtain ⟨different, tx, known, fits, same, outpoint, spends, rest⟩ :=
          traced.parent parent child member
        exact ⟨different, tx, known, fits, same, outpoint, spends_erase.mpr ⟨kept, spends⟩, rest⟩

theorem Removed.traced (removed : Removed before after) (traced : Traced offered before)
    (indexed : Indexed before) : Traced offered after := by
  induction removed with
  | refl => exact traced
  | one removed id ih => exact ih.removeOne (removed.indexed indexed) id
  | remember _ own ih => exact ⟨ih.entry, ih.parent⟩

/-! ## The newcomer's tables -/

/-- What the checks before an entry established, over the entries alone. -/
structure Enters (entries : FiniteMap Hash256 MempoolEntry) (admission : Admission) : Prop where
  fresh : entries.lookup admission.entry.tx.txid = none
  entry : EntryOf admission.entry.tx.txid admission.entry
  unspent : ∀ outpoint ∈ admission.entry.tx.inputs.map TxIn.prevOut, ∀ id,
    ¬ Spends entries id outpoint
  parents : ∀ parent, parent ∈ admission.parents ↔
    ∃ outpoint ∈ admission.entry.tx.inputs.map TxIn.prevOut, outpoint.txid = parent ∧
      (outputAt entries outpoint).isSome = true
  registered : admission.registered = registrationOf admission.entry.tx
  unnamed : ∀ registered, admission.registered = some registered → ∀ id other,
    Registers entries id other → skeleton other.name ≠ skeleton registered.name

variable {admission : Admission}

/-- The spenders once the newcomer is recorded. -/
def spenders (pool : Mempool) (admission : Admission) : FiniteMap OutPoint Hash256 :=
  admission.entry.tx.inputs.foldl (fun committed input =>
    committed.insert input.prevOut admission.entry.tx.txid) pool.committed

/-- The entries that wait for an output of the newcomer. -/
def adoptees (pool : Mempool) (admission : Admission) : List Hash256 :=
  pool.adopted admission.entry.tx.txid (pool.spenders admission) admission.entry.tx.outputs.length

/-- The tables of the parents once they are linked to the newcomer. -/
def linked (pool : Mempool) (admission : Admission) : ParentTables :=
  (sortedUnique admission.parents).foldl (linkParent pool.entries admission.entry.tx.txid)
    ⟨pool.children, pool.evictable⟩

theorem Enters.parent_ne (enters : Enters pool.entries admission) {parent : Hash256}
    (member : parent ∈ admission.parents) : parent ≠ admission.entry.tx.txid := by
  rintro rfl
  obtain ⟨outpoint, _, here, created⟩ := (enters.parents _).mp member
  rw [outputAt, here, enters.fresh] at created
  cases created

section
variable (indexed : Indexed pool) (enters : Enters pool.entries admission)
include indexed enters

theorem Indexed.committed_entered (outpoint : OutPoint) (spender : Hash256) :
    (pool.spenders admission).lookup outpoint = some spender ↔
      Spends (pool.entries.insert admission.entry.tx.txid admission.entry) spender outpoint := by
  rw [spenders, lookup_commit, spends_insert enters.fresh]
  split
  · rename_i spent
    constructor
    · intro same
      exact .inl ⟨(Option.some.inj same).symm, spent⟩
    · rintro (⟨rfl, _⟩ | spends)
      · rfl
      · exact (enters.unspent outpoint spent spender spends).elim
  · rename_i other
    rw [indexed.committed]
    exact ⟨.inr, fun both => both.resolve_left fun own => other own.2⟩

theorem Indexed.mem_adoptees (child : Hash256) :
    child ∈ pool.adoptees admission ↔
      child ≠ admission.entry.tx.txid ∧ ∃ outpoint, Spends pool.entries child outpoint ∧
        outpoint.txid = admission.entry.tx.txid ∧
          outpoint.index.toNat < admission.entry.tx.outputs.length := by
  have few := enters.entry.few
  rw [adoptees, adopted, sortedUnique, mem_listing, mem_toFinset, mem_filter, mem_filterMap,
    Bool.and_eq_true, bne_iff_ne]
  constructor
  · rintro ⟨⟨index, inRange, held⟩, different, _⟩
    have inside := mem_range.mp inRange
    have spends := (spends_insert enters.fresh).mp
      ((indexed.committed_entered enters _ _).mp held)
    refine ⟨different, _, spends.resolve_left fun own => different own.1, rfl, ?_⟩
    rwa [UInt32.toNat_ofNat_of_lt' (by show index < 2 ^ 32; omega)]
  · rintro ⟨different, outpoint, spends, here, inside⟩
    have member : (pool.entries.lookup child).isSome = true := by
      obtain ⟨entry, found, _⟩ := spends
      rw [found]
      rfl
    refine ⟨⟨outpoint.index.toNat, mem_range.mpr inside, ?_⟩, different, member⟩
    have same : (⟨admission.entry.tx.txid, UInt32.ofNat outpoint.index.toNat⟩ : OutPoint) =
        outpoint := by
      rw [← here, UInt32.ofNat_toNat]
    rw [same]
    exact (indexed.committed_entered enters _ _).mpr ((spends_insert enters.fresh).mpr (.inr spends))

/-- The newcomer's relations: its parents in the pool and the children waiting for it. -/
theorem Indexed.parentOf_entered (parent child : Hash256) :
    ParentOf (pool.entries.insert admission.entry.tx.txid admission.entry) parent child ↔
      ParentOf pool.entries parent child ∨
        (child = admission.entry.tx.txid ∧ parent ∈ admission.parents) ∨
        (parent = admission.entry.tx.txid ∧ child ∈ pool.adoptees admission) := by
  rw [indexed.mem_adoptees enters]
  constructor
  · rintro ⟨different, outpoint, spends, rfl, created⟩
    rw [outputAt_insert] at created
    rcases (spends_insert enters.fresh).mp spends with ⟨rfl, spent⟩ | spends
    · rw [if_neg different] at created
      exact .inr (.inl ⟨rfl, (enters.parents _).mpr ⟨outpoint, spent, rfl, created⟩⟩)
    · by_cases own : outpoint.txid = admission.entry.tx.txid
      · rw [if_pos own] at created
        refine .inr (.inr ⟨own, fun same => different (own.trans same.symm), outpoint, spends,
          own, ?_⟩)
        obtain ⟨output, placed⟩ := Option.isSome_iff_exists.mp created
        exact (List.getElem?_eq_some_iff.mp placed).1
      · rw [if_neg own] at created
        exact .inl ⟨different, outpoint, spends, rfl, created⟩
  · rintro (related | ⟨rfl, member⟩ | ⟨rfl, different, outpoint, spends, here, inside⟩)
    · exact related.mono (within_insert enters.fresh _)
    · have different := enters.parent_ne member
      obtain ⟨outpoint, spent, rfl, created⟩ := (enters.parents _).mp member
      refine ⟨different, outpoint, (spends_insert enters.fresh).mpr (.inl ⟨rfl, spent⟩), rfl, ?_⟩
      rwa [outputAt_insert, if_neg different]
    · refine ⟨different.symm, outpoint, (spends_insert enters.fresh).mpr (.inr spends), here, ?_⟩
      rw [outputAt_insert, if_pos here, getElem?_eq_getElem inside]
      rfl

end

section
variable (pool : Mempool) (admission : Admission) (height : Nat)

theorem enter_children :
    (pool.enter admission height).children =
      if (pool.adoptees admission).isEmpty then (pool.linked admission).children
      else (pool.linked admission).children.insert admission.entry.tx.txid
        (((pool.linked admission).children.lookup admission.entry.tx.txid).getD [] ++
          pool.adoptees admission) := rfl

theorem enter_evictable :
    (pool.enter admission height).evictable =
      if admission.entry.ordinary && (pool.adoptees admission).isEmpty then
        insert (evictionKey admission.entry.tx.txid admission.entry)
          (pool.linked admission).evictable
      else (pool.linked admission).evictable := rfl

theorem mem_childrenOf_enter (parent child : Hash256) :
    child ∈ (pool.enter admission height).childrenOf parent ↔
      child ∈ pool.childrenOf parent ∨
        (parent ∈ admission.parents ∧ child = admission.entry.tx.txid) ∨
        (parent = admission.entry.tx.txid ∧ child ∈ pool.adoptees admission) := by
  have link := linkParents_children pool.entries admission.entry.tx.txid
    (sortedUnique admission.parents) ⟨pool.children, pool.evictable⟩ parent child
  rw [mem_sortedUnique] at link
  rw [childrenOf, childrenOf, ← or_assoc, ← link, enter_children]
  split
  · rename_i nobody
    rw [List.isEmpty_iff.mp nobody]
    simp [Mempool.linked]
  · rw [lookup_insert_eq]
    split
    · rename_i own
      subst own
      rw [Option.getD_some, mem_append]
      simp [Mempool.linked]
    · rename_i other
      simp [other, Mempool.linked]

theorem mem_parentsOf_enter (parent child : Hash256) :
    parent ∈ (pool.enter admission height).parentsOf child ↔
      (child ∈ pool.adoptees admission ∧ parent = admission.entry.tx.txid) ∨
        if child = admission.entry.tx.txid then parent ∈ admission.parents
        else parent ∈ pool.parentsOf child := by
  rw [or_comm]
  refine (adoptChildren_parents admission.entry.tx.txid (pool.adoptees admission)
    (pool.parents.insert admission.entry.tx.txid (sortedUnique admission.parents)) child
    parent).trans (or_congr_left ?_)
  rw [lookup_insert_eq]
  split
  · rw [Option.getD_some, mem_sortedUnique]
  · exact Iff.rfl

theorem mem_evictable_enter (key : EvictionKey) :
    key ∈ (pool.enter admission height).evictable ↔
      (key = evictionKey admission.entry.tx.txid admission.entry ∧
          admission.entry.ordinary = true ∧ pool.adoptees admission = []) ∨
        (key ∈ pool.evictable ∧ ∀ parent ∈ admission.parents, ∀ entry,
          pool.entries.lookup parent = some entry → key ≠ evictionKey parent entry) := by
  have link := linkParents_evictable pool.entries admission.entry.tx.txid
    (sortedUnique admission.parents) ⟨pool.children, pool.evictable⟩ key
  have leaf : (admission.entry.ordinary && (pool.adoptees admission).isEmpty) = true ↔
      admission.entry.ordinary = true ∧ pool.adoptees admission = [] := by
    rw [Bool.and_eq_true, List.isEmpty_iff]
  simp only [mem_sortedUnique] at link
  rw [← link, enter_evictable]
  split
  · rename_i free
    rw [Finset.mem_insert, and_iff_left (leaf.mp free)]
    exact Iff.rfl
  · rename_i kept
    exact ⟨.inr, fun both => both.resolve_left fun own => kept (leaf.mpr own.2)⟩

end

section
variable (indexed : Indexed pool) (enters : Enters pool.entries admission)
include indexed enters

/-- The parents of the newcomer and of its children, whatever left the pool before. -/
theorem Indexed.parents_entered (traced : Traced offered pool) (apart : OfferedApart offered)
    (known : admission.entry.tx ∈ offered) (fits : admission.entry.tx.Fits) (height : Nat)
    (parent child : Hash256) :
    (parent ∈ (pool.enter admission height).parentsOf child ∧
        ((pool.enter admission height).entries.lookup parent).isSome = true) ↔
      ParentOf (pool.entries.insert admission.entry.tx.txid admission.entry) parent child := by
  rw [mem_parentsOf_enter, indexed.parentOf_entered enters]
  change _ ∧ (Finmap.lookup parent (pool.entries.insert _ _)).isSome = true ↔ _
  rw [lookup_insert_eq]
  constructor
  · rintro ⟨⟨adoptee, rfl⟩ | recorded, present⟩
    · exact .inr (.inr ⟨rfl, adoptee⟩)
    · split at recorded
      · rename_i own
        exact .inr (.inl ⟨own, recorded⟩)
      · by_cases stale : parent = admission.entry.tx.txid
        · obtain ⟨different, tx, offeredTx, txFits, same, outpoint, spends, here, inside⟩ :=
            traced.parent parent child recorded
          refine .inr (.inr ⟨stale, (indexed.mem_adoptees enters child).mpr
            ⟨fun again => different (stale.trans again.symm), outpoint, spends,
              here.trans stale, ?_⟩⟩)
          rwa [apart.outputs_eq known offeredTx fits txFits (stale.symm.trans same.symm)]
        · rw [if_neg stale] at present
          exact .inl ((indexed.parents parent child).mp ⟨recorded, present⟩)
  · rintro (related | ⟨rfl, member⟩ | ⟨rfl, adoptee⟩)
    · obtain ⟨recorded, present⟩ := (indexed.parents parent child).mpr related
      have newcomer : child ≠ admission.entry.tx.txid := by
        rintro rfl
        have inside := related.child_mem
        rw [enters.fresh] at inside
        cases inside
      refine ⟨.inr ?_, ?_⟩
      · rwa [if_neg newcomer]
      · split
        · rfl
        · exact present
    · refine ⟨.inr (by rw [if_pos rfl]; exact member), ?_⟩
      rw [if_neg (enters.parent_ne member)]
      obtain ⟨outpoint, _, rfl, created⟩ := (enters.parents parent).mp member
      exact creator_mem created
    · exact ⟨.inl ⟨adoptee, rfl⟩, by rw [if_pos rfl]; rfl⟩

theorem Indexed.evictable_entered (height : Nat) (key : EvictionKey) :
    key ∈ (pool.enter admission height).evictable ↔
      LeafKey (pool.entries.insert admission.entry.tx.txid admission.entry) key := by
  rw [mem_evictable_enter, indexed.evictable]
  unfold LeafKey
  simp only [indexed.parentOf_entered enters]
  constructor
  · rintro (⟨rfl, ordinary, nobody⟩ | ⟨⟨leaf, entry, found, ordinary, childless, rfl⟩, other⟩)
    · refine ⟨_, _, lookup_insert_eq _ _ _ _ |>.trans (if_pos rfl), ordinary, ?_, rfl⟩
      rintro child (related | ⟨_, member⟩ | ⟨_, adoptee⟩)
      · have inside := related.parent_mem
        rw [enters.fresh] at inside
        cases inside
      · exact enters.parent_ne member rfl
      · rw [nobody] at adoptee
        cases adoptee
    · have different : leaf ≠ admission.entry.tx.txid := by
        rintro rfl
        rw [enters.fresh] at found
        cases found
      refine ⟨leaf, entry, ?_, ordinary, ?_, rfl⟩
      · rwa [lookup_insert_eq, if_neg different]
      · rintro child (related | ⟨_, member⟩ | ⟨own, _⟩)
        · exact childless child related
        · exact other leaf member entry found rfl
        · exact different own
  · rintro ⟨leaf, entry, found, ordinary, childless, rfl⟩
    rw [lookup_insert_eq] at found
    split at found
    · rename_i own
      cases found
      refine .inl ⟨by rw [own], ordinary, ?_⟩
      refine eq_nil_iff_forall_not_mem.mpr fun child adoptee => ?_
      exact childless child (.inr (.inr ⟨own, adoptee⟩))
    · refine .inr ⟨⟨leaf, entry, found, ordinary, fun child related =>
        childless child (.inl related), rfl⟩, ?_⟩
      intro parent member holder _ same
      exact childless admission.entry.tx.txid
        (.inr (.inl ⟨rfl, evictionKey_id same ▸ member⟩))

theorem Indexed.names_entered (height : Nat) (text name : Bytes) (holder : Hash256) :
    (pool.enter admission height).pendingNames.lookup text = some (name, holder) ↔
      ∃ registered,
        Registers (pool.entries.insert admission.entry.tx.txid admission.entry) holder registered ∧
          skeleton registered.name = text ∧ registered.name = name := by
  simp only [registers_insert enters.fresh]
  rw [← enters.registered]
  have before := indexed.pendingNames text name holder
  cases carried : admission.registered with
  | none =>
    have unchanged : (pool.enter admission height).pendingNames = pool.pendingNames := by
      simp only [enter, carried]
    rw [unchanged, before]
    simp
  | some own =>
    have named : (pool.enter admission height).pendingNames = pool.pendingNames.insert
        (skeleton own.name) (own.name, admission.entry.tx.txid) := by
      simp only [enter, carried]
    rw [named, lookup_insert_eq]
    split
    · rename_i here
      subst here
      rw [Option.some.injEq, Prod.mk.injEq]
      constructor
      · rintro ⟨rfl, rfl⟩
        exact ⟨own, .inl ⟨rfl, rfl⟩, rfl, rfl⟩
      · rintro ⟨registered, ⟨rfl, same⟩ | registers, alike, rfl⟩
        · cases same
          exact ⟨rfl, rfl⟩
        · exact (enters.unnamed own carried holder registered registers alike).elim
    · rename_i other
      rw [before]
      constructor
      · rintro ⟨registered, registers, same⟩
        exact ⟨registered, .inr registers, same⟩
      · rintro ⟨registered, ⟨_, same⟩ | registers, alike, rest⟩
        · cases same
          exact (other alike.symm).elim
        · exact ⟨registered, registers, alike, rest⟩

theorem Indexed.owned_entered (height : Nat) (owner : Hash256) :
    (pool.enter admission height).pendingOwned.lookup owner =
      if pendingFor (pool.entries.insert admission.entry.tx.txid admission.entry) owner = 0 then none
      else some (pendingFor (pool.entries.insert admission.entry.tx.txid admission.entry) owner) := by
  have counted : pendingFor (pool.entries.insert admission.entry.tx.txid admission.entry) owner =
      registersFor owner admission.entry + pendingFor pool.entries owner :=
    total_insert_of_notMem (registersFor owner) (Finmap.lookup_eq_none.mp enters.fresh) _
  have before := indexed.pendingOwned owner
  rw [counted, registersFor, ← enters.registered]
  cases carried : admission.registered with
  | none =>
    have unchanged : (pool.enter admission height).pendingOwned = pool.pendingOwned := by
      simp only [enter, carried]
    rw [unchanged, before]
    simp
  | some own =>
    have counts : (pool.enter admission height).pendingOwned = pool.pendingOwned.insert own.owner
        ((pool.pendingOwned.lookup own.owner).getD 0 + 1) := by
      simp only [enter, carried]
    rw [counts, lookup_insert_eq]
    split
    · rename_i here
      subst here
      have positive : ¬ 1 + pendingFor pool.entries own.owner = 0 := by omega
      rw [before]
      simp only [Option.any_some, beq_self_eq_true, if_true]
      split
      · rename_i nobody
        rw [nobody]
        rfl
      · rw [Option.getD_some, Nat.add_comm]
    · rename_i other
      rw [before]
      simp [Ne.symm other]

/-- One entry keeps every table. -/
theorem Indexed.enter (traced : Traced offered pool) (apart : OfferedApart offered)
    (known : admission.entry.tx ∈ offered) (fits : admission.entry.tx.Fits) (height : Nat) :
    Indexed (pool.enter admission height) := by
  have madeAt := fun outpoint => lookup_createMap_at pool.created admission.entry.tx.txid
    (height + 1) false fits.outputs outpoint
  have nothing : ∀ outpoint, outpoint.txid = admission.entry.tx.txid →
      pool.created.lookup outpoint = none := by
    intro outpoint own
    have created := indexed.created outpoint
    rw [outputAt, own, enters.fresh] at created
    exact Option.map_eq_none_iff.mp created
  refine
    { entry := ?_
      committed := indexed.committed_entered enters
      created := ?_
      plain := ?_
      children := ?_
      parents := indexed.parents_entered enters traced apart known fits height
      evictable := indexed.evictable_entered enters height
      bytes := ?_
      pendingNames := indexed.names_entered enters height
      pendingOwned := indexed.owned_entered enters height }
  · intro id entry found
    change Finmap.lookup id (pool.entries.insert _ _) = some entry at found
    rw [lookup_insert_eq] at found
    split at found
    · rename_i own
      cases found
      exact own ▸ enters.entry
    · exact indexed.entry id entry found
  · intro outpoint
    change Option.map _ (Finmap.lookup outpoint (UtxoSet.createMap _ _ _ _ _ _)) =
      outputAt (pool.entries.insert _ _) outpoint
    rw [madeAt, outputAt_insert]
    split
    · rename_i own
      rw [nothing outpoint own, Option.or_none, Option.map_map]
      exact Option.map_id'
    · exact indexed.created outpoint
  · intro outpoint entry found
    change Finmap.lookup outpoint (UtxoSet.createMap _ _ _ _ _ _) = some entry at found
    rw [madeAt] at found
    split at found
    · rename_i own
      rw [nothing outpoint own, Option.or_none] at found
      obtain ⟨output, _, rfl⟩ := Option.map_eq_some_iff.mp found
      rfl
    · exact indexed.plain outpoint entry found
  · intro parent child
    change _ ↔ ParentOf (pool.entries.insert _ _) parent child
    rw [mem_childrenOf_enter, indexed.parentOf_entered enters, indexed.children]
    tauto
  · change pool.bytes + admission.entry.size = total _ (pool.entries.insert _ _)
    rw [total_insert_of_notMem _ (Finmap.lookup_eq_none.mp enters.fresh), indexed.bytes,
      Nat.add_comm]

theorem Traced.enter (traced : Traced offered pool) (known : admission.entry.tx ∈ offered)
    (fits : admission.entry.tx.Fits) (height : Nat) :
    Traced offered (pool.enter admission height) := by
  have larger := within_insert enters.fresh admission.entry
  constructor
  · intro id entry found
    change Finmap.lookup id (pool.entries.insert _ _) = some entry at found
    rw [lookup_insert_eq] at found
    split at found
    · cases found
      exact ⟨known, fits⟩
    · exact traced.entry id entry found
  · intro parent child member
    rcases (mem_parentsOf_enter pool admission height parent child).mp member with
      ⟨adoptee, rfl⟩ | recorded
    · obtain ⟨different, outpoint, spends, rest⟩ := (indexed.mem_adoptees enters child).mp adoptee
      exact ⟨different.symm, _, known, fits, rfl, outpoint, spends.mono larger, rest⟩
    · split at recorded
      · rename_i own
        have different := enters.parent_ne recorded
        obtain ⟨outpoint, spent, rfl, created⟩ := (enters.parents parent).mp recorded
        obtain ⟨output, created⟩ := Option.isSome_iff_exists.mp created
        obtain ⟨entry, found, placed⟩ := Option.bind_eq_some_iff.mp created
        obtain ⟨offeredTx, txFits⟩ := traced.entry _ entry found
        refine ⟨fun same => different (same.trans own), entry.tx, offeredTx, txFits,
          (indexed.entry _ entry found).identified, outpoint, ?_, rfl,
          (List.getElem?_eq_some_iff.mp placed).1⟩
        exact (spends_insert enters.fresh).mpr (.inl ⟨own, spent⟩)
      · obtain ⟨different, tx, offeredTx, txFits, same, outpoint, spends, rest⟩ :=
          traced.parent parent child recorded
        exact ⟨different, tx, offeredTx, txFits, same, outpoint, spends.mono larger, rest⟩

end

end Entry

end Mempool

end Q21Formal.Ledger

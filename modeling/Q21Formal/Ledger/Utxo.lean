import Q21Formal.Ledger.Block

/-!
# The set of unspent outputs

The output set with its two side indices, the outpoints of each key hash and the registered names,
what a transaction does to it, and the record that undoes a block.  The map determines both indices.
-/

namespace Q21Formal.Ledger
open Library.Listing Library.Maps Primitives List

structure UtxoEntry where
  output : TxOut
  height : Nat
  isCoinbase : Bool
deriving DecidableEq

/-- The value of an entry in units. -/
def UtxoEntry.value (entry : UtxoEntry) : Nat := entry.output.value.toNat

structure UtxoSet where
  map : FiniteMap OutPoint UtxoEntry := ∅
  byPubkeyHash : FiniteMap Hash256 (Finset OutPoint) := ∅
  names : NameIndex := {}

/-- What undoes the transactions of one block. -/
structure UndoRecord where
  spent : List (OutPoint × UtxoEntry) := []
  created : List OutPoint := []

namespace UtxoSet

section
variable (utxo : UtxoSet) (outpoint : OutPoint) (entry : UtxoEntry) (keyHash : Hash256)
  (map : FiniteMap OutPoint UtxoEntry) (names : NameIndex)

def lookup (utxo : UtxoSet) (outpoint : OutPoint) : Option UtxoEntry := utxo.map.lookup outpoint

/-- The tag and key outpoints of the pair a name output belongs to. -/
def namePair : Option (OutPoint × OutPoint) :=
  match entry.output.scheme with
  | .nameTag =>
    if outpoint.index.toNat + 1 < 2 ^ 32 then
      some (outpoint, ⟨outpoint.txid, outpoint.index + 1⟩)
    else none
  | .nameKey =>
    if 0 < outpoint.index.toNat then some (⟨outpoint.txid, outpoint.index - 1⟩, outpoint)
    else none
  | _ => none

def unindex (byPubkeyHash : FiniteMap Hash256 (Finset OutPoint)) (keyHash : Hash256)
    (outpoint : OutPoint) : FiniteMap Hash256 (Finset OutPoint) :=
  match byPubkeyHash.lookup keyHash with
  | none => byPubkeyHash
  | some outpoints =>
    if outpoints.erase outpoint = ∅ then byPubkeyHash.erase keyHash
    else byPubkeyHash.insert keyHash (outpoints.erase outpoint)

/-- Both outputs of a pair are in `map`: the name is recorded. -/
def indexName (outpoint : OutPoint) (entry : UtxoEntry) : NameIndex :=
  match namePair outpoint entry with
  | none => names
  | some (tag, key) =>
    match map.lookup tag, map.lookup key with
    | some tagEntry, some keyEntry =>
      if tagEntry.output.scheme = .nameTag ∧ keyEntry.output.scheme = .nameKey then
        names.add tag tagEntry.output.pubkeyHash keyEntry.output.pubkeyHash tagEntry.height
      else names
    | _, _ => names

def unindexName (outpoint : OutPoint) (entry : UtxoEntry) : NameIndex :=
  match namePair outpoint entry with
  | none => names
  | some (tag, _) => names.removeTag tag

def insert (utxo : UtxoSet) (outpoint : OutPoint) (entry : UtxoEntry) : UtxoSet :=
  let map := utxo.map.insert outpoint entry
  -- The entry replaced, if any, leaves the index it was in.
  let cleared : UtxoSet :=
    match utxo.map.lookup outpoint with
    | none => { utxo with map }
    | some previous =>
      if previous.output.scheme.isName then
        { utxo with map, names := unindexName utxo.names outpoint previous }
      else if previous.output.pubkeyHash ≠ entry.output.pubkeyHash ∨
          entry.output.scheme.isName = true then
        { utxo with
          map, byPubkeyHash := unindex utxo.byPubkeyHash previous.output.pubkeyHash outpoint }
      else { utxo with map }
  if entry.output.scheme.isName then
    { cleared with names := indexName map cleared.names outpoint entry }
  else
    let keyHash := entry.output.pubkeyHash
    { cleared with
      byPubkeyHash := cleared.byPubkeyHash.insert keyHash
        (Insert.insert outpoint ((cleared.byPubkeyHash.lookup keyHash).getD ∅)) }

def remove : UtxoSet :=
  match utxo.map.lookup outpoint with
  | none => utxo
  | some entry =>
    let map := utxo.map.erase outpoint
    if entry.output.scheme.isName then
      { utxo with map, names := unindexName utxo.names outpoint entry }
    else
      { utxo with
        map, byPubkeyHash := unindex utxo.byPubkeyHash entry.output.pubkeyHash outpoint }

/-- The sum of the values of all outputs. -/
def totalValue : Nat := total UtxoEntry.value utxo.map

@[simp] theorem insert_map : (utxo.insert outpoint entry).map = utxo.map.insert outpoint entry := by
  unfold insert
  split <;> split <;> first | rfl | (split <;> first | rfl | (split <;> rfl))

@[simp] theorem remove_map : (utxo.remove outpoint).map = utxo.map.erase outpoint := by
  unfold remove
  split
  · rename_i missing
    exact (erase_of_lookup_none missing).symm
  · split <;> rfl

/-- `spendable_for`: the outputs of a key hash, less the coinbases still maturing. -/
def spendableFor (height maturity : Nat) : List (OutPoint × UtxoEntry) :=
  match utxo.byPubkeyHash.lookup keyHash with
  | none => []
  | some points =>
    ((listing points).filterMap fun outpoint =>
      (utxo.map.lookup outpoint).map fun entry => (outpoint, entry)).filter
      fun coin => !coin.2.isCoinbase || decide (coin.2.height + maturity ≤ height)

/-- The inputs of a transaction leave the set, each noted for the undo. -/
def spendInputs (utxo : UtxoSet) (undo : UndoRecord) : List TxIn → UtxoSet × UndoRecord
  | [] => (utxo, undo)
  | input :: rest =>
    match utxo.map.lookup input.prevOut with
    | none => spendInputs (utxo.remove input.prevOut) undo rest
    | some entry =>
      spendInputs (utxo.remove input.prevOut)
        { undo with spent := undo.spent ++ [(input.prevOut, entry)] } rest

/-- The outputs from position `index` on enter the set. -/
def createOutputs (utxo : UtxoSet) (undo : UndoRecord) (txid : Hash256) (height : Nat)
    (coinbase : Bool) : Nat → List TxOut → UtxoSet × UndoRecord
  | _, [] => (utxo, undo)
  | index, output :: rest =>
    let outpoint : OutPoint := ⟨txid, UInt32.ofNat index⟩
    createOutputs (utxo.insert outpoint ⟨output, height, coinbase⟩)
      { undo with created := undo.created ++ [outpoint] } txid height coinbase (index + 1) rest

/-- The entries a transaction's outputs add to a map, from position `index` on. -/
def createMap (map : FiniteMap OutPoint UtxoEntry) (txid : Hash256) (height : Nat)
    (coinbase : Bool) : Nat → List TxOut → FiniteMap OutPoint UtxoEntry
  | _, [] => map
  | index, output :: rest =>
    createMap (map.insert ⟨txid, UInt32.ofNat index⟩ ⟨output, height, coinbase⟩) txid height
      coinbase (index + 1) rest

end

section Apply
variable [Crypto]

def applyTransaction (utxo : UtxoSet) (undo : UndoRecord) (tx : Transaction) (height : Nat) :
    UtxoSet × UndoRecord :=
  let (utxo, undo) := if tx.isCoinbase then (utxo, undo) else utxo.spendInputs undo tx.inputs
  utxo.createOutputs undo tx.txid height tx.isCoinbase 0 tx.outputs

def applyTransactions (utxo : UtxoSet) (undo : UndoRecord) (height : Nat) :
    List Transaction → UtxoSet × UndoRecord
  | [] => (utxo, undo)
  | tx :: rest =>
    let (utxo, undo) := utxo.applyTransaction undo tx height
    utxo.applyTransactions undo height rest

end Apply

section
variable (utxo : UtxoSet) (map : FiniteMap OutPoint UtxoEntry) (txid : Hash256) (height : Nat)
  (coinbase : Bool) (index : Nat) (outputs : List TxOut)

/-- `UtxoSet::undo`: what the block created goes, what it spent and did not create comes back. -/
def undo (record : UndoRecord) : UtxoSet :=
  let cleared := record.created.foldl UtxoSet.remove utxo
  record.spent.foldl
    (fun utxo entry => if entry.1 ∈ record.created then utxo else utxo.insert entry.1 entry.2)
    cleared

theorem createOutputs_map (undo : UndoRecord) (txid : Hash256) (height : Nat) (coinbase : Bool)
    (index : Nat) (outputs : List TxOut) :
    (utxo.createOutputs undo txid height coinbase index outputs).1.map =
      createMap utxo.map txid height coinbase index outputs := by
  induction outputs generalizing utxo undo index with
  | nil => rfl
  | cons output rest ih => rw [createOutputs, ih, insert_map, createMap]

theorem spendInputs_map (undo : UndoRecord) (inputs : List TxIn) :
    (utxo.spendInputs undo inputs).1.map =
      inputs.foldl (fun map input => map.erase input.prevOut) utxo.map := by
  induction inputs generalizing utxo undo with
  | nil => rfl
  | cons input rest ih =>
    rw [spendInputs]
    split <;> rw [ih, remove_map, foldl_cons]

/-- What a transaction creates hides what the map held, and only that. -/
theorem lookup_createMap (query : OutPoint) :
    (createMap map txid height coinbase index outputs).lookup query =
      ((createMap ∅ txid height coinbase index outputs).lookup query).or (map.lookup query) := by
  induction outputs generalizing map index with
  | nil => rw [createMap, createMap, Finmap.lookup_empty, Option.none_or]
  | cons output rest ih =>
    rw [createMap, createMap, ih (map.insert _ _), ih (Finmap.insert _ _ ∅), Option.or_assoc,
      lookup_insert_eq, lookup_insert_eq]
    split <;> simp

theorem total_createMap_le :
    total UtxoEntry.value (createMap map txid height coinbase index outputs) ≤
      total UtxoEntry.value map + (outputs.map fun output => output.value.toNat).sum := by
  induction outputs generalizing map index with
  | nil => exact Nat.le_refl _
  | cons output rest ih =>
    have inserted := total_insert_le UtxoEntry.value map ⟨txid, UInt32.ofNat index⟩
      ⟨output, height, coinbase⟩
    have created := ih (map.insert ⟨txid, UInt32.ofNat index⟩ ⟨output, height, coinbase⟩)
      (index + 1)
    have held : UtxoEntry.value ⟨output, height, coinbase⟩ = output.value.toNat := rfl
    rw [createMap, map_cons, sum_cons]
    omega

/-- `record` tells how `now` came from `before`: outputs outside `created` were there, and so was
every spent output the block did not create. -/
structure Undoes (before now : FiniteMap OutPoint UtxoEntry) (record : UndoRecord) : Prop where
  kept : ∀ outpoint entry, outpoint ∉ record.created →
    now.lookup outpoint = some entry → before.lookup outpoint = some entry
  spent : ∀ outpoint entry, (outpoint, entry) ∈ record.spent → outpoint ∉ record.created →
    before.lookup outpoint = some entry

theorem Undoes.refl : Undoes map map {} :=
  ⟨fun _ _ _ found => found, fun _ _ member => absurd member not_mem_nil⟩

end

section Steps
variable {before : FiniteMap OutPoint UtxoEntry} {utxo : UtxoSet} {record : UndoRecord}

theorem Undoes.spendInputs (undoes : Undoes before utxo.map record) (inputs : List TxIn) :
    Undoes before (utxo.spendInputs record inputs).1.map (utxo.spendInputs record inputs).2 := by
  induction inputs generalizing utxo record with
  | nil => exact undoes
  | cons input rest ih =>
    have shrunk : ∀ outpoint entry, outpoint ∉ record.created →
        (utxo.remove input.prevOut).map.lookup outpoint = some entry →
        before.lookup outpoint = some entry := by
      intro outpoint entry outside found
      rw [remove_map] at found
      exact undoes.kept outpoint entry outside (erase_within _ _ outpoint entry found)
    rw [UtxoSet.spendInputs]
    split
    · exact ih ⟨shrunk, undoes.spent⟩
    · rename_i spentEntry present
      refine ih ⟨shrunk, ?_⟩
      intro outpoint entry member outside
      rcases mem_append.mp member with earlier | last
      · exact undoes.spent outpoint entry earlier outside
      · obtain ⟨rfl, rfl⟩ : outpoint = input.prevOut ∧ entry = spentEntry := by
          simpa using last
        exact undoes.kept _ _ outside present

theorem Undoes.createOutputs (undoes : Undoes before utxo.map record) (txid : Hash256)
    (height : Nat) (coinbase : Bool) (index : Nat) (outputs : List TxOut) :
    Undoes before (utxo.createOutputs record txid height coinbase index outputs).1.map
      (utxo.createOutputs record txid height coinbase index outputs).2 := by
  induction outputs generalizing utxo record index with
  | nil => exact undoes
  | cons output rest ih =>
    refine ih ⟨?_, ?_⟩ (index + 1)
    · intro outpoint entry outside found
      simp only [mem_append, mem_singleton, not_or] at outside
      rw [insert_map, lookup_insert_eq, if_neg outside.2] at found
      exact undoes.kept outpoint entry outside.1 found
    · intro outpoint entry member outside
      simp only [mem_append, not_or] at outside
      exact undoes.spent outpoint entry member outside.1

variable [Crypto]

theorem Undoes.applyTransaction (undoes : Undoes before utxo.map record) (tx : Transaction)
    (height : Nat) :
    Undoes before (utxo.applyTransaction record tx height).1.map
      (utxo.applyTransaction record tx height).2 := by
  unfold UtxoSet.applyTransaction
  cases tx.isCoinbase with
  | true => exact undoes.createOutputs _ _ _ _ _
  | false => exact (undoes.spendInputs tx.inputs).createOutputs _ _ _ _ _

theorem Undoes.applyTransactions (undoes : Undoes before utxo.map record) (height : Nat)
    (transactions : List Transaction) :
    Undoes before (utxo.applyTransactions record height transactions).1.map
      (utxo.applyTransactions record height transactions).2 := by
  induction transactions generalizing utxo record with
  | nil => exact undoes
  | cons tx rest ih => exact ih (undoes.applyTransaction tx height)

end Steps

section
variable (utxo : UtxoSet) (map : FiniteMap OutPoint UtxoEntry) (outpoints : List OutPoint)
  (record : UndoRecord)

/-! The map of an undone set, computed on maps alone. -/

theorem foldl_remove_map :
    (outpoints.foldl UtxoSet.remove utxo).map =
      outpoints.foldl (fun map outpoint => map.erase outpoint) utxo.map := by
  induction outpoints generalizing utxo with
  | nil => rfl
  | cons outpoint rest ih => rw [foldl_cons, ih, remove_map, foldl_cons]

theorem lookup_foldl_erase (query : OutPoint) :
    (outpoints.foldl (fun map outpoint => map.erase outpoint) map).lookup query =
      if query ∈ outpoints then none else map.lookup query := by
  induction outpoints generalizing map with
  | nil => simp
  | cons outpoint rest ih =>
    rw [foldl_cons, ih, lookup_erase_eq]
    by_cases inRest : query ∈ rest <;> by_cases same : query = outpoint <;> simp [inRest, same]

/-- The entries put back by an undo, over any map. -/
def restoreSpent (map : FiniteMap OutPoint UtxoEntry) (entry : OutPoint × UtxoEntry) :
    FiniteMap OutPoint UtxoEntry :=
  if entry.1 ∈ record.created then map else map.insert entry.1 entry.2

theorem undo_map : (utxo.undo record).map =
      record.spent.foldl (restoreSpent record)
        (record.created.foldl (fun map outpoint => map.erase outpoint) utxo.map) := by
  unfold undo
  rw [← foldl_remove_map]
  generalize record.created.foldl UtxoSet.remove utxo = cleared
  have restored : ∀ entries : List (OutPoint × UtxoEntry), ∀ start : UtxoSet,
      (entries.foldl (fun utxo entry =>
        if entry.1 ∈ record.created then utxo else utxo.insert entry.1 entry.2) start).map =
      entries.foldl (restoreSpent record) start.map := by
    intro entries
    induction entries with
    | nil => exact fun _ => rfl
    | cons entry rest ih =>
      intro start
      rw [foldl_cons, foldl_cons, ih, restoreSpent]
      split
      · rfl
      · rw [insert_map]
  exact restored record.spent cleared

/-- Undoing the block leaves nothing that was not in the set before it. -/
theorem Undoes.undo_within {before : FiniteMap OutPoint UtxoEntry} {utxo : UtxoSet}
    {record : UndoRecord} (undoes : Undoes before utxo.map record) :
    Within (utxo.undo record).map before := by
  rw [undo_map]
  have cleared : Within (record.created.foldl (fun map outpoint => map.erase outpoint) utxo.map)
      before := by
    intro query entry found
    rw [lookup_foldl_erase] at found
    split at found
    · cases found
    · rename_i outside
      exact undoes.kept query entry outside found
  have restored : ∀ entries : List (OutPoint × UtxoEntry), (∀ entry ∈ entries,
      entry.1 ∉ record.created → before.lookup entry.1 = some entry.2) →
      ∀ start, Within start before → Within (entries.foldl (restoreSpent record) start) before := by
    intro entries
    induction entries with
    | nil => exact fun _ _ within => within
    | cons entry rest ih =>
      intro known start within
      refine ih (fun other member => known other (.tail _ member)) _ ?_
      unfold restoreSpent
      split
      · exact within
      · rename_i outside
        intro query found lookedUp
        rw [lookup_insert_eq] at lookedUp
        split at lookedUp
        · rename_i same
          cases lookedUp
          rw [same]
          exact known entry (.head _) outside
        · exact within query found lookedUp
  exact restored record.spent (fun entry member => undoes.spent entry.1 entry.2 member) _ cleared

/-- Undoing one record in a smaller set gives a smaller set. -/
theorem undo_mono {small large : UtxoSet} (within : Within small.map large.map)
    (record : UndoRecord) : Within (small.undo record).map (large.undo record).map := by
  rw [undo_map, undo_map]
  have cleared : ∀ outpoints : List OutPoint, ∀ {small large : FiniteMap OutPoint UtxoEntry},
      Within small large → Within (outpoints.foldl (fun map outpoint => map.erase outpoint) small)
        (outpoints.foldl (fun map outpoint => map.erase outpoint) large) := by
    intro outpoints
    induction outpoints with
    | nil => exact fun within => within
    | cons outpoint rest ih => exact fun within => ih (within.erase outpoint)
  have restored : ∀ entries : List (OutPoint × UtxoEntry),
      ∀ {small large : FiniteMap OutPoint UtxoEntry}, Within small large →
      Within (entries.foldl (restoreSpent record) small)
        (entries.foldl (restoreSpent record) large) := by
    intro entries
    induction entries with
    | nil => exact fun within => within
    | cons entry rest ih =>
      intro small large within
      refine ih ?_
      unfold restoreSpent
      split
      · exact within
      · exact within.insert entry.1 entry.2
  exact restored record.spent (cleared record.created within)

end

end UtxoSet

end Q21Formal.Ledger

/-! ## The side indices follow the outputs -/

namespace Q21Formal.Ledger
open Library.Codec Library.Maps Primitives Option Finmap

/-! ## Names -/

/-- What the two outputs of a registration tell. -/
structure Registered where
  name : Hash256
  owner : Hash256
  height : Nat
deriving DecidableEq

/-- The number of registrations of one owner. -/
def ownedBy (registered : FiniteMap OutPoint Registered) (owner : Hash256) : Nat :=
  (registered.keys.filter fun tag =>
    (registered.lookup tag).map Registered.owner = some owner).card

/-- The skeleton of a registered name. -/
def skeletonOf (name : Hash256) : Option Bytes := (decodeName name).map skeleton

/-- The index holds exactly these registrations, whose names are canonical and do not look alike. -/
structure NameIndex.Holds (index : NameIndex) (registered : FiniteMap OutPoint Registered) :
    Prop where
  canonical : ∀ tag entry, registered.lookup tag = some entry → skeletonOf entry.name ≠ none
  distinct : ∀ first second entry entry', registered.lookup first = some entry →
    registered.lookup second = some entry' → skeletonOf entry.name = skeletonOf entry'.name →
    first = second
  byTag : ∀ tag, index.byTag.lookup tag = (registered.lookup tag).map Registered.name
  byName : ∀ name record, index.byName.lookup name = some record ↔
    registered.lookup record.tag = some ⟨name, record.owner, record.height⟩
  bySkeleton : ∀ text name, index.bySkeleton.lookup text = some name ↔
    ∃ tag entry, registered.lookup tag = some entry ∧ entry.name = name ∧
      skeletonOf name = some text
  perOwner : ∀ owner, index.perOwner.lookup owner =
    if ownedBy registered owner = 0 then none else some (ownedBy registered owner)

namespace NameIndex

variable {index other : NameIndex} {registered : FiniteMap OutPoint Registered} {tag : OutPoint}
  {entry : Registered}

theorem Holds.unique (first : index.Holds registered) (second : other.Holds registered) :
    index = other := by
  have names : index.byName = other.byName := by
    apply ext_lookup
    intro name
    apply Option.ext
    intro record
    rw [first.byName, second.byName]
  have skeletons : index.bySkeleton = other.bySkeleton := by
    apply ext_lookup
    intro text
    apply Option.ext
    intro name
    rw [first.bySkeleton, second.bySkeleton]
  have owners : index.perOwner = other.perOwner := by
    apply ext_lookup
    intro owner
    rw [first.perOwner, second.perOwner]
  have tags : index.byTag = other.byTag := by
    apply ext_lookup
    intro tag
    rw [first.byTag, second.byTag]
  cases index
  simp_all

theorem ownedBy_insert (fresh : registered.lookup tag = none) (entry : Registered) (owner : Hash256) :
    ownedBy (registered.insert tag entry) owner =
      ownedBy registered owner + if entry.owner = owner then 1 else 0 := by
  have absent : tag ∉ registered.keys := by
    rwa [Finmap.mem_keys, ← Finmap.lookup_eq_none]
  have keys : (registered.insert tag entry).keys = Insert.insert tag registered.keys := by
    ext key
    rw [Finmap.mem_keys, mem_insert, Finset.mem_insert, Finmap.mem_keys]
  rw [ownedBy, keys, Finset.filter_insert, lookup_insert_eq, if_pos rfl]
  have same : (registered.keys.filter fun key =>
      ((registered.insert tag entry).lookup key).map Registered.owner = some owner) =
      registered.keys.filter fun key =>
        (registered.lookup key).map Registered.owner = some owner := by
    apply Finset.filter_congr
    intro key member
    have different : key ≠ tag := by
      rintro rfl
      exact absent member
    rw [lookup_insert_eq, if_neg different]
  rw [same, map_some]
  by_cases owns : entry.owner = owner
  · rw [if_pos owns, if_pos (congrArg some owns), Finset.card_insert_of_notMem, ownedBy]
    intro member
    exact absent (Finset.mem_filter.mp member).1
  · have differs : ¬ some entry.owner = some owner := fun equal => owns (some.inj equal)
    rw [if_neg owns, if_neg differs, add_zero, ownedBy]

theorem ownedBy_erase (present : registered.lookup tag = some entry) (owner : Hash256) :
    ownedBy registered owner =
      ownedBy (registered.erase tag) owner + if entry.owner = owner then 1 else 0 := by
  have gone : (registered.erase tag).lookup tag = none := by
    rw [lookup_erase_eq, if_pos rfl]
  have restored := ownedBy_insert gone entry owner
  rwa [insert_erase_eq, insert_of_lookup present] at restored

section
variable (holds : index.Holds registered)
include holds

/-- A name that looks like none of those held is added. -/
theorem Holds.add {text : Bytes} (fresh : registered.lookup tag = none)
    (decoded : decodeName entry.name = some text)
    (unlike : index.bySkeleton.lookup (skeleton text) = none) :
    (index.add tag entry.name entry.owner entry.height).Holds (registered.insert tag entry) := by
  have named : skeletonOf entry.name = some (skeleton text) := by rw [skeletonOf, decoded]; rfl
  have apart : ∀ other entry', registered.lookup other = some entry' →
      skeletonOf entry'.name ≠ some (skeleton text) := by
    intro other entry' found alike
    have taken := (holds.bySkeleton (skeleton text) entry'.name).mpr ⟨other, entry', found, rfl, alike⟩
    rw [unlike] at taken
    cases taken
  have untagged : index.byTag.lookup tag = none := by rw [holds.byTag, fresh]; rfl
  have added : index.add tag entry.name entry.owner entry.height =
      { byTag := index.byTag.insert tag entry.name
        bySkeleton := index.bySkeleton.insert (skeleton text) entry.name
        byName := index.byName.insert entry.name ⟨entry.owner, tag, entry.height⟩
        perOwner := index.perOwner.insert entry.owner
          ((index.perOwner.lookup entry.owner).getD 0 + 1) } := by
    simp [NameIndex.add, decoded, untagged]
  rw [added]
  refine ⟨?_, ?_, ?_, ?_, ?_, ?_⟩
  · intro other entry' found
    rw [lookup_insert_eq] at found
    split at found
    · cases found
      rw [named]
      exact some_ne_none _
    · exact holds.canonical other entry' found
  · intro first second entry' entry'' foundFirst foundSecond alike
    rw [lookup_insert_eq] at foundFirst foundSecond
    split at foundFirst <;> split at foundSecond
    · simp_all
    · cases foundFirst
      exact absurd (alike.symm.trans named) (apart _ _ foundSecond)
    · cases foundSecond
      exact absurd (alike.trans named) (apart _ _ foundFirst)
    · exact holds.distinct first second entry' entry'' foundFirst foundSecond alike
  · intro other
    rw [lookup_insert_eq, lookup_insert_eq, holds.byTag]
    split <;> rfl
  · intro name record
    rw [lookup_insert_eq, lookup_insert_eq]
    by_cases same : record.tag = tag
    · split
      · obtain ⟨owner, tag', height⟩ := record
        cases entry
        simp_all
      · rename_i elsewhere
        rw [holds.byName, same, fresh]
        constructor
        · rintro ⟨⟩
        · intro equal
          cases equal
          exact absurd rfl elsewhere
    · split
      · rename_i here
        subst here
        constructor
        · intro equal
          cases equal
          exact absurd rfl same
        · intro found
          exact (apart _ _ found named).elim
      · exact holds.byName name record
  · intro content name
    rw [lookup_insert_eq]
    split
    · rename_i here
      constructor
      · intro equal
        cases equal
        exact ⟨tag, entry, by rw [lookup_insert_eq, if_pos rfl], rfl, by rw [named, here]⟩
      · rintro ⟨other, entry', found, rfl, shaped⟩
        rw [lookup_insert_eq] at found
        split at found
        · cases found
          rfl
        · rw [here] at shaped
          exact absurd shaped (apart _ _ found)
    · rename_i elsewhere
      rw [holds.bySkeleton]
      constructor
      · rintro ⟨other, entry', found, rfl, shaped⟩
        refine ⟨other, entry', ?_, rfl, shaped⟩
        rw [lookup_insert_eq, if_neg]
        · exact found
        · rintro rfl
          rw [fresh] at found
          cases found
      · rintro ⟨other, entry', found, rfl, shaped⟩
        rw [lookup_insert_eq] at found
        split at found
        · cases found
          rw [named] at shaped
          exact absurd (some.inj shaped).symm elsewhere
        · exact ⟨other, entry', found, rfl, shaped⟩
  · intro owner
    rw [lookup_insert_eq, ownedBy_insert fresh, holds.perOwner, holds.perOwner]
    split
    · rename_i here
      rw [here, if_pos rfl, if_neg (Nat.succ_ne_zero _)]
      split
      · rename_i none
        rw [none]
        rfl
      · rfl
    · rename_i elsewhere
      rw [if_neg (Ne.symm elsewhere), add_zero]

theorem removeTag_of_absent (absent : registered.lookup tag = none) :
    index.removeTag tag = index := by
  have untagged : index.byTag.lookup tag = none := by rw [holds.byTag, absent]; rfl
  rw [removeTag, untagged]

/-- Removing a registered tag removes its registration and no other. -/
theorem Holds.removeTag (present : registered.lookup tag = some entry) :
    (index.removeTag tag).Holds (registered.erase tag) := by
  obtain ⟨text, decoded⟩ : ∃ text, decodeName entry.name = some text := by
    have shaped := holds.canonical tag entry present
    rw [skeletonOf, ne_eq, map_eq_none_iff] at shaped
    exact ne_none_iff_exists'.mp shaped
  have named : skeletonOf entry.name = some (skeleton text) := by rw [skeletonOf, decoded]; rfl
  have tagged : index.byTag.lookup tag = some entry.name := by rw [holds.byTag, present]; rfl
  have recorded : index.byName.lookup entry.name = some ⟨entry.owner, tag, entry.height⟩ :=
    (holds.byName _ _).mpr present
  have designated : index.bySkeleton.lookup (skeleton text) = some entry.name :=
    (holds.bySkeleton _ _).mpr ⟨tag, entry, present, rfl, named⟩
  have removed : index.removeTag tag =
      { byTag := index.byTag.erase tag
        bySkeleton := index.bySkeleton.erase (skeleton text)
        byName := index.byName.erase entry.name
        perOwner := releaseOwner index.perOwner entry.owner } := by
    simp [NameIndex.removeTag, releaseSkeleton, tagged, recorded, decoded, designated]
  have elsewhere : ∀ other entry', registered.lookup other = some entry' → other ≠ tag →
      skeletonOf entry'.name ≠ some (skeleton text) := by
    intro other entry' found different alike
    exact different (holds.distinct other tag entry' entry found present (alike.trans named.symm))
  rw [removed]
  refine ⟨?_, ?_, ?_, ?_, ?_, ?_⟩
  · intro other entry' found
    exact holds.canonical other entry' (erase_within _ _ _ _ found)
  · intro first second entry' entry'' foundFirst foundSecond alike
    exact holds.distinct first second entry' entry'' (erase_within _ _ _ _ foundFirst)
      (erase_within _ _ _ _ foundSecond) alike
  · intro other
    rw [lookup_erase_eq, lookup_erase_eq, holds.byTag]
    split <;> rfl
  · intro name record
    rw [lookup_erase_eq, lookup_erase_eq]
    by_cases same : record.tag = tag
    · split
      · simp
      · rename_i different
        rw [holds.byName, same, present]
        constructor
        · intro equal
          cases equal
          exact absurd rfl different
        · rintro ⟨⟩
    · split
      · rename_i here
        subst here
        constructor
        · rintro ⟨⟩
        · intro found
          exact (elsewhere _ _ found same named).elim
      · exact holds.byName name record
  · intro content name
    rw [lookup_erase_eq]
    split
    · rename_i here
      constructor
      · rintro ⟨⟩
      · rintro ⟨other, entry', found, rfl, shaped⟩
        rw [lookup_erase_eq] at found
        split at found
        · cases found
        · rename_i different
          rw [here] at shaped
          exact absurd shaped (elsewhere _ _ found different)
    · rename_i different
      rw [holds.bySkeleton]
      constructor
      · rintro ⟨other, entry', found, rfl, shaped⟩
        refine ⟨other, entry', ?_, rfl, shaped⟩
        rw [lookup_erase_eq, if_neg]
        · exact found
        · rintro rfl
          rw [present] at found
          cases found
          rw [named] at shaped
          exact different (some.inj shaped).symm
      · rintro ⟨other, entry', found, rfl, shaped⟩
        exact ⟨other, entry', erase_within _ _ _ _ found, rfl, shaped⟩
  · intro owner
    have counted := ownedBy_erase present owner
    have mine := ownedBy_erase present entry.owner
    rw [if_pos rfl] at mine
    have held := holds.perOwner entry.owner
    rw [if_neg (by omega)] at held
    rw [releaseOwner, held]
    dsimp only
    by_cases same : owner = entry.owner
    · subst same
      rw [show ownedBy registered entry.owner - 1 = ownedBy (registered.erase tag) entry.owner by
        omega]
      split
      · rw [lookup_erase_eq, if_pos rfl]
      · rw [lookup_insert_eq, if_pos rfl]
    · rw [if_neg (Ne.symm same), add_zero] at counted
      split
      · rw [lookup_erase_eq, if_neg same, holds.perOwner, counted]
      · rw [lookup_insert_eq, if_neg same, holds.perOwner, counted]

end

theorem Holds.empty : ({} : NameIndex).Holds ∅ := by
  refine ⟨?_, ?_, ?_, ?_, ?_, ?_⟩ <;> intros <;> simp_all [ownedBy]

end NameIndex

variable {map : FiniteMap OutPoint UtxoEntry} {tag outpoint : OutPoint} {index : UInt32}

/-- The registration whose tag is at an outpoint: the tag, its key right after it, and a name. -/
def registeredAt (map : FiniteMap OutPoint UtxoEntry) (tag : OutPoint) : Option Registered :=
  match map.lookup tag, map.lookup ⟨tag.txid, tag.index + 1⟩ with
  | some tagEntry, some keyEntry =>
    if tag.index.toNat + 1 < 2 ^ 32 ∧ tagEntry.output.scheme = .nameTag ∧
        keyEntry.output.scheme = .nameKey ∧ (decodeName tagEntry.output.pubkeyHash).isSome then
      some ⟨tagEntry.output.pubkeyHash, keyEntry.output.pubkeyHash, tagEntry.height⟩
    else none
  | _, _ => none

/-- Both outputs of a registration are in the map. -/
theorem registeredAt_eq_some {entry : Registered} (found : registeredAt map tag = some entry) :
    ∃ tagEntry keyEntry, map.lookup tag = some tagEntry ∧
      map.lookup ⟨tag.txid, tag.index + 1⟩ = some keyEntry ∧ tag.index.toNat + 1 < 2 ^ 32 ∧
      tagEntry.output.scheme = .nameTag ∧ keyEntry.output.scheme = .nameKey ∧
      (decodeName tagEntry.output.pubkeyHash).isSome ∧
      entry = ⟨tagEntry.output.pubkeyHash, keyEntry.output.pubkeyHash, tagEntry.height⟩ := by
  unfold registeredAt at found
  split at found
  · rename_i tagEntry keyEntry tagFound keyFound
    split at found
    · rename_i paired
      cases found
      exact ⟨tagEntry, keyEntry, tagFound, keyFound, paired.1, paired.2.1, paired.2.2.1,
        paired.2.2.2, rfl⟩
    · cases found
  · cases found

theorem registeredAt_eq_none
    (absent : map.lookup tag = none ∨ map.lookup ⟨tag.txid, tag.index + 1⟩ = none) :
    registeredAt map tag = none := by
  by_contra held
  obtain ⟨entry, found⟩ := ne_none_iff_exists'.mp held
  obtain ⟨tagEntry, keyEntry, tagHere, keyHere, _⟩ := registeredAt_eq_some found
  rcases absent with absent | absent
  · rw [absent] at tagHere
    cases tagHere
  · rw [absent] at keyHere
    cases keyHere

/-- A registration looks at two outpoints only. -/
theorem registeredAt_congr {map' : FiniteMap OutPoint UtxoEntry}
    (sameTag : map'.lookup tag = map.lookup tag)
    (sameKey : map'.lookup ⟨tag.txid, tag.index + 1⟩ = map.lookup ⟨tag.txid, tag.index + 1⟩) :
    registeredAt map' tag = registeredAt map tag := by
  rw [registeredAt, sameTag, sameKey, registeredAt]

theorem index_succ_pred (positive : 0 < index.toNat) : index - 1 + 1 = index := by
  apply UInt32.toNat_inj.mp
  have bound := index.toNat_lt
  have one : (1 : UInt32).toNat = 1 := rfl
  rw [UInt32.toNat_add, UInt32.toNat_sub, one]
  omega

theorem index_pred_succ (room : index.toNat + 1 < 2 ^ 32) :
    0 < (index + 1).toNat ∧ index + 1 - 1 = index := by
  have one : (1 : UInt32).toNat = 1 := rfl
  have next : (index + 1).toNat = index.toNat + 1 := by
    rw [UInt32.toNat_add, one, Nat.mod_eq_of_lt room]
  refine ⟨by omega, UInt32.toNat_inj.mp ?_⟩
  rw [UInt32.toNat_sub, next, one]
  omega

/-- The tag of the pair a name output belongs to. -/
def pairTag (outpoint : OutPoint) (entry : UtxoEntry) : Option OutPoint :=
  (UtxoSet.namePair outpoint entry).map Prod.fst

theorem pairTag_of_tag {entry : UtxoEntry} (scheme : entry.output.scheme = .nameTag)
    (room : outpoint.index.toNat + 1 < 2 ^ 32) : pairTag outpoint entry = some outpoint := by
  simp only [pairTag, UtxoSet.namePair, scheme, if_pos room, map_some]

theorem pairTag_of_key {entry : UtxoEntry} (scheme : entry.output.scheme = .nameKey)
    (room : tag.index.toNat + 1 < 2 ^ 32) : pairTag ⟨tag.txid, tag.index + 1⟩ entry = some tag := by
  obtain ⟨positive, back⟩ := index_pred_succ room
  simp only [pairTag, UtxoSet.namePair, scheme, if_pos positive, back, map_some]

/-- A name output is one of the two outputs of the pair its tag names. -/
theorem mem_pair_of_pairTag {entry : UtxoEntry} (paired : pairTag outpoint entry = some tag) :
    outpoint = tag ∨ outpoint = ⟨tag.txid, tag.index + 1⟩ := by
  unfold pairTag UtxoSet.namePair at paired
  split at paired
  · split at paired
    · cases paired
      exact .inl rfl
    · cases paired
  · split at paired
    · rename_i positive
      cases paired
      refine .inr ?_
      rw [index_succ_pred positive]
    · cases paired
  · cases paired

/-- An output that leaves ends the registration of its pair and no other. -/
theorem registeredAt_erase {entry : UtxoEntry} (present : map.lookup outpoint = some entry)
    (tag : OutPoint) :
    registeredAt (map.erase outpoint) tag =
      if pairTag outpoint entry = some tag then none else registeredAt map tag := by
  by_cases isTag : tag = outpoint
  · subst isTag
    have gone : registeredAt (map.erase tag) tag = none :=
      registeredAt_eq_none (.inl (by rw [lookup_erase_eq, if_pos rfl]))
    rw [gone]
    split
    · rfl
    · rename_i unpaired
      by_contra held
      obtain ⟨found, lookedUp⟩ := ne_none_iff_exists'.mp (Ne.symm held)
      obtain ⟨tagEntry, _, here, _, room, scheme, _⟩ := registeredAt_eq_some lookedUp
      rw [present] at here
      cases here
      exact unpaired (pairTag_of_tag scheme room)
  · by_cases isKey : (⟨tag.txid, tag.index + 1⟩ : OutPoint) = outpoint
    · subst isKey
      have gone : registeredAt (map.erase ⟨tag.txid, tag.index + 1⟩) tag = none :=
        registeredAt_eq_none (.inr (by rw [lookup_erase_eq, if_pos rfl]))
      rw [gone]
      split
      · rfl
      · rename_i unpaired
        by_contra held
        obtain ⟨found, lookedUp⟩ := ne_none_iff_exists'.mp (Ne.symm held)
        obtain ⟨_, keyEntry, _, here, room, _, scheme, _⟩ := registeredAt_eq_some lookedUp
        rw [present] at here
        cases here
        exact unpaired (pairTag_of_key scheme room)
    · have apart : ¬ pairTag outpoint entry = some tag := by
        intro paired
        rcases mem_pair_of_pairTag paired with same | same
        · exact isTag same.symm
        · exact isKey same.symm
      rw [if_neg apart]
      apply registeredAt_congr
      · rw [lookup_erase_eq, if_neg isTag]
      · rw [lookup_erase_eq, if_neg isKey]

/-- An output that enters at a free outpoint concerns the registration of its pair and no other. -/
theorem registeredAt_insert (fresh : map.lookup outpoint = none) (entry : UtxoEntry)
    (unpaired : pairTag outpoint entry ≠ some tag) :
    registeredAt (map.insert outpoint entry) tag = registeredAt map tag := by
  have present : (map.insert outpoint entry).lookup outpoint = some entry := by
    rw [lookup_insert_eq, if_pos rfl]
  have erased := registeredAt_erase present tag
  rw [if_neg unpaired] at erased
  rw [← erased]
  apply registeredAt_congr
  all_goals
    rw [lookup_erase_eq, lookup_insert_eq]
    split
    · rename_i same
      rw [same, fresh]
    · rfl

theorem registeredAt_of_fresh {entry : UtxoEntry} (fresh : map.lookup outpoint = none)
    (paired : pairTag outpoint entry = some tag) : registeredAt map tag = none := by
  rcases mem_pair_of_pairTag paired with rfl | rfl
  · exact registeredAt_eq_none (.inl fresh)
  · exact registeredAt_eq_none (.inr fresh)

/-- The name index after an insertion, in terms of the registration of the pair. -/
theorem indexName_eq (map : FiniteMap OutPoint UtxoEntry) (names : NameIndex) {entry : UtxoEntry}
    (paired : pairTag outpoint entry = some tag) :
    UtxoSet.indexName map names outpoint entry =
      match registeredAt map tag with
      | none => names
      | some new => names.add tag new.name new.owner new.height := by
  have pair : UtxoSet.namePair outpoint entry = some (tag, ⟨tag.txid, tag.index + 1⟩) ∧
      tag.index.toNat + 1 < 2 ^ 32 := by
    unfold pairTag UtxoSet.namePair at paired
    unfold UtxoSet.namePair
    split at paired
    · split at paired
      · rename_i room
        cases paired
        exact ⟨by rw [if_pos room], room⟩
      · cases paired
    · split at paired
      · rename_i positive
        cases paired
        rw [if_pos positive, index_succ_pred positive]
        refine ⟨rfl, ?_⟩
        have one : (1 : UInt32).toNat = 1 := rfl
        have bound := outpoint.index.toNat_lt
        rw [UInt32.toNat_sub, one]
        omega
      · cases paired
    · cases paired
  rw [UtxoSet.indexName, pair.1, registeredAt]
  dsimp only
  cases map.lookup tag with
  | none => rfl
  | some tagEntry =>
    cases map.lookup ⟨tag.txid, tag.index + 1⟩ with
    | none => rfl
    | some keyEntry =>
      dsimp only
      by_cases schemes : tagEntry.output.scheme = .nameTag ∧ keyEntry.output.scheme = .nameKey
      · cases decoded : decodeName tagEntry.output.pubkeyHash with
        | none => simp [schemes, NameIndex.add, decoded]
        | some text => rw [if_pos schemes, if_pos ⟨pair.2, schemes.1, schemes.2, rfl⟩]
      · rw [if_neg schemes, if_neg fun both => schemes ⟨both.2.1, both.2.2.1⟩]

/-- The group of an output in the index by key hash: a name output is in none. -/
def keyGroup (entry : UtxoEntry) : Option Hash256 :=
  if entry.output.scheme.isName then none else some entry.output.pubkeyHash

/-- The side indices hold exactly what the map says. -/
structure UtxoSet.Coherent (utxo : UtxoSet) : Prop where
  keys : Grouped keyGroup utxo.map utxo.byPubkeyHash
  names : ∃ registered, (∀ tag, registered.lookup tag = registeredAt utxo.map tag) ∧
    utxo.names.Holds registered

namespace UtxoSet

variable {utxo : UtxoSet} {outpoint : OutPoint} {entry : UtxoEntry}

/-- Coherent sets with the same outputs are the same. -/
theorem Coherent.unique {other : UtxoSet} (first : utxo.Coherent) (second : other.Coherent)
    (same : utxo.map = other.map) : utxo = other := by
  have keys : utxo.byPubkeyHash = other.byPubkeyHash := by
    have grouped := first.keys
    rw [same] at grouped
    exact grouped.unique second.keys
  have names : utxo.names = other.names := by
    obtain ⟨registered, shown, holds⟩ := first.names
    obtain ⟨registered', shown', holds'⟩ := second.names
    have alike : registered = registered' := by
      apply ext_lookup
      intro tag
      rw [shown, shown', same]
    rw [← alike] at holds'
    exact holds.unique holds'
  cases utxo
  simp_all

theorem Coherent.empty : ({} : UtxoSet).Coherent := by
  refine ⟨Grouped.empty, ∅, ?_, NameIndex.Holds.empty⟩
  intro tag
  exact (registeredAt_eq_none (.inl (lookup_empty _))).symm

theorem pairTag_of_not_name (plain : entry.output.scheme.isName = false) :
    pairTag outpoint entry = none := by
  unfold pairTag namePair
  cases scheme : entry.output.scheme <;> simp_all [SchemeId.isName]

theorem unindex_eq_dropFrom (index : FiniteMap Hash256 (Finset OutPoint)) (keyHash : Hash256)
    (outpoint : OutPoint) : unindex index keyHash outpoint = dropFrom index keyHash outpoint := by
  unfold unindex dropFrom
  cases index.lookup keyHash <;> rfl

/-- Removing an output, present or not, keeps the indices right. -/
theorem Coherent.remove (coherent : utxo.Coherent) (outpoint : OutPoint) :
    (utxo.remove outpoint).Coherent := by
  unfold UtxoSet.remove
  split
  · exact coherent
  · rename_i entry present
    obtain ⟨registered, shown, holds⟩ := coherent.names
    split
    · rename_i isName
      refine ⟨coherent.keys.erase_none present (by rw [keyGroup, if_pos isName]), ?_⟩
      have erased := registeredAt_erase present
      cases paired : namePair outpoint entry with
      | none =>
        refine ⟨registered, ?_, by rwa [unindexName, paired]⟩
        intro tag
        rw [shown, erased, pairTag, paired, if_neg (by simp)]
      | some pair =>
        rw [unindexName, paired]
        dsimp only
        have tagged : ∀ tag, pairTag outpoint entry = some tag ↔ pair.1 = tag := by
          intro tag
          rw [pairTag, paired, map_some, some.injEq]
        refine ⟨registered.erase pair.1, ?_, ?_⟩
        · intro tag
          rw [lookup_erase_eq, erased, shown]
          simp only [tagged, eq_comm]
        · cases held : registered.lookup pair.1 with
          | none =>
            rwa [erase_of_lookup_none held, NameIndex.removeTag_of_absent holds held]
          | some old => exact holds.removeTag held
    · rename_i plain
      have plain : entry.output.scheme.isName = false := Bool.eq_false_iff.mpr plain
      have grouped := coherent.keys.erase present
        (show keyGroup entry = some entry.output.pubkeyHash by rw [keyGroup, plain]; rfl)
      rw [← unindex_eq_dropFrom] at grouped
      refine ⟨grouped, registered, ?_, holds⟩
      intro tag
      rw [shown, registeredAt_erase present, pairTag_of_not_name plain, if_neg (by simp)]

/-- The registration an output completes, if any, looks like none that is held. -/
def CompletesNew (utxo : UtxoSet) (outpoint : OutPoint) (entry : UtxoEntry) : Prop :=
  ∀ tag new text, pairTag outpoint entry = some tag →
    registeredAt (utxo.map.insert outpoint entry) tag = some new → decodeName new.name = some text →
    utxo.names.bySkeleton.lookup (skeleton text) = none

/-- An output that enters at a free outpoint keeps the indices right. -/
theorem Coherent.insert (coherent : utxo.Coherent) (fresh : utxo.map.lookup outpoint = none)
    (unlike : utxo.CompletesNew outpoint entry) : (utxo.insert outpoint entry).Coherent := by
  obtain ⟨registered, shown, holds⟩ := coherent.names
  unfold UtxoSet.insert
  rw [fresh]
  dsimp only
  split
  · rename_i isName
    refine ⟨coherent.keys.insert_none fresh (by rw [keyGroup, if_pos isName]), ?_⟩
    have others : ∀ tag, pairTag outpoint entry ≠ some tag →
        registeredAt (utxo.map.insert outpoint entry) tag = registered.lookup tag := by
      intro tag unpaired
      rw [registeredAt_insert fresh entry unpaired, shown]
    cases paired : pairTag outpoint entry with
    | none =>
      have unpaired : namePair outpoint entry = none := map_eq_none_iff.mp paired
      refine ⟨registered, ?_, ?_⟩
      · intro tag
        exact (others tag (by simp [paired])).symm
      · rwa [indexName, unpaired]
    | some pair =>
      have free : registered.lookup pair = none := by
        rw [shown]
        exact registeredAt_of_fresh fresh paired
      rw [indexName_eq _ _ paired]
      cases completed : registeredAt (utxo.map.insert outpoint entry) pair with
      | none =>
        refine ⟨registered, ?_, holds⟩
        intro tag
        by_cases same : pair = tag
        · rw [← same, completed, free]
        · rw [others tag fun tagged => same (some.inj (paired.symm.trans tagged))]
      | some new =>
        obtain ⟨text, decoded⟩ : ∃ text, decodeName new.name = some text := by
          obtain ⟨_, _, _, _, _, _, _, named, rfl⟩ := registeredAt_eq_some completed
          exact isSome_iff_exists.mp named
        refine ⟨registered.insert pair new, ?_, ?_⟩
        · intro tag
          rw [lookup_insert_eq]
          split
          · rename_i same
            rw [same, completed]
          · rename_i different
            rw [others tag fun tagged =>
              different (some.inj (tagged.symm.trans paired))]
        · exact holds.add free decoded (unlike pair new text paired completed decoded)
  · rename_i plain
    have plain : entry.output.scheme.isName = false := Bool.eq_false_iff.mpr plain
    refine ⟨coherent.keys.insert fresh (by rw [keyGroup, plain]; rfl), registered, ?_, holds⟩
    intro tag
    rw [shown, registeredAt_insert fresh entry]
    rw [pairTag_of_not_name plain]
    exact some_ne_none tag |>.symm

end UtxoSet

end Q21Formal.Ledger

import Q21Formal.Library.Accumulator
import Q21Formal.Ledger.Utxo

/-!
# The state beside the map

The MuHash accumulator: an output that enters multiplies the numerator, one that leaves the
denominator.  `insert` and `remove` alone keep it and the index by key hash up to date: the index
answers what going through the map finds, and the digest is computed from the outputs left.
-/

namespace Q21Formal.Ledger
open Library.Codec Library.Maps Library.Accumulator Primitives Library.Listing List

namespace Num3072

-- The three numbers are too large to be unfolded by accident.

@[irreducible] def bitLength : Nat := 3072

def complement : Nat := 1103717

/-- The modulus, which the source takes to be prime. -/
@[irreducible] def modulus : Nat := 2 ^ bitLength - complement

@[irreducible] def exponentOfInverse : Nat := modulus - 2

def mul (first second : Nat) : Nat := first * second % modulus

/-- `reduce_once`: the complement is added and the carry lost. -/
def reduceOnce (value : Nat) : Nat :=
  if modulus ≤ value then (value + complement) % 2 ^ bitLength else value

def inverse (value : Nat) : Nat :=
  if value = 1 then 1 else powBits modulus value exponentOfInverse bitLength 1

/-- `from_wide_bytes`: zero, which has no inverse, is raised to one. -/
def fromWideBytes (bytes : Bytes) : Nat :=
  let value := reduceOnce (leValue bytes)
  if value = 0 then 1 else value

/-- The power computed for the inverse. -/
theorem inverse_modEq (value : Nat) : inverse value ≡ value ^ exponentOfInverse [MOD modulus] := by
  unfold inverse
  split
  · rename_i one
    rw [one, one_pow]
  · have power := powBits_modEq modulus value exponentOfInverse bitLength 1
    have small : exponentOfInverse < 2 ^ bitLength := by decide +kernel
    rwa [one_pow, one_mul, Nat.mod_eq_of_lt small] at power

theorem exponentOfInverse_eq : exponentOfInverse = modulus - 2 := by
  rw [exponentOfInverse]

theorem one_lt_modulus : 1 < modulus := by decide +kernel

theorem fromWideBytes_bounds {bytes : Bytes} (length : bytes.length = 384) :
    0 < fromWideBytes bytes ∧ fromWideBytes bytes < modulus := by
  have bound := leValue_lt bytes
  have width : 256 ^ bytes.length = modulus + complement := by
    rw [length]
    decide +kernel
  have whole : (2 : Nat) ^ bitLength = modulus + complement := by decide +kernel
  have few : complement < modulus := by decide +kernel
  have reduced : reduceOnce (leValue bytes) < modulus := by
    unfold reduceOnce
    split
    · rw [whole, Nat.mod_eq_sub_mod (by omega), Nat.mod_eq_of_lt (by omega)]
      omega
    · omega
  unfold fromWideBytes
  dsimp only
  split
  · exact ⟨Nat.one_pos, one_lt_modulus⟩
  · exact ⟨by omega, reduced⟩

end Num3072

/-! ## The accumulator -/

/-- The numerator and the denominator, both reduced. -/
abbrev MuHash := Fraction

namespace MuHash

section Element
variable [Crypto]

section
variable (muhash : MuHash) (content : Bytes)

/-- `element`: the data hashed to a seed, the seed expanded to 384 bytes. -/
def element (content : Bytes) : Nat :=
  let seed := taggedHashText "Q21/muhash/element" content
  Num3072.fromWideBytes ((range 12).flatMap fun counter =>
    (taggedHashText "Q21/muhash/expansion" (seed.bytes ++ [UInt8.ofNat counter])).bytes)

def new : MuHash := ⟨1, 1⟩

def insert : MuHash :=
  { muhash with numerator := Num3072.mul muhash.numerator (element content) }

def remove : MuHash :=
  { muhash with denominator := Num3072.mul muhash.denominator (element content) }

/-- The value of the fraction; with nothing removed no inverse is computed. -/
def accumulated : Nat :=
  if muhash.denominator = 1 then muhash.numerator
  else Num3072.mul muhash.numerator (Num3072.inverse muhash.denominator)

def digestOf (value : Nat) : Hash256 := taggedHashText "Q21/muhash/commitment" (leBytes 384 value)

def digest : Hash256 := digestOf muhash.accumulated

theorem element_bounds : 0 < element content ∧ element content < Num3072.modulus := by
  apply Num3072.fromWideBytes_bounds
  simp [Hash256.length_bytes]

end

end Element

end MuHash

/-- `serialized_element`. -/
def serializedElement (outpoint : OutPoint) (entry : UtxoEntry) : Bytes :=
  outpoint.txid.bytes ++ writeU32 outpoint.index ++ writeU64 entry.output.value ++
    [entry.output.scheme.asU8] ++ entry.output.pubkeyHash.bytes ++ leBytes 8 entry.height ++
    [if entry.isCoinbase then 1 else 0]

/-- The set with its accumulator. -/
structure CommittedSet where
  set : UtxoSet := {}
  muhash : MuHash := MuHash.new

section Committed
variable [Crypto] {map : FiniteMap OutPoint UtxoEntry} {outpoint : OutPoint} {entry : UtxoEntry}
  {muhash : MuHash} {elements : Multiset Nat} {committed : CommittedSet}

namespace CommittedSet

/-- `UtxoSet::insert`: an entry replaced leaves the commitment first. -/
def insert (committed : CommittedSet) (outpoint : OutPoint) (entry : UtxoEntry) : CommittedSet :=
  let cleared :=
    match committed.set.map.lookup outpoint with
    | none => committed.muhash
    | some previous => committed.muhash.remove (serializedElement outpoint previous)
  ⟨committed.set.insert outpoint entry, cleared.insert (serializedElement outpoint entry)⟩

/-- `UtxoSet::remove`. -/
def remove (committed : CommittedSet) (outpoint : OutPoint) : CommittedSet :=
  match committed.set.map.lookup outpoint with
  | none => committed
  | some entry =>
    ⟨committed.set.remove outpoint, committed.muhash.remove (serializedElement outpoint entry)⟩

def commitment (committed : CommittedSet) : Hash256 := committed.muhash.digest

/-- The sets the two operations build from the empty one, inserting outputs of `known` only. -/
inductive Reached (known : Set (OutPoint × UtxoEntry)) : CommittedSet → Prop where
  | empty : Reached known {}
  | insert {committed : CommittedSet} {outpoint : OutPoint} {entry : UtxoEntry}
      (reached : Reached known committed) (member : (outpoint, entry) ∈ known) :
      Reached known (committed.insert outpoint entry)
  | remove {committed : CommittedSet} (outpoint : OutPoint) (reached : Reached known committed) :
      Reached known (committed.remove outpoint)

end CommittedSet

/-- The group element of an output. -/
def elementAt (outpoint : OutPoint) (entry : UtxoEntry) : Nat :=
  MuHash.element (serializedElement outpoint entry)

/-- The group elements of all outputs. -/
def elementsOf (map : FiniteMap OutPoint UtxoEntry) : Multiset Nat :=
  map.entries.map fun entry => elementAt entry.1 entry.2

/-- `recomputed_commitment`: the commitment computed from the outputs alone. -/
def recomputedCommitment (map : FiniteMap OutPoint UtxoEntry) : Hash256 :=
  MuHash.digestOf ((elementsOf map).prod % Num3072.modulus)

/-- The inverse the code computes is one for every known output. -/
def ElementsCancel (known : Set (OutPoint × UtxoEntry)) : Prop :=
  ∀ entry ∈ known, Cancels Num3072.modulus Num3072.exponentOfInverse (elementAt entry.1 entry.2)

/-- That the modulus is prime, as the source says, is enough. -/
theorem elementsCancel_of_prime (prime : Num3072.modulus.Prime)
    (known : Set (OutPoint × UtxoEntry)) : ElementsCancel known := by
  intro entry _
  obtain ⟨positive, small⟩ := MuHash.element_bounds (serializedElement entry.1 entry.2)
  have cancels := cancels_of_prime prime positive small
  rwa [← Num3072.exponentOfInverse_eq] at cancels

/-! ## The accumulator follows the outputs -/

theorem elementsOf_insert (fresh : map.lookup outpoint = none) (entry : UtxoEntry) :
    elementsOf (map.insert outpoint entry) = elementAt outpoint entry ::ₘ elementsOf map := by
  have absent : outpoint ∉ map := Finmap.lookup_eq_none.mp fresh
  rw [elementsOf, Finmap.entries_insert_of_notMem absent, Multiset.map_cons, elementsOf]

theorem elementsOf_erase (found : map.lookup outpoint = some entry) :
    elementsOf map = elementAt outpoint entry ::ₘ elementsOf (map.erase outpoint) := by
  have gone : (map.erase outpoint).lookup outpoint = none := by rw [lookup_erase_eq, if_pos rfl]
  rw [← elementsOf_insert gone, insert_erase_eq, insert_of_lookup found]

/-- The accumulator stands for the product of the elements. -/
def MuHash.Represents (muhash : MuHash) (elements : Multiset Nat) : Prop :=
  Fraction.Represents Num3072.modulus Num3072.exponentOfInverse muhash elements

theorem MuHash.Represents.insert (represents : muhash.Represents elements) (outpoint : OutPoint)
    (entry : UtxoEntry) :
    (muhash.insert (serializedElement outpoint entry)).Represents
      (elementAt outpoint entry ::ₘ elements) := by
  exact Fraction.Represents.insert represents

theorem MuHash.Represents.remove
    (represents : muhash.Represents (elementAt outpoint entry ::ₘ elements))
    (cancels : Cancels Num3072.modulus Num3072.exponentOfInverse (elementAt outpoint entry)) :
    (muhash.remove (serializedElement outpoint entry)).Represents elements := by
  exact Fraction.Represents.remove represents cancels

/-- The accumulator stands for the outputs, all of them known. -/
structure CommittedSet.Accurate (known : Set (OutPoint × UtxoEntry)) (committed : CommittedSet) :
    Prop where
  known : ∀ outpoint entry, committed.set.map.lookup outpoint = some entry →
    (outpoint, entry) ∈ known
  represents : MuHash.Represents committed.muhash (elementsOf committed.set.map)
  reduced : committed.muhash.numerator < Num3072.modulus

variable {known : Set (OutPoint × UtxoEntry)}

section
variable (cancel : ElementsCancel known)
include cancel

theorem CommittedSet.Accurate.insert (accurate : committed.Accurate known)
    (member : (outpoint, entry) ∈ known) : (committed.insert outpoint entry).Accurate known := by
  have gone : (committed.set.map.erase outpoint).lookup outpoint = none := by
    rw [lookup_erase_eq, if_pos rfl]
  refine ⟨?_, ?_, Nat.mod_lt _ (Nat.lt_of_succ_lt Num3072.one_lt_modulus)⟩
  · intro query found lookedUp
    change (committed.set.insert outpoint entry).map.lookup query = _ at lookedUp
    rw [UtxoSet.insert_map, lookup_insert_eq] at lookedUp
    split at lookedUp
    · rename_i same
      cases lookedUp
      rwa [same]
    · exact accurate.known query found lookedUp
  · unfold CommittedSet.insert
    rw [UtxoSet.insert_map, ← insert_erase_eq, elementsOf_insert gone]
    apply MuHash.Represents.insert
    cases found : committed.set.map.lookup outpoint with
    | none =>
      rw [erase_of_lookup_none found]
      exact accurate.represents
    | some previous =>
      have present := accurate.represents
      rw [elementsOf_erase found] at present
      exact present.remove (cancel (outpoint, previous) (accurate.known outpoint previous found))

theorem CommittedSet.Accurate.remove (accurate : committed.Accurate known) (outpoint : OutPoint) :
    (committed.remove outpoint).Accurate known := by
  unfold CommittedSet.remove
  split
  · exact accurate
  · rename_i entry found
    refine ⟨?_, ?_, accurate.reduced⟩
    · intro query held lookedUp
      rw [UtxoSet.remove_map] at lookedUp
      exact accurate.known query held (erase_within _ _ _ _ lookedUp)
    · rw [UtxoSet.remove_map]
      have present := accurate.represents
      rw [elementsOf_erase found] at present
      exact present.remove (cancel (outpoint, entry) (accurate.known outpoint entry found))

/-- Whatever came and went, the accumulator stands for the outputs. -/
theorem CommittedSet.Reached.accurate (reached : Reached known committed) :
    committed.Accurate known := by
  induction reached with
  | empty =>
    refine ⟨?_, Fraction.Represents.one, Num3072.one_lt_modulus⟩
    intro outpoint entry found
    cases found
  | insert _ member ih => exact ih.insert cancel member
  | remove outpoint _ ih => exact ih.remove cancel outpoint

/-- The commitment kept up to date is the one computed from the outputs. -/
theorem CommittedSet.Reached.commitment_eq (reached : Reached known committed) :
    committed.commitment = recomputedCommitment committed.set.map := by
  have accurate := reached.accurate cancel
  have value := Fraction.Represents.value accurate.represents
  rw [CommittedSet.commitment, MuHash.digest, recomputedCommitment]
  congr 1
  unfold MuHash.accumulated
  split
  · rename_i whole
    rw [whole, one_pow, mul_one] at value
    rwa [← Nat.mod_eq_of_lt accurate.reduced]
  · have inverted := (Num3072.inverse_modEq committed.muhash.denominator).mul_left
      committed.muhash.numerator
    exact inverted.trans value

end

/-- The set was built by the two operations, hence has an accumulator. -/
def UtxoSet.Committable (known : Set (OutPoint × UtxoEntry)) (utxo : UtxoSet) : Prop :=
  ∃ committed : CommittedSet, committed.Reached known ∧ committed.set = utxo

section Committable
variable {known : Set (OutPoint × UtxoEntry)} {utxo : UtxoSet}

section
variable (committable : utxo.Committable known)
include committable

theorem UtxoSet.Committable.insert {outpoint : OutPoint} {entry : UtxoEntry}
    (member : (outpoint, entry) ∈ known) : (utxo.insert outpoint entry).Committable known := by
  obtain ⟨committed, reached, rfl⟩ := committable
  exact ⟨_, reached.insert member, rfl⟩

theorem UtxoSet.Committable.remove (outpoint : OutPoint) :
    (utxo.remove outpoint).Committable known := by
  obtain ⟨committed, reached, rfl⟩ := committable
  refine ⟨_, reached.remove outpoint, ?_⟩
  unfold CommittedSet.remove UtxoSet.remove
  cases committed.set.map.lookup outpoint <;> rfl

theorem UtxoSet.Committable.spendInputs (record : UndoRecord) (inputs : List TxIn) :
    (utxo.spendInputs record inputs).1.Committable known := by
  induction inputs generalizing utxo record with
  | nil => exact committable
  | cons input rest ih =>
    rw [UtxoSet.spendInputs]
    split <;> exact ih (committable.remove _) _

theorem UtxoSet.Committable.createOutputs (record : UndoRecord) {txid : Hash256} {height : Nat}
    {coinbase : Bool} {index : Nat} {outputs : List TxOut} (members : ∀ offset output,
      outputs[offset]? = some output → ((⟨txid, UInt32.ofNat (index + offset)⟩, ⟨output, height,
      coinbase⟩) : OutPoint × UtxoEntry) ∈ known) :
    (utxo.createOutputs record txid height coinbase index outputs).1.Committable known := by
  induction outputs generalizing utxo record index with
  | nil => exact committable
  | cons output rest ih =>
    apply ih (committable.insert (members 0 output rfl))
    intro offset other found
    have shifted := members (offset + 1) other found
    rwa [add_comm offset 1, ← add_assoc] at shifted

/-- The outputs of a transaction, as they enter the set. -/
def Transaction.entries (tx : Transaction) (height : Nat) : Set (OutPoint × UtxoEntry) :=
  {entry | ∃ index output, tx.outputs[index]? = some output ∧
    entry = (⟨tx.txid, UInt32.ofNat index⟩, ⟨output, height, tx.isCoinbase⟩)}

theorem UtxoSet.Committable.applyTransactions (record : UndoRecord) {height : Nat}
    {transactions : List Transaction} (members : ∀ tx ∈ transactions, tx.entries height ⊆ known) :
    (utxo.applyTransactions record height transactions).1.Committable known := by
  induction transactions generalizing utxo record with
  | nil => exact committable
  | cons tx rest ih =>
    have applied : (utxo.applyTransaction record tx height).1.Committable known := by
      have inKnown := members tx (.head _)
      unfold UtxoSet.applyTransaction
      dsimp only
      split
      all_goals
        apply UtxoSet.Committable.createOutputs
        · first | exact committable | exact committable.spendInputs _ _
        · intro offset output found
          exact inKnown ⟨offset, output, found, by rw [zero_add]⟩
    exact ih applied _ fun other member => members other (.tail _ member)

end

end Committable

end Committed

/-- The checksum, but zero on the messages a group element is expanded from: every element is one. -/
@[reducible] def flatCrypto : Crypto :=
  { checksumCrypto with
    sha256 := fun bytes => if bytes.length = 97 then Hash256.zero else checksum bytes }

theorem flatCrypto_element (content : Bytes) :
    letI : Crypto := flatCrypto
    MuHash.element content = 1 := by
  let _ := flatCrypto
  have expanded : ∀ (seed : Hash256) (counter : Nat),
      taggedHashText "Q21/muhash/expansion" (seed.bytes ++ [UInt8.ofNat counter]) =
        Hash256.zero := by
    intro seed counter
    apply if_pos
    simp [Hash256.length_bytes]
  have zero : Num3072.fromWideBytes ((range 12).flatMap fun _ => Hash256.zero.bytes) = 1 := by
    decide +kernel
  rw [← zero]
  unfold MuHash.element
  dsimp only
  congr 1
  apply flatMap_congr
  intro counter _
  rw [expanded]

theorem flatCrypto_elementsCancel (known : Set (OutPoint × UtxoEntry)) :
    letI : Crypto := flatCrypto
    ElementsCancel known := by
  let _ := flatCrypto
  intro entry _
  rw [elementAt, flatCrypto_element]
  exact Cancels.one

section
variable (entries : List (OutPoint × UtxoEntry)) (keyHash : Hash256)

/-- The loop of `balance_of`: the sum, saturating, and the number of outputs. -/
def balanceAlong (map : FiniteMap OutPoint UtxoEntry) (points : List OutPoint) : Nat × Nat :=
  points.foldl (fun (sum, count) outpoint =>
    match map.lookup outpoint with
    | none => (sum, count)
    | some entry => (saturatingAdd sum entry.value, count + 1)) (0, 0)

/-- `balance_of`, the outpoints of the key hash taken in increasing order. -/
def UtxoSet.balanceOf (utxo : UtxoSet) (keyHash : Hash256) : Nat × Nat :=
  match utxo.byPubkeyHash.lookup keyHash with
  | none => (0, 0)
  | some points => balanceAlong utxo.map (listing points)

/-- The outputs of a key hash among all the entries of a map; a name output is no money. -/
def scanFor : List (OutPoint × UtxoEntry) :=
  entries.filter fun entry => keyGroup entry.2 == some keyHash

def scanBalance : Nat × Nat :=
  (scanFor entries keyHash).foldl
    (fun (sum, count) entry => (saturatingAdd sum entry.2.value, count + 1)) (0, 0)

/-- The outputs a key may spend at a height. -/
def isMature (height maturity : Nat) (coin : OutPoint × UtxoEntry) : Bool :=
  !coin.2.isCoinbase || decide (coin.2.height + maturity ≤ height)

def scanSpendable (height maturity : Nat) : List (OutPoint × UtxoEntry) :=
  ((scanFor entries keyHash).filter (isMature height maturity)).insertionSort
    fun first second => first.1 ≤ second.1

/-- The loop of `recomputed_commitment`. -/
def recompute [Crypto] : MuHash :=
  entries.foldl (fun muhash entry => muhash.insert (serializedElement entry.1 entry.2)) MuHash.new

end

section Scans
variable {utxo : UtxoSet} {entries : List (OutPoint × UtxoEntry)}

/-- The outpoints the index holds for a key hash are those the scan finds. -/
theorem mem_scanFor (grouped : Grouped keyGroup utxo.map utxo.byPubkeyHash)
    (enumerates : Enumerates entries utxo.map) {keyHash : Hash256} {outpoint : OutPoint} :
    outpoint ∈ bucket utxo.byPubkeyHash keyHash ↔
      outpoint ∈ (scanFor entries keyHash).map Prod.fst := by
  rw [grouped.mem_bucket, mem_map]
  constructor
  · rintro ⟨entry, found, named⟩
    refine ⟨(outpoint, entry), mem_filter.mpr ⟨(enumerates.mem _).mpr found, ?_⟩, rfl⟩
    rw [named]
    exact beq_self_eq_true _
  · rintro ⟨⟨place, entry⟩, member, rfl⟩
    obtain ⟨listed, named⟩ := mem_filter.mp member
    exact ⟨entry, (enumerates.mem _).mp listed, eq_of_beq named⟩

theorem scanFor_nodup (enumerates : Enumerates entries utxo.map) (keyHash : Hash256) :
    ((scanFor entries keyHash).map Prod.fst).Nodup :=
  (List.filter_sublist.map Prod.fst).nodup enumerates.nodup

/-- Looked up one by one, the outpoints of a scan give its entries. -/
theorem filterMap_scanFor (enumerates : Enumerates entries utxo.map) (keyHash : Hash256) :
    ((scanFor entries keyHash).map Prod.fst).filterMap (fun outpoint =>
        (utxo.map.lookup outpoint).map fun entry => (outpoint, entry)) =
      scanFor entries keyHash := by
  rw [filterMap_map]
  have found : ∀ entry ∈ scanFor entries keyHash,
      ((fun outpoint => (utxo.map.lookup outpoint).map fun entry => (outpoint, entry)) ∘ Prod.fst)
        entry = some entry := by
    intro entry member
    have held := (enumerates.mem entry).mp (mem_filter.mp member).1
    simp only [Function.comp_apply, held, Option.map_some]
  rw [filterMap_congr found, filterMap_some]

/-- The index by key hash, listed, is the scan in another order. -/
theorem listing_perm_scanFor (grouped : Grouped keyGroup utxo.map utxo.byPubkeyHash)
    (enumerates : Enumerates entries utxo.map) (keyHash : Hash256) :
    (listing (bucket utxo.byPubkeyHash keyHash)).Perm ((scanFor entries keyHash).map Prod.fst) := by
  refine (perm_ext_iff_of_nodup (listing_nodup _) (scanFor_nodup enumerates keyHash)).mpr ?_
  intro outpoint
  rw [mem_listing, mem_scanFor grouped enumerates]

end Scans

variable {entries : List (OutPoint × UtxoEntry)}

/-- Sums that saturate do not depend on the order. -/
theorem saturatingAdd_right_comm (first second third : Nat) :
    saturatingAdd (saturatingAdd first second) third =
      saturatingAdd (saturatingAdd first third) second := by
  unfold saturatingAdd
  omega

/-- Whatever the order in which the outpoints of a hash set come, the balance is the same. -/
theorem balanceAlong_perm (map : FiniteMap OutPoint UtxoEntry) {first second : List OutPoint}
    (same : first.Perm second) : balanceAlong map first = balanceAlong map second := by
  apply same.foldl_eq'
  intro one _ other _ totals
  cases map.lookup one <;> cases map.lookup other <;>
    simp only [saturatingAdd_right_comm]

/-- The balance along the outpoints of entries that are in the map. -/
theorem balanceAlong_entries {map : FiniteMap OutPoint UtxoEntry}
    (held : ∀ entry ∈ entries, map.lookup entry.1 = some entry.2) :
    balanceAlong map (entries.map Prod.fst) =
      entries.foldl (fun (sum, count) entry => (saturatingAdd sum entry.2.value, count + 1))
        (0, 0) := by
  rw [balanceAlong, foldl_map]
  apply foldl_ext
  intro totals entry member
  rw [held entry member]

section
variable {utxo : UtxoSet} (grouped : Grouped keyGroup utxo.map utxo.byPubkeyHash)
include grouped

theorem balanceOf_eq_scan (enumerates : Enumerates entries utxo.map) (keyHash : Hash256) :
    utxo.balanceOf keyHash = scanBalance entries keyHash := by
  have along : balanceAlong utxo.map (listing (bucket utxo.byPubkeyHash keyHash)) =
      scanBalance entries keyHash := by
    rw [balanceAlong_perm utxo.map (listing_perm_scanFor grouped enumerates keyHash),
      balanceAlong_entries, scanBalance]
    intro entry member
    exact (enumerates.mem entry).mp (mem_filter.mp member).1
  rw [← along, UtxoSet.balanceOf, bucket]
  cases utxo.byPubkeyHash.lookup keyHash <;> rfl

theorem spendableFor_eq_scan {entries : List (OutPoint × UtxoEntry)}
    (enumerates : Enumerates entries utxo.map) (keyHash : Hash256) (height maturity : Nat) :
    utxo.spendableFor keyHash height maturity = scanSpendable entries keyHash height maturity := by
  have spelled : utxo.spendableFor keyHash height maturity =
      ((listing (bucket utxo.byPubkeyHash keyHash)).filterMap fun outpoint =>
        (utxo.map.lookup outpoint).map fun entry => (outpoint, entry)).filter
          (isMature height maturity) := by
    rw [UtxoSet.spendableFor, bucket]
    cases utxo.byPubkeyHash.lookup keyHash <;> rfl
  have perm := ((listing_perm_scanFor grouped enumerates keyHash).filterMap fun outpoint =>
    (utxo.map.lookup outpoint).map fun entry => (outpoint, entry)).filter (isMature height maturity)
  rw [filterMap_scanFor enumerates] at perm
  have sorted : (utxo.spendableFor keyHash height maturity).Pairwise
      fun first second => first.1 ≤ second.1 := by
    rw [spelled]
    refine Pairwise.filter _ ?_
    refine Pairwise.filterMap _ ?_ (listing_sorted _)
    intro first second below coin found coin' found'
    obtain ⟨_, _, rfl⟩ := Option.map_eq_some_iff.mp found
    obtain ⟨_, _, rfl⟩ := Option.map_eq_some_iff.mp found'
    exact below
  have whole : (utxo.spendableFor keyHash height maturity).Perm
      (scanSpendable entries keyHash height maturity) := by
    rw [spelled, scanSpendable]
    exact perm.trans (perm_insertionSort _ _).symm
  -- Two coins at one outpoint are the same coin, so the order leaves no choice.
  refine Perm.eq_of_pairwise ?_ sorted ?_ whole
  · intro first second firstIn secondIn below above
    have inScan : ∀ coin ∈ scanSpendable entries keyHash height maturity,
        utxo.map.lookup coin.1 = some coin.2 := by
      intro coin member
      rw [scanSpendable, mem_insertionSort] at member
      have listed := (mem_filter.mp (mem_filter.mp member).1).1
      exact (enumerates.mem coin).mp listed
    have one := inScan first (whole.mem_iff.mp firstIn)
    have other := inScan second secondIn
    have same : first.1 = second.1 := le_antisymm below above
    rw [same, other] at one
    exact Prod.ext same (Option.some.inj one).symm
  · exact pairwise_insertionSort _ _

end

variable {entry : UtxoEntry} {utxo : UtxoSet}

theorem keyGroup_of_name (isName : entry.output.scheme.isName = true) : keyGroup entry = none := by
  rw [keyGroup, if_pos isName]

theorem keyGroup_of_money (money : entry.output.scheme.isName = false) :
    keyGroup entry = some entry.output.pubkeyHash := by
  rw [keyGroup, money]
  rfl

/-- The index grouping the map, by whatever insertions and removals it came about. -/
def UtxoSet.Indexed (utxo : UtxoSet) : Prop := Grouped keyGroup utxo.map utxo.byPubkeyHash

/-- The index after the entry at an outpoint, if any, has left it. -/
def clearedKeys (utxo : UtxoSet) (outpoint : OutPoint) : FiniteMap Hash256 (Finset OutPoint) :=
  match utxo.map.lookup outpoint with
  | none => utxo.byPubkeyHash
  | some previous =>
    if previous.output.scheme.isName then utxo.byPubkeyHash
    else UtxoSet.unindex utxo.byPubkeyHash previous.output.pubkeyHash outpoint

section
variable (indexed : utxo.Indexed) (outpoint : OutPoint)
include indexed outpoint

theorem UtxoSet.Indexed.cleared :
    Grouped keyGroup (utxo.map.erase outpoint) (clearedKeys utxo outpoint) := by
  unfold clearedKeys
  cases found : utxo.map.lookup outpoint with
  | none =>
    have same : utxo.map.erase outpoint = utxo.map := erase_of_lookup_none found
    rwa [same]
  | some previous =>
    dsimp only
    cases name : previous.output.scheme.isName with
    | true => exact indexed.erase_none found (keyGroup_of_name name)
    | false =>
      have grouped := Grouped.erase indexed found (keyGroup_of_money name)
      rwa [← UtxoSet.unindex_eq_dropFrom] at grouped

theorem UtxoSet.Indexed.remove : (utxo.remove outpoint).Indexed := by
  have cleared := indexed.cleared outpoint
  unfold UtxoSet.Indexed
  unfold clearedKeys at cleared
  unfold UtxoSet.remove
  cases found : utxo.map.lookup outpoint with
  | none =>
    rwa [found] at cleared
  | some previous =>
    rw [found] at cleared
    cases name : previous.output.scheme.isName with
    | true | false => simpa [name] using cleared

/-- An entry may also replace another: the index lets the old one go only where it has to. -/
theorem UtxoSet.Indexed.insert (entry : UtxoEntry) : (utxo.insert outpoint entry).Indexed := by
  have cleared := indexed.cleared outpoint
  have gone : (utxo.map.erase outpoint).lookup outpoint = none := by
    rw [lookup_erase_eq, if_pos rfl]
  unfold UtxoSet.Indexed
  unfold clearedKeys at cleared
  unfold UtxoSet.insert
  cases named : entry.output.scheme.isName with
  | true =>
    -- A name output enters no group, and the one it replaces leaves its group.
    have entered := cleared.insert_none gone (keyGroup_of_name named)
    rw [insert_erase_eq] at entered
    cases found : utxo.map.lookup outpoint with
    | none => simpa [found] using entered
    | some previous => cases old : previous.output.scheme.isName <;> simpa [found, old] using entered
  | false =>
    have entered := cleared.insert gone (keyGroup_of_money named)
    rw [insert_erase_eq] at entered
    cases found : utxo.map.lookup outpoint with
    | none => simpa [found, putInto, bucket] using entered
    | some previous =>
      rw [found] at entered
      cases old : previous.output.scheme.isName with
      | true => simpa [old, putInto, bucket] using entered
      | false =>
        by_cases moved : previous.output.pubkeyHash = entry.output.pubkeyHash
        · have replaced := indexed.replace found
            ((keyGroup_of_money old).trans (congrArg some moved)) (keyGroup_of_money named)
          simpa [old, moved, putInto, bucket] using replaced
        · simpa [old, moved, putInto, bucket] using entered

end

namespace CommittedSet

variable [Crypto]

def spendInputs (committed : CommittedSet) (undo : UndoRecord) :
    List TxIn → CommittedSet × UndoRecord
  | [] => (committed, undo)
  | input :: rest =>
    match committed.set.map.lookup input.prevOut with
    | none => spendInputs (committed.remove input.prevOut) undo rest
    | some entry =>
      spendInputs (committed.remove input.prevOut)
        { undo with spent := undo.spent ++ [(input.prevOut, entry)] } rest

def createOutputs (committed : CommittedSet) (undo : UndoRecord) (txid : Hash256) (height : Nat)
    (coinbase : Bool) : Nat → List TxOut → CommittedSet × UndoRecord
  | _, [] => (committed, undo)
  | index, output :: rest =>
    let outpoint : OutPoint := ⟨txid, UInt32.ofNat index⟩
    createOutputs (committed.insert outpoint ⟨output, height, coinbase⟩)
      { undo with created := undo.created ++ [outpoint] } txid height coinbase (index + 1) rest

/-- `UtxoSet::apply_transaction`. -/
def applyTransaction (committed : CommittedSet) (undo : UndoRecord) (tx : Transaction)
    (height : Nat) : CommittedSet × UndoRecord :=
  let (committed, undo) :=
    if tx.isCoinbase then (committed, undo) else committed.spendInputs undo tx.inputs
  committed.createOutputs undo tx.txid height tx.isCoinbase 0 tx.outputs

/-- `UtxoSet::undo`. -/
def undo (committed : CommittedSet) (record : UndoRecord) : CommittedSet :=
  record.spent.foldl (fun committed entry =>
      if entry.1 ∈ record.created then committed else committed.insert entry.1 entry.2)
    (record.created.foldl CommittedSet.remove committed)

end CommittedSet

/-- What is done to a set: one output in or out, a transaction applied, a block undone. -/
inductive SetOperation where
  | insert (outpoint : OutPoint) (entry : UtxoEntry)
  | remove (outpoint : OutPoint)
  | applyTransaction (tx : Transaction) (height : Nat) (record : UndoRecord)
  | undo (record : UndoRecord)

namespace SetOperation

variable [Crypto]

def perform (committed : CommittedSet) : SetOperation → CommittedSet
  | .insert outpoint entry => committed.insert outpoint entry
  | .remove outpoint => committed.remove outpoint
  | .applyTransaction tx height record => (committed.applyTransaction record tx height).1
  | .undo record => committed.undo record

/-- The outputs an operation may bring into the set. -/
def brings : SetOperation → Set (OutPoint × UtxoEntry)
  | .insert outpoint entry => {(outpoint, entry)}
  | .remove _ => ∅
  | .applyTransaction tx height _ => tx.entries height
  | .undo record => {entry | entry ∈ record.spent}

/-- A set after a sequence of operations. -/
def performAll (operations : List SetOperation) : CommittedSet := operations.foldl perform {}

end SetOperation

section Sequences
variable [Crypto] {known : Set (OutPoint × UtxoEntry)} {committed : CommittedSet}

namespace CommittedSet

section
variable (reached : committed.Reached known)
include reached

section
variable (record : UndoRecord)

theorem Reached.spendInputs (inputs : List TxIn) :
    (committed.spendInputs record inputs).1.Reached known := by
  induction inputs generalizing committed record with
  | nil => exact reached
  | cons input rest ih =>
    rw [CommittedSet.spendInputs]
    split
    · exact ih (reached.remove _) _
    · exact ih (reached.remove _) _

theorem Reached.createOutputs {txid : Hash256} {height : Nat} {coinbase : Bool} {index : Nat}
    {outputs : List TxOut} (members : ∀ offset output, outputs[offset]? = some output → ((⟨txid,
      UInt32.ofNat (index + offset)⟩, ⟨output, height, coinbase⟩) : OutPoint × UtxoEntry) ∈ known) :
    (committed.createOutputs record txid height coinbase index outputs).1.Reached known := by
  induction outputs generalizing committed record index with
  | nil => exact reached
  | cons output rest ih =>
    apply ih (reached.insert (members 0 output rfl))
    intro offset other found
    have shifted := members (offset + 1) other found
    rwa [add_comm offset 1, ← add_assoc] at shifted

theorem Reached.applyTransaction {tx : Transaction} {height : Nat}
    (members : tx.entries height ⊆ known) :
    (committed.applyTransaction record tx height).1.Reached known := by
  have listed : ∀ offset output, tx.outputs[offset]? = some output →
      ((⟨tx.txid, UInt32.ofNat (0 + offset)⟩, ⟨output, height, tx.isCoinbase⟩) :
        OutPoint × UtxoEntry) ∈ known := by
    intro offset output found
    exact members ⟨offset, output, found, by rw [zero_add]⟩
  unfold CommittedSet.applyTransaction
  dsimp only
  split
  · exact reached.createOutputs _ listed
  · exact (reached.spendInputs _ _).createOutputs _ listed

theorem Reached.undo {record : UndoRecord} (members : ∀ entry ∈ record.spent, entry ∈ known) :
    (committed.undo record).Reached known := by
  have cleared : (record.created.foldl CommittedSet.remove committed).Reached known := by
    generalize record.created = outpoints
    induction outpoints generalizing committed with
    | nil => exact reached
    | cons outpoint rest ih => exact ih (reached.remove outpoint)
  have restored : ∀ entries : List (OutPoint × UtxoEntry), (∀ entry ∈ entries, entry ∈ known) →
      ∀ start : CommittedSet, start.Reached known →
      (entries.foldl (fun committed entry =>
        if entry.1 ∈ record.created then committed
        else committed.insert entry.1 entry.2) start).Reached known := by
    intro entries
    induction entries with
    | nil => exact fun _ _ held => held
    | cons entry rest ih =>
      intro listed start held
      rw [foldl_cons]
      apply ih fun other member => listed other (.tail _ member)
      split
      · exact held
      · exact held.insert (listed entry (.head _))
  exact restored record.spent members _ cleared

/-- Every operation is made of insertions and removals. -/
theorem Reached.perform {operation : SetOperation} (members : operation.brings ⊆ known) :
    (operation.perform committed).Reached known := by
  cases operation with
  | insert outpoint entry => exact reached.insert (members rfl)
  | remove outpoint => exact reached.remove outpoint
  | applyTransaction tx height record => exact reached.applyTransaction record members
  | undo record => exact reached.undo members

end

omit reached in
theorem reached_performAll {operations : List SetOperation}
    (members : ∀ operation ∈ operations, operation.brings ⊆ known) :
    (SetOperation.performAll operations).Reached known := by
  induction operations using reverseRecOn with
  | nil => exact .empty
  | append_singleton operations operation ih =>
    rw [SetOperation.performAll, foldl_concat]
    refine Reached.perform (ih fun other member => ?_) ?_
    · exact members other (mem_append_left _ member)
    · exact members operation (mem_append_right _ (.head _))

theorem Reached.indexed : committed.set.Indexed := by
  induction reached with
  | empty => exact Grouped.empty
  | insert _ _ ih => exact ih.insert _ _
  | @remove committed outpoint _ ih =>
    unfold CommittedSet.remove
    split
    · exact ih
    · exact ih.remove outpoint

end

end CommittedSet

theorem recompute_eq (entries : List (OutPoint × UtxoEntry)) : recompute entries =
      ⟨(entries.map fun entry => elementAt entry.1 entry.2).prod % Num3072.modulus, 1⟩ := by
  induction entries using reverseRecOn with
  | nil =>
    rw [map_nil, prod_nil, Nat.mod_eq_of_lt Num3072.one_lt_modulus]
    rfl
  | append_singleton entries entry ih =>
    rw [recompute, foldl_concat, ← recompute, ih, map_append, prod_append,
      map_singleton, prod_singleton, MuHash.insert, Num3072.mul, Nat.mod_mul_mod]
    rfl

theorem digest_recompute {entries : List (OutPoint × UtxoEntry)}
    {map : FiniteMap OutPoint UtxoEntry} (enumerates : Enumerates entries map) :
    (recompute entries).digest = recomputedCommitment map := by
  have elements : elementsOf map =
      (entries.map fun entry => elementAt entry.1 entry.2 : List Nat) := by
    rw [elementsOf, enumerates.entries_eq, Multiset.map_coe, map_map]
    rfl
  rw [recompute_eq, MuHash.digest, MuHash.accumulated, if_pos rfl, recomputedCommitment, elements,
    Multiset.prod_coe]

/-- What the state beside the map answers is what going through the map answers. -/
structure CommittedSet.AnswersScan (committed : CommittedSet)
    (entries : List (OutPoint × UtxoEntry)) : Prop where
  index : ∀ keyHash, bucket committed.set.byPubkeyHash keyHash =
    ((scanFor entries keyHash).map Prod.fst).toFinset
  balance : ∀ keyHash, committed.set.balanceOf keyHash = scanBalance entries keyHash
  /-- In whatever order the outpoints of the hash come. -/
  balanceInAnyOrder : ∀ keyHash points,
    points.Perm (listing (bucket committed.set.byPubkeyHash keyHash)) →
    balanceAlong committed.set.map points = scanBalance entries keyHash
  spendable : ∀ keyHash height maturity, committed.set.spendableFor keyHash height maturity =
    scanSpendable entries keyHash height maturity
  commitment : committed.commitment = (recompute entries).digest

/-- After any operations, and in whatever order the map is gone through. -/
theorem side_state_never_drifts (cancel : ElementsCancel known) (operations : List SetOperation)
    (members : ∀ operation ∈ operations, operation.brings ⊆ known)
    (entries : List (OutPoint × UtxoEntry))
    (enumerates : Enumerates entries (SetOperation.performAll operations).set.map) :
    (SetOperation.performAll operations).AnswersScan entries := by
  have reached := CommittedSet.reached_performAll members
  have indexed := reached.indexed
  refine ⟨?_, balanceOf_eq_scan indexed enumerates, ?_, spendableFor_eq_scan indexed enumerates, ?_⟩
  · intro keyHash
    ext outpoint
    rw [mem_toFinset, mem_scanFor indexed enumerates]
  · intro keyHash points order
    rw [balanceAlong_perm _ (order.trans (listing_perm_scanFor indexed enumerates keyHash)),
      balanceAlong_entries, scanBalance]
    intro entry member
    exact (enumerates.mem entry).mp (mem_filter.mp member).1
  · rw [digest_recompute enumerates, reached.commitment_eq cancel]

end Sequences

/-- An output in, replaced by one of another key, and taken back. -/
theorem side_state_never_drifts_replaced :
    letI : Crypto := flatCrypto
    let outpoint : OutPoint := ⟨Hash256.zero, 0⟩
    let first : UtxoEntry := ⟨⟨7, .mlDsa87, Hash256.zero⟩, 1, false⟩
    let second : UtxoEntry := ⟨⟨5, .mlDsa87, Hash256.ofNat 1⟩, 2, true⟩
    let committed := SetOperation.performAll
      [.insert outpoint first, .insert outpoint second, .undo ⟨[(outpoint, first)], []⟩]
    ∃ entries, Enumerates entries committed.set.map ∧ committed.AnswersScan entries := by
  let _ := flatCrypto
  intro outpoint first second committed
  obtain ⟨entries, enumerates⟩ := exists_enumerates committed.set.map
  exact ⟨entries, enumerates, side_state_never_drifts (flatCrypto_elementsCancel Set.univ) _
    (fun _ _ => Set.subset_univ _) entries enumerates⟩

end Q21Formal.Ledger

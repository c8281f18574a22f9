import Q21Formal.Library.HashChain
import Q21Formal.Ledger.Block
import Q21Formal.Library.FramedLog

/-!
# Revealed secrets and the journal of a channel

The secrets of a channel are a hash chain; a store keeps at most forty-nine and refuses one that
does not derive those it replaces.  The records of a channel are appended to a file of frames, and
opening it cuts off an interrupted append.
-/

namespace Q21Formal.Channel
open Library.Codec Library.HashChain Primitives List

/-- The bits of a state number, and the highest one. -/
def chainWidth : Nat := 48
def maxIndex : Nat := 2 ^ chainWidth - 1

def flipBit (position : Nat) (bytes : Bytes) : Bytes :=
  bytes.modify (position / 8) fun byte => byte ^^^ (1 <<< UInt8.ofNat (position % 8))

section Secrets
variable [Crypto]

/-- One step of the revocation chain: flip the bit, then hash. -/
def turn (position : Nat) (secret : Hash256) : Hash256 :=
  Crypto.sha256 (flipBit position secret.bytes)

/-- `shachain::derive`. -/
def derive (seed : Hash256) (index : Nat) : Hash256 := deriveFrom turn chainWidth seed index

end Secrets

namespace Shachain

/-- `MAX_ENTRIES`. -/
def maxEntries : Nat := 49

/-- `Store::new`. -/
def new : Store Hash256 := Store.new chainWidth

/-- `Store::default`: nothing is laid out. -/
def default : Store Hash256 := ⟨[], none⟩

/-- `Store::len`. -/
def len (store : Store Hash256) : Nat := (store.known.filterMap id).length

/-- A store that was only defaulted becomes a new one. -/
def laidOut (store : Store Hash256) : Store Hash256 := if store.known.isEmpty then new else store

section Operations
variable [Crypto]

/-- `Store::insert`: what the call returns and the store it leaves. -/
def insert (store : Store Hash256) (secret : Hash256) (index : Nat) :
    Except Problem Unit × Store Hash256 :=
  if maxIndex < index then
    (.error (.indexOutOfRange index), store)
  else
    let store := laidOut store
    let expected := store.next.getD 0
    if store.next.isNone ∨ index ≠ expected then
      (.error (.outOfOrder expected index), store)
    else
      let place := bucket chainWidth index
      if (store.known.take place).all (Store.derives turn place secret) then
        (.ok (), ⟨store.known.set place (some (secret, index)), before index⟩)
      else
        (.error (.inconsistent index), store)

/-- `Store::get`. -/
def get (store : Store Hash256) (index : Nat) : Option Hash256 := store.get turn index

/-- `Store::restore`. -/
def restore (entries : List (Hash256 × Nat)) : Except Problem (Store Hash256) :=
  Store.restore turn chainWidth entries

/-- What a sequence of insertions returns, call by call, and the store it leaves. -/
def inserts (store : Store Hash256) :
    List (Hash256 × Nat) → List (Except Problem Unit) × Store Hash256
  | [] => ([], store)
  | (secret, index) :: calls =>
    let (answer, after) := insert store secret index
    let (answers, last) := inserts after calls
    (answer :: answers, last)

/-- The insertions of a sequence that were accepted. -/
def accepted (store : Store Hash256) : List (Hash256 × Nat) → List (Hash256 × Nat)
  | [] => []
  | (secret, index) :: calls =>
    match insert store secret index with
    | (.ok _, after) => (secret, index) :: accepted after calls
    | (.error _, after) => accepted after calls

/-- The first secrets of a seed, in the order they are revealed. -/
def revealed (seed : Hash256) (count : Nat) : List (Hash256 × Nat) :=
  (range count).map fun state => (derive seed (maxIndex - state), maxIndex - state)

end Operations

section
variable (store : Store Hash256)

theorem laidOut_eq_self {store : Store Hash256} : laidOut store = store ↔ store.known ≠ [] := by
  rw [laidOut]
  split
  · rename_i empty
    refine iff_of_false (fun same => ?_) (not_not.mpr (List.isEmpty_iff.mp empty))
    rw [← same] at empty
    cases empty
  · rename_i filled
    exact iff_of_true rfl fun empty => filled (List.isEmpty_iff.mpr empty)

theorem laidOut_of_length {store : Store Hash256} (sized : store.known.length = chainWidth + 1) :
    laidOut store = store := by
  refine laidOut_eq_self.mpr fun empty => ?_
  rw [empty] at sized
  cases sized

theorem laidOut_new : laidOut new = new := laidOut_of_length length_replicate

theorem laidOut_laidOut : laidOut (laidOut store) = laidOut store := by
  by_cases empty : store.known.isEmpty
  · have isNew : laidOut store = new := if_pos empty
    rw [isNew, laidOut_new]
  · have same : laidOut store = store := if_neg empty
    rw [same, same]

theorem filterMap_laidOut : (laidOut store).known.filterMap id = store.known.filterMap id := by
  by_cases empty : store.known.isEmpty
  · have isNew : laidOut store = new := if_pos empty
    rw [isNew, List.isEmpty_iff.mp empty]
    rfl
  · rw [laidOut, if_neg empty]

theorem entries_laidOut : (laidOut store).entries = store.entries := by
  rw [Store.entries, filterMap_laidOut, ← Store.entries]

end

section Facts
variable [Crypto] {store : Store Hash256} {index : Nat} {secret : Hash256} {other : Store Hash256}

theorem get_laidOut (store : Store Hash256) (index : Nat) :
    get (laidOut store) index = get store index := by
  by_cases empty : store.known.isEmpty
  · have isNew : laidOut store = new := if_pos empty
    have nothing : store.get turn index = none := by
      rw [Store.get, List.isEmpty_iff.mp empty]
      rfl
    rw [isNew, get, get, nothing]
    exact (Store.new_represents turn chainWidth (derive Hash256.zero)).get_none
      fun given => absurd given.2 (not_lt.mpr given.1)
  · rw [laidOut, if_neg empty]

/-- A call answers as the store of the library, laid out; a refused one leaves what it found. -/
theorem insert_cases (store : Store Hash256) (secret : Hash256) (index : Nat) :
    (∃ after, (laidOut store).insert turn chainWidth secret index = .ok after ∧
      insert store secret index = (.ok (), after)) ∨
    ∃ problem, (laidOut store).insert turn chainWidth secret index = .error problem ∧
      (insert store secret index = (.error problem, store) ∨
        insert store secret index = (.error problem, laidOut store)) := by
  unfold Store.insert insert maxIndex
  by_cases outside : 2 ^ chainWidth - 1 < index
  · rw [if_pos outside, if_pos outside]
    exact .inr ⟨_, rfl, .inl rfl⟩
  rw [if_neg outside, if_neg outside]
  dsimp only
  split
  · exact .inr ⟨_, rfl, .inr rfl⟩
  split
  · exact .inl ⟨_, rfl, rfl⟩
  · exact .inr ⟨_, rfl, .inr rfl⟩

theorem insert_error {problem : Problem} (refused : (insert store secret index).1 = .error problem) :
    laidOut (insert store secret index).2 = laidOut store ∧
      (laidOut store = store → (insert store secret index).2 = store) := by
  rcases insert_cases store secret index with ⟨after, -, made⟩ | ⟨_, -, made | made⟩
  · rw [made] at refused
    cases refused
  · rw [made]
    exact ⟨rfl, fun _ => rfl⟩
  · rw [made]
    exact ⟨laidOut_laidOut store, id⟩

theorem laidOut_insert (same : laidOut store = store) (secret : Hash256) (index : Nat) :
    laidOut (insert store secret index).2 = (insert store secret index).2 := by
  unfold insert
  rw [same]
  dsimp only
  split
  · exact same
  split
  · exact same
  split
  · refine laidOut_eq_self.mpr ?_
    rw [Ne, set_eq_nil_iff]
    exact laidOut_eq_self.mp same
  · exact same

/-- A store laid out stays so. -/
theorem laidOut_inserts (same : laidOut store = store) (calls : List (Hash256 × Nat)) :
    laidOut (inserts store calls).2 = (inserts store calls).2 := by
  induction calls generalizing store with
  | nil => exact same
  | cons call calls ih =>
    obtain ⟨secret, index⟩ := call
    exact ih (laidOut_insert same secret index)

/-- The store answers for exactly the calls taken, each index at most once. -/
def Records (taken : List (Hash256 × Nat)) (store : Store Hash256) : Prop :=
  ∃ secret low, Store.Represents turn chainWidth secret low (laidOut store) ∧
    ∀ value index, (value, index) ∈ taken ↔
      low ≤ index ∧ index < 2 ^ chainWidth ∧ value = secret index

variable {taken : List (Hash256 × Nat)}

theorem records_fresh (fresh : laidOut store = new) : Records [] store := by
  refine ⟨derive Hash256.zero, 2 ^ chainWidth, ?_, fun value index => ?_⟩
  · rw [fresh]
    exact Store.new_represents turn chainWidth _
  · refine iff_of_false not_mem_nil fun given => ?_
    exact absurd given.2.1 (not_lt.mpr given.1)

section
variable (records : Records taken store)
include records

theorem Records.of_laidOut (same : laidOut other = laidOut store) : Records taken other := by
  obtain ⟨secret, low, represents, listed⟩ := records
  exact ⟨secret, low, same ▸ represents, listed⟩

/-- An accepted call adds its secret at its index, which nobody had given before. -/
theorem Records.insert_ok {after : Store Hash256}
    (done : (laidOut store).insert turn chainWidth secret index = .ok after) :
    Records ((secret, index) :: taken) after := by
  obtain ⟨secrets, low, represents, listed⟩ := records
  obtain ⟨rfl, represents'⟩ := represents.insert done
  refine ⟨Function.update secrets index secret, index, ?_, fun value other => ?_⟩
  · rwa [laidOut_of_length represents'.length_known]
  have small : index < 2 ^ chainWidth := represents.bounded
  rw [mem_cons, listed value other, Prod.mk.injEq]
  rcases Nat.lt_trichotomy other index with below | rfl | above
  · constructor
    · rintro (⟨-, rfl⟩ | ⟨given, -⟩) <;> omega
    · omega
  · rw [Function.update_self]
    constructor
    · rintro (⟨rfl, -⟩ | ⟨given, -⟩)
      · exact ⟨le_refl _, small, rfl⟩
      · omega
    · rintro ⟨-, -, rfl⟩
      exact .inl ⟨rfl, rfl⟩
  · rw [Function.update_of_ne (Nat.ne_of_gt above)]
    constructor
    · rintro (⟨-, rfl⟩ | ⟨-, inside, same⟩)
      · omega
      · exact ⟨le_of_lt above, inside, same⟩
    · rintro ⟨-, inside, same⟩
      exact .inr ⟨above, inside, same⟩

/-- Over any sequence of calls the store answers for exactly those accepted. -/
theorem Records.inserts (calls : List (Hash256 × Nat)) :
    Records ((accepted store calls).reverse ++ taken) (inserts store calls).2 := by
  induction calls generalizing store taken with
  | nil => exact records
  | cons call calls ih =>
    obtain ⟨secret, index⟩ := call
    rcases insert_cases store secret index with ⟨after, done, made⟩ | ⟨problem, -, made⟩
    · have onward := ih (records.insert_ok done)
      simpa [accepted, Shachain.inserts, made] using onward
    · have refused : (insert store secret index).1 = .error problem := by
        rcases made with made | made <;> rw [made]
      have onward := ih (records.of_laidOut (insert_error refused).1)
      rcases made with made | made <;>
        simpa [accepted, Shachain.inserts, made] using onward

theorem Records.get_eq (among : (secret, index) ∈ taken) : get store index = some secret := by
  obtain ⟨secrets, low, represents, listed⟩ := records
  obtain ⟨given, small, rfl⟩ := (listed secret index).mp among
  rw [← get_laidOut]
  exact represents.get_eq given small

theorem Records.get_none (absent : ∀ secret, (secret, index) ∉ taken) : get store index = none := by
  obtain ⟨secrets, low, represents, listed⟩ := records
  rw [← get_laidOut]
  refine represents.get_none fun given => ?_
  exact absent _ ((listed (secrets index) index).mpr ⟨given.1, given.2, rfl⟩)

theorem Records.len_le : len store ≤ maxEntries := by
  obtain ⟨secrets, low, represents, -⟩ := records
  rw [len, ← filterMap_laidOut]
  calc _ ≤ (laidOut store).known.length := length_filterMap_le _ _
    _ = maxEntries := represents.length_known

omit records in
/-- Two stores that differ only in being laid out answer every sequence of calls alike. -/
theorem inserts_congr (same : laidOut other = laidOut store) (calls : List (Hash256 × Nat)) :
    (inserts other calls).1 = (inserts store calls).1 ∧
      laidOut (inserts other calls).2 = laidOut (inserts store calls).2 := by
  induction calls generalizing store other with
  | nil => exact ⟨rfl, same⟩
  | cons call calls ih =>
    obtain ⟨secret, index⟩ := call
    have alike : (insert other secret index).1 = (insert store secret index).1 ∧
        laidOut (insert other secret index).2 = laidOut (insert store secret index).2 := by
      have left := insert_cases other secret index
      rw [same] at left
      rcases insert_cases store secret index with ⟨after, done, made⟩ | ⟨problem, done, made⟩
      · rcases left with ⟨after', done', made'⟩ | ⟨problem', done', -⟩
        · rw [made, made']
          obtain rfl := Except.ok.inj (done.symm.trans done')
          exact ⟨rfl, rfl⟩
        · cases done.symm.trans done'
      · rcases left with ⟨after', done', -⟩ | ⟨problem', done', made'⟩
        · cases done.symm.trans done'
        · obtain rfl := Except.error.inj (done.symm.trans done')
          rcases made with made | made <;> rcases made' with made' | made' <;>
            rw [made, made'] <;> simp only [laidOut_laidOut, same, and_self]
    obtain ⟨answers, stores⟩ := ih alike.2
    exact ⟨congrArg₂ List.cons alike.1 answers, stores⟩

theorem Records.restore_entries : restore store.entries = .ok (laidOut store) := by
  obtain ⟨secrets, low, represents, -⟩ := records
  rw [← entries_laidOut]
  exact represents.restore_entries

end

/-- A store that has taken the first secrets of a seed takes the following ones. -/
theorem inserts_revealed {seed : Hash256} {first count : Nat}
    (represents : Store.Represents turn chainWidth (derive seed) (2 ^ chainWidth - first)
      (laidOut store)) (within : first + count ≤ 2 ^ chainWidth) :
    (inserts store ((range' first count).map fun state =>
      (derive seed (maxIndex - state), maxIndex - state))).1 = replicate count (.ok ()) := by
  induction count generalizing store first with
  | zero => rfl
  | succ count ih =>
    rw [range'_succ, map_cons, replicate_succ]
    have next : 2 ^ chainWidth - first = maxIndex - first + 1 := by
      rw [maxIndex]
      omega
    have small : maxIndex - first < 2 ^ chainWidth := by
      omega
    rw [next] at represents
    obtain ⟨after, taken⟩ := represents.insert_derived small
    have onward := (represents.insert taken).2
    rw [← derive, Function.update_eq_self] at onward
    rcases insert_cases store (derive seed (maxIndex - first)) (maxIndex - first) with
      ⟨after', done, made⟩ | ⟨problem, done, -⟩
    · obtain rfl := Except.ok.inj (taken.symm.trans done)
      have rest : maxIndex - first = 2 ^ chainWidth - (first + 1) := by
        omega
      have following := @ih after (first + 1)
        (by rwa [laidOut_of_length onward.length_known, ← rest]) (by omega)
      simp only [inserts, made]
      rw [following]
    · cases taken.symm.trans done

/-- A fresh store keeps what it was when it refuses, answers for exactly the calls it accepted,
holds at most forty-nine secrets and is rebuilt from them; the secrets of a seed are all accepted.
-/
theorem store_sound (start : Store Hash256) (fresh : start = new ∨ start = default)
    (calls : List (Hash256 × Nat)) :
    (∀ secret index problem, (insert (inserts start calls).2 secret index).1 = .error problem →
        laidOut (insert (inserts start calls).2 secret index).2 = laidOut (inserts start calls).2 ∧
          (start = new →
            (insert (inserts start calls).2 secret index).2 = (inserts start calls).2)) ∧
    (∀ secret index, (secret, index) ∈ accepted start calls →
      get (inserts start calls).2 index = some secret) ∧
    (∀ index, (∀ secret, (secret, index) ∉ accepted start calls) →
      get (inserts start calls).2 index = none) ∧
    len (inserts start calls).2 ≤ maxEntries ∧
    (∃ restored, restore (inserts start calls).2.entries = .ok restored ∧
      ∀ later, (inserts restored later).1 = (inserts (inserts start calls).2 later).1 ∧
        ∀ index, get (inserts restored later).2 index =
          get (inserts (inserts start calls).2 later).2 index) ∧
    ∀ seed count, count ≤ maxIndex + 1 →
      (inserts start (revealed seed count)).1 = replicate count (.ok ()) := by
  have isNew : laidOut start = new := by
    rcases fresh with rfl | rfl
    · exact laidOut_new
    · rfl
  have records := (records_fresh isNew).inserts calls
  rw [append_nil] at records
  refine ⟨fun secret index problem refused => ?_, fun secret index among => ?_,
    fun index absent => ?_, records.len_le, ?_, fun seed count within => ?_⟩
  · refine ⟨(insert_error refused).1, fun startNew => (insert_error refused).2 ?_⟩
    subst startNew
    exact laidOut_inserts laidOut_new calls
  · exact records.get_eq (mem_reverse.mpr among)
  · exact records.get_none fun secret among => absent secret (mem_reverse.mp among)
  · refine ⟨_, records.restore_entries, fun later => ?_⟩
    obtain ⟨answers, stores⟩ := inserts_congr (laidOut_laidOut _) later
    refine ⟨answers, fun index => ?_⟩
    rw [← get_laidOut, stores, get_laidOut]
  · rw [revealed, range_eq_range']
    refine inserts_revealed ?_ ?_
    · rw [isNew, Nat.sub_zero]
      exact Store.new_represents turn chainWidth (derive seed)
    · rwa [zero_add]

end Facts

/-- Two secrets of a seed, with one out of order and a forged one between them. -/
def forgedCalls [Crypto] : List (Hash256 × Nat) :=
  [(derive Hash256.zero maxIndex, maxIndex), (Hash256.zero, 5), (Hash256.zero, maxIndex - 1),
    (derive Hash256.zero (maxIndex - 1), maxIndex - 1)]

theorem store_sound_forged :
    letI := checksumCrypto
    accepted default forgedCalls = [(derive Hash256.zero maxIndex, maxIndex),
          (derive Hash256.zero (maxIndex - 1), maxIndex - 1)] ∧
      get (inserts default forgedCalls).2 maxIndex = some (derive Hash256.zero maxIndex) := by
  let _ := checksumCrypto
  have taken : accepted default forgedCalls = [(derive Hash256.zero maxIndex, maxIndex),
        (derive Hash256.zero (maxIndex - 1), maxIndex - 1)] := by
    decide +kernel
  refine ⟨taken, (store_sound default (.inr rfl) forgedCalls).2.1 _ _ ?_⟩
  rw [taken]
  exact (.head _)

end Shachain

end Q21Formal.Channel

/-! ## The journal on disk -/

namespace Q21Formal.Channel.JournalFile
open Library.Codec Library.FramedLog Library.Parsing Library.Refusal Primitives List

/-- `journal::Record`, with the fields as they are written. -/
inductive Record where
  | opened (channelId : Hash256) (ourIndex : UInt8) (funding : Hash256 × Hash256)
      (capacity : UInt64) (delay fundingDepth : UInt16) (ourPubkey theirPubkey : Bytes)
      (payout : Hash256 × Hash256) (keyIndex : Option UInt32)
  | funded (fundingTxid : Hash256) (fundingIndex : UInt32)
  | localCommit (state : UInt64) (balances : UInt64 × UInt64)
      (theirTierSigs : Bytes × Bytes × Bytes)
  | remoteCommit (state : UInt64) (balances : UInt64 × UInt64)
  | revocationSent (state : UInt64)
  | revocationRecv (state : UInt64) (secret : Hash256)
  | theirPoint (state : UInt64) (point : Hash256)
  | ready
  | closingCoop (fee : UInt64)
  | closingCoopBy (fee : UInt64) (payer : UInt8)
  | fundingTx (tx : Bytes)
  | keyIndex (index : UInt32)
  | forcing
  | penalised
  | closed
  | revocations (state : UInt64) (entries : List (Hash256 × UInt64))
  | confirmed (height : UInt64)
  | closeSigned (fee : UInt64) (signature : Bytes)
  | crossed (state : UInt64)
  | controlSent (seq : UInt64)
  | controlRecv (seq : UInt64)
  | abandoned
  | splice (state : UInt64) (adder : UInt8) (add oldCapacity : UInt64)
      (oldFunding : Hash256 × UInt32) (fundingInput : UInt32) (tx : Bytes)
  | spliceSig (signature : Bytes)
  | spliceTx (tx : Bytes)
  | spliceLocked
deriving DecidableEq

def writeU16 (value : UInt16) : Bytes := leBytes 2 value.toNat

/-- `u16::from_le_bytes` of the next two bytes. -/
def readU16 : Read UInt16 := fun left => do
  let (low, left) ← readU8 left
  let (high, left) ← readU8 left
  .ok (UInt16.ofNat (leValue [low, high]), left)

namespace Record

/-- The tag a record starts with. -/
def tag : Record → UInt8
  | opened _ _ _ _ _ _ _ _ _ none => 1
  | funded .. => 2
  | localCommit .. => 3
  | remoteCommit .. => 4
  | revocationSent .. => 5
  | revocationRecv .. => 6
  | ready => 7
  | closingCoop .. => 8
  | forcing => 9
  | penalised => 10
  | closed => 11
  | theirPoint .. => 12
  | revocations .. => 13
  | confirmed .. => 14
  | closeSigned .. => 15
  | crossed .. => 16
  | closingCoopBy .. => 17
  | fundingTx .. => 18
  | keyIndex .. => 19
  | opened _ _ _ _ _ _ _ _ _ (some _) => 20
  | controlSent .. => 21
  | controlRecv .. => 22
  | abandoned => 23
  | splice .. => 24
  | spliceSig .. => 25
  | spliceTx .. => 26
  | spliceLocked => 27

/-- What follows the tag. -/
def encodeFields : Record → Bytes
  | opened channelId ourIndex funding capacity delay fundingDepth ourPubkey theirPubkey payout
      walletIndex =>
      channelId.bytes ++ ([ourIndex] ++ (funding.1.bytes ++ (funding.2.bytes ++
        (writeU64 capacity ++ (writeU16 delay ++ (writeU16 fundingDepth ++
          (writeVarBytes ourPubkey ++ (writeVarBytes theirPubkey ++ (payout.1.bytes ++
            (payout.2.bytes ++ (walletIndex.elim [] writeU32)))))))))))
  | funded fundingTxid fundingIndex => fundingTxid.bytes ++ writeU32 fundingIndex
  | localCommit state balances theirTierSigs =>
    writeU64 state ++ (writeU64 balances.1 ++ (writeU64 balances.2 ++
      (writeVarBytes theirTierSigs.1 ++ (writeVarBytes theirTierSigs.2.1 ++
        writeVarBytes theirTierSigs.2.2))))
  | remoteCommit state balances =>
    writeU64 state ++ (writeU64 balances.1 ++ writeU64 balances.2)
  | revocationSent state => writeU64 state
  | revocationRecv state secret => writeU64 state ++ secret.bytes
  | theirPoint state point => writeU64 state ++ point.bytes
  | closingCoop fee => writeU64 fee
  | closingCoopBy fee payer => writeU64 fee ++ [payer]
  | fundingTx tx => writeVarBytes tx
  | keyIndex index => writeU32 index
  | revocations state entries =>
    writeU64 state ++ ([UInt8.ofNat entries.length] ++
      entries.flatMap fun entry => entry.1.bytes ++ writeU64 entry.2)
  | confirmed height => writeU64 height
  | closeSigned fee signature => writeU64 fee ++ writeVarBytes signature
  | crossed state => writeU64 state
  | controlSent seq => writeU64 seq
  | controlRecv seq => writeU64 seq
  | splice state adder add oldCapacity oldFunding fundingInput tx =>
    writeU64 state ++ ([adder] ++ (writeU64 add ++ (writeU64 oldCapacity ++
      (oldFunding.1.bytes ++ (writeU32 oldFunding.2 ++ (writeU32 fundingInput ++
        writeVarBytes tx))))))
  | spliceSig signature => writeVarBytes signature
  | spliceTx tx => writeVarBytes tx
  | ready => []
  | forcing => []
  | penalised => []
  | closed => []
  | abandoned => []
  | spliceLocked => []

def encode (record : Record) : Bytes := record.tag :: record.encodeFields

/-- A record of one field. -/
def readOne {α : Type} (read : Read α) (make : α → Record) : Read Record := fun left => do
  let (value, left) ← read left
  pure (make value, left)

/-- A record of two fields. -/
def readTwo {α β : Type} (readFirst : Read α) (readSecond : Read β) (make : α → β → Record) :
    Read Record := fun left => do
  let (first, left) ← readFirst left
  let (second, left) ← readSecond left
  pure (make first second, left)

def readOpened (indexed : Bool) : Read Record := fun left => do
  let (channelId, left) ← readArray32 left
  let (ourIndex, left) ← readU8 left
  let (funder, left) ← readArray32 left
  let (acceptor, left) ← readArray32 left
  let (capacity, left) ← readU64 left
  let (delay, left) ← readU16 left
  let (fundingDepth, left) ← readU16 left
  let (ourPubkey, left) ← readVarBytes left
  let (theirPubkey, left) ← readVarBytes left
  let (funderPayout, left) ← readArray32 left
  let (acceptorPayout, left) ← readArray32 left
  let (walletIndex, left) ← if indexed then do
      let (index, left) ← readU32 left
      pure (some index, left)
    else pure (none, left)
  pure (opened channelId ourIndex (funder, acceptor) capacity delay fundingDepth ourPubkey
    theirPubkey (funderPayout, acceptorPayout) walletIndex, left)

def readLocalCommit : Read Record := fun left => do
  let (state, left) ← readU64 left
  let (funder, left) ← readU64 left
  let (acceptor, left) ← readU64 left
  let (low, left) ← readVarBytes left
  let (medium, left) ← readVarBytes left
  let (high, left) ← readVarBytes left
  pure (localCommit state (funder, acceptor) (low, medium, high), left)

def readRemoteCommit : Read Record := fun left => do
  let (state, left) ← readU64 left
  let (funder, left) ← readU64 left
  let (acceptor, left) ← readU64 left
  pure (remoteCommit state (funder, acceptor), left)

def readEntry : Read (Hash256 × UInt64) := fun left => do
  let (secret, left) ← readArray32 left
  let (index, left) ← readU64 left
  pure ((secret, index), left)

def readRevocations : Read Record := fun left => do
  let (state, left) ← readU64 left
  let (count, left) ← readU8 left
  require (count.toNat ≤ Shachain.maxEntries) .invalidValue
  let (entries, left) ← readMany readEntry count.toNat left
  pure (revocations state entries, left)

def readSplice : Read Record := fun left => do
  let (state, left) ← readU64 left
  let (adder, left) ← readU8 left
  let (add, left) ← readU64 left
  let (oldCapacity, left) ← readU64 left
  let (txid, left) ← readArray32 left
  let (index, left) ← readU32 left
  let (fundingInput, left) ← readU32 left
  let (tx, left) ← readVarBytes left
  pure (splice state adder add oldCapacity (txid, index) fundingInput tx, left)

/-- The fields that a tag announces. -/
def readFields (tag : UInt8) : Read Record := fun left =>
  match tag.toNat with
  | 1 => readOpened false left
  | 20 => readOpened true left
  | 2 => readTwo readArray32 readU32 funded left
  | 3 => readLocalCommit left
  | 4 => readRemoteCommit left
  | 5 => readOne readU64 revocationSent left
  | 6 => readTwo readU64 readArray32 revocationRecv left
  | 12 => readTwo readU64 readArray32 theirPoint left
  | 7 => pure (ready, left)
  | 8 => readOne readU64 closingCoop left
  | 9 => pure (forcing, left)
  | 10 => pure (penalised, left)
  | 11 => pure (closed, left)
  | 13 => readRevocations left
  | 14 => readOne readU64 confirmed left
  | 16 => readOne readU64 crossed left
  | 19 => readOne readU32 keyIndex left
  | 21 => readOne readU64 controlSent left
  | 22 => readOne readU64 controlRecv left
  | 23 => pure (abandoned, left)
  | 18 => readOne readVarBytes fundingTx left
  | 17 => readTwo readU64 readU8 closingCoopBy left
  | 15 => readTwo readU64 readVarBytes closeSigned left
  | 24 => readSplice left
  | 25 => readOne readVarBytes spliceSig left
  | 26 => readOne readVarBytes spliceTx left
  | 27 => pure (spliceLocked, left)
  | _ => .error .invalidValue

def decode (body : Bytes) : Except ReadError Record := do
  let (tag, left) ← readU8 body
  let (record, left) ← readFields tag left
  expectEnd left
  pure record

/-! ## A record is read back -/

variable {rest : Bytes} {α : Type} {record : Record}

/-- No more revocation entries than a store holds, which is all the machine ever writes. -/
def FewEntries : Record → Prop
  | revocations _ entries => entries.length ≤ Shachain.maxEntries
  | _ => True

theorem readU64_append (value : UInt64) (rest : Bytes) :
    readU64 (writeU64 value ++ rest) = .ok (value, rest) := readU64_eq_ok.mpr rfl

theorem readU32_append (value : UInt32) (rest : Bytes) :
    readU32 (writeU32 value ++ rest) = .ok (value, rest) := readU32_eq_ok.mpr rfl

theorem readU8_append (byte : UInt8) (rest : Bytes) :
    readU8 ([byte] ++ rest) = .ok (byte, rest) := rfl

theorem readU16_append (value : UInt16) (rest : Bytes) :
    readU16 (writeU16 value ++ rest) = .ok (value, rest) := by
  have whole : leValue (leBytes 2 value.toNat) = value.toNat := by
    rw [leValue_leBytes]
    exact Nat.mod_eq_of_lt value.toNat_lt
  change Except.ok (UInt16.ofNat (leValue (leBytes 2 value.toNat)), rest) = _
  rw [whole, UInt16.ofNat_toNat]

theorem readOne_append {read : Read α} {encode : α → Bytes} {value : α}
    (back : read (encode value ++ rest) = .ok (value, rest)) (make : α → Record) :
    readOne read make (encode value ++ rest) = .ok (make value, rest) := by
  simp only [readOne, back, bind, Except.bind]
  rfl

theorem readTwo_append {β : Type} {readFirst : Read α} {readSecond : Read β}
    {encodeFirst : α → Bytes} {encodeSecond : β → Bytes} {first : α} {second : β}
    (backFirst : readFirst (encodeFirst first ++ (encodeSecond second ++ rest)) =
      .ok (first, encodeSecond second ++ rest))
    (backSecond : readSecond (encodeSecond second ++ rest) = .ok (second, rest))
    (make : α → β → Record) :
    readTwo readFirst readSecond make (encodeFirst first ++ encodeSecond second ++ rest) =
      .ok (make first second, rest) := by
  rw [append_assoc]
  simp only [readTwo, backFirst, backSecond, bind, Except.bind]
  rfl

theorem readEntry_exact :
    Exact readEntry (fun entry => entry.1.bytes ++ writeU64 entry.2) fun _ => True := by
  refine exact_of_iff fun left entry rest => ?_
  simp only [readEntry, bind_eq_ok, pure_eq_ok, readArray32_eq_ok, readU64_eq_ok, Prod.exists,
    Prod.mk.injEq]
  constructor
  · rintro ⟨secret, _, rfl, index, _, rfl, rfl, rfl⟩
    rw [append_assoc]
  · rintro rfl
    exact ⟨_, _, by rw [append_assoc], _, _, rfl, rfl, rfl⟩

theorem length_le_writeVarBytes (content : Bytes) :
    content.length ≤ (writeVarBytes content).length := by
  rw [writeVarBytes, length_append]
  omega

theorem readVarBytes_append {content whole : Bytes}
    (part : (writeVarBytes content).length ≤ whole.length)
    (fits : whole.length < 2 ^ 64) (rest : Bytes) :
    readVarBytes (writeVarBytes content ++ rest) = .ok (content, rest) := by
  have := length_le_writeVarBytes content
  exact readVarBytes_writeVarBytes (by omega) rest

theorem readFields_encodeFields (few : record.FewEntries)
    (fits : record.encodeFields.length < 2 ^ 64) (rest : Bytes) :
    readFields record.tag (record.encodeFields ++ rest) = .ok (record, rest) := by
  cases record with
  | ready | forcing | penalised | closed | abandoned | spliceLocked => rfl
  | revocationSent state => exact readOne_append (readU64_append state rest) _
  | closingCoop fee => exact readOne_append (readU64_append fee rest) _
  | confirmed height => exact readOne_append (readU64_append height rest) _
  | crossed state => exact readOne_append (readU64_append state rest) _
  | controlSent seq | controlRecv seq => exact readOne_append (readU64_append seq rest) _
  | keyIndex index => exact readOne_append (readU32_append index rest) _
  | fundingTx | spliceSig | spliceTx =>
    exact readOne_append (readVarBytes_append (le_refl _) fits rest) _
  | funded txid index =>
    exact readTwo_append (readArray32_append txid _) (readU32_append index rest) _
  | revocationRecv state secret =>
    exact readTwo_append (readU64_append state _) (readArray32_append secret rest) _
  | theirPoint state point =>
    exact readTwo_append (readU64_append state _) (readArray32_append point rest) _
  | closingCoopBy fee payer =>
    change readTwo readU64 readU8 closingCoopBy _ = _
    simp only [readTwo, encodeFields, append_assoc, readU64_append, readU8_append, bind,
      Except.bind]
    rfl
  | closeSigned fee signature =>
    refine readTwo_append (readU64_append fee _) (readVarBytes_append ?_ fits rest) _
    simp only [encodeFields, length_append]
    omega
  | remoteCommit state balances =>
    change readRemoteCommit _ = _
    simp only [readRemoteCommit, encodeFields, append_assoc, readU64_append, bind, Except.bind]
    rfl
  | localCommit state balances sigs =>
    simp only [encodeFields, length_append] at fits
    change readLocalCommit _ = _
    have low := length_le_writeVarBytes sigs.1
    have medium := length_le_writeVarBytes sigs.2.1
    have high := length_le_writeVarBytes sigs.2.2
    have backLow := @readVarBytes_writeVarBytes sigs.1 (by omega)
    have backMedium := @readVarBytes_writeVarBytes sigs.2.1 (by omega)
    have backHigh := @readVarBytes_writeVarBytes sigs.2.2 (by omega)
    simp only [readLocalCommit, encodeFields, append_assoc, readU64_append, backLow,
      backMedium, backHigh, bind, Except.bind]
    rfl
  | revocations state entries =>
    change readRevocations _ = _
    have count : (UInt8.ofNat entries.length).toNat = entries.length := by
      have within : entries.length < 256 := lt_of_le_of_lt few (by decide)
      exact UInt8.toNat_ofNat_of_lt' within
    have back := (readEntry_exact.many entries.length _ entries rest).mpr
      ⟨⟨rfl, fun _ _ => trivial⟩, rfl⟩
    simp only [readRevocations, encodeFields, append_assoc, readU64_append, readU8_append,
      count, require, if_pos (show entries.length ≤ Shachain.maxEntries from few), back, bind,
      Except.bind]
    rfl
  | splice state adder add oldCapacity oldFunding fundingInput tx =>
    simp only [encodeFields, length_append] at fits
    change readSplice _ = _
    have sized := length_le_writeVarBytes tx
    have back := @readVarBytes_writeVarBytes tx (by omega)
    simp only [readSplice, encodeFields, append_assoc, readU64_append, readU8_append,
      readArray32_append, readU32_append, back, bind, Except.bind]
    rfl
  | opened channelId ourIndex funding capacity delay fundingDepth ourPubkey theirPubkey payout
      walletIndex =>
      simp only [encodeFields, length_append] at fits
      have ours := length_le_writeVarBytes ourPubkey
      have theirs := length_le_writeVarBytes theirPubkey
      have backOurs := @readVarBytes_writeVarBytes ourPubkey (by omega)
      have backTheirs := @readVarBytes_writeVarBytes theirPubkey (by omega)
      cases walletIndex with
      | none =>
        change readOpened false _ = _
        simp only [readOpened, encodeFields, append_assoc, readU64_append, readU8_append,
          readArray32_append, readU16_append, backOurs, backTheirs, bind, Except.bind,
          Bool.false_eq_true, if_false]
        rfl
      | some index =>
        change readOpened true _ = _
        simp only [readOpened, encodeFields, append_assoc, readU64_append, readU8_append,
          readArray32_append, readU16_append, backOurs, backTheirs, Option.elim_some,
          readU32_append, bind, Except.bind, if_true]
        rfl

/-- A record is decoded from its encoding. -/
theorem decode_encode (few : record.FewEntries) (fits : record.encode.length < 2 ^ 64) :
    decode record.encode = .ok record := by
  rw [encode, length_cons] at fits
  have fields := readFields_encodeFields few (by omega) []
  rw [append_nil] at fields
  simp only [decode, encode, readU8, bind, Except.bind, fields]
  rfl

theorem tag_ne_zero (record : Record) : record.tag ≠ 0 := by
  unfold tag
  split <;> decide

end Record

/-- `TORN_ZEROS_MAX`. -/
def tornZerosMax : Nat := Ledger.maxBlockSize + 64 * 1024

section File
variable [Crypto]

/-- The first four bytes of the SHA-256. -/
def checksum (bytes : Bytes) : Bytes := (Crypto.sha256 bytes).bytes.take 4

/-- The frames of the journal. -/
def format : Format Record where
  encode := Record.encode
  decode body := (Record.decode body).toOption
  checksum := checksum
  maxZeros := tornZerosMax

def frame (record : Record) : Bytes := format.frame record

def frames (records : List Record) : Bytes := format.frames records

/-- `journal::scan`. -/
def scan (raw : Bytes) : Except Corruption (List Record × Nat) := format.scan raw

/-- `Journal::open`: the records, and the file cut to what they occupy. -/
def openFile (raw : Bytes) : Except Corruption (List Record × Bytes) := do
  let (records, good) ← scan raw
  pure (records, if good < raw.length then raw.take good else raw)

/-- `Journal::append`: the file with one more frame. -/
def append (raw : Bytes) (record : Record) : Bytes := raw ++ frame record

/-- A record the machine can write: its body fits the length field of its frame. -/
structure Storable (record : Record) : Prop where
  few : record.FewEntries
  fits : record.encode.length < 2 ^ 32

theorem format_lawful : format.Lawful Storable where
  length_checksum body := by
    have := (Crypto.sha256 body).length_bytes
    change ((Crypto.sha256 body).bytes.take 4).length = 4
    rw [length_take]
    omega
  decode_encode record stored := by
    have fits := stored.fits
    change (Record.decode record.encode).toOption = some record
    rw [Record.decode_encode stored.few (by omega)]
    rfl
  marked record _ := by
    have tagged := record.tag_ne_zero
    change (record.tag :: record.encodeFields).all (· == 0) = false
    simp [tagged]
  fits record stored := stored.fits

/-- The scan refuses a journal with a damaged frame, or returns every record, exactly where the
length the frame gives leads to more than a torn end: to some byte that is not zero, or to more
zeros than an interrupted append leaves. -/
theorem damage_never_cuts_back {before after : List Record} {record : Record} {damaged : Bytes}
    (storedBefore : ∀ record ∈ before, Storable record) (stored : Storable record)
    (storedAfter : ∀ record ∈ after, Storable record) (some : after ≠ [])
    (sized : damaged.length = (frame record).length)
    (detected : Format.bodyField (damaged ++ frames after) ≠ record.encode →
      checksum (Format.bodyField (damaged ++ frames after)) ≠
        Format.checksumField (damaged ++ frames after)) :
    ((∃ problem, scan (frames before ++ (damaged ++ frames after)) = .error problem) ∨
      ∃ good, scan (frames before ++ (damaged ++ frames after)) =
        .ok (before ++ record :: after, good)) ↔
      Format.allZeros (Format.following (damaged ++ frames after)) = false ∨
        tornZerosMax < (Format.following (damaged ++ frames after)).length :=
  format_lawful.scan_damaged storedBefore stored storedAfter some sized detected

end File

/-- A first frame whose length became the largest number: opening empties the file. -/
theorem length_damage_drops_records :
    letI : Crypto := checksumCrypto
    let damaged : Bytes := [255, 255, 255, 255] ++ (frame .ready).drop 4
    damaged.length = (frame .ready).length ∧
      (Format.bodyField (damaged ++ frames [.forcing]) ≠ Record.ready.encode →
        checksum (Format.bodyField (damaged ++ frames [.forcing])) ≠
          Format.checksumField (damaged ++ frames [.forcing])) ∧
      scan (damaged ++ frames [.forcing]) = .ok ([], 0) ∧
      openFile (damaged ++ frames [.forcing]) = .ok ([], []) := by
  decide +kernel

/-- A first frame with its checksum damaged and its length as it was. -/
theorem damage_never_cuts_back_checksum :
    letI : Crypto := checksumCrypto
    let damaged : Bytes := (frame .ready).take 4 ++ [0, 0, 0, 0] ++ (frame .ready).drop 8
    (∃ problem, scan (frames [] ++ (damaged ++ frames [.forcing])) = .error problem) ∨
      ∃ good, scan (frames [] ++ (damaged ++ frames [.forcing])) =
        .ok ([] ++ Record.ready :: [.forcing], good) := by
  let _ := checksumCrypto
  refine (@damage_never_cuts_back _ [] [.forcing] .ready _ (fun _ none => by cases none)
    ⟨trivial, by decide⟩ ?_ (cons_ne_nil _ _) ?_ ?_).mpr (.inl ?_)
  · intro record among
    obtain rfl := mem_singleton.mp among
    exact ⟨trivial, by decide⟩
  · decide +kernel
  · decide +kernel
  · decide +kernel

section Torn
variable [Crypto]

theorem frames_append (first second : List Record) :
    frames (first ++ second) = frames first ++ frames second := flatMap_append

theorem frames_singleton (record : Record) : frames [record] = frame record :=
  flatMap_singleton _ _

/-- Opening cuts the file to the frames of the records it returns. -/
theorem openFile_eq {raw : Bytes} {kept : List Record}
    (scanned : scan raw = .ok (kept, (frames kept).length)) (front : frames kept <+: raw) :
    openFile raw = .ok (kept, frames kept) := by
  obtain ⟨rest, rfl⟩ := front
  simp only [openFile, scanned, bind, Except.bind, take_left]
  split
  · rfl
  · rename_i whole
    rw [length_append] at whole
    obtain rfl : rest = [] := eq_nil_of_length_eq_zero (by omega)
    rw [append_nil]
    rfl

/-- An append cut short, with zeros after it, loses at most its own record, and the journal goes on.
-/
theorem torn_append_loses_one {records : List Record} {record next : Record} {cut zeros : Nat}
    (storedAll : ∀ record ∈ records, Storable record) (some : records ≠ [])
    (stored : Storable record) (storedNext : Storable next)
    (short : cut < (frame record).length) (few : zeros ≤ tornZerosMax)
    (run : Format.allZeros ((frame record).take cut) = true → cut + zeros ≤ tornZerosMax)
    (detected : 8 + Format.lengthField (format.torn record cut zeros) ≤
        (format.torn record cut zeros).length →
      Format.bodyField (format.torn record cut zeros) ≠ record.encode →
      checksum (Format.bodyField (format.torn record cut zeros)) ≠
        Format.checksumField (format.torn record cut zeros)) :
    ∃ kept, (kept = records ∨
        kept = records ++ [record] ∧ frame record <+: format.torn record cut zeros) ∧
      scan (frames records ++ format.torn record cut zeros) = .ok (kept, (frames kept).length) ∧
      openFile (frames records ++ format.torn record cut zeros) = .ok (kept, frames kept) ∧
      scan (append (frames kept) next) =
        .ok (kept ++ [next], (append (frames kept) next).length) := by
  obtain ⟨kept, which, scanned⟩ :=
    format_lawful.scan_torn short storedAll some stored few run detected
  have front : frames kept <+: frames records ++ format.torn record cut zeros := by
    rcases which with rfl | ⟨rfl, complete⟩
    · exact prefix_append _ _
    · rw [frames_append, frames_singleton]
      exact (prefix_append_right_inj _).mpr complete
  have storedKept : ∀ other ∈ kept ++ [next], Storable other := by
    simp only [mem_append, mem_singleton]
    rintro other (among | rfl)
    · rcases which with rfl | ⟨rfl, -⟩
      · exact storedAll other among
      · rcases mem_append.mp among with early | late
        · exact storedAll other early
        · exact mem_singleton.mp late ▸ stored
    · exact storedNext
  have appended : append (frames kept) next = frames (kept ++ [next]) := by
    rw [append, frames_append, frames_singleton]
  refine ⟨kept, which, scanned, openFile_eq scanned front, ?_⟩
  rw [appended]
  exact format_lawful.scan_frames storedKept

/-- More zeros than an interrupted append leaves are refused. -/
theorem scan_long_zeros {records : List Record} (storedAll : ∀ record ∈ records, Storable record)
    (some : records ≠ []) {count : Nat} (many : tornZerosMax < count) :
    scan (frames records ++ replicate count 0) = .error (.badChecksum (frames records).length) := by
  have long : ¬ count < 8 := by
    have : 8 ≤ tornZerosMax := by decide
    omega
  have refused : format.tornZeros (frames records).length (replicate count 0) =
      .error (.badChecksum (frames records).length) := by
    rw [Format.tornZeros, if_neg (by rw [Format.allZeros_replicate]; decide),
      if_pos (by rw [length_replicate]; exact many)]
  have stopped : format.head (frames records).length (replicate count 0) =
      .error (.badChecksum (frames records).length) := by
    rw [Format.head, length_replicate, if_neg long, refused]
    rfl
  obtain ⟨fuel, rfl⟩ : ∃ fuel, count = fuel + 1 := ⟨count - 1, by omega⟩
  have scanned := format_lawful.scan_append storedAll some (replicate (fuel + 1) 0)
  rw [length_replicate] at scanned
  refine scanned.trans ?_
  change (format.scanFrom (fuel + 1) (frames records).length _ >>= _) = _
  rw [Format.scanFrom, stopped]
  rfl

end Torn

/-- A record whose body has 256 bytes, so that its frame starts with a zero. -/
def evenRecord : Record := .closeSigned 0 (replicate 246 0)

/-- The first byte of a frame and one zero too many: the journal is refused. -/
theorem torn_zero_byte_refused :
    letI : Crypto := checksumCrypto
    Storable .ready ∧ Storable evenRecord ∧ 1 < (frame evenRecord).length ∧
      (8 + Format.lengthField (format.torn evenRecord 1 tornZerosMax) ≤
          (format.torn evenRecord 1 tornZerosMax).length →
        Format.bodyField (format.torn evenRecord 1 tornZerosMax) ≠ evenRecord.encode →
        checksum (Format.bodyField (format.torn evenRecord 1 tornZerosMax)) ≠
          Format.checksumField (format.torn evenRecord 1 tornZerosMax)) ∧
      scan (frames [.ready] ++ format.torn evenRecord 1 tornZerosMax) =
        .error (.badChecksum (frames [.ready]).length) := by
  let _ := checksumCrypto
  have zeros : format.torn evenRecord 1 tornZerosMax = replicate (tornZerosMax + 1) 0 := by
    have first : (format.frame evenRecord).take 1 = [0] := by decide +kernel
    rw [Format.torn, first, replicate_succ]
    rfl
  have size : Format.lengthField (replicate (tornZerosMax + 1) 0) = 0 := by
    rw [Format.lengthField, take_replicate]
    decide
  have sum : Format.checksumField (replicate (tornZerosMax + 1) 0) = [0, 0, 0, 0] := by
    rw [Format.checksumField, drop_replicate, take_replicate]
    decide
  refine ⟨⟨trivial, by decide⟩, ⟨trivial, by decide +kernel⟩, by decide +kernel, ?_, ?_⟩
  · rw [zeros, Format.bodyField, size, sum, take_zero]
    intro _ _
    decide +kernel
  · rw [zeros]
    refine scan_long_zeros ?_ (cons_ne_nil _ _) (Nat.lt_succ_self _)
    intro record among
    obtain rfl := mem_singleton.mp among
    exact ⟨trivial, by decide⟩

/-- An append cut after its header, with three zeros. -/
theorem torn_append_loses_one_header :
    letI : Crypto := checksumCrypto
    ∃ kept, scan (frames [.ready] ++ format.torn .forcing 8 3) = .ok (kept, (frames kept).length) ∧
      scan (append (frames kept) .closed) =
        .ok (kept ++ [.closed], (append (frames kept) .closed).length) := by
  let _ := checksumCrypto
  have storedAll : ∀ record ∈ [Record.ready], Storable record := by
    intro record among
    obtain rfl := mem_singleton.mp among
    exact ⟨trivial, by decide⟩
  obtain ⟨kept, -, scanned, -, appended⟩ :=
    @torn_append_loses_one _ [.ready] .forcing .closed 8 3 storedAll (cons_ne_nil _ _)
      ⟨trivial, by decide⟩ ⟨trivial, by decide⟩ (by decide +kernel) (by decide)
      (fun _ => by decide) (by decide +kernel)
  exact ⟨kept, scanned, appended⟩

end Q21Formal.Channel.JournalFile

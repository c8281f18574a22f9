import Q21Formal.Ledger.Chain

/-!
# Compact relay

A block is announced by its header, its coinbase and short identifiers.  The receiver fills the
slots from its mempool, asks for what it lacks, and keeps the result only if the Merkle root
matches.
-/

namespace Q21Formal.Ledger
open Library.Codec Library.Refusal Library.Maps Library.Parsing Primitives List Option

def rotateLeft (word count : UInt64) : UInt64 := word <<< count ||| word >>> (64 - count)

structure SipState where
  v0 : UInt64
  v1 : UInt64
  v2 : UInt64
  v3 : UInt64

def sipround (state : SipState) : SipState :=
  let v0 := state.v0 + state.v1
  let v1 := rotateLeft state.v1 13 ^^^ v0
  let v0 := rotateLeft v0 32
  let v2 := state.v2 + state.v3
  let v3 := rotateLeft state.v3 16 ^^^ v2
  let v0 := v0 + v3
  let v3 := rotateLeft v3 21 ^^^ v0
  let v2 := v2 + v1
  let v1 := rotateLeft v1 17 ^^^ v2
  ⟨v0, v1, rotateLeft v2 32, v3⟩

def SipState.absorb (state : SipState) (word : UInt64) : SipState :=
  let mixed := sipround (sipround { state with v3 := state.v3 ^^^ word })
  { mixed with v0 := mixed.v0 ^^^ word }

def siphash24 (k0 k1 : UInt64) (data : Bytes) : UInt64 :=
  let start : SipState := ⟨k0 ^^^ 0x736f6d6570736575, k1 ^^^ 0x646f72616e646f6d,
    k0 ^^^ 0x6c7967656e657261, k1 ^^^ 0x7465646279746573⟩
  let words := (range (data.length / 8)).map fun place =>
    UInt64.ofNat (leValue ((data.drop (8 * place)).take 8))
  -- The remaining bytes, and the length in the most significant byte.
  let last := UInt64.ofNat (leValue (data.drop (8 * (data.length / 8))) +
    data.length % 256 * 2 ^ 56)
  let state := (words ++ [last]).foldl SipState.absorb start
  let state := sipround (sipround (sipround (sipround { state with v2 := state.v2 ^^^ 0xff })))
  state.v0 ^^^ state.v1 ^^^ state.v2 ^^^ state.v3

/-- The reference vector for eight bytes less one. -/
example : siphash24 0x0706050403020100 0x0f0e0d0c0b0a0908 [0, 1, 2, 3, 4, 5, 6] =
    0xab0200f58b01d137 := by decide +kernel

def maxTxPerBlock : Nat := maxBlockSize / 64
def shortIdLen : Nat := 6

structure CompactBlock where
  header : BlockHeader
  nonce : UInt64
  shortIds : List UInt64
  prefilled : List (UInt32 × Transaction)
  uncles : List BlockHeader
deriving DecidableEq

inductive CompactError where
  | badMerkleRoot
  | wrongTransactionCount (expected received : Nat)
  | unexpectedTransaction (index : Nat)
  | tooManyTransactions (count : Nat)
  | missingCoinbase
  | read (problem : ReadError)
deriving DecidableEq

namespace CompactBlock

def txCount (compact : CompactBlock) : Nat := compact.shortIds.length + compact.prefilled.length

def encodeShortId (id : UInt64) : Bytes := (writeU64 id).take shortIdLen

def encodePrefilled (entry : UInt32 × Transaction) : Bytes :=
  writeVarint entry.1.toNat ++ writeVarBytes entry.2.encode

def encode (compact : CompactBlock) : Bytes :=
  compact.header.encode ++ (writeU64 compact.nonce ++
    ((writeVarint compact.shortIds.length ++ compact.shortIds.flatMap encodeShortId) ++
      ((writeVarint compact.prefilled.length ++ compact.prefilled.flatMap encodePrefilled) ++
        (writeVarint compact.uncles.length ++ compact.uncles.flatMap BlockHeader.encode))))

def readShortId : Read UInt64 := fun left => do
  let (buffer, left) ← readMany readU8 shortIdLen left
  pure (UInt64.ofNat (leValue buffer), left)

def readPrefilled (left : Bytes) : Except CompactError ((UInt32 × Transaction) × Bytes) := do
  let (raw, left) ← (readVarint left).mapError .read
  require (raw < 2 ^ 32) (.read .invalidValue)
  let (content, left) ← (readVarBytes left).mapError .read
  let tx ← (Transaction.decode content).mapError fun _ => .read .invalidValue
  pure ((UInt32.ofNat raw, tx), left)

/-- A counted sequence of no more than `limit` elements. -/
def readLimited {α : Type} (minimum limit : Nat) (read : Bytes → Except CompactError (α × Bytes))
    (left : Bytes) : Except CompactError (List α × Bytes) := do
  let (count, left) ← (readCount minimum left).mapError .read
  require (count ≤ limit) (.tooManyTransactions count)
  readMany read count left

def decode (content : Bytes) : Except CompactError CompactBlock := do
  require (headerSize ≤ content.length) (.read .unexpectedEnd)
  let header ← (BlockHeader.decode (content.take headerSize)).mapError .read
  let (nonce, left) ← (readU64 (content.drop headerSize)).mapError .read
  let (shortIds, left) ← readLimited 6 maxTxPerBlock
    (fun left => (readShortId left).mapError .read) left
  let (prefilled, left) ← readLimited 12 maxTxPerBlock readPrefilled left
  let (uncles, left) ← readLimited headerSize 64 (fun left => (readUncle left).mapError .read) left
  (expectEnd left).mapError .read
  pure ⟨header, nonce, shortIds, prefilled, uncles⟩

/-! ## Exact reads -/

theorem take_leBytes {count width : Nat} (low : count ≤ width) (value : Nat) :
    (leBytes width value).take count = leBytes count value := by
  induction count generalizing width value with
  | zero => rfl
  | succ count ih =>
    obtain ⟨width, rfl⟩ := Nat.exists_eq_add_of_lt low
    rw [show count + width + 1 = (count + width) + 1 by omega, leBytes, take_succ_cons,
      ih (Nat.le_add_right _ _), leBytes]

theorem encodeShortId_eq (id : UInt64) : encodeShortId id = leBytes shortIdLen id.toNat :=
  take_leBytes (by decide) _

theorem readShortId_exact : Exact readShortId encodeShortId fun id => id.toNat < 2 ^ 48 := by
  intro left id rest
  simp only [readShortId, bind_eq_ok, pure_eq_ok, readU8_exact.many shortIdLen _ _ _, Prod.exists,
    Prod.mk.injEq, flatMap_singleton']
  constructor
  · rintro ⟨buffer, _, ⟨⟨sized, -⟩, rfl⟩, rfl, rfl⟩
    have small := leValue_lt buffer
    rw [sized] at small
    have back : (UInt64.ofNat (leValue buffer)).toNat = leValue buffer :=
      UInt64.toNat_ofNat_of_lt' (small.trans (by decide))
    refine ⟨by rw [back]; exact small, ?_⟩
    rw [encodeShortId_eq, back, ← sized, leBytes_leValue]
  · rintro ⟨small, rfl⟩
    refine ⟨encodeShortId id, rest, ⟨⟨?_, fun _ _ => trivial⟩, rfl⟩, ?_, rfl⟩
    · rw [encodeShortId_eq, leBytes_length]
    · have whole : id.toNat % 256 ^ shortIdLen = id.toNat := Nat.mod_eq_of_lt small
      rw [encodeShortId_eq, leValue_leBytes, whole, UInt64.ofNat_toNat]

theorem readPrefilled_exact : Exact readPrefilled encodePrefilled
    fun entry => entry.2.Encodable ∧ entry.2.encode.length < 2 ^ 64 := by
  rintro left ⟨index, tx⟩ rest
  simp only [readPrefilled, bind_eq_ok, pure_eq_ok, mapError_eq_ok, require_eq_ok,
    readVarBytes_exact _ _ _, Transaction.decode_eq_ok, Prod.exists, Prod.mk.injEq]
  constructor
  · rintro ⟨raw, _, read, _, small, _, _, ⟨fits, rfl⟩, _, ⟨encodable, rfl⟩, ⟨rfl, rfl⟩, rfl⟩
    obtain ⟨rfl, -⟩ := readVarint_eq_ok read
    refine ⟨⟨encodable, fits⟩, ?_⟩
    rw [encodePrefilled, UInt32.toNat_ofNat_of_lt' small, append_assoc]
  · rintro ⟨⟨encodable, fits⟩, rfl⟩
    refine ⟨index.toNat, writeVarBytes tx.encode ++ rest, ?_, (), index.toNat_lt, _, _,
      ⟨fits, rfl⟩, tx, ⟨encodable, rfl⟩, ⟨UInt32.ofNat_toNat, rfl⟩, rfl⟩
    rw [encodePrefilled, append_assoc]
    exact readVarint_writeVarint (index.toNat_lt.trans (by decide)) _

theorem readLimited_exact {α : Type} {minimum limit : Nat}
    {read : Bytes → Except CompactError (α × Bytes)} {encode : α → Bytes} {valid : α → Prop}
    (exact : Exact read encode valid) (low : limit < 2 ^ 64)
    (long : ∀ value, valid value → minimum ≤ (encode value).length) :
    Exact (readLimited minimum limit read)
      (fun values => writeVarint values.length ++ values.flatMap encode)
      fun values => values.length ≤ limit ∧ ∀ value ∈ values, valid value := by
  have counted : Exact (readCounted CompactError.read minimum read) _ _ :=
    readCounted_exact exact long
  intro left values rest
  have split : readLimited minimum limit read left = .ok (values, rest) ↔
      readCounted CompactError.read minimum read left = .ok (values, rest) ∧
        values.length ≤ limit := by
    simp only [readLimited, readCounted, bind_eq_ok, require_eq_ok, Prod.exists]
    constructor
    · rintro ⟨count, middle, read, _, few, following⟩
      refine ⟨⟨count, middle, read, following⟩, ?_⟩
      rwa [((exact.many count middle values rest).mp following).1.1]
    · rintro ⟨⟨count, middle, read, following⟩, few⟩
      rw [((exact.many count middle values rest).mp following).1.1] at few
      exact ⟨count, middle, read, (), few, following⟩
  rw [split, counted left values rest]
  constructor
  · rintro ⟨⟨⟨-, goods⟩, same⟩, few⟩
    exact ⟨⟨few, goods⟩, same⟩
  · rintro ⟨⟨few, goods⟩, same⟩
    exact ⟨⟨⟨few.trans_lt low, goods⟩, same⟩, few⟩

theorem mapError_exact {ε α : Type} {wrap : ReadError → ε} {read : Read α} {encode : α → Bytes}
    {valid : α → Prop} (exact : Exact read encode valid) :
    Exact (fun left => (read left).mapError wrap) encode valid := by
  intro left value rest
  rw [mapError_eq_ok]
  exact exact left value rest

/-- Every part is within the limits of the format. -/
structure Fits (compact : CompactBlock) : Prop where
  shortIds : compact.shortIds.length ≤ maxTxPerBlock
  masked : ∀ id ∈ compact.shortIds, id.toNat < 2 ^ 48
  prefilled : compact.prefilled.length ≤ maxTxPerBlock
  encodable : ∀ entry ∈ compact.prefilled, entry.2.Encodable ∧ entry.2.encode.length < 2 ^ 64
  uncles : compact.uncles.length ≤ 64

theorem decode_eq_ok {content : Bytes} {compact : CompactBlock} :
    decode content = .ok compact ↔ compact.Fits ∧ content = compact.encode := by
  have ids : Exact (readLimited 6 maxTxPerBlock fun left => (readShortId left).mapError .read)
      (fun ids => writeVarint ids.length ++ ids.flatMap encodeShortId) _ :=
    readLimited_exact (mapError_exact readShortId_exact) (by decide)
      fun id _ => by rw [encodeShortId_eq, leBytes_length, shortIdLen]
  have entries : Exact (readLimited 12 maxTxPerBlock readPrefilled)
      (fun entries => writeVarint entries.length ++ entries.flatMap encodePrefilled) _ :=
    readLimited_exact readPrefilled_exact (by decide) fun entry _ => by
      have content := entry.2.length_encode_ge
      rw [encodePrefilled, length_append]
      omega
  have headers : Exact (readLimited headerSize 64 fun left => (readUncle left).mapError .read)
      (fun uncles => writeVarint uncles.length ++ uncles.flatMap BlockHeader.encode) _ :=
    readLimited_exact (mapError_exact readUncle_exact) (by decide)
      fun header _ => (length_encodeHeader header).ge
  have size := length_encodeHeader compact.header
  simp only [decode, bind_eq_ok, pure_eq_ok, mapError_eq_ok, require_eq_ok,
    BlockHeader.decode_eq_ok, readU64_eq_ok, ids _ _ _, entries _ _ _, headers _ _ _,
    expectEnd_eq_ok, Prod.exists]
  constructor
  · rintro ⟨_, enough, header, front, nonce, _, back, shortIds, _, ⟨⟨few, masked⟩, rfl⟩, prefilled,
      _, ⟨⟨few', encodable⟩, rfl⟩, uncles, _, ⟨⟨few'', -⟩, rfl⟩, _, rfl, rfl⟩
    refine ⟨⟨few, masked, few', encodable, few''⟩, ?_⟩
    rw [← take_append_drop headerSize content, front, back, encode, append_nil]
  · rintro ⟨fits, rfl⟩
    refine ⟨(), ?_, compact.header, ?_, compact.nonce, _, ?_, compact.shortIds, _,
      ⟨⟨fits.shortIds, fits.masked⟩, rfl⟩, compact.prefilled, _,
      ⟨⟨fits.prefilled, fits.encodable⟩, rfl⟩, compact.uncles, [],
      ⟨⟨fits.uncles, fun _ _ => trivial⟩, (append_nil _).symm⟩, (), rfl, rfl⟩
    · rw [encode, length_append, size]
      exact Nat.le_add_right _ _
    · rw [encode, take_left' size]
    · rw [encode, drop_left' size]

end CompactBlock

section Announcing
variable [Crypto]

def shortIdKey (header : BlockHeader) (nonce : UInt64) : UInt64 × UInt64 :=
  let bytes := (taggedHashText "Q21/compact/key" (header.encode ++ writeU64 nonce)).bytes
  (UInt64.ofNat (leValue (bytes.take 8)), UInt64.ofNat (leValue ((bytes.drop 8).take 8)))

/-- The six low-order bytes of the SipHash. -/
def shortId (key : UInt64 × UInt64) (txid : Hash256) : UInt64 :=
  siphash24 key.1 key.2 txid.bytes &&& 0x0000ffffffffffff

/-- The coinbase in full, the others by their short identifiers. -/
def CompactBlock.fromBlock (block : Block) (nonce : UInt64) : CompactBlock :=
  let key := shortIdKey block.header nonce
  { header := block.header
    nonce := nonce
    shortIds := block.transactions.tail.map fun tx => shortId key tx.txid
    prefilled := (block.transactions.take 1).map fun tx => (0, tx)
    uncles := block.uncles }

end Announcing

structure Reconstruction where
  header : BlockHeader
  uncles : List BlockHeader
  slots : List (Option Transaction)
  missing : List Nat
deriving DecidableEq

namespace Reconstruction

/-- The short identifiers fill the slots left free, in order; what is not found is missing. -/
def fill (found : UInt64 → Option Transaction) (total : Nat) :
    List UInt64 → List Nat → List (Option Transaction) → List Nat →
      Except CompactError (List (Option Transaction) × List Nat)
  | [], _, slots, missing => .ok (slots, missing)
  | _ :: _, [], _, _ => .error (.unexpectedTransaction total)
  | id :: ids, slot :: free, slots, missing =>
    match found id with
    | some tx => fill found total ids free (slots.set slot (some tx)) missing
    | none => fill found total ids free slots (missing ++ [slot])

/-- The places that hold nothing. -/
def freeSlots (slots : List (Option Transaction)) : List Nat :=
  (range slots.length).filter fun place => slots[place]? = some none

/-- The prefilled transactions put in their slots. -/
def place (total : Nat) (slots : List (Option Transaction)) (entry : UInt32 × Transaction) :
    Except CompactError (List (Option Transaction)) :=
  if total ≤ entry.1.toNat then .error (.unexpectedTransaction entry.1.toNat)
  else .ok (slots.set entry.1.toNat (some entry.2))

variable {tx : Transaction}

section Reconstructing
variable [Crypto] {reconstruction : Reconstruction} {block : Block}

/-- The mempool by short identifier; one that two transactions have stands for none. -/
def byId (key : UInt64 × UInt64) (available : List (Hash256 × Transaction)) :
    FiniteMap UInt64 (Option Transaction) :=
  available.foldl (fun table entry =>
    let id := shortId key entry.1
    match table.lookup id with
    | some _ => table.insert id none
    | none => table.insert id (some entry.2)) ∅

def fromCompact (order : Iteration Hash256 Transaction) (compact : CompactBlock)
    (available : FiniteMap Hash256 Transaction) : Except CompactError Reconstruction := do
  let total := compact.txCount
  require (total ≤ maxTxPerBlock) (.tooManyTransactions total)
  let table := byId (shortIdKey compact.header compact.nonce) (order.list available)
  let slots ← compact.prefilled.foldlM (place total) (replicate total none)
  require ((slots.head?.getD none).isSome = true) .missingCoinbase
  let (slots, missing) ← fill (fun id => (table.lookup id).getD none) total compact.shortIds
    (freeSlots slots) slots []
  pure ⟨compact.header, compact.uncles, slots, missing⟩

def finalize (reconstruction : Reconstruction) : Except CompactError Block :=
  match reconstruction.slots.findIdx? isNone with
  | some index => .error (.unexpectedTransaction index)
  | none =>
    let block : Block :=
      ⟨reconstruction.header, reconstruction.slots.reduceOption, reconstruction.uncles⟩
    if block.computeMerkleRoot ≠ block.header.merkleRoot then .error .badMerkleRoot
    else .ok block

def complete (reconstruction : Reconstruction) (supplied : List Transaction) :
    Except CompactError Block :=
  if supplied.length ≠ reconstruction.missing.length then
    .error (.wrongTransactionCount reconstruction.missing.length supplied.length)
  else
    finalize { reconstruction with
      slots := (reconstruction.missing.zip supplied).foldl
        (fun slots entry => slots.set entry.1 (some entry.2)) reconstruction.slots }

def finish (reconstruction : Reconstruction) : Except CompactError Block :=
  if reconstruction.missing ≠ [] then
    .error (.wrongTransactionCount reconstruction.missing.length 0)
  else reconstruction.finalize

theorem finalize_ok (finished : reconstruction.finalize = .ok block) :
    block.header = reconstruction.header ∧ block.uncles = reconstruction.uncles ∧
      block.computeMerkleRoot = reconstruction.header.merkleRoot := by
  unfold finalize at finished
  split at finished
  · cases finished
  · dsimp only at finished
    split_ifs at finished with root
    cases finished
    exact ⟨rfl, rfl, not_not.mp root⟩

/-- However a reconstruction is finished, its block has the header, uncles and Merkle root
announced. -/
theorem returned_ok {order : Iteration Hash256 Transaction} {compact : CompactBlock}
    {available : FiniteMap Hash256 Transaction}
    (begun : fromCompact order compact available = .ok reconstruction) {supplied : List Transaction}
    (returned : reconstruction.complete supplied = .ok block ∨ reconstruction.finish = .ok block) :
    block.header = compact.header ∧ block.uncles = compact.uncles ∧
      block.computeMerkleRoot = compact.header.merkleRoot := by
  have announced : reconstruction.header = compact.header ∧
      reconstruction.uncles = compact.uncles := by
    simp only [fromCompact, bind_eq_ok, pure_eq_ok] at begun
    obtain ⟨_, _, _, _, _, _, _, _, rfl⟩ := begun
    exact ⟨rfl, rfl⟩
  rw [← announced.1, ← announced.2]
  rcases returned with completed | finished
  · unfold complete at completed
    split_ifs at completed
    have returned := finalize_ok completed
    exact returned
  · unfold finish at finished
    split_ifs at finished
    exact finalize_ok finished

omit [Crypto] in
/-- A transaction found by its short identifier is one of the mempool that has it. -/
theorem byId_found {key : UInt64 × UInt64} {entries : List (Hash256 × Transaction)} {id : UInt64}
    (found : ((byId key entries).lookup id).getD none = some tx) :
    ∃ entry ∈ entries, shortId key entry.1 = id ∧ entry.2 = tx := by
  suffices walk : ∀ (entries : List (Hash256 × Transaction))
      (table : FiniteMap UInt64 (Option Transaction)),
      ((entries.foldl (fun table entry =>
        let id := shortId key entry.1
        match table.lookup id with
        | some _ => table.insert id none
        | none => table.insert id (some entry.2)) table).lookup id).getD none = some tx →
      (table.lookup id).getD none = some tx ∨
        ∃ entry ∈ entries, shortId key entry.1 = id ∧ entry.2 = tx from
    (walk entries ∅ found).resolve_left (by simp)
  intro entries
  induction entries with
  | nil => exact fun table held => .inl held
  | cons entry rest ih =>
    intro table held
    rcases ih _ held with before | ⟨other, member, matches'⟩
    · dsimp only at before
      split at before
      · rw [lookup_insert_eq] at before
        split at before
        · cases before
        · exact .inl before
      · rw [lookup_insert_eq] at before
        split at before
        · rename_i same
          exact .inr ⟨entry, mem_cons_self, same.symm, some.inj before⟩
        · exact .inl before
    · exact .inr ⟨other, mem_cons_of_mem _ member, matches'⟩

end Reconstructing

/-! ## Slots -/

/-- Every slot that is filled holds the transaction of its place. -/
structure Holds (txs : List Transaction) (slots : List (Option Transaction)) : Prop where
  length : slots.length = txs.length
  right : ∀ (place : Nat) (tx : Transaction), slots[place]? = some (some tx) → txs[place]? = some tx

section Slots
variable {txs : List Transaction} {slots : List (Option Transaction)}

theorem Holds.set (holds : Holds txs slots) {place : Nat}
    (here : txs[place]? = some tx) : Holds txs (slots.set place (some tx)) := by
  refine ⟨by rw [length_set, holds.length], fun other found filled => ?_⟩
  have low : place < slots.length := by
    rw [holds.length]
    exact (List.getElem?_eq_some_iff.mp here).1
  by_cases same : place = other
  · subst same
    rw [getElem?_set_self low, some_inj, some_inj] at filled
    rw [here, filled]
  · rw [getElem?_set_ne same] at filled
    exact holds.right other found filled

/-- A slot that is free after one is filled was free before, and is another. -/
theorem free_of_set {place other : Nat} (low : place < slots.length)
    (free : (slots.set place (some tx))[other]? = some none) :
    slots[other]? = some none ∧ other ≠ place := by
  by_cases same : place = other
  · subst same
    rw [getElem?_set_self low] at free
    cases free
  · rw [getElem?_set_ne same] at free
    exact ⟨free, Ne.symm same⟩

/-- The transactions supplied fill their slots. -/
theorem Holds.supply (holds : Holds txs slots) {entries : List (Nat × Transaction)}
    (right : ∀ entry ∈ entries, txs[entry.1]? = some entry.2) :
    Holds txs (entries.foldl (fun slots entry => slots.set entry.1 (some entry.2)) slots) ∧
      ∀ place, (entries.foldl (fun slots entry => slots.set entry.1 (some entry.2))
        slots)[place]? = some none → slots[place]? = some none ∧ place ∉ entries.map Prod.fst := by
  induction entries generalizing slots with
  | nil => exact ⟨holds, fun place free => ⟨free, not_mem_nil⟩⟩
  | cons entry rest ih =>
    have here := right entry (.head _)
    have low : entry.1 < slots.length := by
      rw [holds.length]
      exact (List.getElem?_eq_some_iff.mp here).1
    obtain ⟨after, free⟩ := ih (holds.set here)
      fun other member => right other (.tail _ member)
    refine ⟨after, fun place empty => ?_⟩
    obtain ⟨before, absent⟩ := free place empty
    obtain ⟨was, distinct⟩ := free_of_set low before
    exact ⟨was, by simp [distinct, absent]⟩

/-- The short identifiers fill what they find and record what they do not. -/
theorem Holds.fill (holds : Holds txs slots) {found : UInt64 → Option Transaction} (total : Nat)
    {ids : List UInt64} {free : List Nat} (missing : List Nat)
    (right : Forall₂ (fun id place => ∃ tx, txs[place]? = some tx ∧
      ∀ other, found id = some other → other = tx) ids free) :
    ∃ after lacking, fill found total ids free slots missing = .ok (after, lacking) ∧
      Holds txs after ∧ missing ⊆ lacking ∧ (∀ place ∈ lacking, place ∈ missing ∨ place ∈ free) ∧
      ∀ place, after[place]? = some none →
        slots[place]? = some none ∧ (place ∈ free → place ∈ lacking) := by
  induction right generalizing slots missing with
  | nil =>
    exact ⟨slots, missing, rfl, holds, Subset.refl _, fun _ => .inl,
      fun place empty => ⟨empty, fun absent => by cases absent⟩⟩
  | @cons id place ids free fits _ ih =>
    obtain ⟨tx, here, finds⟩ := fits
    cases looked : found id with
    | some other =>
      obtain rfl := finds other looked
      have low : place < slots.length := by
        rw [holds.length]
        exact (List.getElem?_eq_some_iff.mp here).1
      obtain ⟨after, lacking, filled, held, kept, only, empty⟩ := ih (holds.set here) missing
      refine ⟨after, lacking, by rw [Reconstruction.fill, looked]; exact filled, held, kept,
        fun slot member => (only slot member).imp_right (mem_cons_of_mem _), ?_⟩
      intro slot none
      obtain ⟨before, listed⟩ := empty slot none
      obtain ⟨was, distinct⟩ := free_of_set low before
      exact ⟨was, fun member => listed ((mem_cons.mp member).resolve_left distinct)⟩
    | none =>
      obtain ⟨after, lacking, filled, held, kept, only, empty⟩ :=
        ih holds (missing ++ [place])
      refine ⟨after, lacking, by rw [Reconstruction.fill, looked]; exact filled, held, ?_, ?_, ?_⟩
      · exact fun slot member => kept (mem_append_left _ member)
      · intro slot member
        rcases only slot member with old | later
        · rcases mem_append.mp old with old | new
          · exact .inl old
          · exact .inr (mem_singleton.mp new ▸ mem_cons_self)
        · exact .inr (.tail _ later)
      · intro slot none
        obtain ⟨was, listed⟩ := empty slot none
        refine ⟨was, fun member => ?_⟩
        rcases mem_cons.mp member with rfl | later
        · exact kept (mem_append_right _ (mem_singleton.mpr rfl))
        · exact listed later

/-- Slots that are all filled hold the transactions. -/
theorem Holds.eq_map (holds : Holds txs slots) (full : ∀ place : Nat, slots[place]? ≠ some none) :
    slots = txs.map some := by
  refine ext_getElem? fun place => ?_
  rw [getElem?_map]
  cases found : slots[place]? with
  | none =>
    rw [List.getElem?_eq_none_iff, holds.length] at found
    rw [getElem?_eq_none found]
    rfl
  | some slot =>
    cases slot with
    | none => exact absurd found (full place)
    | some tx =>
      rw [holds.right place tx found]
      rfl

theorem finalize_full [Crypto] {header : BlockHeader} {uncles : List BlockHeader}
    {missing : List Nat} (root : Block.computeMerkleRoot ⟨header, txs, uncles⟩ = header.merkleRoot) :
    finalize ⟨header, uncles, txs.map some, missing⟩ = .ok ⟨header, txs, uncles⟩ := by
  have full : (txs.map some).findIdx? isNone = none := by
    rw [findIdx?_eq_none_iff]
    intro slot member
    obtain ⟨tx, -, rfl⟩ := mem_map.mp member
    rfl
  have all : (txs.map some).reduceOption = txs := by
    change (txs.map some).filterMap id = txs
    rw [filterMap_map]
    exact filterMap_some
  rw [finalize, full]
  rw [all, if_neg (not_not.mpr root)]

end Slots

/-- The transactions of the places asked for, in their order. -/
theorem zip_asked {txs : List Transaction} {places : List Nat}
    (inside : ∀ place ∈ places, place < txs.length) :
    (places.filterMap (txs[·]?)).length = places.length ∧
      (places.zip (places.filterMap (txs[·]?))).map Prod.fst = places ∧
      ∀ entry ∈ places.zip (places.filterMap (txs[·]?)), txs[entry.1]? = some entry.2 := by
  induction places with
  | nil => exact ⟨rfl, rfl, fun _ absent => by cases absent⟩
  | cons place rest ih =>
    obtain ⟨length, firsts, right⟩ :=
      ih fun other member => inside other (.tail _ member)
    have here := getElem?_eq_getElem (inside place (.head _))
    rw [filterMap_cons_some here]
    refine ⟨by rw [length_cons, length, length_cons], ?_, ?_⟩
    · rw [zip_cons_cons, map_cons, firsts]
    · rw [zip_cons_cons, forall_mem_cons]
      exact ⟨here, right⟩

theorem freeSlots_coinbase (coinbase : Transaction) (count : Nat) :
    freeSlots (some coinbase :: replicate count none) = (range count).map Nat.succ := by
  rw [freeSlots, length_cons, length_replicate, range_succ_eq_map,
    filter_cons_of_neg (by simp), filter_eq_self]
  intro place member
  obtain ⟨below, inside, rfl⟩ := mem_map.mp member
  rw [getElem?_cons_succ, getElem?_replicate_of_lt (mem_range.mp inside)]
  rfl

end Reconstruction

section Relay
variable [Crypto]

open Reconstruction

omit [Crypto] in
/-- The six low-order bytes are below `2 ^ 48`. -/
theorem shortId_lt (key : UInt64 × UInt64) (txid : Hash256) : (shortId key txid).toNat < 2 ^ 48 := by
  exact Nat.and_lt_two_pow _ (by decide)

/-- What a reconstruction of an announced block lacks is all that it needs. -/
theorem reconstruction_completes {block : Block} {coinbase : Transaction} {rest : List Transaction}
    (listed : block.transactions = coinbase :: rest)
    (root : block.computeMerkleRoot = block.header.merkleRoot)
    (few : block.transactions.length ≤ maxTxPerBlock) (nonce : UInt64)
    (order : Iteration Hash256 Transaction) (available : FiniteMap Hash256 Transaction)
    (apart : ∀ tx ∈ rest, ∀ txid held, available.lookup txid = some held →
      shortId (shortIdKey block.header nonce) txid =
        shortId (shortIdKey block.header nonce) tx.txid → held = tx) :
    ∃ reconstruction, fromCompact order (.fromBlock block nonce) available = .ok reconstruction ∧
      reconstruction.complete
        (reconstruction.missing.filterMap (block.transactions[·]?)) = .ok block ∧
      (reconstruction.missing = [] → reconstruction.finish = .ok block) := by
  have total : (CompactBlock.fromBlock block nonce).txCount = rest.length + 1 := by
    simp [CompactBlock.txCount, CompactBlock.fromBlock, listed]
  have prefilled : (CompactBlock.fromBlock block nonce).prefilled = [(0, coinbase)] := by
    simp [CompactBlock.fromBlock, listed]
  have ids : (CompactBlock.fromBlock block nonce).shortIds =
      rest.map fun tx => shortId (shortIdKey block.header nonce) tx.txid := by
    simp [CompactBlock.fromBlock, listed]
  have start : Holds block.transactions (some coinbase :: replicate rest.length none) := by
    refine ⟨by simp [listed], fun place tx filled => ?_⟩
    cases place with
    | zero =>
      rw [listed]
      exact some.inj filled
    | succ place =>
      rw [getElem?_cons_succ, getElem?_replicate] at filled
      split at filled <;> cases filled
  have right : Forall₂ (fun id place => ∃ tx, block.transactions[place]? = some tx ∧
      ∀ other, ((byId (shortIdKey block.header nonce) (order.list available)).lookup id).getD none =
        some other → other = tx)
      (rest.map fun tx => shortId (shortIdKey block.header nonce) tx.txid)
      ((range rest.length).map Nat.succ) := by
    rw [List.forall₂_map_left_iff, List.forall₂_map_right_iff, List.forall₂_iff_get]
    refine ⟨length_range.symm, fun place low _ => ⟨rest.get ⟨place, low⟩, ?_, ?_⟩⟩
    · rw [get_eq_getElem, getElem_range, listed]
      exact getElem?_eq_getElem low
    · intro other found
      obtain ⟨entry, member, same, rfl⟩ := byId_found found
      exact apart _ (get_mem _ _) entry.1 entry.2 (order.mem_list.mp member) same
  obtain ⟨after, lacking, filled, held, -, only, empty⟩ :=
    start.fill (rest.length + 1) [] right
  have asked : ∀ place ∈ lacking, place < block.transactions.length := by
    intro place member
    obtain ⟨below, inside, rfl⟩ := mem_map.mp ((only place member).resolve_left (by simp))
    have low := mem_range.mp inside
    rw [listed, length_cons]
    omega
  obtain ⟨length, firsts, supplies⟩ := zip_asked asked
  obtain ⟨holds, free⟩ := held.supply supplies
  have full : ∀ place : Nat, ((lacking.zip (lacking.filterMap (block.transactions[·]?))).foldl
      (fun slots entry => slots.set entry.1 (some entry.2)) after)[place]? ≠ some none := by
    intro place none
    obtain ⟨before, absent⟩ := free place none
    obtain ⟨was, listed⟩ := empty place before
    rw [firsts] at absent
    refine absent (listed ?_)
    cases place with
    | zero => cases was
    | succ place =>
      rw [getElem?_cons_succ, getElem?_replicate] at was
      split at was
      · rename_i low
        exact mem_map_of_mem (mem_range.mpr low)
      · cases was
  have completed : complete ⟨block.header, block.uncles, after, lacking⟩
      (lacking.filterMap (block.transactions[·]?)) = .ok block := by
    rw [complete, if_neg (not_not.mpr length)]
    rw [holds.eq_map full]
    exact finalize_full root
  refine ⟨⟨block.header, block.uncles, after, lacking⟩, ?_, completed, fun none => ?_⟩
  · simp only [fromCompact, bind_eq_ok, pure_eq_ok, require_eq_ok, total, prefilled, ids]
    refine ⟨(), by rwa [listed] at few, some coinbase :: replicate rest.length none, rfl, (),
      rfl, (after, lacking), ?_, rfl⟩
    rwa [freeSlots_coinbase]
  · subst none
    exact completed

/-- Announced blocks within the limits are decoded as encoded; a block whose transactions no short
identifier confuses is reconstructed from any mempool; and every reconstruction that returns has the
roots of its header. -/
theorem compact_relay_reconstructs {block : Block} (shape : block.checkShape = .ok ())
    (nonce : UInt64) :
    (block.Encodable → block.transactions.length ≤ maxTxPerBlock → block.uncles.length ≤ 64 →
      CompactBlock.decode (CompactBlock.fromBlock block nonce).encode =
        .ok (.fromBlock block nonce)) ∧
    (block.transactions.length ≤ maxTxPerBlock →
      ∀ (order : Iteration Hash256 Transaction) (available : FiniteMap Hash256 Transaction),
      (∀ txid tx, available.lookup txid = some tx → tx.txid = txid) →
      (∀ first second : Transaction,
        (first ∈ block.transactions ∨ ∃ txid, available.lookup txid = some first) →
        (second ∈ block.transactions ∨ ∃ txid, available.lookup txid = some second) →
        shortId (shortIdKey block.header nonce) first.txid =
          shortId (shortIdKey block.header nonce) second.txid → first = second) →
      ∃ reconstruction, fromCompact order (.fromBlock block nonce) available = .ok reconstruction ∧
        reconstruction.complete
          (reconstruction.missing.filterMap (block.transactions[·]?)) = .ok block ∧
        (reconstruction.missing = [] → reconstruction.finish = .ok block)) ∧
    ∀ (order : Iteration Hash256 Transaction) (available : FiniteMap Hash256 Transaction)
      (reconstruction : Reconstruction) (supplied : List Transaction) (returned : Block),
      fromCompact order (.fromBlock block nonce) available = .ok reconstruction →
      (reconstruction.complete supplied = .ok returned ∨ reconstruction.finish = .ok returned) →
      returned.header = block.header ∧ returned.computeMerkleRoot = block.header.merkleRoot ∧
        returned.computeUnclesRoot = block.header.unclesRoot := by
  obtain ⟨coinbase, rest, listed, -⟩ := Block.checkShape_ok shape
  obtain ⟨root, uncles⟩ := Block.checkShape_roots shape
  refine ⟨?_, ?_, ?_⟩
  · intro encodable few side
    refine CompactBlock.decode_eq_ok.mpr ⟨⟨?_, ?_, ?_, ?_, side⟩, rfl⟩
    · rw [listed, length_cons] at few
      simp only [CompactBlock.fromBlock, listed, tail_cons, length_map]
      omega
    · intro id member
      obtain ⟨tx, -, rfl⟩ := mem_map.mp member
      exact shortId_lt _ _
    · simp [CompactBlock.fromBlock, listed, maxTxPerBlock, maxBlockSize]
    · intro entry member
      obtain ⟨tx, first, rfl⟩ := mem_map.mp member
      exact encodable.each tx (mem_of_mem_take first)
  · intro few order available keyed apart
    refine reconstruction_completes listed root few nonce order available ?_
    intro tx member txid held found same
    refine apart held tx (.inr ⟨txid, found⟩) (.inl ?_) (by rw [keyed txid held found, same])
    rw [listed]
    exact mem_cons_of_mem _ member
  · intro order available reconstruction supplied returned begun finished
    obtain ⟨header, announced, merkle⟩ := returned_ok begun finished
    have same : returned.computeUnclesRoot = block.computeUnclesRoot := by
      rw [Block.computeUnclesRoot, announced]
      rfl
    exact ⟨header, merkle, same.trans uncles⟩

end Relay

/-- A block of the given transactions and uncles with the roots it needs. -/
def sealedBlock [Crypto] (transactions : List Transaction) (uncles : List BlockHeader) : Block :=
  let body : Block := ⟨(genesisBlock 0).header, transactions, uncles⟩
  { body with
    header :=
      { body.header with
        merkleRoot := body.computeMerkleRoot, unclesRoot := body.computeUnclesRoot } }

theorem sealedBlock_shape [Crypto] {rest : List Transaction} (uncles : List BlockHeader)
    (single : rest.any Transaction.isCoinbase = false)
    (shapes : ∀ tx ∈ rest, tx.checkShape = .ok ()) :
    (sealedBlock (genesisCoinbase :: rest) uncles).checkShape = .ok () := by
  have coinbase : genesisCoinbase.checkShape = .ok () := by decide +kernel
  simp only [Block.checkShape, sealedBlock, bind_eq_ok, require_eq_ok]
  refine ⟨(), rfl, (), single, (), forM_eq_ok.mpr ?_, (), require_eq_ok.mpr rfl,
    require_eq_ok.mpr rfl⟩
  rw [forall_mem_cons]
  exact ⟨by rw [coinbase]; rfl, fun tx member => by rw [shapes tx member]; rfl⟩

/-- A transaction that spends output `index` of nothing. -/
def plainSpend (index : UInt32) : Transaction :=
  ⟨1, [⟨⟨.zero, index⟩, ⟨[], []⟩, 0⟩], [⟨5, .mlDsa65, .zero⟩], 0⟩

/-- Of two transactions the mempool has one; the other is asked for. -/
theorem compact_relay_reconstructs_half :
    letI : Crypto := checksumCrypto
    let block := sealedBlock [genesisCoinbase, plainSpend 1, plainSpend 2] []
    let available : FiniteMap Hash256 Transaction :=
      (∅ : FiniteMap Hash256 Transaction).insert (plainSpend 1).txid (plainSpend 1)
    ∃ reconstruction, Reconstruction.fromCompact (Iteration.sorted _ _) (.fromBlock block 7) available =
        .ok reconstruction ∧
      reconstruction.complete (reconstruction.missing.filterMap (block.transactions[·]?)) =
        .ok block := by
  let _ := checksumCrypto
  intro block available
  have shape : block.checkShape = .ok () := sealedBlock_shape [] (by decide) (by decide)
  have held : ∀ txid tx, available.lookup txid = some tx →
      txid = (plainSpend 1).txid ∧ tx = plainSpend 1 := by
    intro txid tx found
    rw [lookup_insert_eq] at found
    split at found
    · rename_i same
      exact ⟨same, (some.inj found).symm⟩
    · cases found
  have among : ∀ tx, (tx ∈ block.transactions ∨ ∃ txid, available.lookup txid = some tx) →
      tx ∈ [genesisCoinbase, plainSpend 1, plainSpend 2] := by
    rintro tx (listed | ⟨txid, found⟩)
    · exact listed
    · rw [(held txid tx found).2]
      decide
  have apart : ∀ first ∈ [genesisCoinbase, plainSpend 1, plainSpend 2],
      ∀ second ∈ [genesisCoinbase, plainSpend 1, plainSpend 2],
      shortId (shortIdKey block.header 7) first.txid =
        shortId (shortIdKey block.header 7) second.txid → first = second := by
    decide +kernel
  obtain ⟨reconstruction, begun, completed, -⟩ :=
    (compact_relay_reconstructs shape 7).2.1 (by decide) (Iteration.sorted _ _) available
      (fun txid tx found => by rw [(held txid tx found).1, (held txid tx found).2])
      fun first second here there => apart first (among first here) second (among second there)
  exact ⟨reconstruction, begun, completed⟩

/-- The limit of 64 uncles is not part of a block's shape. -/
theorem crowded_announcement_refused :
    letI : Crypto := checksumCrypto
    let block := sealedBlock [genesisCoinbase] (replicate 65 (genesisBlock 0).header)
    block.checkShape = .ok () ∧
      CompactBlock.decode (CompactBlock.fromBlock block 0).encode ≠ .ok (.fromBlock block 0) := by
  let _ := checksumCrypto
  refine ⟨sealedBlock_shape _ rfl (fun _ absent => by cases absent), fun decoded => ?_⟩
  have few := (CompactBlock.decode_eq_ok.mp decoded).1.uncles
  exact absurd few (by decide)

end Q21Formal.Ledger

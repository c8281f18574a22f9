import Q21Formal.Storage.HeaderStore

/-!
# The block file

Records end to end, each a block after its length.  Opening the archive scans the headers, puts a
damaged genesis or length back, and cuts what an interrupted write left.  A file that does not exist
is one without bytes.
-/

namespace Q21Formal.Storage
open Library.Codec Library.Refusal Library.Maps Primitives Ledger List

namespace BlockFile

def maxSerializedBlock : Nat := 64 * 1024 * 1024

/-- Where the body of a record stands. -/
structure RecordRef where
  offset : Nat
  len : Nat
  deriving DecidableEq

section
variable (content : Bytes) (block : Block) (headers : List (BlockHeader × RecordRef))
  (bytes : Bytes)

/-- A block after its length. -/
def record : Bytes := leBytes 4 block.encode.length ++ block.encode

def records (blocks : List Block) : Bytes := blocks.flatMap record

/-- `BlockStore::append`. -/
def append : Bytes × RecordRef :=
  (content ++ record block, ⟨content.length + 4, block.encode.length % 2 ^ 32⟩)

/-- The loop of `scan_headers`, from a record and its position on. -/
def scanFrom : Nat → Nat → Nat → Bytes → List (BlockHeader × RecordRef) × Option StoreError
  | 0, _, _, _ => ([], none)
  | fuel + 1, index, position, left =>
    if left.length < 4 then ([], none)
    else
      let size := leValue (left.take 4)
      if size < headerSize ∨ maxSerializedBlock < size then
        ([], some (.blockTooLarge index size))
      else if left.length < 4 + headerSize then ([], some (.truncatedFile index))
      else match BlockHeader.decode ((left.drop 4).take headerSize) with
        | .error _ => ([], some (.unreadableBlock index))
        | .ok header =>
          if left.length < 4 + size then ([], some (.truncatedFile index))
          else
            let (found, problem) :=
              scanFrom fuel (index + 1) (position + 4 + size) (left.drop (4 + size))
            ((header, ⟨position + 4, size⟩) :: found, problem)

/-- `scan_headers`; every record takes four bytes at least. -/
def scanHeaders : List (BlockHeader × RecordRef) × Option StoreError :=
  scanFrom (content.length + 1) 0 0 content

def readAt (place : RecordRef) : Except StoreError Block := do
  require (place.len ≠ 0 ∧ place.len ≤ maxSerializedBlock) (.blockTooLarge place.offset place.len)
  let data := (content.drop place.offset).take place.len
  require (data.length = place.len) (.truncatedFile place.offset)
  (Block.decode data).mapError fun _ => .unreadableBlock place.offset

section Archive
variable [Crypto]

/-- Where each header was read; a later record takes the place of an earlier one. -/
def positionsOf : FiniteMap Hash256 RecordRef :=
  collect (headers.map fun entry => (entry.1.blockId, entry.2))

/-- `BlockArchive::append`, on the file and the positions. -/
def archiveAppend (archive : Bytes × FiniteMap Hash256 RecordRef) (block : Block) :
    Bytes × FiniteMap Hash256 RecordRef :=
  let (content, place) := append archive.1 block
  (content, archive.2.insert block.header.blockId place)

/-- `BlockArchive::read`. -/
def archiveRead (positions : FiniteMap Hash256 RecordRef) (id : Hash256) : Option Block := do
  let place ← positions.lookup id
  let block ← (readAt content place).toOption
  guard (block.header.blockId = id ∧ block.checkShape.isOk)
  some block

def maxPrefixRepairs : Nat := 64
def maxWalkBack : Nat := 64

/-- The record that starts the bytes links to the block. -/
def nextLinks (id : Hash256) (bytes : Bytes) : Bool :=
  decide (4 + headerSize ≤ bytes.length) &&
    match BlockHeader.decode ((bytes.drop 4).take headerSize) with
    | .ok header => header.prevBlock = id
    | .error _ => false

/-- The complete block that starts the bytes, if it is attached to this file, and its length. -/
def attachedRecord (known : List Hash256) : Option (BlockHeader × Nat) := do
  let (block, actual) ← (Block.decodePrefix bytes).toOption
  guard (headerSize ≤ actual ∧ actual ≤ maxSerializedBlock)
  guard (block.encode = bytes.take actual)
  let size := leValue ((bytes.drop actual).take 4)
  guard (block.header.prevBlock ∈ known ∨ headerSize ≤ size ∧ size ≤ maxSerializedBlock ∧
    nextLinks block.header.blockId (bytes.drop actual))
  some (block.header, actual)

/-- The first record is not canonical, and its header or the record after it is still of this
network. -/
def genesisIsRecognizable (content canonical : Bytes) (expected : Hash256) : Bool :=
  decide (content.take (4 + canonical.length) ≠ leBytes 4 canonical.length ++ canonical) &&
    ((match BlockHeader.decode ((content.drop 4).take headerSize) with
      | .ok header => header.blockId = expected
      | .error _ => false) || nextLinks expected (content.drop (4 + canonical.length)))

/-- Where the bytes of the suspect start and what its length says. -/
def suspect (sound : Nat) : Option (Nat × Nat) :=
  match headers[sound]? with
  | some (_, place) => some (place.offset, place.len)
  | none => do
      let finish := (headers.getLast?.map fun entry => entry.2.offset + entry.2.len).getD 0
      guard (finish ≠ 0 ∧ finish + 4 + headerSize ≤ content.length)
      some (finish + 4, leValue ((content.drop finish).take 4))

/-- The position of a length to rewrite, and the length. -/
def prefixToRepair : Option (Nat × Nat) := do
  let unsound := headers.reverse.takeWhile fun entry => !(readAt content entry.2).isOk
  guard (unsound.length < maxWalkBack)
  let sound := headers.length - unsound.length
  let known := (headers.take sound).map fun entry => entry.1.blockId
  let (start, readLen) ← suspect content headers sound
  let bytes := (content.drop start).take (maxSerializedBlock + 4 + headerSize)
  let (_, actual) ← attachedRecord bytes known
  guard (actual ≠ readLen)
  some (start - 4, actual)

/-- Bytes written over what the file holds at a position. -/
def overwrite (position : Nat) (bytes : Bytes) : Bytes :=
  content.take position ++ bytes ++ content.drop (position + bytes.length)

structure Opened where
  positions : FiniteMap Hash256 RecordRef
  headers : List BlockHeader
  problem : Option StoreError

/-- The end of an opening: an interrupted write is cut, unless a damaged length was left. -/
def finishOpening (problem : Option StoreError) (damagedPrefix : Bool) : Bytes × Opened :=
  let opened := Opened.mk (positionsOf headers) (headers.map Prod.fst)
  match problem, headers.getLast?, damagedPrefix with
  | some (.truncatedFile index), some (_, place), false =>
    let finish := place.offset + place.len
    if content.length - finish ≤ maxBlockSize + 4 then (content.take finish, opened none)
    else (content, opened (some (.truncatedFile index)))
  | problem, _, _ => (content, opened problem)

def firstOk (canonical : Block) : List (BlockHeader × RecordRef) → Bool
  | [] => false
  | (header, place) :: _ =>
    header.blockId = canonical.header.blockId ∧ place.len = canonical.encode.length

/-- `open_inner`, which calls itself after a repair. -/
def openInner (nonce : UInt64) : Nat → Bool → Nat → Bytes →
    Option (Bytes × Except StoreError Opened)
  | 0, _, _, _ => none
  | fuel + 1, repairGenesis, prefixesRepaired, content =>
    let canonical := genesisBlock nonce
    let expected := canonical.header.blockId
    let (headers, problem) := scanHeaders content
    let wrong := !firstOk canonical headers && decide (0 < content.length)
    if wrong && repairGenesis && genesisIsRecognizable content canonical.encode expected then
      openInner nonce fuel false prefixesRepaired (overwrite content 0 (record canonical))
    else match headers with
      | [] => some (content, .ok ⟨∅, [], problem⟩)
      | (first, _) :: _ =>
        if wrong ∧ first.blockId ≠ expected then
          some (content, .error (.foreignGenesis expected first.blockId))
        else match problem.bind fun _ => prefixToRepair content headers with
          | none =>
            let (content, opened) := finishOpening content headers problem false
            some (content, .ok opened)
          | some (position, actual) =>
            if prefixesRepaired < maxPrefixRepairs then
              openInner nonce fuel repairGenesis (prefixesRepaired + 1)
                (overwrite content position (leBytes 4 actual))
            else
              let (content, opened) := finishOpening content headers problem true
              some (content, .ok opened)

/-- `BlockArchive::open`. -/
def openArchive (nonce : UInt64) (fuel : Nat) (content : Bytes) :
    Option (Bytes × Except StoreError Opened) :=
  openInner nonce fuel true 0 content

end Archive

end

section Records
variable {block : Block} {blocks : List Block}

/-- A block that a record can hold and a scan accepts. -/
structure Storable (block : Block) : Prop where
  encodable : block.Encodable
  short : block.encode.length ≤ maxSerializedBlock

theorem header_starts (block : Block) : block.header.encode <+: block.encode := by
  rw [block.encode_eq]
  exact prefix_append _ _

theorem le_length_encode (block : Block) : headerSize ≤ block.encode.length := by
  rw [← length_encodeHeader block.header]
  exact (header_starts block).length_le

theorem length_record (block : Block) : (record block).length = 4 + block.encode.length := by
  rw [record, length_append, leBytes_length]

theorem records_cons (block : Block) (blocks : List Block) :
    records (block :: blocks) = record block ++ records blocks := by
  rw [records, flatMap_cons, records]

theorem records_append (first second : List Block) :
    records (first ++ second) = records first ++ records second := by
  rw [records, flatMap_append, records, records]

theorem leValue_size {size : Nat} (short : size ≤ maxSerializedBlock) :
    leValue (leBytes 4 size) = size := by
  have bound : maxSerializedBlock < 256 ^ 4 := by decide
  rw [leValue_leBytes, Nat.mod_eq_of_lt (short.trans_lt bound)]

/-- A record is accepted for its length and its header alone. -/
theorem scanFrom_frame {header : BlockHeader} {body : Bytes} (starts : header.encode <+: body)
    (short : body.length ≤ maxSerializedBlock) (fuel index position : Nat) (rest : Bytes) :
    scanFrom (fuel + 1) index position (leBytes 4 body.length ++ (body ++ rest)) =
      ((header, ⟨position + 4, body.length⟩) ::
          (scanFrom fuel (index + 1) (position + 4 + body.length) rest).1,
        (scanFrom fuel (index + 1) (position + 4 + body.length) rest).2) := by
  have four := leBytes_length 4 body.length
  have long : headerSize ≤ body.length := by
    rw [← length_encodeHeader header]
    exact starts.length_le
  have length : (leBytes 4 body.length ++ (body ++ rest)).length =
      4 + (body.length + rest.length) := by
    rw [length_append, four, length_append]
  have front : ((leBytes 4 body.length ++ (body ++ rest)).drop 4).take headerSize =
      header.encode := by
    obtain ⟨tail, rfl⟩ := starts
    rw [drop_left' four, append_assoc, take_left' (length_encodeHeader header)]
  have after : (leBytes 4 body.length ++ (body ++ rest)).drop (4 + body.length) = rest := by
    rw [← drop_drop, drop_left' four, drop_left' rfl]
  have decoded : BlockHeader.decode header.encode = .ok header := BlockHeader.decode_eq_ok.mpr rfl
  rw [scanFrom, if_neg (by omega), take_left' four, leValue_size short]
  rw [if_neg (by omega), if_neg (by omega), front, decoded]
  dsimp only
  rw [if_neg (by omega), after]

/-- What a scan accepts of complete records. -/
def recordRefs : Nat → List Block → List (BlockHeader × RecordRef)
  | _, [] => []
  | position, block :: rest => (block.header, ⟨position + 4, block.encode.length⟩) ::
      recordRefs (position + (record block).length) rest

theorem recordRefs_headers (position : Nat) (blocks : List Block) :
    (recordRefs position blocks).map Prod.fst = blocks.map Block.header := by
  induction blocks generalizing position with
  | nil => rfl
  | cons block rest ih => rw [recordRefs, map_cons, ih, map_cons]

theorem length_recordRefs (position : Nat) (blocks : List Block) :
    (recordRefs position blocks).length = blocks.length := by
  rw [← length_map Prod.fst, recordRefs_headers, length_map]

section
variable (stored : ∀ block ∈ blocks, Storable block)
include stored

theorem scanFrom_records (fuel index position : Nat) (rest : Bytes) :
    scanFrom (blocks.length + fuel) index position (records blocks ++ rest) =
      (recordRefs position blocks ++
          (scanFrom fuel (index + blocks.length) (position + (records blocks).length) rest).1,
        (scanFrom fuel (index + blocks.length) (position + (records blocks).length) rest).2) := by
  induction blocks generalizing index position with
  | nil =>
    rw [length_nil, Nat.zero_add]
    rfl
  | cons block blocks ih =>
    have later := ih (fun other listed => stored other (.tail _ listed))
      (index + 1) (position + (record block).length)
    have places : position + (record block).length + (records blocks).length =
        position + (records (block :: blocks)).length := by
      rw [records_cons, length_append, Nat.add_assoc]
    have indices : index + 1 + blocks.length = index + (block :: blocks).length := by
      rw [length_cons]
      omega
    rw [places, indices] at later
    rw [show (block :: blocks).length + fuel = blocks.length + fuel + 1 by
        rw [length_cons]; omega,
      records_cons, append_assoc, record, append_assoc,
      scanFrom_frame (header_starts block) (stored block (.head _)).short]
    rw [Nat.add_assoc position 4, ← length_record, later]
    rfl

/-- A scan of complete records and what follows them. -/
theorem scanHeaders_records (rest : Bytes) :
    ∃ fuel, scanHeaders (records blocks ++ rest) =
      (recordRefs 0 blocks ++ (scanFrom (fuel + 1) blocks.length (records blocks).length rest).1,
        (scanFrom (fuel + 1) blocks.length (records blocks).length rest).2) := by
  have enough : blocks.length ≤ (records blocks).length := by
    clear stored
    induction blocks with
    | nil => exact Nat.le_refl 0
    | cons block blocks ih =>
      rw [records_cons, length_cons, length_append, length_record]
      omega
  refine ⟨(records blocks ++ rest).length - blocks.length, ?_⟩
  have whole :=
    scanFrom_records stored ((records blocks ++ rest).length - blocks.length + 1) 0 0 rest
  rw [Nat.zero_add, Nat.zero_add] at whole
  rw [← whole, scanHeaders]
  congr 1
  rw [length_append]
  omega

/-- Each place a scan accepts reads back as the block written there. -/
theorem readAt_recordRefs (front rest : Bytes) {entry : BlockHeader × RecordRef}
    (listed : entry ∈ recordRefs front.length blocks) :
    ∃ block ∈ blocks, entry.1 = block.header ∧
      readAt (front ++ (records blocks ++ rest)) entry.2 = .ok block := by
  induction blocks generalizing front with
  | nil => cases listed
  | cons block blocks ih =>
    rw [recordRefs, mem_cons] at listed
    rcases listed with rfl | later
    · refine ⟨block, mem_cons_self, rfl, ?_⟩
      have sound := stored block (.head _)
      have data : ((front ++ (records (block :: blocks) ++ rest)).drop (front.length + 4)).take
          block.encode.length = block.encode := by
        rw [← drop_drop, drop_left' rfl, records_cons, record, append_assoc,
          append_assoc, drop_left' (leBytes_length 4 _), take_left' rfl]
      have positive : block.encode.length ≠ 0 := by
        have long := le_length_encode block
        have some_bytes : 0 < headerSize := by decide
        omega
      simp only [readAt, data, bind_eq_ok, require_eq_ok, mapError_eq_ok]
      exact ⟨(), ⟨positive, sound.short⟩, (), trivial,
        Block.decode_eq_ok.mpr ⟨sound.encodable, rfl⟩⟩
    · rw [← length_append] at later
      obtain ⟨found, member, header, read⟩ :=
        ih (fun other listed => stored other (.tail _ listed)) (front ++ record block) later
      refine ⟨found, mem_cons_of_mem _ member, header, ?_⟩
      rwa [records_cons, append_assoc, ← append_assoc front]

end

theorem recordRefs_append (position : Nat) (first second : List Block) :
    recordRefs position (first ++ second) =
      recordRefs position first ++ recordRefs (position + (records first).length) second := by
  induction first generalizing position with
  | nil => rfl
  | cons block first ih =>
    rw [cons_append, recordRefs, ih, recordRefs, records_cons, length_append,
      Nat.add_assoc, cons_append]

/-- The end of the last record. -/
theorem recordRefs_getLast (some_block : blocks ≠ []) :
    ∃ last, (recordRefs 0 blocks).getLast? = some last ∧
      last.2.offset + last.2.len = (records blocks).length := by
  obtain ⟨init, last, rfl⟩ := eq_nil_or_concat' blocks |>.resolve_left some_block
  refine ⟨_, by rw [recordRefs_append, recordRefs, recordRefs, getLast?_concat], ?_⟩
  rw [records_append, length_append, records_cons, length_append, length_record]
  simp only [records, flatMap_nil, length_nil]
  omega

/-- The start of a record, with its length, is an interrupted write. -/
theorem scanFrom_torn (short : block.encode.length ≤ maxSerializedBlock) {cut : Nat}
    (started : 4 ≤ cut) (inside : cut < (record block).length) (fuel index position : Nat) :
    scanFrom (fuel + 1) index position ((record block).take cut) =
      ([], some (.truncatedFile index)) := by
  have size := length_record block
  have length : ((record block).take cut).length = cut := by
    rw [length_take]
    omega
  have front : ((record block).take cut).take 4 = leBytes 4 block.encode.length := by
    rw [take_take, Nat.min_eq_left started, record, take_left' (leBytes_length 4 _)]
  have long := le_length_encode block
  rw [scanFrom, if_neg (by omega), front, leValue_size short]
  rw [if_neg (by omega), length]
  split
  · rfl
  · have header : (((record block).take cut).drop 4).take headerSize = block.header.encode := by
      obtain ⟨tail, bytes⟩ := header_starts block
      rw [drop_take, take_take, Nat.min_eq_left (by omega), record,
        drop_left' (leBytes_length 4 _), ← bytes,
        take_left' (length_encodeHeader block.header)]
    have decoded : BlockHeader.decode block.header.encode = .ok block.header :=
      BlockHeader.decode_eq_ok.mpr rfl
    rw [header, decoded]
    dsimp only
    rw [if_pos (by omega)]

/-- No proper start of the encoding of a block is decoded. -/
theorem decodePrefix_torn (encodable : block.Encodable) {bytes : Bytes}
    (starts : bytes <+: block.encode) (inside : bytes.length < block.encode.length) :
    (Block.decodePrefix bytes).toOption = none := by
  cases decoded : Block.decodePrefix bytes with
  | error problem => rfl
  | ok found =>
    obtain ⟨other, consumed⟩ := found
    obtain ⟨otherFits, rfl, rest, rfl⟩ := Block.decodePrefix_eq_ok.mp decoded
    obtain ⟨tail, whole⟩ := starts
    have first := Block.decodePrefix_eq_ok.mpr ⟨otherFits, rfl, rest ++ tail,
      (whole.symm.trans (append_assoc _ _ _))⟩
    have second := Block.decodePrefix_eq_ok.mpr ⟨encodable, rfl, [], (append_nil _).symm⟩
    obtain ⟨rfl, _⟩ := Prod.mk.inj (Except.ok.inj (first.symm.trans second))
    rw [length_append] at inside
    omega

/-! ## What an opening suspects -/

variable {before : List Block} {ghosts : List (BlockHeader × RecordRef)} {rest : Bytes}

/-- The walk back passes what does not read back and stops at the last complete record. -/
theorem takeWhile_unsound (stored : ∀ block ∈ before, Storable block) (some_block : before ≠ [])
    (unread : ∀ entry ∈ ghosts, (readAt (records before ++ rest) entry.2).isOk = false) :
    ((recordRefs 0 before ++ ghosts).reverse.takeWhile fun entry =>
      !(readAt (records before ++ rest) entry.2).isOk) = ghosts.reverse := by
  rw [reverse_append, takeWhile_append_of_pos (by
    intro entry listed
    rw [unread entry (mem_reverse.mp listed)]
    rfl)]
  obtain ⟨last, final, -⟩ := recordRefs_getLast some_block
  obtain ⟨block, -, -, read⟩ := readAt_recordRefs stored [] rest (mem_of_getLast? final)
  rw [nil_append] at read
  have stops : ((recordRefs 0 before).reverse.takeWhile fun entry =>
      !(readAt (records before ++ rest) entry.2).isOk) = [] := by
    cases reversed : (recordRefs 0 before).reverse with
    | nil => rfl
    | cons head others =>
      rw [← head?_reverse, reversed, head?_cons] at final
      cases final
      rw [takeWhile_cons, read]
      rfl
  rw [stops, append_nil]

theorem suspect_none (some_block : before ≠ []) (short : rest.length < 4 + headerSize) :
    suspect (records before ++ rest) (recordRefs 0 before) before.length = none := by
  obtain ⟨last, final, finish⟩ := recordRefs_getLast some_block
  have outside : (recordRefs 0 before)[before.length]? = none :=
    getElem?_eq_none (length_recordRefs 0 before).le
  simp only [suspect, outside, final, Option.map_some, Option.getD_some, finish, length_append]
  rw [guard, if_neg (by omega)]
  rfl

/-- The suspect starts where the complete records end. -/
theorem suspect_eq (ghosts : List (BlockHeader × RecordRef)) (rest : Bytes)
    (some_block : before ≠ []) (first : ∀ entry ∈ ghosts.head?, entry.2 =
      ⟨(records before).length + 4, leValue (rest.take 4)⟩)
    (long : ghosts = [] → 4 + headerSize ≤ rest.length) :
    suspect (records before ++ rest) (recordRefs 0 before ++ ghosts) before.length =
      some ((records before).length + 4, leValue (rest.take 4)) := by
  have length := length_recordRefs 0 before
  cases ghosts with
  | cons ghost ghosts =>
    have here : (recordRefs 0 before ++ ghost :: ghosts)[before.length]? = some ghost := by
      rw [← length, getElem?_append_right le_rfl, Nat.sub_self]
      rfl
    rw [suspect, here]
    dsimp only
    rw [first ghost rfl]
  | nil =>
    obtain ⟨last, final, finish⟩ := recordRefs_getLast some_block
    have enough := long rfl
    have outside : (recordRefs 0 before)[before.length]? = none :=
      getElem?_eq_none length.le
    have positive : (records before).length ≠ 0 := by
      obtain ⟨block, others, rfl⟩ := exists_cons_of_ne_nil some_block
      rw [records_cons, length_append, length_record]
      omega
    rw [append_nil]
    simp only [suspect, outside, final, Option.map_some, Option.getD_some, finish,
      length_append, drop_left' rfl]
    rw [guard, if_pos ⟨positive, by omega⟩]
    rfl

end Records

section Openings
variable [Crypto] {nonce : UInt64} {blocks before : List Block}

theorem prefixToRepair_eq (ghosts : List (BlockHeader × RecordRef)) (rest : Bytes)
    (stored : ∀ block ∈ before, Storable block) (some_block : before ≠ [])
    (unread : ∀ entry ∈ ghosts, (readAt (records before ++ rest) entry.2).isOk = false)
    (few : ghosts.length < maxWalkBack) :
    prefixToRepair (records before ++ rest) (recordRefs 0 before ++ ghosts) = (do
      let (start, readLen) ←
        suspect (records before ++ rest) (recordRefs 0 before ++ ghosts) before.length
      let (_, actual) ← attachedRecord (((records before ++ rest).drop start).take
        (maxSerializedBlock + 4 + headerSize)) (before.map fun block => block.header.blockId)
      guard (actual ≠ readLen)
      some (start - 4, actual)) := by
  have length := length_recordRefs 0 before
  have sound : (recordRefs 0 before ++ ghosts).length - ghosts.length = before.length := by
    rw [length_append, length, Nat.add_sub_cancel]
  have known : ((recordRefs 0 before ++ ghosts).take before.length).map
      (fun entry => entry.1.blockId) = before.map fun block => block.header.blockId := by
    have headers := congrArg (List.map BlockHeader.blockId) (recordRefs_headers 0 before)
    rw [map_map, map_map] at headers
    rwa [take_left' length]
  rw [prefixToRepair]
  simp only [takeWhile_unsound stored some_block unread, length_reverse, sound, known]
  rw [guard, if_pos few]
  rfl

section
variable (rooted : blocks.head? = some (genesisBlock nonce))
include rooted

theorem firstOk_recordRefs (ghosts : List (BlockHeader × RecordRef)) :
    firstOk (genesisBlock nonce) (recordRefs 0 blocks ++ ghosts) = true := by
  cases blocks with
  | nil => cases rooted
  | cons first others =>
    cases rooted
    simp [recordRefs, firstOk]

omit rooted in
/-- One round of an opening whose first record is the genesis. -/
theorem openInner_eq {content : Bytes} {headers : List (BlockHeader × RecordRef)}
    {problem : Option StoreError} (scanned : scanHeaders content = (headers, problem))
    (first : firstOk (genesisBlock nonce) headers = true) {repaired : Nat}
    (few : repaired < maxPrefixRepairs) (fuel : Nat) (repairGenesis : Bool) :
    openInner nonce (fuel + 1) repairGenesis repaired content =
      match problem.bind fun _ => prefixToRepair content headers with
      | none => some ((finishOpening content headers problem false).1,
          .ok (finishOpening content headers problem false).2)
      | some (position, actual) => openInner nonce fuel repairGenesis (repaired + 1)
          (overwrite content position (leBytes 4 actual)) := by
  cases headers with
  | nil => cases first
  | cons head others =>
    rw [openInner]
    simp only [scanned, first, few, if_true]
    rfl

/-- What an archive of complete records is opened as. -/
def openedAs (blocks : List Block) : Opened :=
  ⟨positionsOf (recordRefs 0 blocks), blocks.map Block.header, none⟩

/-- Fewer bytes than a length behind the last record are left alone. -/
theorem openInner_stray (stored : ∀ block ∈ blocks, Storable block) {repaired : Nat}
    (few : repaired < maxPrefixRepairs) {stray : Bytes} (short : stray.length < 4) (fuel : Nat)
    (repairGenesis : Bool) :
    openInner nonce (fuel + 1) repairGenesis repaired (records blocks ++ stray) =
      some (records blocks ++ stray, .ok (openedAs blocks)) := by
  obtain ⟨_, scanned⟩ := scanHeaders_records stored stray
  rw [openInner_eq scanned (firstOk_recordRefs rooted _) few]
  simp only [scanFrom, short, if_true, append_nil, Option.bind_none, finishOpening,
    recordRefs_headers, openedAs]

/-- An interrupted write, past the length of the block, is cut. -/
theorem openInner_torn (stored : ∀ block ∈ blocks, Storable block) {block : Block}
    (storable : Storable block) {cut : Nat} (started : 4 ≤ cut)
    (inside : cut < (record block).length) (bounded : cut ≤ maxBlockSize + 4) (fuel : Nat)
    (repairGenesis : Bool) :
    openInner nonce (fuel + 1) repairGenesis 0 (records blocks ++ (record block).take cut) =
      some (records blocks, .ok (openedAs blocks)) := by
  have size := length_record block
  have length : ((record block).take cut).length = cut := by
    rw [length_take]
    omega
  have some_block : blocks ≠ [] := fun empty => by
    rw [empty] at rooted
    cases rooted
  obtain ⟨_, scanned⟩ := scanHeaders_records stored ((record block).take cut)
  rw [scanFrom_torn storable.short started inside, append_nil] at scanned
  have nothing : prefixToRepair (records blocks ++ (record block).take cut) (recordRefs 0 blocks) =
      none := by
    have repair := prefixToRepair_eq [] ((record block).take cut) stored some_block
      (fun _ here => nomatch here) (by decide)
    rw [append_nil] at repair
    rw [repair]
    by_cases few : cut < 4 + headerSize
    · rw [suspect_none some_block (by omega)]
      rfl
    · have found := suspect_eq [] ((record block).take cut) some_block
        (fun _ here => nomatch here) (fun _ => by omega)
      rw [append_nil] at found
      have bytes : (records blocks ++ (record block).take cut).drop ((records blocks).length + 4) =
          block.encode.take (cut - 4) := by
        rw [← drop_drop, drop_left' rfl, drop_take, record, drop_left' (leBytes_length 4 _)]
      have undecoded := decodePrefix_torn storable.encodable
        ((List.take_prefix (maxSerializedBlock + 4 + headerSize) _).trans
          (List.take_prefix (cut - 4) block.encode))
        (by rw [length_take, length_take]; omega)
      simp only [found, Option.bind_eq_bind, Option.bind_some, bytes, attachedRecord, undecoded,
        Option.bind_none]
  obtain ⟨last, final, finish⟩ := recordRefs_getLast some_block
  have first := firstOk_recordRefs rooted []
  rw [append_nil] at first
  rw [openInner_eq scanned first (by decide), Option.bind_some, nothing]
  simp only [finishOpening, final, finish, length_append, Nat.add_sub_cancel_left, length]
  rw [if_pos (by omega), take_left' rfl, recordRefs_headers]
  rfl

end

theorem archiveAppend_all (more : List Block) (content : Bytes)
    (positions : FiniteMap Hash256 RecordRef) :
    (more.foldl archiveAppend (content, positions)).1 = content ++ records more := by
  induction more generalizing content positions with
  | nil => exact (append_nil content).symm
  | cons block more ih =>
    rw [foldl_cons, archiveAppend]
    dsimp only [append]
    rw [ih, records_cons, append_assoc]

/-- A block of the file reads back, unless its roots are wrong or another one has its identifier. -/
theorem archiveRead_records (stored : ∀ block ∈ blocks, Storable block) {block : Block}
    (listed : block ∈ blocks) (shape : block.checkShape = .ok ())
    (alone : ∀ other ∈ blocks, other.header.blockId = block.header.blockId → other = block)
    (stray : Bytes) :
    archiveRead (records blocks ++ stray) (openedAs blocks).positions block.header.blockId =
      some block := by
  have read : ∀ entry ∈ recordRefs 0 blocks, entry.1.blockId = block.header.blockId →
      readAt (records blocks ++ stray) entry.2 = .ok block := by
    intro entry here same
    obtain ⟨other, member, header, found⟩ := readAt_recordRefs stored [] stray here
    rw [nil_append] at found
    rw [found, alone other member (by rw [← header, same])]
  have header : block.header ∈ (recordRefs 0 blocks).map Prod.fst := by
    rw [recordRefs_headers]
    exact mem_map_of_mem listed
  obtain ⟨first, here, same⟩ := mem_map.mp header
  have entered : (block.header.blockId, first.2) ∈
      (recordRefs 0 blocks).map fun entry => (entry.1.blockId, entry.2) :=
    mem_map.mpr ⟨first, here, by rw [same]⟩
  obtain ⟨place, lookup, somewhere⟩ := exists_lookup_collect entered
  obtain ⟨entry, there, same⟩ := mem_map.mp somewhere
  obtain ⟨ids, rfl⟩ := Prod.mk.inj same
  have positions : (openedAs blocks).positions.lookup block.header.blockId = some entry.2 := lookup
  simp only [archiveRead, positions, Option.bind_eq_bind, Option.bind_some, read entry there ids,
    Except.toOption, shape]
  rfl

theorem genesis_storable (nonce : UInt64) : Storable (genesisBlock nonce) := by
  have transactions : (genesisBlock nonce).transactions = [genesisCoinbase] := rfl
  have uncles : (genesisBlock nonce).uncles = [] := rfl
  refine ⟨⟨?_, ?_, ?_⟩, ?_⟩
  · rw [transactions]
    decide
  · rw [uncles]
    decide
  · intro tx listed
    rw [transactions, mem_singleton] at listed
    subst listed
    exact ⟨⟨by decide, by decide, by decide⟩, by decide +kernel⟩
  · rw [Block.encode_eq, length_append, length_encodeHeader, transactions, uncles]
    decide +kernel

/-- A write cut before the length of the block or after it, or with nothing appended before the next
opening, loses nothing but the block. -/
theorem interrupted_write_loses_its_block (nonce : UInt64) (others more : List Block)
    (block : Block) (cut : Nat) (stored : ∀ other ∈ others ++ more, Storable other)
    (storable : Storable block) (inside : cut < (record block).length)
    (bounded : cut ≤ maxBlockSize + 4) (outside : cut = 0 ∨ 4 ≤ cut ∨ more = []) (fuel : Nat)
    (enough : 1 ≤ fuel) :
    let blocks := genesisBlock nonce :: others
    ∃ left opened, openArchive nonce fuel (records blocks ++ (record block).take cut) =
        some (left, .ok opened) ∧
      opened.headers = blocks.map Block.header ∧ opened.problem = none ∧
      ∃ content reopened, openArchive nonce fuel
          (more.foldl archiveAppend (left, opened.positions)).1 = some (content, .ok reopened) ∧
        reopened.headers = (blocks ++ more).map Block.header ∧ reopened.problem = none ∧
        ∀ found ∈ blocks ++ more, found.checkShape = .ok () →
          (∀ other ∈ blocks ++ more, other.header.blockId = found.header.blockId → other = found) →
          archiveRead content reopened.positions found.header.blockId = some found := by
  intro blocks
  have whole : ∀ other ∈ blocks ++ more, Storable other := by
    intro other listed
    rcases mem_cons.mp listed with rfl | later
    · exact genesis_storable nonce
    · exact stored other later
  have before : ∀ other ∈ blocks, Storable other := fun other listed =>
    whole other (mem_append_left _ listed)
  have length : ((record block).take cut).length = cut := by
    rw [length_take]
    omega
  obtain ⟨fuel, rfl⟩ := Nat.exists_eq_add_of_le' enough
  -- What the first opening leaves behind the complete records, nothing if blocks are appended.
  obtain ⟨stray, short, first, joined⟩ : ∃ stray : Bytes, stray.length < 4 ∧
      openArchive nonce (fuel + 1) (records blocks ++ (record block).take cut) =
        some (records blocks ++ stray, .ok (openedAs blocks)) ∧
      records blocks ++ stray ++ records more = records (blocks ++ more) ++ stray := by
    rcases Nat.lt_or_ge cut 4 with early | started
    · refine ⟨_, length.trans_lt early, openInner_stray rfl before (by decide)
        (length.trans_lt early) fuel true, ?_⟩
      rcases outside with rfl | late | rfl
      · rw [take_zero, append_nil, append_nil, records_append]
      · omega
      · rw [append_nil]
        exact append_nil _
    · refine ⟨[], by decide, ?_, ?_⟩
      · rw [append_nil]
        exact openInner_torn rfl before storable started inside bounded fuel true
      · rw [append_nil, append_nil, records_append]
  refine ⟨_, openedAs blocks, first, rfl, rfl, records (blocks ++ more) ++ stray,
    openedAs (blocks ++ more), ?_, rfl, rfl, ?_⟩
  · rw [archiveAppend_all, joined]
    exact openInner_stray rfl whole (by decide) short fuel true
  · intro found listed shape alone
    exact archiveRead_records whole listed shape alone stray

/-! ## A damaged length -/

variable {block : Block} {after : List Block} {wrong : Bytes}

end Openings

/-- A second block on `firstBlock`. -/
def secondBlock [Crypto] : Block :=
  { firstBlock 0 with
    header := { (firstBlock 0).header with
      prevBlock := (firstBlock 0).header.blockId, height := 2 } }

/-- One byte of a length is left where it is, and the block written after it is lost. -/
theorem byte_of_length_left :
    letI : Crypto := checksumCrypto
    let content := records [genesisBlock 0] ++ (record (firstBlock 0)).take 1
    (firstBlock 0).header.prevBlock = (genesisBlock 0).header.blockId ∧
      (openArchive 0 1 content).map Prod.fst = some content ∧
      ((openArchive 0 1 (content ++ record (firstBlock 0))).bind fun result =>
        result.2.toOption.map Opened.headers) = some [(genesisBlock 0).header] := by
  decide +kernel

theorem firstBlock_storable :
    letI : Crypto := checksumCrypto
    Storable (firstBlock 0) := by
  refine ⟨⟨by decide, by decide, ?_⟩, by decide +kernel⟩
  intro tx listed
  obtain rfl := mem_singleton.mp listed
  exact ⟨⟨by decide, by decide, by decide⟩, by decide +kernel⟩

theorem secondBlock_storable :
    letI : Crypto := checksumCrypto
    Storable secondBlock := by
  have first := firstBlock_storable
  exact ⟨⟨first.encodable.transactions, first.encodable.uncles, first.encodable.each⟩,
    by decide +kernel⟩

/-- A block is written, the next one is torn in its header, and the block after it is found. -/
theorem interrupted_write_loses_its_block_second :
    letI : Crypto := checksumCrypto
    let blocks := [genesisBlock 0, firstBlock 0]
    ∃ left opened, openArchive 0 1 (records blocks ++ (record (firstBlock 0)).take 100) =
      some (left, .ok opened) ∧
    ∃ content reopened, openArchive 0 1
      ([secondBlock].foldl archiveAppend (left, opened.positions)).1 =
        some (content, .ok reopened) ∧
      reopened.headers = (blocks ++ [secondBlock]).map Block.header := by
  let _ := checksumCrypto
  have stored : ∀ other ∈ [firstBlock 0] ++ [secondBlock], Storable other := by
    intro other listed
    rcases mem_append.mp listed with here | here
    · exact mem_singleton.mp here ▸ firstBlock_storable
    · exact mem_singleton.mp here ▸ secondBlock_storable
  obtain ⟨left, opened, first, -, -, content, reopened, second, headers, -⟩ :=
    interrupted_write_loses_its_block 0 [firstBlock 0] [secondBlock] (firstBlock 0) 100 stored
      firstBlock_storable (by decide +kernel) (by decide) (.inr (.inl (by decide))) 1 (Nat.le_refl 1)
  exact ⟨left, opened, first, content, reopened, second, headers⟩

end BlockFile

end Q21Formal.Storage

import Q21Formal.Ledger.Supply
import Q21Formal.Ledger.Commitment

/-!
# The headers of the active chain and of a snapshot

The code reads the last headers by position along the active chain, and by walking the index; both
give the same headers.  A node that adopts a snapshot checks the headers it was sent in bulk, epoch
by epoch and on several threads, and accepts the same paths as one that receives them one by one.
-/

namespace Q21Formal.Ledger
open Library.Refusal Library.Maps Primitives List Option

/-- The last `count` items. -/
def lastOf {α : Type*} (count : Nat) (items : List α) : List α := items.drop (items.length - count)

theorem lastOf_map {α β : Type*} (f : α → β) (count : Nat) (items : List α) :
    lastOf count (items.map f) = (lastOf count items).map f := by
  rw [lastOf, lastOf, length_map, map_drop]

/-- One item more at the end. -/
theorem lastOf_succ_concat {α : Type*} (count : Nat) (items : List α) (last : α) :
    lastOf (count + 1) (items ++ [last]) = lastOf count items ++ [last] := by
  rw [lastOf, lastOf, length_append, length_singleton, Nat.add_sub_add_right,
    drop_append_of_le_length (Nat.sub_le _ _)]

section Headers
variable [Crypto]

/-- The headers of a chain of indexed blocks, oldest first. -/
structure HeadersAlong (index : FiniteMap Hash256 BlockIndex) (ids : List Hash256)
    (headers : List BlockHeader) : Prop where
  named : ids = headers.map BlockHeader.blockId
  indexed : ∀ header ∈ headers, ∃ entry, index.lookup header.blockId = some entry ∧
    entry.header = header
  heights : ∀ (place : Nat) (header : BlockHeader), headers[place]? = some header →
    header.height.toNat = place
  linked : ∀ before header next after, headers = before ++ header :: next :: after →
    next.prevBlock = header.blockId

variable {index : FiniteMap Hash256 BlockIndex} {ids : List Hash256} {headers : List BlockHeader}

/-- The walk over the index from an active block gives the headers up to it. -/
theorem HeadersAlong.headersBack (along : HeadersAlong index ids headers) (count : Nat)
    {before after : List BlockHeader} {last : BlockHeader} (found : List BlockHeader)
    (split : headers = before ++ last :: after) :
    Chain.headersBack index count last.blockId found =
      lastOf count (before ++ [last]) ++ found := by
  induction count generalizing before after last found with
  | zero => rw [Chain.headersBack, lastOf, Nat.sub_zero, drop_length, nil_append]
  | succ count ih =>
    obtain ⟨entry, indexed, same⟩ := along.indexed last (by simp [split])
    have height := along.heights before.length last (by simp [split])
    rw [Chain.headersBack, indexed, lastOf_succ_concat]
    dsimp only
    rw [same]
    rcases eq_nil_or_concat before with rfl | ⟨older, previous, rfl⟩
    · have zero : last.height = 0 := UInt64.toNat_inj.mp height
      rw [if_pos zero]
      simp [lastOf]
    · have positive : ¬ last.height = 0 := by
        intro zero
        rw [zero] at height
        simp at height
      rw [concat_eq_append, append_assoc, singleton_append] at split
      rw [if_neg positive, along.linked older previous last after split,
        ih (last :: found) split, append_assoc, concat_eq_append]
      rfl

/-- The times read along the active chain. -/
theorem HeadersAlong.times (along : HeadersAlong index ids headers) (count : Nat) :
    (lastOf count ids).mapM (fun id => (index.lookup id).map fun entry => entry.header.time) =
      some ((lastOf count headers).map BlockHeader.time) := by
  have read : ∀ part : List BlockHeader, (∀ header ∈ part, header ∈ headers) →
      (part.map BlockHeader.blockId).mapM
        (fun id => (index.lookup id).map fun entry => entry.header.time) =
      some (part.map BlockHeader.time) := by
    intro part
    induction part with
    | nil => exact fun _ => rfl
    | cons header rest ih =>
      intro inside
      obtain ⟨entry, indexed, same⟩ := along.indexed header (inside header (.head _))
      rw [map_cons, mapM_cons, indexed, ih fun other member => inside other (.tail _ member)]
      simp [same]
  rw [along.named, lastOf_map]
  exact read _ fun header member => mem_of_mem_drop member

end Headers

section Sound
variable [Crypto] {headers : Set BlockHeader} {chain : Chain}

/-- The header the index holds for an active block. -/
def Chain.headerAt (chain : Chain) (id : Hash256) : Option BlockHeader :=
  (chain.index.lookup id).map BlockIndex.header

/-- The headers of the active chain. -/
def Chain.activeHeaders (chain : Chain) : List BlockHeader := chain.active.filterMap chain.headerAt

theorem Sound.headersAlong (sound : Sound headers chain) :
    HeadersAlong chain.index chain.active chain.activeHeaders := by
  have found : ∀ id ∈ chain.active, ∃ entry, chain.index.lookup id = some entry ∧
      entry.header.blockId = id := by
    intro id member
    obtain ⟨place, here⟩ := mem_iff_getElem?.mp member
    obtain ⟨entry, indexed, _⟩ := sound.placed place id here
    exact ⟨entry, indexed, (sound.indexed id entry indexed).2⟩
  have named : ∀ ids : List Hash256, (∀ id ∈ ids, id ∈ chain.active) →
      ids = (ids.filterMap chain.headerAt).map BlockHeader.blockId := by
    intro ids
    induction ids with
    | nil => exact fun _ => rfl
    | cons id rest ih =>
      intro inside
      obtain ⟨entry, indexed, same⟩ := found id (inside id (.head _))
      have head : chain.headerAt id = some entry.header := by rw [Chain.headerAt, indexed]; rfl
      rw [filterMap_cons_some head, map_cons, same,
        ← ih fun other member => inside other (.tail _ member)]
  have ids := named chain.active fun _ member => member
  -- A header of the list is the one the index holds at its place.
  have placed : ∀ place header, chain.activeHeaders[place]? = some header →
      ∃ entry, chain.index.lookup header.blockId = some entry ∧ entry.header = header ∧
        Placed chain.active place entry := by
    intro place header here
    have member : header ∈ chain.activeHeaders := mem_of_getElem? here
    obtain ⟨id, _, read⟩ := mem_filterMap.mp member
    obtain ⟨entry, indexed, rfl⟩ := map_eq_some_iff.mp read
    have same := (sound.indexed id entry indexed).2
    have position : chain.active[place]? = some id := by
      rw [ids, getElem?_map]
      change chain.activeHeaders[place]?.map BlockHeader.blockId = some id
      rw [here, map_some, same]
    obtain ⟨found, indexedHere, placed⟩ := sound.placed place id position
    rw [indexed] at indexedHere
    cases indexedHere
    exact ⟨entry, by rw [same, indexed], rfl, placed⟩
  refine ⟨ids, ?_, ?_, ?_⟩
  · intro header member
    obtain ⟨place, here⟩ := mem_iff_getElem?.mp member
    obtain ⟨entry, indexed, same, _⟩ := placed place header here
    exact ⟨entry, indexed, same⟩
  · intro place header here
    obtain ⟨entry, _, rfl, at'⟩ := placed place header here
    exact at'.height
  · intro before header next after split
    obtain ⟨entry, _, rfl, at'⟩ := placed (before.length + 1) next (by simp [split])
    have previous : chain.active[before.length]? = some entry.header.prevBlock := at'.previous
    rw [ids, getElem?_map] at previous
    change chain.activeHeaders[before.length]?.map BlockHeader.blockId = _ at previous
    rw [split, getElem?_append_right (Nat.le_refl _), Nat.sub_self] at previous
    exact (some.inj previous).symm

/-- The last header of the active chain is the tip's. -/
theorem Sound.activeHeaders_eq (sound : Sound headers chain) :
    ∃ before last, chain.activeHeaders = before ++ [last] ∧ last.blockId = chain.tipId ∧
      last.height.toNat = chain.height := by
  have along := sound.headersAlong
  have nonempty : chain.activeHeaders ≠ [] := by
    intro empty
    have ids := along.named
    rw [empty] at ids
    exact sound.nonempty ids
  refine ⟨_, _, (dropLast_concat_getLast nonempty).symm, ?_, ?_⟩
  · rw [Chain.tipId, along.named, getLast?_map, getLast?_eq_some_getLast nonempty]
    rfl
  · apply along.heights
    have length : chain.active.length = chain.activeHeaders.length := by
      conv_lhs => rw [along.named]
      exact length_map _
    rw [Chain.height, length, ← getLast?_eq_getElem?, getLast?_eq_some_getLast nonempty]

/-- The times of the last active blocks are those found from the tip through the index. -/
theorem Sound.recentTimes_eq (sound : Sound headers chain) :
    chain.recentTimes = some (chain.recentTimesAfter chain.tipId) := by
  obtain ⟨before, last, listed, tip, _⟩ := sound.activeHeaders_eq
  have along := sound.headersAlong
  have walked := along.headersBack medianTimeSpan [] listed
  rw [tip, append_nil, ← listed] at walked
  rw [Chain.recentTimesAfter, walked]
  exact along.times medianTimeSpan

variable [WorkHash] {block : Block} {now : Nat}

theorem connect_place {next : Chain} {fees : Nat}
    (connected : chain.connect block now = .ok (next, fees)) :
    ∃ context, chain.context now = some context ∧ checkPlace block context = .ok () := by
  simp only [Chain.connect, bind_eq_ok, orRefuse_eq_ok] at connected
  obtain ⟨context, inContext, fees, accepted, _⟩ := connected
  simp only [checkBlock, bind_eq_ok] at accepted
  obtain ⟨_, place, _⟩ := accepted
  exact ⟨context, inContext, place⟩

/-- A block connected to the tip has a header that passes by itself. -/
theorem Sound.checkContext_of_connect (sound : Sound headers chain) {next : Chain} {fees : Nat}
    (connected : chain.connect block now = .ok (next, fees)) :
    chain.checkContext block.header chain.height now = .ok () ∧
      checkWork chain.network block.header = .ok () := by
  obtain ⟨context, inContext, place⟩ := connect_place connected
  rw [Chain.context, sound.recentTimes_eq] at inContext
  obtain rfl := some.inj inContext
  simp only [checkPlace, bind_eq_ok, require_eq_ok, mapError_eq_ok] at place
  obtain ⟨_, _, _, height, _, parent, _, bits, _, median, _, after, _, anchor, _, future, work⟩ :=
    place
  refine ⟨?_, work⟩
  unfold Chain.checkContext
  rw [parent, height]
  simp only [bind_eq_ok, require_eq_ok, mapError_eq_ok, Nat.sub_self]
  refine ⟨(), ?_, (), bits, (), median, (), after, (), anchor, future⟩
  rintro ⟨deep, _⟩
  exact absurd deep (Nat.not_lt_zero _)

/-- A header whose block is accepted passes by itself. -/
theorem Sound.checkHeader_of_submit (sound : Sound headers chain) {accept : Accept}
    (unknown : chain.index.lookup block.header.blockId = none)
    (accepted : (chain.submit block now).2 = .ok accept) :
    chain.checkHeader block.header now = .ok () := by
  have isNew : ¬ (chain.index.lookup block.header.blockId).isSome = true := by
    rw [unknown]
    exact Bool.false_ne_true
  unfold Chain.submit at accepted
  rw [if_neg isNew] at accepted
  rw [Chain.checkHeader, if_neg isNew]
  simp only [bind_eq_ok, mapError_eq_ok]
  cases attached : chain.checkAttachment block.header with
  | error problem =>
    rw [attached] at accepted
    cases accepted
  | ok parentHeight =>
    rw [attached] at accepted
    dsimp only at accepted
    refine ⟨parentHeight, rfl, ?_⟩
    split at accepted
    · rename_i onTip
      cases connected : chain.connect block now with
      | error problem =>
        rw [connected] at accepted
        cases accepted
      | ok result =>
        -- The parent is the tip, at the height of the chain.
        have same : parentHeight = chain.height := by
          obtain ⟨before, last, listed, tip, height⟩ := sound.activeHeaders_eq
          obtain ⟨entry, indexed, rfl⟩ := sound.headersAlong.indexed last (by simp [listed])
          obtain ⟨parent, found, _, rfl⟩ := checkAttachment_eq_ok.mp attached
          rw [onTip, ← tip, indexed] at found
          cases found
          exact height
        obtain ⟨context, work⟩ := sound.checkContext_of_connect connected
        rw [same]
        exact ⟨(), context, work⟩
    · split at accepted
      · cases accepted
      · rename_i checked
        simp only [Chain.checkSide, bind_eq_ok, mapError_eq_ok] at checked
        obtain ⟨_, context, _, _, _, _, _, _, work⟩ := checked
        exact ⟨(), context, work⟩

end Sound

section Histories
variable [Crypto] [WorkHash] {headers : Set BlockHeader}

/-- A header not indexed and refused by itself has every block refused, on the tip and on a side
branch; one whose block is accepted passes by itself. -/
theorem header_refused_with_every_block (network : Network) (nonce : UInt64)
    (apart : HashesApart headers) (genesisIn : (genesisBlock nonce).header ∈ headers)
    (calls : List Call) (brings : ∀ call ∈ calls, call.Brings headers) (header : BlockHeader)
    (now : Nat) :
    let chain := run calls (Chain.new network (genesisBlock nonce))
    chain.index.lookup header.blockId = none →
      (∀ problem, chain.checkHeader header now = .error problem →
        ∀ block : Block, block.header = header →
          ∃ refusal, (chain.submit block now).2 = .error refusal) ∧
      ∀ (block : Block) (accept : Accept), block.header = header →
        (chain.submit block now).2 = .ok accept → chain.checkHeader header now = .ok () := by
  intro chain unknown
  have sound : Sound headers chain := (Sound.new network nonce genesisIn).run apart brings
  have passes : ∀ (block : Block) (accept : Accept), block.header = header →
      (chain.submit block now).2 = .ok accept → chain.checkHeader header now = .ok () := by
    rintro block accept rfl accepted
    exact sound.checkHeader_of_submit unknown accepted
  refine ⟨?_, passes⟩
  intro problem refused block named
  cases submitted : (chain.submit block now).2 with
  | error refusal => exact ⟨refusal, rfl⟩
  | ok accept =>
    have passed := passes block accept named submitted
    rw [refused] at passed
    cases passed

end Histories

/-- On the genesis, a header from the far future is refused and so is its block. -/
theorem header_refused_with_every_block_in_future :
    letI : Crypto := checksumCrypto
    letI : WorkHash := zeroWork
    let chain := run [] (Chain.new .regtest (genesisBlock 0))
    chain.checkHeader (firstBlock 0).header 0 =
        .error (.validation (.timestampInFuture 600 1_755_734_520)) ∧
      ∃ refusal, (chain.submit (firstBlock 0) 0).2 = .error refusal := by
  let _ := checksumCrypto
  let _ := zeroWork
  have apart : HashesApart {(genesisBlock 0).header} := by
    refine ⟨Set.injOn_singleton _ _, ?_⟩
    rintro header rfl
    decide +kernel
  have refused : (run [] (Chain.new .regtest (genesisBlock 0))).checkHeader (firstBlock 0).header 0 =
      .error (.validation (.timestampInFuture 600 1_755_734_520)) := by decide +kernel
  have unknown : (run [] (Chain.new .regtest (genesisBlock 0))).index.lookup
      (firstBlock 0).header.blockId = none := by decide +kernel
  refine ⟨refused, ?_⟩
  exact (header_refused_with_every_block .regtest 0 apart rfl [] (by simp) (firstBlock 0).header 0
    unknown).1 _ refused (firstBlock 0) rfl

end Q21Formal.Ledger

/-! ## The headers of a snapshot -/

namespace Q21Formal.Ledger
open Library.Refusal Library.Maps Library.Ranges Primitives List Option

def powEpochBlocks : Nat := 51_200

/-- The proof of work epoch of a height. -/
def epochOf (height : Nat) : Nat := height / powEpochBlocks

/-- The mix of a header with the elements that the cache of an epoch gives. -/
class EpochHash where
  mix : Network → Nat → BlockHeader → Hash256

section Epochs
variable [EpochHash]

section
variable (network : Network) (cache : Nat) (header : BlockHeader)

/-- `hash_verify`: with the cache of the header's own epoch. -/
def hashVerify : Hash256 :=
  EpochHash.mix network (epochOf header.height.toNat) header

/-- `hash_verify_with_cache`: a cache of another epoch is not used. -/
def hashVerifyWithCache : Hash256 :=
  if cache ≠ epochOf header.height.toNat then hashVerify network header
  else EpochHash.mix network cache header

instance (priority := low) : WorkHash := ⟨hashVerify⟩

theorem hashVerifyWithCache_eq :
    hashVerifyWithCache network cache header = hashVerify network header := by
  rw [hashVerifyWithCache]
  split
  · rfl
  · rename_i same
    rw [not_not.mp same, hashVerify]

/-- `PowEngine::check` with a cache already built. -/
def checkWorkWithCache : Except PowError Unit := do
  let target ← targetFromCompact header.bits
  require (target ≤ floorTarget) .targetTooEasy
  require (beValue (hashVerifyWithCache network cache header) ≤ target) .insufficientWork

theorem checkWorkWithCache_eq :
    checkWorkWithCache network cache header = checkWork network header := by
  rw [checkWorkWithCache, checkWork, hashVerifyWithCache_eq]
  rfl

end

end Epochs

inductive AdoptionError where
  | unexpectedCommitment
  | unexpectedTip
  | inauthenticHeaders
  | invalidDifficulty (height : Nat)
  | invalidWork (height : Nat)
  | invalidTimestamp (height : Nat)
  | anchorContradicted (height : Nat)
  /-- Not an error of the code: a missing index stops the process there. -/
  | aborted
deriving DecidableEq

section Bulk
variable [EpochHash]

section
variable (network : Network) (headers : List BlockHeader)

/-- One turn of `check_segment`. -/
def checkHeaderAt (cache place : Nat) : Except AdoptionError Unit := do
  let header ← orRefuse headers[place]? .aborted
  let parent ← orRefuse headers[place - 1]? .aborted
  let expected :=
    if network = .regtest then initialBits
    else nextBits ((headers.take place).drop (place - 1 - lwmaWindow))
  require (header.bits = expected) (.invalidDifficulty header.height.toNat)
  let recent := ((headers.take place).drop (place - medianTimeSpan)).map BlockHeader.time
  require ((recent = [] ∨ medianTime recent < header.time.toNat) ∧
      (checkAfterParent network header.height.toNat (some parent.time) header.time).toBool = true)
    (.invalidTimestamp header.height.toNat)
  (checkWorkWithCache network cache header).mapError fun _ => .invalidWork header.height.toNat

def checkSegment (cache start stop : Nat) : Except AdoptionError Unit :=
  checkFrom (checkHeaderAt network headers cache) start stop

/-- `check_range`: one segment for each thread, unless there are few headers. -/
def checkRange (cache start stop threads : Nat) : Except AdoptionError Unit :=
  let count := stop - start
  let threads := max (min threads count) 1
  if threads = 1 ∨ count < 256 then checkSegment network headers cache start stop
  else
    -- `div_ceil`
    let size := (count + threads - 1) / threads
    firstError ((partsFrom size stop count start).map fun part =>
      checkSegment network headers cache part.1 part.2)

end

omit [EpochHash] in
/-- The end of the epoch that starts before `place`. -/
def epochEnd (headers : List BlockHeader) (epoch : Nat) : Nat → Nat → Nat
  | 0, place => place
  | fuel + 1, place =>
    match headers[place]? with
    | none => place
    | some header =>
      if epochOf header.height.toNat = epoch then epochEnd headers epoch fuel (place + 1)
      else place

/-- The loop of `check_work`, an epoch a turn. -/
def checkEpochs (network : Network) (headers : List BlockHeader) (threads : Nat) :
    Nat → Nat → Except AdoptionError Unit
  | 0, _ => .ok ()
  | fuel + 1, place =>
    match headers[place]? with
    | none => .ok ()
    | some header => do
        let epoch := epochOf header.height.toNat
        let stop := epochEnd headers epoch (headers.length - place) place
        checkRange network headers epoch place stop threads
        checkEpochs network headers threads fuel stop

/-- `check_work`: every header but the genesis. -/
def checkPathWork (network : Network) (headers : List BlockHeader) (threads : Nat) :
    Except AdoptionError Unit :=
  if headers.length ≤ 1 then .ok ()
  else checkEpochs network headers threads headers.length 1

end Bulk

section Walk
variable [Crypto]

section
variable (network : Network) (genesis : Hash256) (headers : List BlockHeader)

/-- The headers by their identifiers; a later one takes the place of an earlier one. -/
def headersById : FiniteMap Hash256 BlockHeader :=
  headers.foldl (fun map header => map.insert header.blockId header) ∅

/-- The walk of `adopt_snapshot` from a tip at a height back to the genesis, oldest first. -/
def walkBack (byId : FiniteMap Hash256 BlockHeader) (genesis : Hash256) :
    Nat → Hash256 → Except AdoptionError (List BlockHeader)
  | 0, current => do
      let header ← orRefuse (byId.lookup current) .inauthenticHeaders
      require (header.height.toNat = 0) .inauthenticHeaders
      require (current = genesis) .inauthenticHeaders
      pure [header]
  | height + 1, current => do
      let header ← orRefuse (byId.lookup current) .inauthenticHeaders
      require (header.height.toNat = height + 1) .inauthenticHeaders
      let before ← walkBack byId genesis height header.prevBlock
      pure (before ++ [header])

/-- The block identifiers the consensus anchors, where the path reaches them. -/
def checkPathAnchors (path : List BlockHeader) : Except AdoptionError Unit :=
  (anchors network).forM fun anchor =>
    match path[anchor.1]? with
    | none => .ok ()
    | some header => require (header.blockId = anchor.2) (.anchorContradicted anchor.1)

/-- The part of `adopt_snapshot` that looks at the headers.  The table of anchored snapshots is
empty. -/
def adoptHeaders [EpochHash] (tip : Hash256) (height threads : Nat) :
    Except AdoptionError (List BlockHeader) := do
  let path ← walkBack (headersById headers) genesis height tip
  checkPathWork network path threads
  checkPathAnchors network path
  pure path

end

end Walk

section Splits
variable [EpochHash] {network : Network} {headers : List BlockHeader} {start stop : Nat}

theorem checkHeaderAt_cache (cache other place : Nat) :
    checkHeaderAt network headers cache place = checkHeaderAt network headers other place := by
  simp only [checkHeaderAt, checkWorkWithCache_eq]

theorem checkSegment_cache (cache other : Nat) : checkSegment network headers cache start stop =
      checkSegment network headers other start stop := by
  have same : checkHeaderAt network headers cache = checkHeaderAt network headers other :=
    funext fun place => checkHeaderAt_cache cache other place
  rw [checkSegment, same, checkSegment]

/-- Threads change the time of the verdict, not the verdict. -/
theorem checkRange_eq (low : start ≤ stop) (cache threads : Nat) :
    checkRange network headers cache start stop threads =
      checkSegment network headers cache start stop := by
  rw [checkRange]
  split
  · rfl
  · refine (partsFrom_consecutive ?_ low le_rfl).firstError_eq _
    apply Nat.div_pos
    · omega
    · omega

omit [EpochHash] in
theorem epochEnd_le {epoch fuel place : Nat} (inside : place ≤ headers.length) :
    place ≤ epochEnd headers epoch fuel place ∧
      epochEnd headers epoch fuel place ≤ headers.length := by
  induction fuel generalizing place with
  | zero => exact ⟨le_rfl, inside⟩
  | succ fuel ih =>
    rw [epochEnd]
    cases found : headers[place]? with
    | none => exact ⟨le_rfl, inside⟩
    | some header =>
      have within := (List.getElem?_eq_some_iff.mp found).1
      dsimp only
      split
      · obtain ⟨low, high⟩ := ih (show place + 1 ≤ headers.length from within)
        exact ⟨by omega, high⟩
      · exact ⟨le_rfl, inside⟩

omit [EpochHash] in
/-- An epoch has at least the header that opens it. -/
theorem lt_epochEnd {place : Nat} {header : BlockHeader} (found : headers[place]? = some header) :
    place < epochEnd headers (epochOf header.height.toNat) (headers.length - place) place := by
  have within := (List.getElem?_eq_some_iff.mp found).1
  obtain ⟨fuel, enough⟩ : ∃ fuel, headers.length - place = fuel + 1 :=
    ⟨headers.length - place - 1, by omega⟩
  rw [enough, epochEnd, found]
  dsimp only
  rw [if_pos rfl]
  exact (epochEnd_le (show place + 1 ≤ headers.length from within)).1

theorem checkEpochs_eq {threads fuel place : Nat} (enough : headers.length - place ≤ fuel) :
    checkEpochs network headers threads fuel place =
      checkSegment network headers 0 place headers.length := by
  induction fuel generalizing place with
  | zero =>
    exact (checkFrom_empty (by omega)).symm
  | succ fuel ih =>
    rw [checkEpochs]
    cases found : headers[place]? with
    | none =>
      exact (checkFrom_empty (List.getElem?_eq_none_iff.mp found)).symm
    | some header =>
      have within := (List.getElem?_eq_some_iff.mp found).1
      have next := lt_epochEnd found
      have last : epochEnd headers (epochOf header.height.toNat) (headers.length - place) place ≤
          headers.length := (epochEnd_le within.le).2
      dsimp only
      rw [ih (by omega), checkRange_eq next.le, checkSegment_cache _ 0]
      exact (checkFrom_split next.le last).symm

/-- The bulk check is one pass over the headers, whatever the threads and the epochs. -/
theorem checkPathWork_eq (threads : Nat) : checkPathWork network headers threads =
      checkSegment network headers 0 1 headers.length := by
  rw [checkPathWork]
  split
  · rename_i few
    exact (checkFrom_empty few).symm
  · exact checkEpochs_eq (by omega)

end Splits

section Walked
variable [Crypto] {headers path : List BlockHeader} {genesis : Hash256} {header : BlockHeader}
  {height place : Nat}

/-- Each header names the one before it as its parent. -/
def Linked (headers : List BlockHeader) : Prop :=
  ∀ before header next after, headers = before ++ header :: next :: after →
    next.prevBlock = header.blockId

theorem Linked.concat {last next : BlockHeader} (linked : Linked (path ++ [last]))
    (parent : next.prevBlock = last.blockId) : Linked (path ++ [last] ++ [next]) := by
  intro before header following after split
  rcases eq_nil_or_concat' after with rfl | ⟨after, final, rfl⟩
  · have front : path ++ [last] = before ++ [header] ∧ next = following := by
      have joined : path ++ [last] ++ [next] = (before ++ [header]) ++ [following] := by
        rw [split, append_assoc]
        rfl
      obtain ⟨same, final⟩ := append_inj' joined rfl
      exact ⟨same, singleton_inj.mp final⟩
    obtain ⟨_, same⟩ := append_inj' front.1 rfl
    rwa [← front.2, ← singleton_inj.mp same]
  · have joined : path ++ [last] ++ [next] =
        (before ++ header :: following :: after) ++ [final] := by
      rw [split, append_assoc]
      rfl
    exact linked before header following after (append_inj' joined rfl).1

theorem headersById_eq_collect (headers : List BlockHeader) :
    headersById headers =
      Library.Maps.collect (headers.map fun header => (header.blockId, header)) := by
  rw [Library.Maps.collect, foldl_map, headersById]

theorem lookup_headersById {id : Hash256} (found : (headersById headers).lookup id = some header) :
    header ∈ headers ∧ header.blockId = id := by
  rw [headersById_eq_collect] at found
  obtain ⟨other, member, same⟩ := mem_map.mp (mem_of_lookup_collect found)
  cases same
  exact ⟨member, rfl⟩

theorem headersById_eq (apart : Set.InjOn BlockHeader.blockId {header | header ∈ headers})
    (member : header ∈ headers) : (headersById headers).lookup header.blockId = some header := by
  have listed : (header.blockId, header) ∈ headers.map fun header => (header.blockId, header) :=
    mem_map.mpr ⟨header, member, rfl⟩
  obtain ⟨other, found, _⟩ := exists_lookup_collect listed
  rw [← headersById_eq_collect] at found
  obtain ⟨otherIn, same⟩ := lookup_headersById found
  rw [found, apart otherIn member same]

/-- The walk returns a path of the headers, from the genesis to where it started. -/
structure WalkedPath (headers : List BlockHeader) (genesis tip : Hash256) (height : Nat)
    (path : List BlockHeader) : Prop where
  members : ∀ header ∈ path, header ∈ headers
  length : path.length = height + 1
  heights : ∀ (place : Nat) (header : BlockHeader), path[place]? = some header →
    header.height.toNat = place
  linked : Linked path
  first : path.head?.map BlockHeader.blockId = some genesis
  last : path.getLast?.map BlockHeader.blockId = some tip

theorem walkBack_ok {tip : Hash256}
    (walked : walkBack (headersById headers) genesis height tip = .ok path) :
    WalkedPath headers genesis tip height path := by
  induction height generalizing tip path with
  | zero =>
    simp only [walkBack, bind_eq_ok, orRefuse_eq_ok, require_eq_ok, pure_eq_ok] at walked
    obtain ⟨header, found, _, ground, _, rfl, rfl⟩ := walked
    obtain ⟨member, same⟩ := lookup_headersById found
    refine ⟨?_, rfl, ?_, ?_, ?_, ?_⟩
    · intro other listed
      rwa [mem_singleton.mp listed]
    · intro place other found
      cases place with
      | zero =>
        cases found
        exact ground
      | succ place => cases found
    · intro before other next after split
      have length := congrArg List.length split
      simp only [length_append, length_cons, length_nil] at length
      omega
    · rw [head?_cons, map_some, same]
    · rw [getLast?_singleton, map_some, same]
  | succ height ih =>
    simp only [walkBack, bind_eq_ok, orRefuse_eq_ok, require_eq_ok, pure_eq_ok] at walked
    obtain ⟨header, found, _, atHeight, before, earlier, rfl⟩ := walked
    obtain ⟨member, same⟩ := lookup_headersById found
    have below := ih earlier
    have nonempty : before ≠ [] := by
      rw [← length_pos_iff, below.length]
      omega
    refine ⟨?_, ?_, ?_, ?_, ?_, ?_⟩
    · intro other listed
      rcases mem_append.mp listed with inside | here
      · exact below.members other inside
      · rwa [mem_singleton.mp here]
    · rw [length_append, below.length, length_singleton]
    · intro place other here
      rw [getElem?_append] at here
      split at here
      · exact below.heights place other here
      · rename_i past
        rw [below.length] at past here
        have only : place - (height + 1) = 0 := by
          by_contra more
          obtain ⟨offset, shifted⟩ := Nat.exists_eq_succ_of_ne_zero more
          rw [shifted] at here
          cases here
        rw [only] at here
        cases here
        omega
    · obtain ⟨front, last, rfl⟩ := (eq_nil_or_concat' before).resolve_left nonempty
      refine below.linked.concat ?_
      have ended := below.last
      rw [getLast?_concat, map_some] at ended
      exact (some.inj ended).symm
    · rw [head?_append_of_ne_nil _ nonempty]
      exact below.first
    · rw [getLast?_concat, map_some, same]

theorem Linked.parent_eq (linked : Linked headers) {parent : BlockHeader}
    (before : headers[place]? = some parent) (here : headers[place + 1]? = some header) :
    header.prevBlock = parent.blockId := by
  refine linked (headers.take place) parent header (headers.drop (place + 2)) ?_
  have within := (List.getElem?_eq_some_iff.mp here).1
  conv_lhs => rw [← take_append_drop place headers]
  rw [drop_eq_getElem_cons (Nat.lt_of_succ_lt within), drop_eq_getElem_cons within,
    (List.getElem?_eq_some_iff.mp here).2, (List.getElem?_eq_some_iff.mp before).2]

omit [Crypto] in
theorem exists_parent (here : headers[place + 1]? = some header) :
    ∃ parent, headers[place]? = some parent := by
  have within := (List.getElem?_eq_some_iff.mp here).1
  exact ⟨_, getElem?_eq_getElem (Nat.lt_of_succ_lt within)⟩

/-- Along a linked sequence the walk finds every header. -/
theorem walkBack_eq (apart : Set.InjOn BlockHeader.blockId {header | header ∈ headers})
    (heights : ∀ (place : Nat) (header : BlockHeader), headers[place]? = some header →
      header.height.toNat = place) (first : headers.head?.map BlockHeader.blockId = some genesis)
    (linked : Linked headers) (here : headers[height]? = some header) :
    walkBack (headersById headers) genesis height header.blockId = .ok (headers.take (height + 1)) := by
  have found := headersById_eq apart (mem_of_getElem? here)
  have placed := heights height header here
  induction height generalizing header with
  | zero =>
    rw [head?_eq_getElem?, here, map_some] at first
    have single : headers.take 1 = [header] := by
      rw [take_one, head?_eq_getElem?, here]
      rfl
    simp only [walkBack, bind_eq_ok, orRefuse_eq_ok, require_eq_ok, pure_eq_ok]
    exact ⟨header, found, (), placed, (), some.inj first, single.symm⟩
  | succ height ih =>
    obtain ⟨previous, there⟩ := exists_parent here
    have parent := linked.parent_eq there here
    have below := ih there (headersById_eq apart (mem_of_getElem? there))
      (heights height previous there)
    have more : headers.take (height + 1 + 1) = headers.take (height + 1) ++ [header] := by
      rw [take_add_one, here]
      rfl
    simp only [walkBack, bind_eq_ok, orRefuse_eq_ok, require_eq_ok, pure_eq_ok]
    exact ⟨header, found, (), placed, _, parent ▸ below, more.symm⟩

end Walked

/-! ## A node that receives the headers one by one -/

section Agreement
variable [Crypto]

/-- The node indexes these headers and no others. -/
structure Indexes (chain : Chain) (headers : List BlockHeader) : Prop where
  held : ∀ header ∈ headers, ∃ entry, chain.index.lookup header.blockId = some entry ∧
    entry.header = header
  only : ∀ id entry, chain.index.lookup id = some entry →
    entry.header ∈ headers ∧ entry.header.blockId = id

/-- A header of each height, from the genesis to a tip. -/
structure HeaderSequence (genesis : Hash256) (headers : List BlockHeader) : Prop where
  first : headers.head?.map BlockHeader.blockId = some genesis
  heights : ∀ (place : Nat) (header : BlockHeader), headers[place]? = some header →
    header.height.toNat = place

/-- The header attaches and passes the rules of its place and the work, at some clock. -/
def NodeAccepts [WorkHash] (chain : Chain) (header : BlockHeader) : Prop :=
  ∃ parentHeight now, chain.checkAttachment header = .ok parentHeight ∧
    chain.checkContext header parentHeight now = .ok () ∧
    checkWork chain.network header = .ok ()

variable {network : Network} {genesis : Hash256} {headers : List BlockHeader} {chain : Chain}
  {place : Nat} {header parent : BlockHeader}

/-- What attaches at its height attaches to the header before it. -/
theorem HeaderSequence.attaches (sequence : HeaderSequence genesis headers)
    (indexes : Indexes chain (headers.take (place + 1)))
    (here : headers[place + 1]? = some header) (before : headers[place]? = some parent) :
    (∃ parentHeight, chain.checkAttachment header = .ok parentHeight) ↔
      header.prevBlock = parent.blockId := by
  have placed := sequence.heights (place + 1) header here
  have placedBefore := sequence.heights place parent before
  have inside : parent ∈ headers.take (place + 1) := by
    refine mem_of_getElem? (i := place) ?_
    rw [getElem?_take_of_lt (Nat.lt_succ_self place), before]
  simp only [checkAttachment_eq_ok]
  constructor
  · rintro ⟨_, entry, found, atHeight, _⟩
    obtain ⟨member, same⟩ := indexes.only _ entry found
    obtain ⟨other, there⟩ := mem_iff_getElem?.mp member
    have within : other < place + 1 := by
      have bound := (List.getElem?_eq_some_iff.mp there).1
      rw [length_take] at bound
      omega
    rw [getElem?_take_of_lt within] at there
    have height := sequence.heights other entry.header there
    have position : other = place := by omega
    rw [position, before] at there
    rw [← same, some.inj there]
  · intro link
    obtain ⟨entry, found, same⟩ := indexes.held parent inside
    refine ⟨_, entry, link ▸ found, ?_, rfl⟩
    rw [same]
    omega

/-- The index walk from the parent reads the slice before the header. -/
theorem HeaderSequence.headersBack_eq (sequence : HeaderSequence genesis headers)
    (linked : Linked (headers.take (place + 1)))
    (indexes : Indexes chain (headers.take (place + 1)))
    (before : headers[place]? = some parent) (count : Nat) :
    Chain.headersBack chain.index count parent.blockId [] =
      lastOf count (headers.take (place + 1)) := by
  have along : HeadersAlong chain.index ((headers.take (place + 1)).map BlockHeader.blockId)
      (headers.take (place + 1)) := by
    refine ⟨rfl, indexes.held, ?_, linked⟩
    intro other header there
    have within : other < place + 1 := by
      have bound := (List.getElem?_eq_some_iff.mp there).1
      rw [length_take] at bound
      omega
    rw [getElem?_take_of_lt within] at there
    exact sequence.heights other header there
  have split : headers.take (place + 1) = headers.take place ++ parent :: [] := by
    rw [take_add_one, before]
    rfl
  rw [along.headersBack count [] split, append_nil, ← split]

omit [Crypto] in
/-- The slices of the bulk check are the last headers before the place. -/
theorem drop_take_eq_lastOf (inside : place < headers.length) (count : Nat) :
    (headers.take (place + 1)).drop (place + 1 - count) =
      lastOf count (headers.take (place + 1)) := by
  rw [lastOf, length_take, Nat.min_eq_left (by omega)]

variable [EpochHash]

/-- One header, checked in bulk and by a node that knows those before it. -/
theorem HeaderSequence.nodeAccepts_iff (sequence : HeaderSequence genesis headers)
    (linked : Linked (headers.take (place + 1)))
    (indexes : Indexes chain (headers.take (place + 1))) (sameNetwork : chain.network = network)
    (unbound : ¬ (maxReorgDepth < chain.height - place ∧ chain.finalityBinds = true))
    (here : headers[place + 1]? = some header) (before : headers[place]? = some parent)
    (cache : Nat) :
    NodeAccepts chain header ↔ header.prevBlock = parent.blockId ∧
      checkHeaderAt network headers cache (place + 1) = .ok () ∧
      checkAnchor network (place + 1) header.blockId = .ok () := by
  have placed := sequence.heights (place + 1) header here
  have placedBefore := sequence.heights place parent before
  have within := (List.getElem?_eq_some_iff.mp before).1
  have inside : parent ∈ headers.take (place + 1) := by
    refine mem_of_getElem? (i := place) ?_
    rw [getElem?_take_of_lt (Nat.lt_succ_self place), before]
  obtain ⟨entry, found, same⟩ := indexes.held parent inside
  have walked := sequence.headersBack_eq linked indexes before
  have attaches := sequence.attaches indexes here before
  have bits : chain.nextBitsAfter parent.blockId =
      if network = .regtest then initialBits
      else nextBits ((headers.take (place + 1)).drop (place + 1 - 1 - lwmaWindow)) := by
    have shift : place + 1 - 1 - lwmaWindow = place + 1 - (lwmaWindow + 1) := by omega
    rw [Chain.nextBitsAfter, sameNetwork, walked, shift, drop_take_eq_lastOf within]
  have times : chain.recentTimesAfter parent.blockId =
      ((headers.take (place + 1)).drop (place + 1 - medianTimeSpan)).map BlockHeader.time := by
    rw [Chain.recentTimesAfter, walked, drop_take_eq_lastOf within]
  have parentTime : (chain.index.lookup parent.blockId).map (fun entry => entry.header.time) =
      some parent.time := by
    rw [found, map_some, same]
  have passed : ∀ result : Except ValidationError Unit, result.toBool = true ↔ result = .ok () := by
    rintro (problem | done)
    · exact ⟨fun impossible => (Bool.false_ne_true impossible).elim,
        fun impossible => by cases impossible⟩
    · exact ⟨fun _ => rfl, fun _ => rfl⟩
  have previous : headers[place + 1 - 1]? = some parent := before
  have bulk : checkHeaderAt network headers cache (place + 1) = .ok () ↔
      header.bits = chain.nextBitsAfter parent.blockId ∧
      (chain.recentTimesAfter parent.blockId = [] ∨
        medianTime (chain.recentTimesAfter parent.blockId) < header.time.toNat) ∧
      checkAfterParent network (place + 1) (some parent.time) header.time = .ok () ∧
      checkWork network header = .ok () := by
    simp only [checkHeaderAt, here, previous, bits, times, bind_eq_ok, orRefuse_eq_ok,
      require_eq_ok, mapError_eq_ok, checkWorkWithCache_eq, passed, some.injEq]
    constructor
    · rintro ⟨_, rfl, _, rfl, _, sameBits, _, ⟨median, after⟩, work⟩
      exact ⟨sameBits, median, placed ▸ after, work⟩
    · rintro ⟨sameBits, median, after, work⟩
      exact ⟨_, rfl, _, rfl, (), sameBits, (), ⟨median, placed.symm ▸ after⟩, work⟩
  rw [bulk]
  constructor
  · rintro ⟨parentHeight, now, attached, context, work⟩
    have link := attaches.mp ⟨parentHeight, attached⟩
    simp only [Chain.checkContext, link, sameNetwork, placed, bind_eq_ok, require_eq_ok,
      mapError_eq_ok] at context
    obtain ⟨_, _, _, sameBits, _, median, _, after, _, anchor, _⟩ := context
    rw [link, parentTime] at after
    exact ⟨link, ⟨sameBits, median, after, sameNetwork ▸ work⟩, anchor⟩
  · rintro ⟨link, ⟨sameBits, median, after, work⟩, anchor⟩
    obtain ⟨parentHeight, attached⟩ := attaches.mpr link
    have parentAt : parentHeight = place := by
      obtain ⟨other, indexed, _, rfl⟩ := checkAttachment_eq_ok.mp attached
      rw [link, found] at indexed
      cases indexed
      rw [same, placedBefore]
    refine ⟨parentHeight, header.time.toNat, attached, ?_, sameNetwork.symm ▸ work⟩
    simp only [Chain.checkContext, link, sameNetwork, placed, bind_eq_ok, require_eq_ok,
      mapError_eq_ok]
    refine ⟨(), parentAt ▸ unbound, (), sameBits, (), median, (), ?_, (), anchor,
      Nat.le_add_right _ _⟩
    rwa [link, parentTime]

omit [Crypto] [EpochHash] in
/-- No height is anchored twice. -/
theorem find_anchor (network : Network) :
    ∀ anchor ∈ anchors network,
      (anchors network).find? (fun other => other.1 == anchor.1) = some anchor := by
  cases network with
  | mainnet | regtest => exact nofun
  | testnet => decide +kernel

omit [Crypto] [EpochHash] in
theorem checkAnchor_genesis (network : Network) (id : Hash256) :
    checkAnchor network 0 id = .ok () := by
  cases network with
  | mainnet | testnet | regtest => rfl

omit [EpochHash] in
theorem checkPathAnchors_eq_ok : checkPathAnchors network headers = .ok () ↔
      ∀ (place : Nat) (header : BlockHeader), headers[place]? = some header →
        checkAnchor network place header.blockId = .ok () := by
  rw [checkPathAnchors, forM_eq_ok]
  constructor
  · intro passed place header here
    rw [checkAnchor]
    cases found : (anchors network).find? fun anchor => anchor.1 == place with
    | none => rfl
    | some anchor =>
      have listed := mem_of_find?_eq_some found
      have holds := find?_some found
      have same : anchor.1 = place := beq_iff_eq.mp holds
      have matched := passed anchor listed
      rw [same, here, require_eq_ok] at matched
      exact require_eq_ok.mpr matched.symm
  · intro passed anchor listed
    cases here : headers[anchor.1]? with
    | none => rfl
    | some header =>
      have checked := passed anchor.1 header here
      rw [checkAnchor, find_anchor network anchor listed] at checked
      exact require_eq_ok.mpr (require_eq_ok.mp checked).symm

omit [EpochHash] in
/-- The walk from the last header of a sequence can only return the sequence. -/
theorem HeaderSequence.walked_eq {path : List BlockHeader} {tip : Hash256}
    (sequence : HeaderSequence genesis headers)
    (walked : WalkedPath headers genesis tip (headers.length - 1) path) : path = headers := by
  have nonempty : 0 < headers.length := by
    cases headers with
    | nil => cases sequence.first
    | cons header rest => exact Nat.succ_pos _
  have length : path.length = headers.length := by
    rw [walked.length]
    omega
  refine ext_getElem? fun place => ?_
  cases here : path[place]? with
  | none =>
    rw [List.getElem?_eq_none_iff] at here
    exact (List.getElem?_eq_none_iff.mpr (by omega)).symm
  | some header =>
    obtain ⟨other, there⟩ :=
      mem_iff_getElem?.mp (walked.members header (mem_of_getElem? here))
    have atPlace := walked.heights place header here
    have atOther := sequence.heights other header there
    have same : other = place := by omega
    rw [← same, there]

omit [EpochHash] in
/-- The headers are linked when each attaches to the one before. -/
theorem linked_of_links (links : ∀ (place : Nat) (parent header : BlockHeader),
      headers[place]? = some parent → headers[place + 1]? = some header →
      header.prevBlock = parent.blockId) : Linked headers := by
  intro before header next after split
  refine links before.length header next ?_ ?_
  · rw [split, getElem?_append_right le_rfl, Nat.sub_self]
    rfl
  · rw [split, getElem?_append_right (Nat.le_add_right _ 1), Nat.add_sub_cancel_left]
    rfl

omit [EpochHash] in
theorem Linked.take (linked : Linked headers) (count : Nat) : Linked (headers.take count) := by
  intro before header next after split
  refine linked before header next (after ++ headers.drop count) ?_
  conv_lhs => rw [← take_append_drop count headers, split]
  rw [append_assoc, cons_append, cons_append]

/-- The bulk check accepts a sequence exactly when each header passes on a node that indexes the
headers before it, however the ranges are split, and returns the sequence. -/
theorem bulk_check_agrees_with_node (network : Network) (genesis : Hash256)
    (headers : List BlockHeader) (sequence : HeaderSequence genesis headers)
    (apart : Set.InjOn BlockHeader.blockId {header | header ∈ headers}) (threads : Nat)
    (nodes : Nat → Chain)
    (networks : ∀ place, 0 < place → place < headers.length → (nodes place).network = network)
    (indexes : ∀ place, 0 < place → place < headers.length →
      Indexes (nodes place) (headers.take place))
    (unbound : ∀ place, 0 < place → place < headers.length →
      ¬ (maxReorgDepth < (nodes place).height - (place - 1) ∧ (nodes place).finalityBinds = true)) :
    let tip := (headers.getLast?.map BlockHeader.blockId).getD Hash256.zero
    ((∃ path, adoptHeaders network genesis headers tip (headers.length - 1) threads = .ok path) ↔
        ∀ place header, 0 < place → headers[place]? = some header →
          NodeAccepts (nodes place) header) ∧
      (∀ path, adoptHeaders network genesis headers tip (headers.length - 1) threads = .ok path →
        path = headers) ∧
      ∀ (start stop cache : Nat) (parts : List (Nat × Nat)) (caches : Nat × Nat → Nat),
        Consecutive start stop parts →
        firstError (parts.map fun part =>
            checkSegment network headers (caches part) part.1 part.2) =
          checkSegment network headers cache start stop := by
  intro tip
  have returned : ∀ path,
      adoptHeaders network genesis headers tip (headers.length - 1) threads = .ok path →
        path = headers := by
    intro path adopted
    simp only [adoptHeaders, bind_eq_ok, pure_eq_ok] at adopted
    obtain ⟨other, walked, _, _, _, _, rfl⟩ := adopted
    exact sequence.walked_eq (walkBack_ok walked)
  -- One header of the sequence, once those before it are linked.
  have each : Linked headers → ∀ place parent header, headers[place]? = some parent →
      headers[place + 1]? = some header → (NodeAccepts (nodes (place + 1)) header ↔
        header.prevBlock = parent.blockId ∧ checkHeaderAt network headers 0 (place + 1) = .ok () ∧
          checkAnchor network (place + 1) header.blockId = .ok ()) := by
    intro linked place parent header before here
    have inside := (List.getElem?_eq_some_iff.mp here).1
    exact sequence.nodeAccepts_iff (linked.take _) (indexes _ (Nat.succ_pos _) inside)
      (networks _ (Nat.succ_pos _) inside) (unbound _ (Nat.succ_pos _) inside) here before 0
  refine ⟨⟨?_, ?_⟩, returned, ?_⟩
  · rintro ⟨path, adopted⟩ place header positive here
    obtain rfl := returned path adopted
    simp only [adoptHeaders, bind_eq_ok, pure_eq_ok] at adopted
    obtain ⟨_, walked, _, worked, _, anchored, rfl⟩ := adopted
    have linked := (walkBack_ok walked).linked
    obtain ⟨place, rfl⟩ := Nat.exists_eq_succ_of_ne_zero positive.ne'
    obtain ⟨parent, before⟩ := exists_parent here
    have inside := (List.getElem?_eq_some_iff.mp here).1
    rw [checkPathWork_eq, checkSegment, checkFrom_eq_ok] at worked
    refine (each linked place parent header before here).mpr ⟨?_, ?_, ?_⟩
    · exact linked.parent_eq before here
    · exact worked (place + 1) (Nat.le_add_left _ _) inside
    · exact checkPathAnchors_eq_ok.mp anchored _ _ here
  · intro accepted
    have linked : Linked headers := by
      refine linked_of_links fun place parent header before here => ?_
      obtain ⟨_, _, attached, _⟩ := accepted (place + 1) header (Nat.succ_pos _) here
      have inside := (List.getElem?_eq_some_iff.mp here).1
      exact (sequence.attaches (indexes _ (Nat.succ_pos _) inside) here before).mp ⟨_, attached⟩
    have passes : ∀ place header, headers[place + 1]? = some header →
        checkHeaderAt network headers 0 (place + 1) = .ok () ∧
          checkAnchor network (place + 1) header.blockId = .ok () := by
      intro place header here
      obtain ⟨parent, before⟩ := exists_parent here
      exact ((each linked place parent header before here).mp
        (accepted (place + 1) header (Nat.succ_pos _) here)).2
    have walked : walkBack (headersById headers) genesis (headers.length - 1) tip = .ok headers := by
      have nonempty : headers ≠ [] := by
        rintro rfl
        cases sequence.first
      have positive := length_pos_iff.mpr nonempty
      have last : headers[headers.length - 1]? = some (headers.getLast nonempty) := by
        rw [← getLast?_eq_getElem?, getLast?_eq_some_getLast nonempty]
      have walk := walkBack_eq apart sequence.heights sequence.first linked last
      rw [Nat.sub_add_cancel positive, take_length] at walk
      have named : tip = (headers.getLast nonempty).blockId := by
        change (headers.getLast?.map BlockHeader.blockId).getD Hash256.zero = _
        rw [getLast?_eq_some_getLast nonempty]
        rfl
      rw [named, walk]
    refine ⟨headers, ?_⟩
    simp only [adoptHeaders, bind_eq_ok, pure_eq_ok]
    refine ⟨headers, walked, (), ?_, (), checkPathAnchors_eq_ok.mpr ?_, rfl⟩
    · rw [checkPathWork_eq, checkSegment, checkFrom_eq_ok]
      intro place low inside
      obtain ⟨place, rfl⟩ := Nat.exists_eq_succ_of_ne_zero (Nat.one_le_iff_ne_zero.mp low)
      exact (passes place _ (getElem?_eq_getElem inside)).1
    · intro place header here
      cases place with
      | zero => exact checkAnchor_genesis network _
      | succ place => exact (passes place header here).2
  · intro start stop cache parts caches parted
    have same : (fun part : Nat × Nat =>
        checkSegment network headers (caches part) part.1 part.2) =
        fun part => checkFrom (checkHeaderAt network headers cache) part.1 part.2 :=
      funext fun part => checkSegment_cache _ _
    rw [same, parted.firstError_eq, checkSegment]

end Agreement

/-- A mix under every target, to evaluate with. -/
@[reducible] def zeroMix : EpochHash := ⟨fun _ _ _ => Hash256.zero⟩

/-- The genesis and a first block: accepted in bulk on eight threads, so by the node. -/
theorem bulk_check_agrees_with_node_first_block :
    letI : Crypto := flatCrypto
    letI : EpochHash := zeroMix
    (∃ path, adoptHeaders .regtest (genesisBlock 0).header.blockId
      [(genesisBlock 0).header, (firstBlock 0).header] (firstBlock 0).header.blockId 1 8 =
        .ok path) ∧
      NodeAccepts (Chain.new .regtest (genesisBlock 0)) (firstBlock 0).header := by
  let _ := flatCrypto
  let _ : EpochHash := zeroMix
  have adopted : ∃ path, adoptHeaders .regtest (genesisBlock 0).header.blockId
      [(genesisBlock 0).header, (firstBlock 0).header] (firstBlock 0).header.blockId 1 8 =
        .ok path := ⟨[(genesisBlock 0).header, (firstBlock 0).header], by decide +kernel⟩
  have sequence : HeaderSequence (genesisBlock 0).header.blockId
      [(genesisBlock 0).header, (firstBlock 0).header] := by
    refine ⟨rfl, ?_⟩
    intro place header here
    rcases place with _ | _ | place
    · exact some.inj here ▸ rfl
    · exact some.inj here ▸ rfl
    · cases here
  have apart : Set.InjOn BlockHeader.blockId
      {header | header ∈ [(genesisBlock 0).header, (firstBlock 0).header]} := by
    have different : ∀ first ∈ [(genesisBlock 0).header, (firstBlock 0).header],
        ∀ second ∈ [(genesisBlock 0).header, (firstBlock 0).header],
        first.blockId = second.blockId → first = second := by decide +kernel
    exact fun first firstIn second secondIn same => different first firstIn second secondIn same
  have indexes : Indexes (Chain.new .regtest (genesisBlock 0)) [(genesisBlock 0).header] := by
    constructor
    · intro header member
      rw [mem_singleton.mp member]
      exact ⟨_, Finmap.lookup_insert _, rfl⟩
    · intro id entry found
      rw [Chain.new, lookup_insert_eq] at found
      split at found
      · rename_i same
        cases found
        exact ⟨mem_singleton_self _, same.symm⟩
      · cases found
  refine ⟨adopted, ?_⟩
  have agrees := (bulk_check_agrees_with_node .regtest _ _ sequence apart 8
    (fun _ => Chain.new .regtest (genesisBlock 0)) (fun _ _ _ => rfl) ?_ ?_).1
  · exact agrees.mp adopted 1 _ Nat.one_pos rfl
  · intro place positive inside
    obtain rfl : place = 1 := by
      rw [length_cons, length_singleton] at inside
      omega
    exact indexes
  · rintro place _ _ ⟨deep, _⟩
    have low : (Chain.new .regtest (genesisBlock 0)).height = 0 := rfl
    rw [low, Nat.zero_sub] at deep
    exact Nat.not_lt_zero _ deep

end Q21Formal.Ledger

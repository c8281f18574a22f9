import Q21Formal.Ledger.Chain

/-!
# Supply over whole histories, and what every call preserves

The emission recorded for each active block bounds the value the set held when that block was the
tip.  So after any calls the set is worth at most what was issued, and the issue is within the
schedule.  A property that the elementary changes of a submission preserve, every call preserves.
-/

namespace Q21Formal.Ledger
open Library.Refusal Library.Maps Primitives Option Finmap List

/-- Along the active chain, newest first, the set as each undo record leaves it is worth at most
what was issued at that block. -/
def Rewinds (index : FiniteMap Hash256 BlockIndex) : List Hash256 → UtxoSet → List UndoRecord → Prop
  | [], _, _ => True
  | id :: older, utxo, undos =>
    (∀ entry, index.lookup id = some entry → utxo.totalValue ≤ entry.issued) ∧
      match undos with
      | [] => True
      | undo :: undos => Rewinds index older (utxo.undo undo) undos

section Rewind
variable {index index' : FiniteMap Hash256 BlockIndex} {ids : List Hash256} {utxo : UtxoSet}
  {undos : List UndoRecord}

section
variable (rewinds : Rewinds index ids utxo undos)
include rewinds

theorem Rewinds.mono {smaller : UtxoSet} (within : Within smaller.map utxo.map) :
    Rewinds index ids smaller undos := by
  induction ids generalizing utxo smaller undos with
  | nil => exact trivial
  | cons id older ih =>
    obtain ⟨here, later⟩ := rewinds
    refine ⟨fun entry found => (total_mono UtxoEntry.value within).trans (here entry found), ?_⟩
    cases undos with
    | nil => exact trivial
    | cons undo undos => exact ih later (UtxoSet.undo_mono within undo)

theorem Rewinds.take (count : Nat) : Rewinds index ids utxo (undos.take count) := by
  induction ids generalizing utxo undos count with
  | nil => exact trivial
  | cons id older ih =>
    obtain ⟨here, later⟩ := rewinds
    refine ⟨here, ?_⟩
    cases undos with
    | nil =>
      rw [take_nil]
      exact trivial
    | cons undo undos =>
      cases count with
      | zero => exact trivial
      | succ count => exact ih later count

theorem Rewinds.congr (same : ∀ id ∈ ids, index'.lookup id = index.lookup id) :
    Rewinds index' ids utxo undos := by
  induction ids generalizing utxo undos with
  | nil => exact trivial
  | cons id older ih =>
    obtain ⟨here, later⟩ := rewinds
    refine ⟨fun entry found => here entry ?_, ?_⟩
    · rwa [← same id (.head _)]
    · cases undos with
      | nil => exact trivial
      | cons undo undos =>
        exact ih later fun other member => same other (.tail _ member)

end

end Rewind

variable {chain : Chain}

theorem checkAttachment_eq_ok {header : BlockHeader} {height : Nat} :
    chain.checkAttachment header = .ok height ↔
      ∃ parent, chain.index.lookup header.prevBlock = some parent ∧
        header.height.toNat = parent.header.height.toNat + 1 ∧
        parent.header.height.toNat = height := by
  simp only [Chain.checkAttachment, bind_eq_ok, orRefuse_eq_ok, require_eq_ok, pure_eq_ok,
    exists_const]

theorem Chain.active_eq (nonempty : chain.active ≠ []) :
    chain.active.dropLast ++ [chain.tipId] = chain.active := by
  have last : chain.tipId = chain.active.getLast nonempty := by
    rw [Chain.tipId, getLast?_eq_some_getLast nonempty]
    rfl
  rw [last]
  exact dropLast_concat_getLast nonempty

theorem Chain.tipId_eq (nonempty : chain.active ≠ []) :
    chain.active[chain.height]? = some chain.tipId := by
  rw [Chain.height, ← getLast?_eq_getElem?, ← Chain.active_eq nonempty]
  simp [Chain.tipId]

theorem Chain.active_reverse (nonempty : chain.active ≠ []) :
    chain.active.reverse = chain.tipId :: chain.active.dropLast.reverse := by
  rw [← reverse_concat, Chain.active_eq nonempty]

/-- The chains differ in nothing the invariant reads, except bodies that may be missing. -/
structure SameLedger (chain next : Chain) : Prop where
  index : next.index = chain.index
  active : next.active = chain.active
  utxo : next.utxo = chain.utxo
  undos : next.undos = chain.undos
  issued : next.issued = chain.issued
  source : next.source = chain.source
  blocks : Within next.blocks chain.blocks

theorem SameLedger.refl (chain : Chain) : SameLedger chain chain :=
  ⟨rfl, rfl, rfl, rfl, rfl, rfl, Within.refl _⟩

theorem SameLedger.trans {first second third : Chain} (before : SameLedger first second)
    (after : SameLedger second third) : SameLedger first third :=
  ⟨after.index.trans before.index, after.active.trans before.active, after.utxo.trans before.utxo,
    after.undos.trans before.undos, after.issued.trans before.issued,
    after.source.trans before.source,
    after.blocks.trans before.blocks⟩

theorem pruneLoop_sameLedger (genesis : Option Hash256) (window budget fuel : Nat) (chain : Chain) :
    SameLedger chain (Chain.pruneLoop genesis window budget fuel chain) := by
  induction fuel generalizing chain with
  | zero => exact SameLedger.refl chain
  | succ fuel ih =>
    rw [Chain.pruneLoop]
    split
    · split
      · exact SameLedger.refl chain
      · split
        · refine .trans ?_ (ih _)
          exact ⟨rfl, rfl, rfl, rfl, rfl, rfl, Within.refl _⟩
        · split
          · refine .trans ?_ (ih _)
            exact ⟨rfl, rfl, rfl, rfl, rfl, rfl, Within.refl _⟩
          · refine .trans ?_ (ih _)
            exact ⟨rfl, rfl, rfl, rfl, rfl, rfl, erase_within _ _⟩
    · exact SameLedger.refl chain

/-- Keeping a body changes nothing but the bodies, which gain at most this one. -/
theorem keepBody_sameLedger (chain : Chain) (id : Hash256) (block : Block) :
    SameLedger { chain with blocks := chain.blocks.insert id block } (chain.keepBody id block) := by
  unfold Chain.keepBody Chain.pruneBodies
  split
  · refine .trans ?_ (pruneLoop_sameLedger _ _ _ _ _)
    exact ⟨rfl, rfl, rfl, rfl, rfl, rfl, Within.refl _⟩
  · refine .trans ?_ (pruneLoop_sameLedger _ _ _ _ _)
    exact ⟨rfl, rfl, rfl, rfl, rfl, rfl, Within.refl _⟩

theorem evictLoop_sameLedger (fuel : Nat) (chain : Chain) :
    SameLedger chain (Chain.evictLoop fuel chain) := by
  induction fuel generalizing chain with
  | zero => exact SameLedger.refl chain
  | succ fuel ih =>
    rw [Chain.evictLoop]
    split
    · split
      · exact SameLedger.refl chain
      · dsimp only
        split
        · refine .trans ?_ (ih _)
          exact ⟨rfl, rfl, rfl, rfl, rfl, rfl, erase_within _ _⟩
        · refine .trans ?_ (ih _)
          exact ⟨rfl, rfl, rfl, rfl, rfl, rfl, Within.refl _⟩
    · exact SameLedger.refl chain

theorem keepSideBody_sameLedger (chain : Chain) (id : Hash256) (size : Nat) :
    SameLedger chain (chain.keepSideBody id size) := by
  refine .trans ?_ (evictLoop_sameLedger _ _)
  exact ⟨rfl, rfl, rfl, rfl, rfl, rfl, Within.refl _⟩

/-- The block before position `place` of the active chain. -/
def PreviousIs (active : List Hash256) (place : Nat) (previous : Hash256) : Prop :=
  match place with
  | 0 => previous = Hash256.zero
  | below + 1 => active[below]? = some previous

/-- What the index says of the active block at `place`. -/
structure Placed (active : List Hash256) (place : Nat) (entry : BlockIndex) : Prop where
  height : entry.header.height.toNat = place
  previous : PreviousIs active place entry.header.prevBlock
  issued : entry.issued ≤ genesisPremint + cumulativeEmission place

section Invariant
variable [Crypto]

/-- The headers of a history: identifiers tell them apart, and none is the null hash. -/
structure HashesApart (headers : Set BlockHeader) : Prop where
  injective : Set.InjOn BlockHeader.blockId headers
  nonzero : ∀ header ∈ headers, header.blockId ≠ Hash256.zero

/-- What every call preserves. -/
structure Sound (headers : Set BlockHeader) (chain : Chain) : Prop where
  indexed : ∀ id entry, chain.index.lookup id = some entry →
    entry.header ∈ headers ∧ entry.header.blockId = id
  bodies : ∀ id body, chain.blocks.lookup id = some body → body.header ∈ headers
  sources : ∀ id body, chain.source id = some body → body.header ∈ headers
  nonempty : chain.active ≠ []
  placed : ∀ place id, chain.active[place]? = some id →
    ∃ entry, chain.index.lookup id = some entry ∧ Placed chain.active place entry
  issued : ∀ entry, chain.index.lookup chain.tipId = some entry → entry.issued = chain.issued
  rewinds : Rewinds chain.index chain.active.reverse chain.utxo chain.undos

variable {headers : Set BlockHeader} {chain next : Chain}

section
variable (sound : Sound headers chain)
include sound

theorem Sound.sameLedger (same : SameLedger chain next) : Sound headers next := by
  have tip : next.tipId = chain.tipId := by rw [Chain.tipId, same.active, Chain.tipId]
  refine ⟨?_, ?_, ?_, ?_, ?_, ?_, ?_⟩
  · rw [same.index]
    exact sound.indexed
  · intro id body found
    exact sound.bodies id body (same.blocks id body found)
  · rw [same.source]
    exact sound.sources
  · rw [same.active]
    exact sound.nonempty
  · rw [same.active, same.index]
    exact sound.placed
  · rw [tip, same.index, same.issued]
    exact sound.issued
  · rw [same.index, same.active, same.utxo, same.undos]
    exact sound.rewinds

theorem Sound.bodyById {id : Hash256} {body : Block} (found : chain.bodyById id = some body) :
    body.header ∈ headers := by
  rcases or_eq_some_iff.mp found with held | ⟨_, archived⟩
  · exact sound.bodies id body held
  · exact sound.sources id body archived

/-- The tip is indexed, and the set is worth at most what was issued. -/
theorem Sound.tip : chain.utxo.totalValue ≤ chain.issued ∧
      chain.issued ≤ genesisPremint + cumulativeEmission chain.height := by
  have last := Chain.tipId_eq sound.nonempty
  obtain ⟨entry, found, placed⟩ := sound.placed _ _ last
  have issued := sound.issued entry found
  have rewinds := sound.rewinds
  rw [Chain.active_reverse sound.nonempty] at rewinds
  constructor
  · rw [← issued]
    exact rewinds.1 entry found
  · rw [← issued]
    exact placed.issued

/-! ## The steps -/

/-- A body of the history may be added. -/
theorem Sound.insertBody (id : Hash256) {block : Block} (inHistory : block.header ∈ headers) :
    Sound headers { chain with blocks := chain.blocks.insert id block } := by
  refine ⟨sound.indexed, ?_, sound.sources, sound.nonempty, sound.placed, sound.issued,
    sound.rewinds⟩
  intro other body found
  rw [lookup_insert_eq] at found
  split at found
  · cases found
    exact inHistory
  · exact sound.bodies other body found

/-- An entry for a block that is not active may be added. -/
theorem Sound.insertIndex {id : Hash256} (entry : BlockIndex) (inHistory : entry.header ∈ headers)
    (named : entry.header.blockId = id) (outside : id ∉ chain.active) :
    Sound headers { chain with index := chain.index.insert id entry } := by
  have same : ∀ other ∈ chain.active,
      (chain.index.insert id entry).lookup other = chain.index.lookup other := by
    intro other member
    rw [lookup_insert_eq, if_neg]
    rintro rfl
    exact outside member
  refine ⟨?_, sound.bodies, sound.sources, sound.nonempty, ?_, ?_, ?_⟩
  · intro other found' found
    rw [lookup_insert_eq] at found
    split at found
    · rename_i here
      cases found
      exact ⟨inHistory, named.trans here.symm⟩
    · exact sound.indexed other found' found
  · intro place other here
    rw [same other (mem_of_getElem? here)]
    exact sound.placed place other here
  · intro tip found
    have member := mem_of_getElem? (Chain.tipId_eq sound.nonempty)
    exact sound.issued tip ((same _ member).symm.trans found)
  · exact sound.rewinds.congr fun other member => same other (mem_reverse.mp member)

/-- A header of the history one above the tip is not active yet. -/
theorem Sound.notActive (apart : HashesApart headers) {header : BlockHeader}
    (inHistory : header ∈ headers) (above : header.height.toNat = chain.height + 1) :
    header.blockId ∉ chain.active := by
  intro member
  obtain ⟨place, inside, here⟩ := getElem_of_mem member
  obtain ⟨entry, found, placed⟩ := sound.placed place _ (List.getElem?_eq_some_iff.mpr ⟨inside, here⟩)
  obtain ⟨known, named⟩ := sound.indexed _ entry found
  have same := apart.injective known inHistory named
  have height := placed.height
  rw [same, above, Chain.height] at height
  omega

end

section Steps
variable [WorkHash] {block : Block} {now fees : Nat}

/-- The chain with a block on its tip, before any body is dropped. -/
def Chain.extended (chain : Chain) (block : Block) (coinbase fees work : Nat) : Chain :=
  let applied := chain.utxo.applyTransactions {} (chain.height + 1) block.transactions
  let issued := chain.issued + (coinbase - fees)
  let id := block.header.blockId
  { chain with
    index := chain.index.insert id ⟨block.header, work, issued⟩
    blocks := chain.blocks.insert id block
    active := chain.active ++ [id]
    utxo := applied.1
    undos := (applied.2 :: chain.undos).take bodyWindow
    issued }

/-- What a connected block passed, and the chain it leaves. -/
structure Connected (chain : Chain) (block : Block) (fees : Nat) (next : Chain)
    (context : BlockContext) (coinbase : Transaction) (rest : List Transaction) : Prop where
  onTip : context.height = chain.height + 1 ∧ context.prevId = chain.tipId
  checked : CheckedBlock block chain.utxo context fees coinbase rest
  room : chain.active.length < activeCapacity
  extended : ∃ work, SameLedger (chain.extended block coinbase.outputValue fees work) next

theorem connect_ok (connected : chain.connect block now = .ok (next, fees)) :
    ∃ context coinbase rest, Connected chain block fees next context coinbase rest := by
  simp only [Chain.connect, bind_eq_ok, orRefuse_eq_ok, mapError_eq_ok, require_eq_ok,
    pure_eq_ok] at connected
  obtain ⟨context, inContext, paid, accepted, total, summed, issued, added, parent, _, _, room,
    result⟩ := connected
  obtain ⟨rfl, rfl⟩ := Prod.mk.inj result
  obtain ⟨coinbase, rest, checked⟩ := checkBlock_ok accepted
  obtain ⟨_, rfl⟩ := checkedAdd_eq_some.mp added
  rw [Chain.coinbaseTotal, checked.transactions] at summed
  obtain rfl := Transaction.totalOutput_eq summed
  have place : context.height = chain.height + 1 ∧ context.prevId = chain.tipId := by
    simp only [Chain.context, bind_eq_bind, bind_eq_some_iff, Option.pure_def,
      some.injEq] at inContext
    obtain ⟨_, _, rfl⟩ := inContext
    exact ⟨rfl, rfl⟩
  generalize Chain.addWork parent.totalWork (blockWork block.header.bits) = work
  refine ⟨context, coinbase, rest, place, checked, room, work, ?_⟩
  -- The body is kept before the tip moves, which changes none of what the invariant reads.
  have kept := keepBody_sameLedger { chain with
      utxo := (chain.utxo.applyTransactions {} context.height block.transactions).1
      issued := chain.issued + (coinbase.outputValue - paid)
      index := chain.index.insert block.header.blockId
        ⟨block.header, work, chain.issued + (coinbase.outputValue - paid)⟩ }
    block.header.blockId block
  rw [place.1] at kept ⊢
  refine ⟨kept.index, ?_, kept.utxo, ?_, kept.issued, kept.source, kept.blocks⟩
  · exact congrArg (· ++ [block.header.blockId]) kept.active
  · exact congrArg (fun undos => (_ :: undos).take bodyWindow) kept.undos

omit [Crypto] [WorkHash] in
theorem bodiesOf_mem {bodyById : Hash256 → Option Block} {ids : List Hash256}
    {bodies : List Block} (found : Chain.bodiesOf bodyById ids = .ok bodies) :
    ∀ body ∈ bodies, ∃ id, bodyById id = some body := by
  induction ids generalizing bodies with
  | nil =>
    cases found
    simp
  | cons id rest ih =>
    rw [Chain.bodiesOf] at found
    split at found
    · cases found
    · rename_i first held
      split at found
      · cases found
      · rename_i others rested
        cases found
        intro body member
        rcases mem_cons.mp member with rfl | later
        · exact ⟨id, held⟩
        · exact ih rested body later

section
variable (sound : Sound headers chain)
include sound

omit [WorkHash] in
theorem Sound.extended {coinbase work : Nat} (inHistory : block.header ∈ headers)
    (fresh : block.header.blockId ∉ chain.active)
    (height : block.header.height.toNat = chain.height + 1)
    (parent : block.header.prevBlock = chain.tipId)
    (emitted : coinbase ≤ blockSubsidy (chain.height + 1) + fees) (conserved :
      (chain.utxo.applyTransactions {} (chain.height + 1) block.transactions).1.totalValue + fees ≤
      chain.utxo.totalValue + coinbase) :
    Sound headers (chain.extended block coinbase fees work) := by
  obtain ⟨valued, scheduled⟩ := sound.tip
  have length : chain.height + 1 = chain.active.length := by
    have positive := length_pos_iff.mpr sound.nonempty
    rw [Chain.height]
    omega
  have indexed := (sound.insertBody block.header.blockId inHistory).insertIndex
    ⟨block.header, work, chain.issued + (coinbase - fees)⟩ inHistory rfl fresh
  have tip : (chain.extended block coinbase fees work).tipId = block.header.blockId := by
    simp [Chain.tipId, Chain.extended]
  refine ⟨indexed.indexed, indexed.bodies, sound.sources, by simp [Chain.extended], ?_, ?_, ?_⟩
  · intro place id here
    change (chain.active ++ [block.header.blockId])[place]? = some id at here
    rcases lt_or_ge place chain.active.length with below | above
    · rw [getElem?_append_left below] at here
      obtain ⟨entry, found, placed⟩ := indexed.placed place id here
      refine ⟨entry, found, placed.height, ?_, placed.issued⟩
      have previous := placed.previous
      cases place with
      | zero => exact previous
      | succ below' =>
        change (chain.active ++ [block.header.blockId])[below']? = _
        rwa [getElem?_append_left (by omega)]
    · have last : place = chain.active.length ∧ block.header.blockId = id := by
        rw [getElem?_append_right above] at here
        have inside := (List.getElem?_eq_some_iff.mp here).1
        have zero : place - chain.active.length = 0 := by simpa using inside
        rw [zero] at here
        exact ⟨by omega, by simpa using here⟩
      obtain ⟨rfl, rfl⟩ := last
      refine ⟨⟨block.header, work, chain.issued + (coinbase - fees)⟩, ?_, ?_, ?_, ?_⟩
      · exact lookup_insert _
      · rwa [← length]
      · rw [← length]
        change (chain.active ++ [block.header.blockId])[chain.height]? = some block.header.prevBlock
        rw [getElem?_append_left (by omega), parent]
        exact Chain.tipId_eq sound.nonempty
      · rw [← length, cumulativeEmission_succ]
        dsimp only
        omega
  · intro entry found
    rw [tip] at found
    have inserted : entry = ⟨block.header, work, chain.issued + (coinbase - fees)⟩ :=
      some.inj (found.symm.trans (lookup_insert _))
    rw [inserted]
    rfl
  · change Rewinds _ (chain.active ++ [block.header.blockId]).reverse _ _
    rw [reverse_concat]
    apply Rewinds.take
    constructor
    · intro entry found
      have inserted := some.inj (found.symm.trans (lookup_insert _))
      rw [inserted]
      dsimp only [Chain.extended]
      omega
    · exact indexed.rewinds.mono
        ((UtxoSet.Undoes.refl _).applyTransactions (chain.height + 1) block.transactions).undo_within

omit [WorkHash] in
theorem Sound.disconnect : Sound headers chain.disconnect.1 := by
  unfold Chain.disconnect
  split
  · rename_i undo undos parent recorded below
    split
    · exact sound
    · rename_i entry found
      have rewinds := sound.rewinds
      have shorter : chain.active.dropLast ≠ [] := by
        intro empty
        rw [empty] at below
        cases below
      rw [Chain.active_reverse sound.nonempty, recorded] at rewinds
      refine ⟨sound.indexed, sound.bodies, sound.sources, shorter, ?_, ?_, rewinds.2⟩
      · intro place id here
        have inside : place < chain.active.length - 1 := by
          simpa using (List.getElem?_eq_some_iff.mp here).1
        rw [getElem?_dropLast, if_pos inside] at here
        obtain ⟨entry', found', placed⟩ := sound.placed place id here
        refine ⟨entry', found', placed.height, ?_, placed.issued⟩
        have previous := placed.previous
        cases place with
        | zero => exact previous
        | succ before =>
          change chain.active.dropLast[before]? = _
          rwa [getElem?_dropLast, if_pos (by omega)]
      · intro tip foundTip
        change chain.index.lookup (chain.active.dropLast.getLast?.getD Hash256.zero) = _ at foundTip
        rw [below, getD_some, found] at foundTip
        cases foundTip
        rfl
  · exact sound

omit [WorkHash] in
theorem Sound.disconnectMany (count : Nat) : Sound headers (Chain.disconnectMany count chain) := by
  induction count generalizing chain with
  | zero => exact sound
  | succ count ih =>
    have once := sound.disconnect
    rw [Chain.disconnectMany]
    cases stepped : chain.disconnect with
    | mk next done =>
      rw [stepped] at once
      cases done with
      | false => exact sound
      | true => exact ih once

omit [WorkHash] in
theorem Sound.indexSide (inHistory : block.header ∈ headers)
    (unknown : chain.index.lookup block.header.blockId = none) (total : Nat) :
    Sound headers (chain.indexSide block total) := by
  have outside : block.header.blockId ∉ chain.active := by
    intro member
    obtain ⟨place, here⟩ := mem_iff_getElem?.mp member
    obtain ⟨entry, found, _⟩ := sound.placed place _ here
    rw [unknown] at found
    cases found
  have indexed := sound.insertIndex ⟨block.header, total, 0⟩ inHistory rfl outside
  have kept := (indexed.insertBody block.header.blockId inHistory).sameLedger
    (keepBody_sameLedger _ _ _)
  exact kept.sameLedger (keepSideBody_sameLedger _ _ _)

section
variable (apart : HashesApart headers)
include apart

/-- A connected block keeps the invariant. -/
theorem Sound.connect (inHistory : block.header ∈ headers)
    (connected : chain.connect block now = .ok (next, fees)) : Sound headers next := by
  obtain ⟨context, coinbase, rest, passed⟩ := connect_ok connected
  obtain ⟨onHeight, onParent⟩ := passed.onTip
  obtain ⟨_, height, parent⟩ := checkPlace_ok passed.checked.place
  rw [onHeight] at height
  rw [onParent] at parent
  have emitted := (checkCoinbase_ok passed.checked.uncles passed.checked.coinbaseRules).1
  have conserved := passed.checked.conserves
  rw [onHeight] at emitted conserved
  obtain ⟨work, same⟩ := passed.extended
  have fresh := sound.notActive apart inHistory height
  exact (sound.extended inHistory fresh height parent emitted conserved).sameLedger same

theorem Sound.connectAll (now : Nat) {blocks : List Block}
    (inHistory : ∀ block ∈ blocks, block.header ∈ headers) :
    Sound headers (Chain.connectAll now blocks chain).1 := by
  induction blocks generalizing chain with
  | nil => exact sound
  | cons block rest ih =>
    rw [Chain.connectAll]
    split
    · exact sound
    · rename_i next fees connected
      exact ih (sound.connect apart (inHistory block (.head _)) connected)
        fun other member => inHistory other (.tail _ member)

/-- A switch keeps the invariant, completed or given up halfway. -/
theorem Sound.switchTo {fork depth : Nat} {branch old : List Block}
    (newHeaders : ∀ block ∈ branch, block.header ∈ headers)
    (oldHeaders : ∀ block ∈ old, block.header ∈ headers) :
    Sound headers (chain.switchTo fork depth now branch old).1 := by
  have switched := (sound.disconnectMany depth).connectAll apart now newHeaders
  unfold Chain.switchTo
  split
  · rename_i reached complete
    rw [complete] at switched
    exact switched.sameLedger ⟨rfl, rfl, rfl, rfl, rfl, rfl, Within.refl _⟩
  · rename_i failed problem stopped
    rw [stopped] at switched
    have back : Sound headers (failed.disconnectTo fork) := switched.disconnectMany _
    have restored := back.connectAll apart now oldHeaders
    split
    · rename_i again complete
      rwa [complete] at restored
    · rename_i broken second stuck
      rw [stuck] at restored
      exact restored.disconnectMany _

omit [WorkHash] in
/-- What is forgotten is indexed, and no active block is among it. -/
theorem Sound.forgotten (ids : List Hash256) (levels : Nat) :
    let gone := (Chain.forgetStep chain.index)^[levels]
      (ids.toFinset.filter fun id => chain.isSide id = true)
    (∀ id ∈ gone, (chain.index.lookup id).isSome = true) ∧ ∀ id ∈ chain.active, id ∉ gone := by
  induction levels with
  | zero =>
    constructor
    · intro id member
      have side := (Finset.mem_filter.mp member).2
      unfold Chain.isSide at side
      split at side
      · cases side
      · rename_i entry found
        rw [found]
        rfl
    · intro id active member
      have side := (Finset.mem_filter.mp member).2
      obtain ⟨place, here⟩ := mem_iff_getElem?.mp active
      obtain ⟨entry, found, placed⟩ := sound.placed place id here
      rw [Chain.isSide, found] at side
      simp [Chain.isActive, placed.height, here] at side
  | succ levels ih =>
    rw [Function.iterate_succ_apply']
    obtain ⟨known, apartActive⟩ := ih
    constructor
    · intro id member
      rcases Finset.mem_union.mp member with earlier | child
      · exact known id earlier
      · have key := (Finset.mem_filter.mp child).1
        exact lookup_isSome.mpr (Finmap.mem_keys.mp key)
    · intro id active member
      rcases Finset.mem_union.mp member with earlier | child
      · exact apartActive id active earlier
      · have under := (Finset.mem_filter.mp child).2
        obtain ⟨place, here⟩ := mem_iff_getElem?.mp active
        obtain ⟨entry, found, placed⟩ := sound.placed place id here
        simp only [Chain.parentIn, found, decide_eq_true_eq] at under
        have previous := placed.previous
        -- The parent of an active block is active, and the genesis has none in the index.
        cases place with
        | zero =>
          obtain ⟨parent, foundParent⟩ := isSome_iff_exists.mp (known _ under)
          obtain ⟨inHistory, named⟩ := sound.indexed _ parent foundParent
          exact apart.nonzero _ inHistory (named.trans previous)
        | succ below => exact apartActive _ (mem_of_getElem? previous) under

omit [WorkHash] in
theorem Sound.forgetSide (ids : List Hash256) : Sound headers (chain.forgetSide ids) := by
  obtain ⟨_, kept⟩ := sound.forgotten apart ids chain.index.keys.card
  unfold Chain.forgetSide
  dsimp only at kept ⊢
  generalize (Chain.forgetStep chain.index)^[chain.index.keys.card] _ = gone at kept ⊢
  have within : ∀ {ν : Type} (map : FiniteMap Hash256 ν),
      Within (retain (fun id => decide (id ∉ gone)) map) map := by
    intro ν map id value found
    rw [lookup_retain] at found
    split at found
    · exact found
    · cases found
  have same : ∀ id ∈ chain.active,
      (retain (fun id => decide (id ∉ gone)) chain.index).lookup id = chain.index.lookup id := by
    intro id active
    rw [lookup_retain, if_pos (decide_eq_true (kept id active))]
  refine ⟨?_, ?_, sound.sources, sound.nonempty, ?_, ?_, ?_⟩
  · intro id entry found
    exact sound.indexed id entry (within _ id entry found)
  · intro id body found
    exact sound.bodies id body (within _ id body found)
  · intro place id here
    obtain ⟨entry, found, placed⟩ := sound.placed place id here
    exact ⟨entry, (same id (mem_of_getElem? here)).trans found, placed⟩
  · intro entry found
    have active := mem_of_getElem? (Chain.tipId_eq sound.nonempty)
    exact sound.issued entry ((same _ active).symm.trans found)
  · exact sound.rewinds.congr fun id member => same id (mem_reverse.mp member)

theorem Sound.tryReorg (newTip : Hash256) (now : Nat) :
    Sound headers (chain.tryReorg newTip now).1 := by
  have inHistory : ∀ {ids : List Hash256} {bodies : List Block},
      Chain.bodiesOf chain.bodyById ids = .ok bodies → ∀ body ∈ bodies, body.header ∈ headers := by
    intro ids bodies found body member
    obtain ⟨id, held⟩ := bodiesOf_mem found body member
    exact sound.bodyById held
  unfold Chain.tryReorg
  dsimp only
  split
  · exact sound
  · rename_i fork branch path
    generalize (if chain.finalityBinds then _ else _) = required
    split
    · exact sound
    · split
      · exact sound
      · split
        · exact sound
        · split
          · have wanted : Sound headers (chain.wantOnDisk branch) :=
              sound.sameLedger ⟨rfl, rfl, rfl, rfl, rfl, rfl, Within.refl _⟩
            exact wanted.forgetSide apart _
          · exact sound
          · rename_i bodies old new before
            exact sound.switchTo apart (inHistory new) (inHistory before)

/-- A submitted block keeps the invariant, whatever comes of it. -/
theorem Sound.submit (inHistory : block.header ∈ headers) :
    Sound headers (chain.submit block now).1 := by
  unfold Chain.submit
  dsimp only
  split
  · exact sound
  · rename_i isNew
    split
    · exact sound
    · split
      · split
        · exact sound
        · rename_i next fees connected
          exact sound.connect apart inHistory connected
      · generalize Chain.addWork _ _ = total
        split
        · exact sound
        · have unknown : chain.index.lookup block.header.blockId = none := by
            simpa using isNew
          have indexed := sound.indexSide inHistory unknown total
          split
          · dsimp only
            exact indexed
          · have reorganized := indexed.tryReorg apart block.header.blockId now
            split
            · rename_i problem failed
              rwa [failed] at reorganized
            · rename_i depth switched
              rwa [switched] at reorganized

end

end

end Steps

end Invariant

/-- The calls; between them the node may note its finality anew or be given an archive. -/
inductive Call where
  | submit (block : Block) (now : Nat)
  | connect (block : Block) (now : Nat)
  | disconnect
  | noteFinality (hold : Option Nat) (returning bound : Bool)
  | setBodySource (source : Hash256 → Option Block)

section History
variable [Crypto] [WorkHash]

def Call.perform (chain : Chain) : Call → Chain
  | .submit block now => (chain.submit block now).1
  | .connect block now =>
    match chain.connect block now with
    | .error _ => chain
    | .ok (next, _) => next
  | .disconnect => chain.disconnect.1
  | .noteFinality hold returning bound => { chain with finalityHold := hold, returning, bound }
  | .setBodySource source => { chain with source }

def run (calls : List Call) (chain : Chain) : Chain := calls.foldl Call.perform chain

omit [Crypto] [WorkHash] in
/-- The block a call brings is of the history. -/
def Call.Brings (headers : Set BlockHeader) : Call → Prop
  | .submit block _ => block.header ∈ headers
  | .connect block _ => block.header ∈ headers
  | .disconnect => True
  | .noteFinality _ _ _ => True
  | .setBodySource source => ∀ id body, source id = some body → body.header ∈ headers

variable {headers : Set BlockHeader} {chain : Chain}

theorem Sound.perform (sound : Sound headers chain) (apart : HashesApart headers) {call : Call}
    (brings : call.Brings headers) : Sound headers (call.perform chain) := by
  cases call with
  | submit block now =>
    exact sound.submit apart brings
  | connect block now =>
    rw [Call.perform]
    split
    · exact sound
    · rename_i next fees connected
      exact sound.connect apart brings connected
  | disconnect => exact sound.disconnect
  | noteFinality hold returning bound =>
    exact sound.sameLedger ⟨rfl, rfl, rfl, rfl, rfl, rfl, Within.refl _⟩
  | setBodySource source =>
    exact ⟨sound.indexed, sound.bodies, brings, sound.nonempty, sound.placed, sound.issued,
      sound.rewinds⟩

theorem Sound.run (sound : Sound headers chain) (apart : HashesApart headers) {calls : List Call}
    (brings : ∀ call ∈ calls, call.Brings headers) : Sound headers (run calls chain) := by
  induction calls generalizing chain with
  | nil => exact sound
  | cons call rest ih =>
    exact ih (sound.perform apart (brings call (.head _)))
      fun other member => brings other (.tail _ member)

omit [Crypto] [WorkHash] in
theorem genesisCoinbase_totalOutput : genesisCoinbase.totalOutput = .ok genesisPremint := by
  decide +kernel

omit [WorkHash] in
theorem new_issued (network : Network) (nonce : UInt64) :
    (Chain.new network (genesisBlock nonce)).issued = genesisPremint := by
  exact add_zero _

omit [WorkHash] in
/-- The genesis creates what it issues. -/
theorem new_totalValue_le (network : Network) (nonce : UInt64) :
    (Chain.new network (genesisBlock nonce)).utxo.totalValue ≤ genesisPremint := by
  have coinbase : genesisCoinbase.isCoinbase = true := rfl
  have created := UtxoSet.total_createMap_le ∅ genesisCoinbase.txid 0 true 0 genesisCoinbase.outputs
  have sum : (genesisCoinbase.outputs.map fun output => output.value.toNat).sum = genesisPremint :=
    by decide +kernel
  change total UtxoEntry.value (UtxoSet.applyTransaction {} {} genesisCoinbase 0).1.map ≤ _
  rwa [applyTransaction_map_of_coinbase _ _ _ coinbase, ← sum]

omit [WorkHash] in
theorem Sound.new (network : Network) (nonce : UInt64)
    (inHistory : (genesisBlock nonce).header ∈ headers) :
    Sound headers (Chain.new network (genesisBlock nonce)) := by
  have issued := new_issued network nonce
  have value := new_totalValue_le network nonce
  have indexed : ∀ {id : Hash256} {entry : BlockIndex},
      (Chain.new network (genesisBlock nonce)).index.lookup id = some entry →
      id = (genesisBlock nonce).header.blockId ∧ entry.header = (genesisBlock nonce).header ∧
        entry.issued = (Chain.new network (genesisBlock nonce)).issued := by
    intro id entry found
    rw [Chain.new, lookup_insert_eq] at found
    split at found
    · rename_i same
      cases found
      exact ⟨same, rfl, rfl⟩
    · cases found
  have unsourced : ∀ id body, (Chain.new network (genesisBlock nonce)).source id = some body →
      body.header ∈ headers := by
    intro id body found
    cases found
  refine ⟨?_, ?_, unsourced, cons_ne_nil _ _, ?_, ?_, ?_⟩
  · intro id entry found
    obtain ⟨rfl, header, _⟩ := indexed found
    rw [header]
    exact ⟨inHistory, rfl⟩
  · intro id body found
    rw [Chain.new, lookup_insert_eq] at found
    split at found
    · cases found
      exact inHistory
    · cases found
  · intro place id here
    cases place with
    | zero =>
      cases here
      refine ⟨_, lookup_insert _, rfl, rfl, ?_⟩
      exact issued.le.trans (Nat.le_add_right _ _)
    | succ place => cases here
  · intro entry found
    exact (indexed found).2.2
  · refine ⟨?_, trivial⟩
    intro entry found
    rwa [(indexed found).2.2, issued]

/-- What a connected block creates, against the chain it was connected to. -/
structure Accounted (chain : Chain) (block : Block) (fees : Nat) (next : Chain)
    (coinbase : Transaction) (rest : List Transaction) : Prop where
  transactions : block.transactions = coinbase :: rest
  isCoinbase : coinbase.isCoinbase = true
  notCoinbase : ∀ tx ∈ rest, tx.isCoinbase = false
  emitted : coinbase.outputValue ≤ blockSubsidy (chain.height + 1) + fees
  collected : fees = feesFrom (chain.height + 1) { confirmed := chain.utxo } rest
  spends : ∀ before tx after, rest = before ++ tx :: after →
    tx.outputValue ≤ spentValue (viewAfter chain.utxo (chain.height + 1) before).lookup tx.inputs
  conserved : next.utxo.totalValue + fees ≤ chain.utxo.totalValue + coinbase.outputValue

theorem connect_accounted {block : Block} {now fees : Nat} {next : Chain}
    (connected : chain.connect block now = .ok (next, fees)) :
    ∃ coinbase rest, Accounted chain block fees next coinbase rest := by
  obtain ⟨context, coinbase, rest, passed⟩ := connect_ok connected
  obtain ⟨onHeight, _⟩ := passed.onTip
  have emitted := (checkCoinbase_ok passed.checked.uncles passed.checked.coinbaseRules).1
  have conserved := passed.checked.conserves
  obtain ⟨totals, looped, rfl⟩ := passed.checked.loop
  have collected := fees_eq_feesFrom looped
  obtain ⟨work, same⟩ := passed.extended
  rw [onHeight] at emitted conserved collected
  rw [zero_add] at collected
  refine ⟨coinbase, rest, passed.checked.transactions, passed.checked.isCoinbase,
    passed.checked.notCoinbase, emitted, collected, ?_, ?_⟩
  · rintro before tx after rfl
    rw [← onHeight]
    exact outputValue_le_spentValue looped
  · rwa [same.utxo]

/-- After any calls the set is worth at most what was issued, within the schedule and the supply;
and wherever a block is connected its coinbase alone creates value, no more than the schedule's part
for its height. -/
theorem supply_bounded (network : Network) (nonce : UInt64) (apart : HashesApart headers)
    (genesisIn : (genesisBlock nonce).header ∈ headers) (calls : List Call)
    (brings : ∀ call ∈ calls, call.Brings headers) :
    let chain := run calls (Chain.new network (genesisBlock nonce))
    chain.utxo.totalValue ≤ chain.issued ∧
      chain.issued ≤ genesisPremint + cumulativeEmission chain.height ∧
      genesisPremint + cumulativeEmission chain.height ≤ maxSupply ∧
      ∀ (tip next : Chain) (block : Block) (now fees : Nat),
        tip.connect block now = .ok (next, fees) →
        ∃ coinbase rest, Accounted tip block fees next coinbase rest := by
  intro chain
  have sound : Sound headers chain := (Sound.new network nonce genesisIn).run apart brings
  obtain ⟨valued, scheduled⟩ := sound.tip
  exact ⟨valued, scheduled, premint_add_cumulativeEmission_le chain.height,
    fun tip next block now fees connected => connect_accounted connected⟩

end History

theorem firstBlock_headersApart :
    letI : Crypto := checksumCrypto
    HashesApart {(genesisBlock 0).header, (firstBlock 0).header} := by
  let _ := checksumCrypto
  have different : (genesisBlock 0).header.blockId ≠ (firstBlock 0).header.blockId := by
    decide +kernel
  refine ⟨Set.injOn_pair.mpr fun same => absurd same different, ?_⟩
  rintro header (rfl | rfl) <;> decide +kernel

/-- A block submitted, disconnected and connected again is worth what it issues. -/
theorem supply_bounded_first_block :
    letI : Crypto := checksumCrypto
    letI : WorkHash := zeroWork
    let chain := run [.submit (firstBlock 0) (2 ^ 31), .disconnect,
      .connect (firstBlock 0) (2 ^ 31)] (Chain.new .regtest (genesisBlock 0))
    chain.height = 1 ∧ chain.utxo.totalValue ≤ chain.issued ∧
      chain.issued ≤ genesisPremint + cumulativeEmission chain.height := by
  let _ := checksumCrypto
  let _ := zeroWork
  have bounded := supply_bounded .regtest 0 firstBlock_headersApart (.inl rfl)
    [.submit (firstBlock 0) (2 ^ 31), .disconnect, .connect (firstBlock 0) (2 ^ 31)]
    (by
      intro call member
      rcases mem_cons.mp member with rfl | member
      · exact .inr rfl
      rcases mem_cons.mp member with rfl | member
      · exact trivial
      obtain rfl := mem_singleton.mp member
      exact .inr rfl)
  exact ⟨by decide +kernel, bounded.1, bounded.2.1⟩

section
variable (chain : Chain) (block : Block) (total : Nat)

/-- The network and the notes on finality. -/
structure SameSettings (chain next : Chain) : Prop where
  network : next.network = chain.network
  finalityHold : next.finalityHold = chain.finalityHold
  returning : next.returning = chain.returning
  bound : next.bound = chain.bound

theorem SameSettings.refl : SameSettings chain chain := ⟨rfl, rfl, rfl, rfl⟩

theorem SameSettings.trans {first second third : Chain} (before : SameSettings first second)
    (after : SameSettings second third) : SameSettings first third :=
  ⟨after.network.trans before.network, after.finalityHold.trans before.finalityHold,
    after.returning.trans before.returning, after.bound.trans before.bound⟩

theorem pruneLoop_sameSettings (genesis : Option Hash256) (window budget fuel : Nat)
    (chain : Chain) : SameSettings chain (Chain.pruneLoop genesis window budget fuel chain) := by
  induction fuel generalizing chain with
  | zero => exact .refl chain
  | succ fuel ih =>
    rw [Chain.pruneLoop]
    split
    · split
      · exact .refl chain
      · split
        · refine .trans ?_ (ih _)
          exact ⟨rfl, rfl, rfl, rfl⟩
        · split
          · refine .trans ?_ (ih _)
            exact ⟨rfl, rfl, rfl, rfl⟩
          · refine .trans ?_ (ih _)
            exact ⟨rfl, rfl, rfl, rfl⟩
    · exact .refl chain

theorem keepBody_sameSettings (id : Hash256) (block : Block) :
    SameSettings chain (chain.keepBody id block) := by
  unfold Chain.keepBody Chain.pruneBodies
  split
  · refine .trans ?_ (pruneLoop_sameSettings _ _ _ _ _)
    exact ⟨rfl, rfl, rfl, rfl⟩
  · refine .trans ?_ (pruneLoop_sameSettings _ _ _ _ _)
    exact ⟨rfl, rfl, rfl, rfl⟩

theorem evictLoop_sameSettings (fuel : Nat) (chain : Chain) :
    SameSettings chain (Chain.evictLoop fuel chain) := by
  induction fuel generalizing chain with
  | zero => exact .refl chain
  | succ fuel ih =>
    rw [Chain.evictLoop]
    split
    · split
      · exact .refl chain
      · dsimp only
        split
        · refine .trans ?_ (ih _)
          exact ⟨rfl, rfl, rfl, rfl⟩
        · refine .trans ?_ (ih _)
          exact ⟨rfl, rfl, rfl, rfl⟩
    · exact .refl chain

theorem indexSide_sameSettings [Crypto] : SameSettings chain (chain.indexSide block total) := by
  have kept := keepBody_sameSettings
    { chain with index := chain.index.insert block.header.blockId ⟨block.header, total, 0⟩ }
    block.header.blockId block
  have start : SameSettings chain
      { chain with index := chain.index.insert block.header.blockId ⟨block.header, total, 0⟩ } :=
    ⟨rfl, rfl, rfl, rfl⟩
  refine .trans (start.trans kept) (.trans ?_ (evictLoop_sameSettings _ _))
  exact ⟨rfl, rfl, rfl, rfl⟩

theorem indexSide_sameLedger [Crypto] : SameLedger
      { chain with
        index := chain.index.insert block.header.blockId ⟨block.header, total, 0⟩
        blocks := chain.blocks.insert block.header.blockId block }
      (chain.indexSide block total) := by
  have kept := keepBody_sameLedger
    { chain with index := chain.index.insert block.header.blockId ⟨block.header, total, 0⟩ }
    block.header.blockId block
  exact kept.trans (keepSideBody_sameLedger _ _ _)

theorem disconnect_sameSettings : SameSettings chain chain.disconnect.1 := by
  unfold Chain.disconnect
  split
  · split
    · exact .refl chain
    · exact ⟨rfl, rfl, rfl, rfl⟩
  · exact .refl chain

end

variable {chain : Chain}

theorem connect_sameSettings [Crypto] [WorkHash] {next : Chain} {block : Block}
    {now fees : Nat} (connected : chain.connect block now = .ok (next, fees)) :
    SameSettings chain next := by
  simp only [Chain.connect, bind_eq_ok, pure_eq_ok] at connected
  obtain ⟨context, _, _, _, _, _, issued, _, parent, _, _, _, result⟩ := connected
  obtain ⟨rfl, _⟩ := Prod.mk.inj result
  have kept := keepBody_sameSettings { chain with
      utxo := (chain.utxo.applyTransactions {} context.height block.transactions).1
      issued
      index := chain.index.insert block.header.blockId
        ⟨block.header, Chain.addWork parent.totalWork (blockWork block.header.bits), issued⟩ }
    block.header.blockId block
  exact ⟨kept.network, kept.finalityHold, kept.returning, kept.bound⟩

/-! ## The rule -/

section Stable
variable [Crypto] [WorkHash] {block : Block} {total now fees fork : Nat} {next : Chain}
  {newTip : Hash256} {branch : List Hash256}

/-- What a side block passed before it is indexed with the work `total`. -/
structure Chain.Admits (chain : Chain) (block : Block) (total now : Nat) : Prop where
  unknown : chain.index.lookup block.header.blockId = none
  offTip : block.header.prevBlock ≠ chain.tipId
  attached : ∃ parent, chain.index.lookup block.header.prevBlock = some parent ∧
    block.header.height.toNat = parent.header.height.toNat + 1 ∧
    total = Chain.addWork parent.totalWork (blockWork block.header.bits) ∧
    chain.checkSide block parent.header.height.toNat now total = .ok ()

theorem Chain.Admits.shape (admits : chain.Admits block total now) : block.checkShape = .ok () := by
  obtain ⟨_, _, _, _, passed⟩ := admits.attached
  simp only [Chain.checkSide, bind_eq_ok, mapError_eq_ok] at passed
  obtain ⟨_, _, _, _, _, shape, _⟩ := passed
  exact shape

/-- A submission comes to nothing, a block on the tip, a side block, or the attempt to switch to its
branch. -/
theorem submit_cases (chain : Chain) (block : Block) (now : Nat) :
    ((chain.submit block now).1 = chain ∧ ((chain.submit block now).2 = .ok .alreadyKnown ∨
        ∃ problem, (chain.submit block now).2 = .error problem)) ∨
      (∃ next fees, chain.connect block now = .ok (next, fees) ∧
        chain.submit block now = (next, .ok .extended)) ∨
      (∃ total, chain.Admits block total now ∧
        chain.submit block now = (chain.indexSide block total, .ok .sideBranch)) ∨
      ∃ total, chain.Admits block total now ∧ (chain.indexSide block total).totalWork < total ∧
        chain.submit block now =
          ((chain.indexSide block total).tryReorg block.header.blockId now).map id
            (Except.map Accept.reorganized) := by
  unfold Chain.submit
  dsimp only
  split
  · exact .inl ⟨rfl, .inl rfl⟩
  · rename_i isNew
    have unknown : chain.index.lookup block.header.blockId = none := by simpa using isNew
    split
    · exact .inl ⟨rfl, .inr ⟨_, rfl⟩⟩
    · rename_i parentHeight attached
      obtain ⟨parent, indexed, height, rfl⟩ := checkAttachment_eq_ok.mp attached
      split
      · rename_i onTip
        split
        · exact .inl ⟨rfl, .inr ⟨_, rfl⟩⟩
        · rename_i next fees connected
          exact .inr (.inl ⟨next, fees, connected, rfl⟩)
      · rename_i offTip
        rw [indexed, map_some, getD_some]
        split
        · exact .inl ⟨rfl, .inr ⟨_, rfl⟩⟩
        · rename_i passed
          have admits : chain.Admits block
              (Chain.addWork parent.totalWork (blockWork block.header.bits)) now :=
            ⟨unknown, offTip, parent, indexed, height, rfl, passed⟩
          split
          · exact .inr (.inr (.inl ⟨_, admits, rfl⟩))
          · rename_i heavier
            refine .inr (.inr (.inr ⟨_, admits, not_le.mp heavier, ?_⟩))
            split
            · rename_i failed
              rw [failed]
              rfl
            · rename_i switched
              rw [switched]
              rfl

/-- A block on the tip that can be connected extends the chain. -/
theorem submit_of_connect {parent : BlockIndex}
    (unknown : chain.index.lookup block.header.blockId = none)
    (found : chain.index.lookup block.header.prevBlock = some parent)
    (height : block.header.height.toNat = parent.header.height.toNat + 1)
    (onTip : block.header.prevBlock = chain.tipId)
    (connected : chain.connect block now = .ok (next, fees)) :
    chain.submit block now = (next, .ok .extended) := by
  have attached := checkAttachment_eq_ok.mpr ⟨parent, found, height, rfl⟩
  unfold Chain.submit
  dsimp only
  rw [unknown, if_neg (by simp), attached]
  dsimp only
  rw [if_pos onTip, connected]

/-- A side block is indexed; with more work than the tip it starts an attempt to switch. -/
theorem Chain.Admits.submit_eq (admits : chain.Admits block total now) : chain.submit block now =
      if total ≤ (chain.indexSide block total).totalWork then
        (chain.indexSide block total, .ok .sideBranch)
      else
        ((chain.indexSide block total).tryReorg block.header.blockId now).map id
          (Except.map Accept.reorganized) := by
  obtain ⟨parent, found, height, rfl, passed⟩ := admits.attached
  have attached := checkAttachment_eq_ok.mpr ⟨parent, found, height, rfl⟩
  unfold Chain.submit
  dsimp only
  rw [admits.unknown, if_neg (by simp), attached]
  dsimp only
  rw [if_neg admits.offTip, found, map_some, getD_some, passed]
  dsimp only
  split
  · rfl
  · split
    · rename_i failed
      rw [failed]
      rfl
    · rename_i switched
      rw [switched]
      rfl

/-- How many blocks a branch may have below its tip for the walk back to find its fork. -/
def Chain.reach (chain : Chain) : Nat :=
  if chain.finalityBinds then maxReorgDepth + 1 else bodyWindow + 1

/-- The work a branch has to exceed. -/
def Chain.requiredWork (chain : Chain) (fork depth : Nat) : Nat :=
  if chain.finalityBinds then chain.reorgThreshold fork depth else chain.totalWork

def Chain.workOf (chain : Chain) (id : Hash256) : Nat :=
  ((chain.index.lookup id).map BlockIndex.totalWork).getD 0

/-- Everything a switch to the branch ending with `newTip` needs before it starts. -/
structure Chain.Switches (chain : Chain) (newTip : Hash256) (fork : Nat) (branch : List Hash256)
    (bodies old : List Block) : Prop where
  path : chain.pathToActive (chain.reach + 2) newTip [] = some (fork, branch)
  final : ¬ (chain.finalityBinds = true ∧ maxReorgDepth < chain.height - fork)
  heavier : chain.requiredWork fork (chain.height - fork) < chain.workOf newTip
  undoable : chain.height - fork ≤ chain.undos.length
  bodies : Chain.bodiesOf chain.bodyById branch = .ok bodies
  old : Chain.bodiesOf chain.bodyById (chain.active.drop (fork + 1)) = .ok old

/-- The attempt once the walk back found the fork. -/
theorem tryReorg_of_path
    (path : chain.pathToActive (chain.reach + 2) newTip [] = some (fork, branch)) (now : Nat) :
    chain.tryReorg newTip now =
      if chain.finalityBinds = true ∧ maxReorgDepth < chain.height - fork then
        (chain, .error (.beyondFinality (chain.height - fork) maxReorgDepth))
      else if chain.workOf newTip ≤ chain.requiredWork fork (chain.height - fork) then
        (chain, .error (.insufficientWorkForDepth (chain.height - fork)))
      else if chain.undos.length < chain.height - fork then
        (chain, .error (.undoWindowTooShort (chain.height - fork) chain.undos.length))
      else
        match Chain.bodiesOf chain.bodyById branch,
            Chain.bodiesOf chain.bodyById (chain.active.drop (fork + 1)) with
        | .error missing, _ =>
          ((chain.wantOnDisk branch).forgetSide (branch.drop missing),
            .error (.validation .incompleteHistory))
        | .ok _, .error _ => (chain, .error (.validation .incompleteHistory))
        | .ok bodies, .ok oldBodies =>
          chain.switchTo fork (chain.height - fork) now bodies oldBodies := by
  rw [Chain.reach] at path
  unfold Chain.tryReorg
  dsimp only
  rw [path]
  rfl

theorem tryReorg_of_no_path
    (path : chain.pathToActive (chain.reach + 2) newTip [] = none) (now : Nat) :
    chain.tryReorg newTip now = (chain, .error (.forkPointNotFound maxReorgDepth)) := by
  rw [Chain.reach] at path
  unfold Chain.tryReorg
  dsimp only
  rw [path]

theorem Chain.Switches.tryReorg_eq {bodies old : List Block}
    (switches : chain.Switches newTip fork branch bodies old) (now : Nat) :
    chain.tryReorg newTip now = chain.switchTo fork (chain.height - fork) now bodies old := by
  rw [tryReorg_of_path switches.path, if_neg switches.final,
    if_neg (not_le.mpr switches.heavier), if_neg (not_lt.mpr switches.undoable),
    switches.bodies, switches.old]

/-- An attempt to switch comes to nothing, a branch whose bodies are wanted from disk, or the switch
itself. -/
theorem tryReorg_cases (chain : Chain) (newTip : Hash256) (now : Nat) :
    (∃ problem, chain.tryReorg newTip now = (chain, .error problem)) ∨
      (∃ branch rest problem, chain.tryReorg newTip now =
        ((chain.wantOnDisk branch).forgetSide rest, .error problem)) ∨
      ∃ fork branch bodies old, chain.Switches newTip fork branch bodies old ∧
        chain.tryReorg newTip now = chain.switchTo fork (chain.height - fork) now bodies old := by
  cases path : chain.pathToActive (chain.reach + 2) newTip [] with
  | none => exact .inl ⟨_, tryReorg_of_no_path path now⟩
  | some found =>
    obtain ⟨fork, branch⟩ := found
    rw [tryReorg_of_path path]
    split
    · exact .inl ⟨_, rfl⟩
    · rename_i final
      split
      · exact .inl ⟨_, rfl⟩
      · rename_i heavier
        split
        · exact .inl ⟨_, rfl⟩
        · rename_i undoable
          split
          · exact .inr (.inl ⟨_, _, _, rfl⟩)
          · exact .inl ⟨_, rfl⟩
          · rename_i bodies old new before
            exact .inr (.inr ⟨fork, branch, bodies, old,
              ⟨path, final, not_le.mp heavier, not_lt.mp undoable, new, before⟩, rfl⟩)

/-- What a switch is made of preserves the property, for blocks of the history. -/
structure Switching (history : Set Block) (holds : Chain → Prop) : Prop where
  connect : ∀ {chain next : Chain} {block : Block} {now fees : Nat}, holds chain →
    block ∈ history → chain.connect block now = .ok (next, fees) → holds next
  disconnect : ∀ {chain : Chain}, holds chain → holds chain.disconnect.1
  idle : ∀ {chain next : Chain}, holds chain → SameLedger chain next →
    SameSettings chain next → holds next

/-- What a submission is made of preserves the property. -/
structure Steady (history : Set Block) (holds : Chain → Prop) : Prop
    extends Switching history holds where
  bodies : ∀ {chain : Chain}, holds chain → ∀ {id : Hash256} {body : Block},
    chain.bodyById id = some body → body ∈ history
  index : ∀ {chain : Chain} {block : Block} {total now : Nat}, holds chain → block ∈ history →
    chain.Admits block total now → holds (chain.indexSide block total)
  forget : ∀ {chain : Chain} (ids : List Hash256), holds chain → holds (chain.forgetSide ids)

/-- Every call preserves the property, when an archive gives what `archived` says. -/
structure Stable (history : Set Block) (archived : Hash256 → Block → Prop) (holds : Chain → Prop) :
    Prop extends Steady history holds where
  notes : ∀ {chain : Chain} (finalityHold : Option Nat) (returning bound : Bool), holds chain →
    holds { chain with finalityHold, returning, bound }
  source : ∀ {chain : Chain} {source : Hash256 → Option Block}, holds chain →
    (∀ id body, source id = some body → body ∈ history ∧ archived id body) →
    holds { chain with source }

variable {history : Set Block} {archived : Hash256 → Block → Prop} {holds : Chain → Prop}
  {chain : Chain}

namespace Switching

section
variable (stable : Switching history holds) (held : holds chain)
include stable held

theorem disconnectMany (count : Nat) : holds (Chain.disconnectMany count chain) := by
  induction count generalizing chain with
  | zero => exact held
  | succ count ih =>
    have once := stable.disconnect held
    rw [Chain.disconnectMany]
    cases stepped : chain.disconnect with
    | mk next done =>
      rw [stepped] at once
      cases done with
      | false => exact held
      | true => exact ih once

theorem connectAll (now : Nat) {blocks : List Block} (members : ∀ block ∈ blocks, block ∈ history) :
    holds (Chain.connectAll now blocks chain).1 := by
  induction blocks generalizing chain with
  | nil => exact held
  | cons block rest ih =>
    rw [Chain.connectAll]
    split
    · exact held
    · rename_i next fees connected
      exact ih (stable.connect held (members block (.head _)) connected)
        fun other member => members other (.tail _ member)

/-- A switch, completed or given up halfway. -/
theorem switchTo {fork depth now : Nat} {branch old : List Block}
    (newMembers : ∀ block ∈ branch, block ∈ history) (oldMembers : ∀ block ∈ old, block ∈ history) :
    holds (chain.switchTo fork depth now branch old).1 := by
  have switched := stable.connectAll (stable.disconnectMany held depth) now newMembers
  unfold Chain.switchTo
  split
  · rename_i reached complete
    rw [complete] at switched
    exact stable.idle switched ⟨rfl, rfl, rfl, rfl, rfl, rfl, Within.refl _⟩ ⟨rfl, rfl, rfl, rfl⟩
  · rename_i failed problem stopped
    rw [stopped] at switched
    have back : holds (failed.disconnectTo fork) := stable.disconnectMany switched _
    have restored := stable.connectAll back now oldMembers
    split
    · rename_i again complete
      rwa [complete] at restored
    · rename_i broken second stuck
      rw [stuck] at restored
      exact stable.disconnectMany restored _

end

end Switching

namespace Steady

section
variable (stable : Steady history holds) (held : holds chain)
include stable held

theorem bodiesOf {ids : List Hash256} {bodies : List Block}
    (found : Chain.bodiesOf chain.bodyById ids = .ok bodies) : ∀ body ∈ bodies, body ∈ history := by
  intro body member
  obtain ⟨id, kept⟩ := bodiesOf_mem found body member
  exact stable.bodies held kept

theorem tryReorg (newTip : Hash256) (now : Nat) : holds (chain.tryReorg newTip now).1 := by
  rcases tryReorg_cases chain newTip now with ⟨_, same⟩ | ⟨branch, rest, _, same⟩ |
      ⟨fork, branch, bodies, old, switches, same⟩
  · rwa [same]
  · rw [same]
    exact stable.forget rest
      (stable.idle held ⟨rfl, rfl, rfl, rfl, rfl, rfl, Within.refl _⟩ ⟨rfl, rfl, rfl, rfl⟩)
  · rw [same]
    exact stable.switchTo held (stable.bodiesOf held switches.bodies)
      (stable.bodiesOf held switches.old)

/-- A submitted block, whatever comes of it. -/
theorem submit {block : Block} (member : block ∈ history) (now : Nat) :
    holds (chain.submit block now).1 := by
  rcases submit_cases chain block now with ⟨same, _⟩ | ⟨next, fees, connected, same⟩ |
      ⟨total, admits, same⟩ | ⟨total, admits, _, same⟩
  · rwa [same]
  · rw [same]
    exact stable.connect held member connected
  · rw [same]
    dsimp only
    exact stable.index held member admits
  · rw [same, Prod.map_fst, id]
    exact stable.tryReorg (stable.index held member admits) block.header.blockId now

end

end Steady

/-- A submission leaves the settings and the archive alone. -/
theorem submit_frame (chain : Chain) (block : Block) (now : Nat) :
    SameSettings chain (chain.submit block now).1 ∧
      (chain.submit block now).1.source = chain.source := by
  have steady : Steady Set.univ fun next => SameSettings chain next ∧ next.source = chain.source := by
    refine ⟨⟨?_, ?_, ?_⟩, ?_, ?_, ?_⟩
    · rintro before next block now fees ⟨settings, source⟩ _ connected
      obtain ⟨_, _, _, passed⟩ := connect_ok connected
      obtain ⟨_, same⟩ := passed.extended
      exact ⟨settings.trans (connect_sameSettings connected), same.source.trans source⟩
    · rintro before ⟨settings, source⟩
      refine ⟨settings.trans (disconnect_sameSettings before), ?_⟩
      rw [← source, Chain.disconnect]
      split
      · split
        · rfl
        · rfl
      · rfl
    · rintro before next ⟨settings, source⟩ same sameSettings
      exact ⟨settings.trans sameSettings, same.source.trans source⟩
    · exact fun _ _ _ _ => Set.mem_univ _
    · rintro before block total now ⟨settings, source⟩ _ _
      exact ⟨settings.trans (indexSide_sameSettings before block total),
        (indexSide_sameLedger before block total).source.trans source⟩
    · rintro before ids ⟨settings, source⟩
      exact ⟨settings.trans ⟨rfl, rfl, rfl, rfl⟩, source⟩
  exact steady.submit ⟨.refl chain, rfl⟩ (Set.mem_univ block) now

omit [Crypto] [WorkHash] in
theorem disconnect_index (chain : Chain) : chain.disconnect.1.index = chain.index := by
  unfold Chain.disconnect
  split
  · split
    · rfl
    · rfl
  · rfl

/-- The index after a block is connected. -/
theorem connect_index (connected : chain.connect block now = .ok (next, fees)) :
    ∃ parent issued, chain.index.lookup block.header.prevBlock = some parent ∧
      next.index = chain.index.insert block.header.blockId
        ⟨block.header, Chain.addWork parent.totalWork (blockWork block.header.bits), issued⟩ := by
  simp only [Chain.connect, bind_eq_ok, orRefuse_eq_ok, pure_eq_ok] at connected
  obtain ⟨context, _, _, _, _, _, issued, _, parent, found, _, _, result⟩ := connected
  obtain ⟨rfl, _⟩ := Prod.mk.inj result
  have kept := keepBody_sameLedger { chain with
      utxo := (chain.utxo.applyTransactions {} context.height block.transactions).1
      issued
      index := chain.index.insert block.header.blockId
        ⟨block.header, Chain.addWork parent.totalWork (blockWork block.header.bits), issued⟩ }
    block.header.blockId block
  exact ⟨parent, issued, found, kept.index⟩

omit [Crypto] [WorkHash] in
/-- The blocks a call brings are of the history. -/
def Call.From (history : Set Block) : Call → Prop
  | .submit block _ => block ∈ history
  | .connect block _ => block ∈ history
  | .disconnect => True
  | .noteFinality _ _ _ => True
  | .setBodySource source => ∀ id body, source id = some body → body ∈ history

omit [Crypto] [WorkHash] in
/-- An archive a call plugs in gives under an identifier what `archived` says. -/
def Call.Reads (archived : Hash256 → Block → Prop) : Call → Prop
  | .setBodySource source => ∀ id body, source id = some body → archived id body
  | _ => True

omit [Crypto] [WorkHash] in
theorem Call.reads_all (call : Call) : call.Reads fun _ _ => True := by
  cases call with
  | setBodySource source => exact fun _ _ _ => trivial
  | submit | connect | disconnect | noteFinality => trivial

namespace Stable

theorem perform (stable : Stable history archived holds) (held : holds chain) {call : Call}
    (brings : call.From history) (reads : call.Reads archived) : holds (call.perform chain) := by
  cases call with
  | submit block now =>
    exact stable.submit held brings now
  | connect block now =>
    rw [Call.perform]
    split
    · exact held
    · rename_i next fees connected
      exact stable.connect held brings connected
  | disconnect => exact stable.disconnect held
  | noteFinality hold returning bound => exact stable.notes hold returning bound held
  | setBodySource source =>
    exact stable.source held fun id body found => ⟨brings id body found, reads id body found⟩

theorem run (stable : Stable history archived holds) (held : holds chain) {calls : List Call}
    (brings : ∀ call ∈ calls, call.From history) (reads : ∀ call ∈ calls, call.Reads archived) :
    holds (run calls chain) := by
  induction calls generalizing chain with
  | nil => exact held
  | cons call rest ih =>
    exact ih (stable.perform held (brings call (.head _)) (reads call (.head _)))
      (fun other member => brings other (.tail _ member))
      fun other member => reads other (.tail _ member)

end Stable

end Stable

end Q21Formal.Ledger

import Q21Formal.Ledger.Restore

/-!
# Branches off the active chain

A branch is known by the index alone until the chain switches to it.  The walk back along it and the
checks of a side block are those of its blocks, applied one after the other.
-/

namespace Q21Formal.Ledger
open Library.Refusal Library.Maps Primitives List

section Walk
variable [Crypto] {chain : Chain} {ids : List Hash256} {headers : List BlockHeader}

/-- The walk back along an indexed path collects its part off the active chain. -/
theorem HeadersAlong.pathToActive (along : HeadersAlong chain.index ids headers)
    {common branch after : List BlockHeader} {last tip : BlockHeader}
    (split : headers = common ++ last :: (branch ++ after))
    (joins : chain.active[common.length]? = some last.blockId)
    (off : ∀ header ∈ branch, header.blockId ∉ chain.active)
    (top : (last :: branch).getLast? = some tip) (steps : Nat) (found : List Hash256) :
    chain.pathToActive steps tip.blockId found =
      if branch.length < steps then
        some (common.length, branch.map BlockHeader.blockId ++ found)
      else none := by
  induction steps generalizing branch after tip found with
  | zero => rfl
  | succ steps ih =>
    rcases eq_nil_or_concat' branch with rfl | ⟨older, newest, rfl⟩
    · obtain rfl : last = tip := Option.some.inj top
      obtain ⟨entry, indexed, same⟩ := along.indexed last (by simp [split])
      have height := along.heights common.length last (by simp [split])
      have active : chain.isActive last.blockId entry = true := by
        rw [Chain.isActive, same, height, joins, beq_self_eq_true]
      rw [Chain.pathToActive, indexed]
      dsimp only
      rw [active, if_pos rfl, same, height, length_nil, if_pos (Nat.succ_pos _)]
      rfl
    · obtain rfl : newest = tip := by
        rw [← cons_append, getLast?_concat] at top
        exact Option.some.inj top
      obtain ⟨entry, indexed, same⟩ := along.indexed newest (by simp [split])
      have height := along.heights (common.length + 1 + older.length) newest (by
        rw [split, getElem?_append_right (by omega)]
        simp [show common.length + 1 + older.length - common.length = older.length + 1 by omega])
      obtain ⟨front, previous, shape⟩ :=
        (eq_nil_or_concat' (last :: older)).resolve_left (by simp)
      have linked : newest.prevBlock = previous.blockId := by
        refine along.linked (common ++ front) previous newest after ?_
        have joined : common ++ last :: (older ++ [newest] ++ after) =
            common ++ ((last :: older) ++ newest :: after) := by simp
        rw [split, joined, shape]
        simp
      have inactive : chain.isActive newest.blockId entry = false := by
        rw [Chain.isActive, beq_eq_false_iff_ne]
        intro here
        exact off newest (by simp) (mem_of_getElem? here)
      have high : ¬ newest.height = 0 := by
        intro zero
        rw [zero, UInt64.toNat_zero] at height
        omega
      have rest := ih (show headers = common ++ last :: (older ++ newest :: after) by simp [split])
        (fun header listed => off header (mem_append_left _ listed))
        (by rw [shape, getLast?_concat]) (newest.blockId :: found)
      rw [Chain.pathToActive, indexed]
      dsimp only
      rw [inactive, if_neg Bool.false_ne_true, same, if_neg high, linked, rest,
        length_append, length_singleton, map_append, map_singleton,
        append_assoc, singleton_append]
      by_cases enough : older.length < steps
      · rw [if_pos enough, if_pos (by omega)]
      · rw [if_neg enough, if_neg (by omega)]

end Walk

section Paths
variable [Crypto] [WorkHash] {network : Network} {nonce : UInt64} {history : Set Block}
  {chain : Chain} {path : List Block} {block : Block} {now : Nat}

theorem Lineage.heights (lineage : Lineage network nonce history path) {place : Nat}
    (here : path[place]? = some block) : block.header.height.toNat = place := by
  obtain ⟨inside, same⟩ := List.getElem?_eq_some_iff.mp here
  have split : path = path.take place ++ block :: path.drop (place + 1) := by
    rw [← same, cons_getElem_drop_succ, take_append_drop]
  cases place with
  | zero =>
    have first := lineage.genesis
    rw [head?_eq_getElem?, here] at first
    rw [Option.some.inj first]
    rfl
  | succ place =>
    obtain ⟨clock, accepts⟩ := lineage.accepted _ _ _ split (by
      rw [← length_pos_iff, length_take]
      omega)
    rw [accepts.height_eq, ledgerOf_headers, length_map, length_take]
    omega

theorem Lineage.below {above : List Block} (lineage : Lineage network nonce history (path ++ above))
    (nonempty : path ≠ []) : Lineage network nonce history path := by
  refine ⟨?_, fun block member => lineage.members block (mem_append_left _ member), ?_⟩
  · have first := lineage.genesis
    rwa [head?_append_of_ne_nil _ nonempty] at first
  · intro before block after split someBelow
    exact lineage.accepted before block (after ++ above) (by simp [split]) someBelow

section
variable (lineage : Lineage network nonce history path) (sound : Sound (headersOf history) chain)
  (apart : HashesApart (headersOf history))
include lineage sound apart

/-- The headers of a lineage whose blocks are all indexed. -/
theorem Lineage.headersAlong
    (known : ∀ block ∈ path, (chain.index.lookup block.header.blockId).isSome = true) :
    HeadersAlong chain.index (path.map fun block => block.header.blockId)
      (path.map Block.header) := by
  refine ⟨?_, ?_, ?_, ?_⟩
  · rw [map_map]
    rfl
  · intro header listed
    obtain ⟨block, member, rfl⟩ := mem_map.mp listed
    obtain ⟨entry, found⟩ := Option.isSome_iff_exists.mp (known block member)
    obtain ⟨inside, named⟩ := sound.indexed _ entry found
    exact ⟨entry, found, apart.injective inside ⟨block, lineage.members block member, rfl⟩ named⟩
  · intro place header here
    rw [getElem?_map, Option.map_eq_some_iff] at here
    obtain ⟨block, here, rfl⟩ := here
    exact lineage.heights here
  · intro before header next after split
    obtain ⟨front, upper, rfl, _, rest⟩ := map_eq_append_iff.mp split
    obtain ⟨block, later, rfl, rfl, further⟩ := map_eq_cons_iff.mp rest
    obtain ⟨above, others, rfl, rfl, _⟩ := map_eq_cons_iff.mp further
    obtain ⟨clock, accepts⟩ := lineage.accepted (front ++ [block]) above others (by simp) (by simp)
    refine accepts.parent_eq ?_
    rw [ledgerOf_headers, map_append, map_singleton, getLast?_concat]

/-- A block accepted on an indexed lineage passes as a side block, unless it comes below the
finality limit or is too easy. -/
theorem Lineage.admits (onNetwork : chain.network = network)
    (known : ∀ block ∈ path, (chain.index.lookup block.header.blockId).isSome = true)
    (accepts : (ledgerOf path).Accepts network block now)
    (unknown : chain.index.lookup block.header.blockId = none)
    (offTip : block.header.prevBlock ≠ chain.tipId) {total : Nat} (weighs : total = Chain.addWork
      (chain.workOf block.header.prevBlock) (blockWork block.header.bits))
    (near : ¬ (maxReorgDepth < chain.height - (path.length - 1) ∧ chain.finalityBinds = true)) (hard
      : ¬ (total ≤ chain.totalWork ∧ chain.tooEasyForSide block.header.prevBlock (blockWork
      block.header.bits) = true)) : chain.Admits block total now := by
  have along := lineage.headersAlong sound apart known
  obtain ⟨below, parent, rfl⟩ : ∃ below parent, path = below ++ [parent] := by
    refine (eq_nil_or_concat' path).resolve_left ?_
    rintro rfl
    cases lineage.genesis
  have split : (below ++ [parent]).map Block.header =
      below.map Block.header ++ parent.header :: [] := by
    rw [map_append, map_singleton]
  have tip : (ledgerOf (below ++ [parent])).headers.getLast? = some parent.header := by
    rw [ledgerOf_headers, split, getLast?_concat]
  have onParent := accepts.parent_eq tip
  obtain ⟨entry, found, header⟩ := along.indexed parent.header (by simp)
  have height : parent.header.height.toNat = below.length :=
    lineage.heights (by simp)
  have walked : ∀ count, Chain.headersBack chain.index count block.header.prevBlock [] =
      lastOf count (ledgerOf (below ++ [parent])).headers := by
    intro count
    rw [onParent, along.headersBack count [] split, append_nil, ← split, ledgerOf_headers]
  have higher : block.header.height.toNat = below.length + 1 := by
    rw [accepts.height_eq, ledgerOf_headers, length_map, length_append, length_singleton]
  have length : (below ++ [parent]).length - 1 = below.length := by simp
  obtain ⟨fees, accepted⟩ := accepts.checked
  have shape := checkBlock_shape accepted
  obtain ⟨_, _, checked⟩ := checkBlock_ok accepted
  have place := checked.place
  simp only [checkPlace, bind_eq_ok, require_eq_ok, mapError_eq_ok] at place
  obtain ⟨_, size, _, _, _, _, _, bits, _, median, _, after, _, anchor, _, present, work⟩ := place
  rw [length] at near
  rw [← onParent] at found
  refine ⟨unknown, offTip, entry, found, ?_, ?_, ?_⟩
  · rw [header, height, higher]
  · rw [weighs, Chain.workOf, found]
    rfl
  · simp only [Chain.checkSide, Chain.checkContext, bind_eq_ok, require_eq_ok, mapError_eq_ok]
    refine ⟨(), ⟨(), ?_, (), ?_, (), ?_, (), ?_, (), ?_, present⟩, (), hard, (), shape, (), size, ?_⟩
    · rwa [header, height]
    · rwa [Chain.nextBitsAfter, walked, onNetwork]
    · rwa [Chain.recentTimesAfter, walked]
    · rw [found, Option.map_some, header, onNetwork, higher]
      rw [LedgerState.context, tip, ledgerOf_headers] at after
      simpa using after
    · rw [onNetwork, higher]
      rw [LedgerState.context, ledgerOf_headers] at anchor
      simpa using anchor
    · rwa [onNetwork]

end

end Paths

section Winning
variable [Crypto] [WorkHash] {network : Network} {nonce : UInt64} {history : Set Block}
  {chain : Chain} {below old branch : List Block} {block : Block} {now : Nat} {blocks : List Block}
  {total : Nat} {indexed : Chain}

omit [WorkHash] in
/-- Blocks that are all at hand are read back in order. -/
theorem bodiesOf_ok {bodyById : Hash256 → Option Block}
    (read : ∀ block ∈ blocks, bodyById block.header.blockId = some block) :
    Chain.bodiesOf bodyById (blocks.map fun block => block.header.blockId) = .ok blocks := by
  induction blocks with
  | nil => rfl
  | cons block rest ih =>
    rw [map_cons, Chain.bodiesOf, read block (.head _)]
    rw [ih fun other member => read other (.tail _ member)]

theorem Tracks.bodiesOf_lineage {path part : List Block}
    (tracks : Tracks network nonce history chain blocks) (kept : WellKept chain)
    (apart : BodiesApart history) (lineage : Lineage network nonce history path)
    (within : ∀ block ∈ part, block ∈ path)
    (available : ∀ block ∈ part, (chain.bodyById block.header.blockId).isSome = true) :
    Chain.bodiesOf chain.bodyById (part.map fun block => block.header.blockId) = .ok part := by
  apply bodiesOf_ok
  intro block listed
  obtain ⟨body, read⟩ := Option.isSome_iff_exists.mp (available block listed)
  have member := within block listed
  rw [read, tracks.body_eq kept apart (lineage.members block member) (lineage.shapes block member)
    read]

/-! ## The switch to a valid branch -/

/-- The blocks of the chain are indexed, so a branch off it is indexed with those below. -/
theorem Tracks.known_append (tracks : Tracks network nonce history chain (below ++ old))
    (known : ∀ block ∈ branch, (chain.index.lookup block.header.blockId).isSome = true) :
    ∀ block ∈ below ++ branch, (chain.index.lookup block.header.blockId).isSome = true := by
  intro block listed
  rcases mem_append.mp listed with lower | upper
  · obtain ⟨before, after, split⟩ := append_of_mem (mem_append_left old lower)
    obtain ⟨entry, found, _⟩ := tracks.indexed before block after split
    rw [found]
    rfl
  · exact known block upper

/-- The walk back along the branch, which ends on the chain unless the branch is too long for it. -/
theorem Tracks.walk (tracks : Tracks network nonce history chain (below ++ old))
    (sound : Sound (headersOf history) chain) (apart : HashesApart (headersOf history))
    (nonempty : below ≠ []) (lineage : Lineage network nonce history (below ++ branch))
    (known : ∀ block ∈ branch, (chain.index.lookup block.header.blockId).isSome = true)
    (off : ∀ block ∈ branch, block.header.blockId ∉ chain.active)
    (top : branch.getLast? = some block) (steps : Nat) :
    chain.pathToActive steps block.header.blockId [] =
      if branch.length < steps then
        some (below.length - 1, branch.map fun block => block.header.blockId)
      else none := by
  obtain ⟨common, last, rfl⟩ := (eq_nil_or_concat' below).resolve_left nonempty
  have length : (common ++ [last]).length - 1 = common.length := by simp
  have along := lineage.headersAlong sound apart (tracks.known_append known)
  have joins : chain.active[(common.map Block.header).length]? = some last.header.blockId := by
    rw [tracks.active, length_map]
    simp
  have split : (common ++ [last] ++ branch).map Block.header =
      common.map Block.header ++ last.header :: (branch.map Block.header ++ []) := by simp
  have offHeaders : ∀ header ∈ branch.map Block.header, header.blockId ∉ chain.active := by
    intro header listed
    obtain ⟨block, member, rfl⟩ := mem_map.mp listed
    exact off block member
  have tip : (last.header :: branch.map Block.header).getLast? = some block.header := by
    rw [getLast?_cons, getLast?_map, top]
    rfl
  have walked := along.pathToActive split joins offHeaders tip steps []
  rw [length_map, append_nil, map_map, length_map] at walked
  rw [walked, length]
  rfl

/-- Everything a switch needs, from the branch as a list of blocks. -/
theorem Tracks.switches (tracks : Tracks network nonce history chain (below ++ old))
    (sound : Sound (headersOf history) chain) (kept : WellKept chain)
    (apart : HashesApart (headersOf history)) (bodiesApart : BodiesApart history)
    (nonempty : below ≠ []) (lineage : Lineage network nonce history (below ++ branch))
    (known : ∀ block ∈ branch, (chain.index.lookup block.header.blockId).isSome = true)
    (off : ∀ block ∈ branch, block.header.blockId ∉ chain.active)
    (top : branch.getLast? = some block) (near : branch.length ≤ chain.reach + 1)
    (final : ¬ (chain.finalityBinds = true ∧ maxReorgDepth < old.length))
    (heavier : chain.requiredWork (below.length - 1) old.length < chain.workOf block.header.blockId)
    (undoable : old.length ≤ chain.undos.length)
    (available : ∀ block ∈ branch ++ old, (chain.bodyById block.header.blockId).isSome = true) :
    chain.Switches block.header.blockId (below.length - 1)
      (branch.map fun block => block.header.blockId) branch old := by
  have walked := tracks.walk sound apart nonempty lineage known off top (chain.reach + 2)
  rw [if_pos (by omega)] at walked
  have positive := length_pos_iff.mpr nonempty
  have depth : chain.height - (below.length - 1) = old.length := by
    have whole := tracks.height_eq
    rw [length_append] at whole
    omega
  have replaced : chain.active.drop (below.length - 1 + 1) =
      old.map fun block => block.header.blockId := by
    rw [tracks.active, ← map_drop, drop_left' (by omega)]
  refine ⟨walked, ?_, ?_, ?_, ?_, ?_⟩
  · rwa [depth]
  · rwa [depth]
  · rwa [depth]
  · exact tracks.bodiesOf_lineage kept bodiesApart lineage
      (fun block listed => mem_append_right _ listed)
      fun block listed => available block (mem_append_left _ listed)
  · rw [replaced]
    exact tracks.bodiesOf_lineage kept bodiesApart tracks.lineage
      (fun block listed => mem_append_right _ listed)
      fun block listed => available block (mem_append_right _ listed)

theorem ValidAt.lineage (valid : ValidAt network now below branch)
    (lineage : Lineage network nonce history below) (members : ∀ block ∈ branch, block ∈ history) :
    Lineage network nonce history (below ++ branch) := by
  have nonempty : below ≠ [] := by
    rintro rfl
    cases lineage.genesis
  refine ⟨?_, ?_, ?_⟩
  · rw [head?_append_of_ne_nil _ nonempty]
    exact lineage.genesis
  · intro block listed
    exact (mem_append.mp listed).elim (lineage.members block) (members block)
  · clear members
    induction branch using reverseRecOn with
    | nil =>
      rw [append_nil]
      exact lineage.accepted
    | append_singleton branch block ih =>
      rw [← append_assoc]
      refine (ih ?_).concat (valid branch block [] rfl)
      intro done other rest split
      exact valid done other (rest ++ [block]) (by simp [split])

omit [Crypto] [WorkHash] in
/-- The work up to the fork, common to both branches. -/
def Chain.commonWork (chain : Chain) (fork : Nat) : Nat := (chain.active[fork]?.map chain.workOf).getD 0

omit [Crypto] [WorkHash] in
/-- The work asked of a branch that replaces `depth` blocks. -/
def surchargedWork (total common depth : Nat) : Nat :=
  if depth ≤ reorgPenaltyFromDepth then total
  else
    let excess := min ((depth - reorgPenaltyFromDepth) * reorgPenaltyPctPerBlock) reorgPenaltyMaxPct
    let surcharged := (mulDiv (total - common) (100 + excess) 100).getD (total - common)
    if common + surcharged < u256Bound then common + surcharged else total

omit [Crypto] [WorkHash] in
theorem reorgThreshold_eq (chain : Chain) (fork depth : Nat) : chain.reorgThreshold fork depth =
      surchargedWork chain.totalWork (chain.commonWork fork) depth := by
  unfold Chain.reorgThreshold Chain.commonWork
  cases chain.active[fork]? with
  | none | some => rfl

omit [Crypto] [WorkHash] in
/-- A surcharge is never a discount, whichever way the percentage is computed. -/
theorem le_mulDiv {work excess : Nat} (positive : 0 < excess) (small : excess ≤ reorgPenaltyMaxPct) :
    work ≤ (mulDiv work (100 + excess) 100).getD work := by
  rw [mulDiv, if_neg (by decide)]
  split
  · rw [Option.getD_some, Nat.le_div_iff_mul_le (by decide)]
    exact Nat.mul_le_mul_left _ (Nat.le_add_right 100 excess)
  · rename_i large
    split
    · have room : 9900 * (100 + reorgPenaltyMaxPct) < u256Bound := by decide
      have many : 9900 ≤ work := by
        by_contra few
        exact large ((Nat.mul_le_mul (by omega) (Nat.add_le_add_left small 100)).trans_lt room)
      have factor : work / 100 * 101 ≤ work / 100 * (100 + excess) :=
        Nat.mul_le_mul_left _ (by omega)
      rw [Option.getD_some]
      omega
    · rfl

omit [Crypto] [WorkHash] in
theorem total_le_surchargedWork (total common depth : Nat) :
    total ≤ surchargedWork total common depth := by
  unfold surchargedWork
  dsimp only
  split
  · rfl
  · have one : reorgPenaltyPctPerBlock = 1 := rfl
    have most : 1 ≤ reorgPenaltyMaxPct := by decide
    have some : 0 < min ((depth - reorgPenaltyFromDepth) * reorgPenaltyPctPerBlock)
        reorgPenaltyMaxPct := by
      rw [one]
      omega
    have more : total - common ≤ _ := le_mulDiv some (Nat.min_le_right _ _)
    split
    · omega
    · rfl

omit [Crypto] [WorkHash] in
theorem totalWork_le_requiredWork (chain : Chain) (fork depth : Nat) :
    chain.totalWork ≤ chain.requiredWork fork depth := by
  rw [Chain.requiredWork]
  split
  · exact total_le_surchargedWork _ _ _
  · rfl

omit [WorkHash] in
/-- Indexing a side block changes no work that is asked of a branch. -/
theorem indexSide_requiredWork (sound : Sound (headersOf history) chain)
    (unknown : chain.index.lookup block.header.blockId = none) (total fork depth : Nat) :
    (chain.indexSide block total).requiredWork fork depth = chain.requiredWork fork depth := by
  have ledger := indexSide_sameLedger chain block total
  have active : (chain.indexSide block total).active = chain.active := ledger.active
  have same : ∀ id ∈ chain.active,
      (chain.indexSide block total).index.lookup id = chain.index.lookup id := by
    intro id listed
    rw [ledger.index]
    rw [lookup_insert_eq, if_neg]
    rintro rfl
    exact sound.unknown_notActive unknown listed
  have work := indexSide_totalWork sound unknown total
  have binds := indexSide_reach chain block total
  generalize chain.indexSide block total = side at active same work binds ⊢
  have common : side.commonWork fork = chain.commonWork fork := by
    rw [Chain.commonWork, Chain.commonWork, active]
    cases here : chain.active[fork]? with
    | none => rfl
    | some id =>
      rw [Option.map_some, Option.map_some, Chain.workOf, same id (mem_of_getElem? here)]
      rfl
  rw [Chain.requiredWork, Chain.requiredWork, binds, reorgThreshold_eq, reorgThreshold_eq, common,
    work]

/-- What indexing a side block leaves as it was, and what it adds. -/
structure Indexed (network : Network) (nonce : UInt64) (history : Set Block) (chain : Chain)
    (blocks : List Block) (block : Block) (total : Nat) (indexed : Chain) : Prop where
  sound : Sound (headersOf history) indexed
  kept : WellKept indexed
  tracks : Tracks network nonce history indexed blocks
  active : indexed.active = chain.active
  undos : indexed.undos = chain.undos
  totalWork : indexed.totalWork = chain.totalWork
  requiredWork : ∀ fork depth, indexed.requiredWork fork depth = chain.requiredWork fork depth
  binds : indexed.finalityBinds = chain.finalityBinds
  index : indexed.index = chain.index.insert block.header.blockId ⟨block.header, total, 0⟩

theorem Tracks.admit (tracks : Tracks network nonce history chain blocks)
    (sound : Sound (headersOf history) chain) (kept : WellKept chain) (apart : HistoryApart history)
    (member : block ∈ history) (admits : chain.Admits block total now) :
    Indexed network nonce history chain blocks block total (chain.indexSide block total) := by
  have ledger := indexSide_sameLedger chain block total
  obtain ⟨⟨soundIndexed, _⟩, keptIndexed⟩ := (kept_stable network nonce apart).index
    ⟨⟨sound, blocks, tracks⟩, kept⟩ member admits
  exact ⟨soundIndexed, keptIndexed, tracks.indexSide sound member admits.unknown total,
    ledger.active, ledger.undos, indexSide_totalWork sound admits.unknown total,
    indexSide_requiredWork sound admits.unknown total, indexSide_reach chain block total,
    ledger.index⟩

section
variable (after : Indexed network nonce history chain blocks block total indexed)
include after

theorem Indexed.reach : indexed.reach = chain.reach := by
  rw [Chain.reach, after.binds, Chain.reach]

theorem Indexed.workOf : indexed.workOf block.header.blockId = total := by
  rw [Chain.workOf, after.index, lookup_insert_eq, if_pos rfl]
  rfl

theorem Indexed.known {id : Hash256} :
    (indexed.index.lookup id).isSome = true ↔
      id = block.header.blockId ∨ (chain.index.lookup id).isSome = true := by
  rw [after.index, lookup_insert_eq]
  by_cases here : id = block.header.blockId
  · simp [here]
  · simp [here]

/-- Once its last block is indexed, a branch off the chain is indexed as a whole. -/
theorem Indexed.wholeBranch {side : List Block}
    (known : ∀ body ∈ side, (chain.index.lookup body.header.blockId).isSome = true)
    (off : ∀ body ∈ side, body.header.blockId ∉ chain.active)
    (fresh : block.header.blockId ∉ chain.active) : ∀ body ∈ side ++ [block],
      (indexed.index.lookup body.header.blockId).isSome = true ∧
        body.header.blockId ∉ indexed.active := by
  intro body listed
  rw [after.known, after.active]
  rcases mem_append.mp listed with earlier | last
  · exact ⟨.inr (known body earlier), off body earlier⟩
  · rw [mem_singleton.mp last]
    exact ⟨.inl rfl, fresh⟩

end

/-- The submission that completes a branch heavier than the chain, but too long for the walk back,
is refused. -/
theorem Tracks.submit_unreached (tracks : Tracks network nonce history chain (below ++ old))
    (sound : Sound (headersOf history) chain) (kept : WellKept chain) (apart : HistoryApart history)
    (nonempty : below ≠ []) {side : List Block} (members : ∀ body ∈ side ++ [block], body ∈ history)
    (valid : ValidAt network now below (side ++ [block]))
    (known : ∀ body ∈ side, (chain.index.lookup body.header.blockId).isSome = true)
    (off : ∀ body ∈ side, body.header.blockId ∉ chain.active)
    (admits : chain.Admits block total now) (far : chain.reach < side.length)
    (heavier : chain.totalWork < total) :
    (chain.submit block now).2 = .error (.forkPointNotFound maxReorgDepth) := by
  have lineage := valid.lineage (tracks.lineage.below nonempty) members
  have outcome := admits.submit_eq
  have after := tracks.admit sound kept apart (members block (by simp)) admits
  rw [after.totalWork, if_neg (by omega)] at outcome
  rw [outcome]
  generalize chain.indexSide block total = indexed at after ⊢
  have whole := after.wholeBranch known off (sound.unknown_notActive admits.unknown)
  have walked := after.tracks.walk after.sound apart.headers nonempty lineage
    (fun body listed => (whole body listed).1) (fun body listed => (whole body listed).2)
    getLast?_concat (indexed.reach + 2)
  rw [if_neg (by rw [after.reach, length_append, length_singleton]; omega)] at walked
  rw [tryReorg_of_no_path walked]
  rfl

/-- The submission that completes a valid branch with enough work switches to it. -/
theorem Tracks.submit_wins (tracks : Tracks network nonce history chain (below ++ old))
    (sound : Sound (headersOf history) chain) (kept : WellKept chain) (apart : HistoryApart history)
    (bodiesApart : BodiesApart history) (nonempty : below ≠ []) {side : List Block}
    (members : ∀ body ∈ side ++ [block], body ∈ history)
    (valid : ValidAt network now below (side ++ [block]))
    (known : ∀ body ∈ side, (chain.index.lookup body.header.blockId).isSome = true)
    (off : ∀ body ∈ side, body.header.blockId ∉ chain.active)
    (admits : chain.Admits block total now) (near : side.length ≤ chain.reach)
    (final : ¬ (chain.finalityBinds = true ∧ maxReorgDepth < old.length))
    (heavier : chain.requiredWork (below.length - 1) old.length < total)
    (undoable : old.length ≤ chain.undos.length) (available : ∀ body ∈ side ++ [block] ++ old,
      ((chain.indexSide block total).bodyById body.header.blockId).isSome = true) :
    (chain.submit block now).2 = .ok (.reorganized old.length) ∧
      Tracks network nonce history (chain.submit block now).1 (below ++ (side ++ [block])) := by
  have lineage := valid.lineage (tracks.lineage.below nonempty) members
  have fresh := sound.unknown_notActive admits.unknown
  have first := totalWork_le_requiredWork chain (below.length - 1) old.length
  have outcome := admits.submit_eq
  have after := tracks.admit sound kept apart (members block (by simp)) admits
  rw [after.totalWork, if_neg (by omega)] at outcome
  rw [outcome, Prod.map_fst, Prod.map_snd, id]
  generalize chain.indexSide block total = indexed at after available ⊢
  have whole := after.wholeBranch known off fresh
  have switches := after.tracks.switches after.sound after.kept apart.headers bodiesApart nonempty
    lineage (fun body listed => (whole body listed).1) (fun body listed => (whole body listed).2)
    getLast?_concat
    (by rw [after.reach, length_append, length_singleton]; omega)
    (by rwa [after.binds]) (by rwa [after.requiredWork, after.workOf]) (by rwa [after.undos])
    available
  have positive := length_pos_iff.mpr nonempty
  have depth : indexed.height - (below.length - 1) = old.length := by
    have height := after.tracks.height_eq
    rw [length_append] at height
    omega
  have atFork : below.length = below.length - 1 + 1 := by omega
  rw [switches.tryReorg_eq, depth]
  rcases after.tracks.switchTo after.sound after.kept.window apart atFork rfl
      (by rwa [after.undos]) members now with
    ⟨verdict, switched, _⟩ | ⟨_, done, body, rest, cut, _, _, refuses, _⟩
  · rw [verdict]
    exact ⟨rfl, switched⟩
  · exact absurd (valid done body rest cut) refuses

end Winning

/-! ## Nodes that meet agree -/

section Agreement
variable [Crypto] [WorkHash] {network : Network} {nonce : UInt64} {history : Set Block}

theorem Lineage.parent_eq {below : List Block} {parent block : Block}
    (lineage : Lineage network nonce history (below ++ [parent] ++ [block])) :
    block.header.prevBlock = parent.header.blockId := by
  obtain ⟨clock, accepts⟩ := lineage.accepted _ block [] rfl (by simp)
  refine accepts.parent_eq ?_
  rw [ledgerOf_headers, map_append, map_singleton, getLast?_concat]

/-- The last block determines a lineage: its height says how long, its parent what is below. -/
theorem Lineage.eq_of_last {one other : List Block} {last last' : Block}
    (bodiesApart : BodiesApart history) (lineage : Lineage network nonce history (one ++ [last]))
    (lineage' : Lineage network nonce history (other ++ [last']))
    (tip : last.header.blockId = last'.header.blockId) : one ++ [last] = other ++ [last'] := by
  induction one using reverseRecOn generalizing other last last' with
  | nil => ?_
  | append_singleton one parent ih => ?_
  all_goals
    obtain rfl := bodiesApart ⟨lineage.members last (by simp), lineage.shapes last (by simp)⟩
      ⟨lineage'.members last' (by simp), lineage'.shapes last' (by simp)⟩ tip
    have height := lineage.heights getElem?_concat_length
    rw [lineage'.heights getElem?_concat_length] at height
  · rw [length_eq_zero_iff.mp height]
  · obtain rfl | ⟨other, parent', rfl⟩ := eq_nil_or_concat' other
    · simp at height
    · rw [ih (lineage.dropLast (by simp)) (lineage'.dropLast (by simp))
        (lineage.parent_eq.symm.trans lineage'.parent_eq)]

/-- Rewound to the tip of another node, a node is in that node's state, whatever blocks,
reorganizations and refusals either went through. -/
theorem rewound_node_agrees (network : Network) (nonce : UInt64) (apart : HistoryApart history)
    (bodiesApart : BodiesApart history) (genesisIn : genesisBlock nonce ∈ history)
    (calls others : List Call) (brings : ∀ call ∈ calls ++ others, call.From history)
    (fork : Nat) :
    let node := run calls (Chain.new network (genesisBlock nonce))
    let other := run others (Chain.new network (genesisBlock nonce))
    node.active[fork]? = some other.tipId → node.height - fork ≤ node.undos.length →
      (node.disconnectTo fork).active = other.active ∧
        (node.disconnectTo fork).utxo = other.utxo ∧
        (node.disconnectTo fork).issued = other.issued := by
  dsimp only
  obtain ⟨_, blocks, tracks⟩ := followed_run network nonce apart genesisIn fun call member =>
    brings call (mem_append_left _ member)
  obtain ⟨_, blocks', tracks'⟩ := followed_run network nonce apart genesisIn fun call member =>
    brings call (mem_append_right _ member)
  generalize run calls _ = node at tracks ⊢
  generalize run others _ = other at tracks' ⊢
  intro joins enough
  obtain ⟨below, last', rfl⟩ := (eq_nil_or_concat' blocks').resolve_left tracks'.nonempty
  have tip : other.tipId = last'.header.blockId := by
    rw [Chain.tipId, tracks'.active, map_append, map_singleton, getLast?_concat]
    rfl
  rw [tracks.active, getElem?_map, Option.map_eq_some_iff] at joins
  obtain ⟨last, here, named⟩ := joins
  obtain ⟨inside, same⟩ := List.getElem?_eq_some_iff.mp here
  have split : blocks = blocks.take fork ++ [last] ++ blocks.drop (fork + 1) := by
    rw [← same, append_assoc, singleton_append, cons_getElem_drop_succ, take_append_drop]
  have tall := tracks.height_eq
  rw [split] at tracks
  have agree := (tracks.lineage.below (by simp)).eq_of_last bodiesApart tracks'.lineage
    (named.trans tip)
  have rewound := (tracks.disconnectTo apart.transactions (by simp)
    (by rw [length_drop]; omega)).1
  rw [length_append, length_take_of_le inside.le, length_singleton, Nat.add_sub_cancel,
    agree] at rewound
  exact ⟨rewound.active.trans tracks'.active.symm, rewound.utxo.trans tracks'.utxo.symm,
    rewound.issued.trans tracks'.issued.symm⟩

end Agreement

/-- A node that took the first block, rewound to the genesis, and a fresh one. -/
theorem rewound_node_agrees_first_block :
    letI : Crypto := flatCrypto
    letI : WorkHash := zeroWork
    let node := run [.submit (firstBlock 0) (2 ^ 31)] (Chain.new .regtest (genesisBlock 0))
    node.height = 1 ∧ (node.disconnectTo 0).utxo = (Chain.new .regtest (genesisBlock 0)).utxo := by
  let _ := flatCrypto
  let _ := zeroWork
  have different : (genesisBlock 0).header.blockId ≠ (firstBlock 0).header.blockId := by
    decide +kernel
  have apart : Set.InjOn (fun block : Block => block.header.blockId) firstHistory :=
    Set.injOn_pair.mpr fun same => absurd same different
  refine ⟨by decide +kernel, (rewound_node_agrees .regtest 0 firstHistory_apart
    (apart.mono fun _ member => member.1) (.inl rfl) _ [] ?_ 0 ?_ ?_).2.1⟩
  · intro call member
    rw [mem_singleton.mp member]
    exact .inr rfl
  · decide +kernel
  · decide +kernel

end Q21Formal.Ledger

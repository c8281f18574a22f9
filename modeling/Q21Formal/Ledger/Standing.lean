import Q21Formal.Ledger.Mining

/-!
# Runs over a tree of mined blocks

A chain that stands on the trunk of a tree: which blocks of the tree it knows, what each submission
of another one comes to, and what the walk back from a branch finds.
-/

namespace Q21Formal.Ledger
open Library.Refusal Library.Maps Primitives List Prod

section Weighted
variable [Crypto] [WorkHash] {history : Set Block} {chain : Chain}

/-- On the regression network every block counts the same. -/
def Weighted (chain : Chain) : Prop :=
  ∀ id entry, chain.index.lookup id = some entry →
    entry.header.bits = initialBits ∧ entry.totalWork = (entry.header.height.toNat + 1) * 256

omit [Crypto] [WorkHash] in
theorem blockWork_initialBits : blockWork initialBits = 256 := by decide +kernel

omit [Crypto] [WorkHash] in
theorem addWork_next {height : Nat} {next : UInt64} (above : next.toNat = height + 1) :
    Chain.addWork ((height + 1) * 256) (blockWork initialBits) = (next.toNat + 1) * 256 := by
  have small := next.toNat_lt
  have room : 2 ^ 64 * 256 + 256 < u256Bound := by decide
  have below : (height + 1) * 256 ≤ 2 ^ 64 * 256 :=
    Nat.mul_le_mul_right _ (above ▸ small.le)
  have fits : (height + 1) * 256 + 256 < u256Bound :=
    (Nat.add_le_add_right below 256).trans_lt room
  rw [blockWork_initialBits, Chain.addWork, if_pos fits, above, Nat.succ_mul (height + 1)]

theorem LedgerState.Accepts.bits_regtest {ledger : LedgerState} {block : Block} {now : Nat}
    (accepts : ledger.Accepts .regtest block now) : block.header.bits = initialBits := by
  obtain ⟨fees, accepted⟩ := accepts.checked
  obtain ⟨_, _, checked⟩ := checkBlock_ok accepted
  have place := checked.place
  simp only [checkPlace, bind_eq_ok, require_eq_ok] at place
  obtain ⟨_, _, _, _, _, _, _, bits, _⟩ := place
  rw [bits, LedgerState.context, if_pos rfl]

omit [Crypto] [WorkHash] in
theorem Weighted.insert (weighted : Weighted chain) {index : FiniteMap Hash256 BlockIndex}
    {id : Hash256} {entry : BlockIndex} (inserted : index = chain.index.insert id entry)
    (bits : entry.header.bits = initialBits)
    (work : entry.totalWork = (entry.header.height.toNat + 1) * 256) :
    ∀ id entry, index.lookup id = some entry →
      entry.header.bits = initialBits ∧ entry.totalWork = (entry.header.height.toNat + 1) * 256 := by
  intro other found lookup
  rw [inserted, lookup_insert_eq] at lookup
  split at lookup
  · cases lookup
    exact ⟨bits, work⟩
  · exact weighted other found lookup

theorem weighted_stable (nonce : UInt64) (apart : HistoryApart history) :
    Stable history ReadBack fun chain => Kept .regtest nonce history chain ∧ Weighted chain := by
  have stable := kept_stable .regtest nonce apart
  refine ⟨⟨⟨?_, ?_, ?_⟩, ?_, ?_, ?_⟩, ?_, ?_⟩
  · rintro chain next block now fees ⟨kept, weighted⟩ member connected
    refine ⟨stable.connect kept member connected, ?_⟩
    obtain ⟨⟨sound, blocks, tracks⟩, _⟩ := kept
    obtain ⟨parent, issued, found, inserted⟩ := connect_index connected
    obtain ⟨context, _, _, passed⟩ := connect_ok connected
    obtain ⟨_, height, onTip⟩ := checkPlace_ok passed.checked.place
    have bits := (tracks.accepts sound apart.headers connected).bits_regtest
    rw [onTip, passed.onTip.2] at found
    obtain ⟨entry, lookup, placed⟩ := sound.placed _ _ (Chain.tipId_eq sound.nonempty)
    obtain rfl : entry = parent := Option.some.inj (lookup.symm.trans found)
    refine weighted.insert inserted bits ?_
    have work := (weighted _ entry lookup).2
    rw [placed.height] at work
    rw [work, bits]
    refine addWork_next ?_
    rw [height, passed.onTip.1, Chain.height]
  · rintro chain ⟨kept, weighted⟩
    refine ⟨stable.disconnect kept, ?_⟩
    intro id entry found
    rw [disconnect_index] at found
    exact weighted id entry found
  · rintro chain next ⟨kept, weighted⟩ same settings
    refine ⟨stable.idle kept same settings, ?_⟩
    intro id entry found
    rw [same.index] at found
    exact weighted id entry found
  · rintro chain ⟨kept, _⟩ id body found
    exact stable.bodies kept found
  · rintro chain block total now ⟨kept, weighted⟩ member admits
    refine ⟨stable.index kept member admits, ?_⟩
    obtain ⟨⟨sound, blocks, tracks⟩, _⟩ := kept
    obtain ⟨parent, found, height, rfl, passed⟩ := admits.attached
    have inserted := (indexSide_sameLedger chain block
      (Chain.addWork parent.totalWork (blockWork block.header.bits))).index
    have bits : block.header.bits = initialBits := by
      simp only [Chain.checkSide, Chain.checkContext, bind_eq_ok, require_eq_ok] at passed
      obtain ⟨_, ⟨_, _, _, bits, _⟩, _⟩ := passed
      rw [bits, Chain.nextBitsAfter, tracks.network, if_pos rfl]
    refine weighted.insert inserted bits ?_
    rw [(weighted _ parent found).2, bits]
    exact addWork_next height
  · rintro chain ids ⟨kept, weighted⟩
    refine ⟨stable.forget ids kept, ?_⟩
    intro id entry found
    rw [Chain.forgetSide, lookup_retain] at found
    split at found
    · exact weighted id entry found
    · cases found
  · rintro chain finalityHold returning bound ⟨kept, weighted⟩
    exact ⟨stable.notes _ _ _ kept, weighted⟩
  · rintro chain source ⟨kept, weighted⟩ members
    exact ⟨stable.source kept members, weighted⟩

end Weighted

namespace BlockTree

section Names
variable [Crypto] {tree : BlockTree} {branch height other place : Nat} {branches heights : Nat}
  {block : Block}

theorem height_eq (here : tree.Place branch height) :
    (tree.block branch height).header.height.toNat = height := by
  cases height with
  | zero => rfl
  | succ height =>
    have small : (2 : Nat) ^ 32 < UInt64.size := by decide
    exact UInt64.toNat_ofNat_of_lt' (here.heightFits.trans small)

theorem nonce_eq (here : tree.Place branch height) :
    (tree.block branch height).header.nonce.toNat = branch := by
  cases height with
  | zero =>
    have trunk : branch = 0 := here.own.resolve_right (Nat.not_lt_zero _)
    rw [trunk]
    rfl
  | succ height =>
    have small : (2 : Nat) ^ 32 < UInt64.size := by decide
    exact UInt64.toNat_ofNat_of_lt' (here.branchFits.trans small)

/-- Identifiers tell the places of a tree apart. -/
theorem place_inj (apart : HashesApart (headersOf tree.history)) (here : tree.Place branch height)
    (there : tree.Place other place)
    (same : (tree.block branch height).header.blockId = (tree.block other place).header.blockId) :
    branch = other ∧ height = place := by
  have headers := apart.injective ⟨_, ⟨branch, height, here, rfl⟩, rfl⟩
    ⟨_, ⟨other, place, there, rfl⟩, rfl⟩ same
  constructor
  · rw [← nonce_eq here, ← nonce_eq there, headers]
  · rw [← height_eq here, ← height_eq there, headers]

theorem bodiesApart (apart : HashesApart (headersOf tree.history)) : BodiesApart tree.history := by
  rintro _ ⟨⟨branch, height, here, rfl⟩, _⟩ _ ⟨⟨other, place, there, rfl⟩, _⟩ same
  obtain ⟨rfl, rfl⟩ := place_inj apart here there same
  rfl

theorem block_shape (tree : BlockTree) (branch height : Nat) :
    (tree.block branch height).checkShape = .ok () := by
  cases height with
  | zero => exact genesisBlock_shape 0
  | succ height => exact minedBlock_shape _ _ _ _ _

/-- An archive of the first branches of the tree, up to a height. -/
def archive (tree : BlockTree) (branches heights : Nat) (id : Hash256) : Option Block :=
  ((range branches).flatMap fun branch => (range heights).map fun height =>
    tree.block (tree.owner branch height) height).find? fun block => block.header.blockId == id

theorem archive_readBack (branchesFit : branches ≤ 2 ^ 32) (heightsFit : heights ≤ 2 ^ 32)
    {id : Hash256} {body : Block} (found : tree.archive branches heights id = some body) :
    body ∈ tree.history ∧ ReadBack id body := by
  have listed := mem_of_find?_eq_some found
  have named := find?_some found
  simp only [mem_flatMap, mem_map, mem_range] at listed
  obtain ⟨branch, few, height, low, rfl⟩ := listed
  exact ⟨⟨_, height, tree.place_owner (by omega) (by omega), rfl⟩, beq_iff_eq.mp named,
    tree.block_shape _ _⟩

theorem archive_eq (apart : HashesApart (headersOf tree.history)) (branchesFit : branches ≤ 2 ^ 32)
    (heightsFit : heights ≤ 2 ^ 32) (here : tree.Place branch height) (few : branch < branches)
    (low : height < heights) :
    tree.archive branches heights (tree.block branch height).header.blockId =
      some (tree.block branch height) := by
  cases found : tree.archive branches heights (tree.block branch height).header.blockId with
  | none =>
    have missing := find?_eq_none.mp found (tree.block branch height) (by
      simp only [mem_flatMap, mem_map, mem_range]
      exact ⟨branch, few, height, low, by rw [here.owner_eq]⟩)
    simp at missing
  | some body =>
    obtain ⟨⟨other, place, there, rfl⟩, named, _⟩ :=
      archive_readBack branchesFit heightsFit found
    obtain ⟨rfl, rfl⟩ := place_inj apart there here named
    rfl

/-- The blocks of a branch above its fork. -/
def above (tree : BlockTree) (branch height : Nat) : List Block :=
  (tree.path branch height).drop (tree.fork branch + 1)

theorem path_fork (tree : BlockTree) (branch : Nat) :
    tree.path branch (tree.fork branch) = tree.path 0 (tree.fork branch) := by
  apply map_congr_left
  intro place inside
  have low : place ≤ tree.fork branch := Nat.lt_succ_iff.mp (mem_range.mp inside)
  rw [owner, if_pos low, owner_zero]

theorem path_eq_append (leaves : tree.fork branch ≤ height) :
    tree.path branch height = tree.path 0 (tree.fork branch) ++ tree.above branch height := by
  rw [above, ← path_fork, ← tree.path_take branch leaves, take_append_drop]

theorem above_succ (leaves : tree.fork branch ≤ height) : tree.above branch (height + 1) =
      tree.above branch height ++ [tree.block branch (height + 1)] := by
  have inside : tree.fork branch + 1 ≤ (tree.path branch height).length := by
    rw [path_length]
    omega
  rw [above, path_succ, drop_append_of_le_length inside, owner, if_neg (by omega), above]

theorem above_fork (tree : BlockTree) (branch : Nat) :
    tree.above branch (tree.fork branch) = [] := by
  rw [above, drop_eq_nil_iff, path_length]

theorem above_length (tree : BlockTree) (branch height : Nat) :
    (tree.above branch height).length = height - tree.fork branch := by
  rw [above, length_drop, path_length]
  omega

theorem above_take (tree : BlockTree) (branch : Nat) {height count : Nat}
    (inside : tree.fork branch + count ≤ height) :
    (tree.above branch height).take count = tree.above branch (tree.fork branch + count) := by
  rw [above, take_drop, Nat.add_right_comm, tree.path_take branch inside, above]

theorem mem_above (leaves : tree.fork branch ≤ height) (listed : block ∈ tree.above branch height) :
    ∃ step, tree.fork branch < step ∧ step ≤ height ∧ block = tree.block branch step := by
  induction height, leaves using Nat.le_induction with
  | base =>
    rw [above_fork] at listed
    cases listed
  | succ height leaves ih =>
    rw [above_succ leaves, mem_append, mem_singleton] at listed
    rcases listed with below | rfl
    · obtain ⟨step, higher, lower, rfl⟩ := ih below
      exact ⟨step, higher, by omega, rfl⟩
    · exact ⟨height + 1, by omega, le_rfl, rfl⟩

theorem mem_trunk (fits : height < 2 ^ 32) (listed : block ∈ tree.path 0 height) :
    ∃ step, tree.Place 0 step ∧ step ≤ height ∧ block = tree.block 0 step := by
  obtain ⟨step, inside, rfl⟩ := mem_map.mp listed
  have small := mem_range.mp inside
  exact ⟨step, ⟨.inl rfl, by decide, by omega⟩, by omega, by rw [owner_zero]⟩

theorem mem_drop_trunk {cut step : Nat} (low : cut ≤ step) (inside : step ≤ height) :
    tree.block 0 step ∈ (tree.path 0 height).drop cut := by
  have here : ((tree.path 0 height).drop cut)[step - cut]? = some (tree.block 0 step) := by
    rw [getElem?_drop, Nat.add_sub_cancel' low, path, getElem?_map,
      getElem?_range (by omega), Option.map_some, owner_zero]
  exact mem_of_getElem? here

/-- A split of the blocks above the fork, by height. -/
theorem above_split {done rest : List Block}
    (split : tree.above branch height = done ++ block :: rest) :
    ∃ step, tree.fork branch ≤ step ∧ step + 1 ≤ height ∧ done = tree.above branch step ∧
      block = tree.block branch (step + 1) := by
  have length := congrArg List.length split
  rw [above_length, length_append, length_cons] at length
  have inside : tree.fork branch + (done.length + 1) ≤ height := by omega
  have upper := tree.above_take branch inside
  rw [split, ← Nat.add_assoc, above_succ (Nat.le_add_right _ _),
    ← singleton_append, ← append_assoc, take_append_of_le_length (by simp),
    take_of_length_le (by simp)] at upper
  obtain ⟨before, last⟩ := append_inj' upper rfl
  exact ⟨_, Nat.le_add_right _ _, inside, before, singleton_injective last⟩

end Names

end BlockTree

/-! ## Standing on the trunk -/

/-- On the regression network finality binds unless the node holds it back. -/
theorem binds_regtest {chain : Chain} (network : chain.network = .regtest)
    (hold : chain.finalityHold = none) : chain.finalityBinds = true := by
  have anchor : lastAnchorHeight .regtest = 0 := by decide
  rw [Chain.finalityBinds, network, anchor, if_neg (Nat.not_lt_zero _), hold]
  rfl

section Standing
variable [Crypto] [WorkHash]

/-- The chain stands on the trunk at `height` and knows these places of the tree. -/
structure Standing (tree : BlockTree) (chain : Chain) (height : Nat) (known : Set (Nat × Nat)) :
    Prop where
  kept : Kept .regtest 0 tree.history chain
  weighted : Weighted chain
  tracks : Tracks .regtest 0 tree.history chain (tree.path 0 height)
  knows : ∀ branch place, tree.Place branch place →
    ((chain.index.lookup (tree.block branch place).header.blockId).isSome = true ↔
      (branch, place) ∈ known)
  hold : chain.finalityHold = none

variable {tree : BlockTree} {chain : Chain} {height : Nat} {known : Set (Nat × Nat)}

namespace Standing

variable {place limit bound count now fork branches heights : Nat} {places : Set (Nat × Nat)}
  {tops : Nat → Nat}

omit [WorkHash] in
/-- The parent of a place of the tree. -/
theorem prevBlock_eq (tree : BlockTree) (branch place : Nat) :
    (tree.block branch (place + 1)).header.prevBlock =
      (tree.block (tree.owner branch place) place).header.blockId := rfl

theorem new (apart : HistoryApart tree.history) :
    Standing tree (Chain.new .regtest (genesisBlock 0)) 0 {(0, 0)} := by
  have root : tree.Place 0 0 := ⟨.inl rfl, by decide, by decide⟩
  have genesisIn : genesisBlock 0 ∈ tree.history := ⟨0, 0, root, rfl⟩
  have kept : Kept .regtest 0 tree.history (run [] (Chain.new .regtest (genesisBlock 0))) :=
    kept_run .regtest 0 apart genesisIn nofun nofun
  refine ⟨kept, ?_, ?_, ?_, rfl⟩
  · intro id entry found
    rw [Chain.new, lookup_insert_eq] at found
    split at found
    · cases found
      have bits : (genesisBlock 0).header.bits = initialBits := rfl
      have height : (genesisBlock 0).header.height = 0 := rfl
      rw [bits, height, blockWork_initialBits]
      exact ⟨rfl, rfl⟩
    · cases found
  · have tracks := Tracks.new .regtest 0 genesisIn
    rwa [show [genesisBlock 0] = tree.path 0 0 from rfl] at tracks
  · intro branch place here
    rw [Chain.new, lookup_insert_eq, Set.mem_singleton_iff, Prod.mk.injEq]
    split
    · rename_i same
      exact ⟨fun _ => BlockTree.place_inj apart.headers here root same, fun _ => rfl⟩
    · rename_i different
      refine ⟨fun found => (Bool.false_ne_true found).elim, ?_⟩
      rintro ⟨rfl, rfl⟩
      exact absurd rfl different

/-- The work a branch from `fork` has to exceed when the trunk is at `height`. -/
def threshold (height fork : Nat) : Nat :=
  if height - fork ≤ reorgPenaltyFromDepth then (height + 1) * 256
  else
    (fork + 1) * 256 + (height - fork) * 256 * (100 + min
      ((height - fork - reorgPenaltyFromDepth) * reorgPenaltyPctPerBlock) reorgPenaltyMaxPct) / 100

omit [Crypto] [WorkHash] in
theorem totalWork_le_threshold (inside : fork ≤ height) :
    (height + 1) * 256 ≤ threshold height fork := by
  have whole : (height + 1) * 256 = (fork + 1) * 256 + (height - fork) * 256 := by omega
  unfold threshold
  split
  · exact le_rfl
  · generalize min _ reorgPenaltyMaxPct = excess
    have more : (height - fork) * 256 ≤ (height - fork) * 256 * (100 + excess) / 100 := by
      rw [Nat.le_div_iff_mul_le (by decide)]
      exact Nat.mul_le_mul_left ((height - fork) * 256) (Nat.le_add_right 100 excess)
    rw [whole]
    exact Nat.add_le_add_left more _

section
variable (standing : Standing tree chain height known)
include standing

theorem sound : Sound (headersOf tree.history) chain := standing.kept.1.1

theorem height_eq : chain.height = height := by
  have length := standing.tracks.height_eq
  rw [BlockTree.path_length] at length
  omega

theorem binds : chain.finalityBinds = true :=
  binds_regtest standing.tracks.network standing.hold

theorem reach_eq : chain.reach = maxReorgDepth + 1 := by
  rw [Chain.reach, standing.binds, if_pos rfl]

theorem active_eq (inside : place ≤ height) :
    chain.active[place]? = some (tree.block 0 place).header.blockId := by
  rw [standing.tracks.active, BlockTree.path, getElem?_map, getElem?_map,
    getElem?_range (by omega), Option.map_some, Option.map_some, BlockTree.owner_zero]

theorem tip_eq : chain.tipId = (tree.block 0 height).header.blockId := by
  have last := Chain.tipId_eq standing.sound.nonempty
  rw [standing.height_eq, standing.active_eq le_rfl] at last
  exact (Option.some.inj last).symm

theorem totalWork_eq : chain.totalWork = (height + 1) * 256 := by
  obtain ⟨entry, found, placed⟩ :=
    standing.sound.placed _ _ (Chain.tipId_eq standing.sound.nonempty)
  have work := (standing.weighted _ entry found).2
  rw [placed.height, standing.height_eq] at work
  rw [Chain.totalWork, found, Option.map_some, Option.getD_some, work]

theorem not_tooEasy (parent : Hash256) :
    chain.tooEasyForSide parent (blockWork initialBits) = false := by
  have bits : ∀ steps current found, chain.forkBits steps current = some found →
      found = initialBits := by
    intro steps
    induction steps with
    | zero => exact fun _ _ found => nomatch found
    | succ steps ih =>
      intro current found walked
      rw [Chain.forkBits] at walked
      split at walked
      · cases walked
      · rename_i entry lookup
        split at walked
        · cases walked
          exact (standing.weighted current entry lookup).1
        · split at walked
          · cases walked
          · exact ih _ _ walked
  rw [Chain.tooEasyForSide]
  cases walked : chain.forkBits (bodyWindow + 2) parent with
  | none => rfl
  | some found =>
    rw [bits _ _ _ walked]
    decide +kernel

theorem reorgThreshold_eq (inside : fork ≤ height) (fits : height < 2 ^ 32) :
    chain.reorgThreshold fork (height - fork) = threshold height fork := by
  obtain ⟨entry, found, placed⟩ := standing.sound.placed fork _ (standing.active_eq inside)
  have common := (standing.weighted _ entry found).2
  rw [placed.height] at common
  unfold Chain.reorgThreshold threshold
  rw [standing.totalWork_eq, standing.active_eq inside]
  simp only [found, common, Option.map_some, Option.getD_some]
  split
  · rfl
  · have since : (height + 1) * 256 - (fork + 1) * 256 = (height - fork) * 256 := by omega
    generalize penalty : min ((height - fork - reorgPenaltyFromDepth) * reorgPenaltyPctPerBlock)
      reorgPenaltyMaxPct = excess
    have small : excess ≤ 25 := penalty ▸ Nat.min_le_right _ _
    have most : (height - fork) * 256 * (100 + excess) ≤ 2 ^ 32 * 256 * 125 :=
      Nat.mul_le_mul (Nat.mul_le_mul_right _ (by omega)) (by omega)
    have bound : 2 ^ 32 * 256 * 125 < u256Bound := by decide
    have quotient := Nat.div_le_self ((height - fork) * 256 * (100 + excess)) 100
    have room : (fork + 1) * 256 + (height - fork) * 256 * (100 + excess) / 100 < u256Bound := by
      have base : (fork + 1) * 256 ≤ 2 ^ 32 * 256 := Nat.mul_le_mul_right _ (by omega)
      have whole : 2 ^ 32 * 256 + 2 ^ 32 * 256 * 125 < u256Bound := by decide
      exact (Nat.add_le_add base (quotient.trans most)).trans_lt whole
    have scaled : mulDiv ((height - fork) * 256) (100 + excess) 100 =
        some ((height - fork) * 256 * (100 + excess) / 100) := by
      rw [mulDiv, if_neg (by decide), if_pos (most.trans_lt bound)]
    rw [since, scaled, Option.getD_some, if_pos room]

section
variable (apart : HashesApart (headersOf tree.history))
include apart

section
variable {branch : Nat} (here : tree.Place branch place)
include here

theorem entry (indexed : (branch, place) ∈ known) :
    ∃ entry, chain.index.lookup (tree.block branch place).header.blockId = some entry ∧
      entry.header = (tree.block branch place).header ∧ entry.totalWork = (place + 1) * 256 := by
  obtain ⟨entry, found⟩ := Option.isSome_iff_exists.mp ((standing.knows branch place here).mpr indexed)
  obtain ⟨inside, named⟩ := standing.sound.indexed _ entry found
  have header := apart.injective inside ⟨_, ⟨branch, place, here, rfl⟩, rfl⟩ named
  refine ⟨entry, found, header, ?_⟩
  rw [(standing.weighted _ entry found).2, header, BlockTree.height_eq here]

theorem isActive_eq {entry : BlockIndex} (header : entry.header = (tree.block branch place).header) :
    chain.isActive (tree.block branch place).header.blockId entry =
      decide (branch = 0 ∧ place ≤ height) := by
  have fits := here.heightFits
  rw [Chain.isActive, header, BlockTree.height_eq here]
  by_cases inside : place ≤ height
  · rw [standing.active_eq inside, Bool.eq_iff_iff, beq_iff_eq, decide_eq_true_iff,
      Option.some.injEq]
    refine ⟨fun same => ?_, fun trunk => by rw [trunk.1]⟩
    have trunk : tree.Place 0 place := ⟨.inl rfl, by decide, fits⟩
    exact ⟨(BlockTree.place_inj apart trunk here same).1.symm, inside⟩
  · have outside : chain.active[place]? = none := by
      rw [List.getElem?_eq_none_iff, standing.tracks.length_eq, BlockTree.path_length]
      omega
    rw [outside, decide_eq_false fun trunk => inside trunk.2]
    rfl

omit here in
/-- No active block is ahead of a clock that the trunk is not ahead of. -/
theorem active_times (rising : tree.Rising limit) (inside : height ≤ limit)
    (present : ∀ place ≤ height, tree.time 0 place ≤ bound) :
    ∀ id ∈ chain.active, ∀ entry, chain.index.lookup id = some entry →
      entry.header.time.toNat ≤ bound := by
  have limited := rising.short
  intro id listed entry found
  rw [standing.tracks.active] at listed
  obtain ⟨_, onPath, rfl⟩ := mem_map.mp listed
  obtain ⟨place, low, rfl⟩ := mem_map.mp onPath
  have lower := mem_range.mp low
  rw [BlockTree.owner_zero] at found
  have here : tree.Place 0 place := ⟨.inl rfl, by decide, by omega⟩
  obtain ⟨member, named⟩ := standing.sound.indexed _ entry found
  have header := apart.injective member ⟨_, ⟨0, place, here, rfl⟩, rfl⟩ named
  rw [header, rising.time_eq here]
  exact present place (by omega)

omit here in
theorem walk {branch : Nat} (side : branch ≠ 0) (branchFits : branch < 2 ^ 32)
    (placeFits : place < 2 ^ 32) (onTrunk : tree.fork branch ≤ height)
    (leaves : tree.fork branch ≤ place)
    (indexed : ∀ step, step ≤ place → (tree.owner branch step, step) ∈ known) (steps : Nat)
    (found : List Hash256) :
    chain.pathToActive steps (tree.block (tree.owner branch place) place).header.blockId found =
      if place - tree.fork branch < steps then
        some (tree.fork branch,
          ((tree.above branch place).map fun block => block.header.blockId) ++ found)
      else none := by
  induction steps generalizing place found with
  | zero => rfl
  | succ steps ih =>
    have here := tree.place_owner branchFits placeFits
    obtain ⟨entry, lookup, header, _⟩ := standing.entry apart here (indexed place le_rfl)
    rw [Chain.pathToActive, lookup]
    dsimp only
    rw [standing.isActive_eq apart here header, header]
    rcases Nat.eq_or_lt_of_le leaves with rfl | higher
    · have trunk : tree.owner branch (tree.fork branch) = 0 := by rw [BlockTree.owner, if_pos le_rfl]
      have active : decide (tree.owner branch (tree.fork branch) = 0 ∧
          tree.fork branch ≤ height) = true := decide_eq_true ⟨trunk, onTrunk⟩
      rw [active, if_pos rfl, BlockTree.height_eq here, if_pos (by omega), BlockTree.above_fork]
      rfl
    · obtain ⟨below, rfl⟩ : ∃ below, place = below + 1 := ⟨place - 1, by omega⟩
      have own : tree.owner branch (below + 1) = branch := by
        rw [BlockTree.owner, if_neg (by omega)]
      have inactive : ¬ decide (tree.owner branch (below + 1) = 0 ∧ below + 1 ≤ height) = true := by
        rw [own]
        simp [side]
      have high : ¬ (tree.block (tree.owner branch (below + 1)) (below + 1)).header.height = 0 := by
        intro zero
        have numeral := BlockTree.height_eq here
        rw [zero] at numeral
        cases numeral
      rw [if_neg inactive, if_neg high, prevBlock_eq, BlockTree.owner_owner_succ,
        ih (by omega) (by omega) (fun step lower => indexed step (by omega)),
        BlockTree.above_succ (by omega), map_append, map_singleton, append_assoc,
        own]
      by_cases enough : below - tree.fork branch < steps
      · rw [if_pos enough, if_pos (by omega)]
        rfl
      · rw [if_neg enough, if_neg (by omega)]

omit here in
theorem headersBack_times (rising : tree.Rising limit) {branch : Nat} (branchFits : branch < 2 ^ 32)
    (count : Nat) (inside : place ≤ limit) {found : List BlockHeader}
    (earlier : ∀ header ∈ found, header.time.toNat < bound)
    (below : tree.time (tree.owner branch place) place < bound) :
    ∀ header ∈ Chain.headersBack chain.index count
      (tree.block (tree.owner branch place) place).header.blockId found,
      header.time.toNat < bound := by
  have limited := rising.short
  induction count generalizing place found with
  | zero => exact earlier
  | succ count ih =>
    have here := tree.place_owner branchFits (show place < 2 ^ 32 by omega)
    rw [Chain.headersBack]
    split
    · exact earlier
    · rename_i entry lookup
      obtain ⟨member, named⟩ := standing.sound.indexed _ entry lookup
      have header := apart.injective member ⟨_, ⟨_, place, here, rfl⟩, rfl⟩ named
      have more : ∀ other ∈ entry.header :: found, other.time.toNat < bound := by
        intro other listed
        rcases mem_cons.mp listed with rfl | before
        · rwa [header, rising.time_eq here]
        · exact earlier other before
      split
      · exact more
      · rename_i high
        cases place with
        | zero =>
          rw [header] at high
          exact absurd rfl high
        | succ place =>
          have rises := rising.rises _ place (by omega) here
          rw [BlockTree.owner_owner_succ] at rises
          rw [show entry.header.prevBlock =
            (tree.block (tree.owner branch place) place).header.blockId by
              rw [header, prevBlock_eq, BlockTree.owner_owner_succ]]
          exact ih (by omega) more (rises.trans below)

omit here in
/-- A block of a branch whose parent is known passes the checks of a side block. -/
theorem admits (rising : tree.Rising limit) (easy : EasyWork) {branch : Nat}
    (here : tree.Place branch (place + 1)) (fresh : (branch, place + 1) ∉ known)
    (parent : (tree.owner branch place, place) ∈ known) (inside : place < limit)
    (near : height ≤ place + maxReorgDepth)
    (offTip : ¬ (tree.owner branch place = 0 ∧ place = height))
    (present : tree.time branch (place + 1) ≤ now + maxFutureTime) :
    chain.Admits (tree.block branch (place + 1)) ((place + 2) * 256) now := by
  have below := tree.place_owner here.branchFits (Nat.lt_of_succ_lt here.heightFits)
  have trunk : tree.Place 0 height := by
    have early : limit + maxReorgDepth < 2 ^ 32 := by
      have epoch : decayEpochBlocks + maxReorgDepth < 2 ^ 32 := by decide
      have limited := rising.early
      omega
    exact ⟨.inl rfl, by decide, by omega⟩
  obtain ⟨entry, lookup, header, work⟩ := standing.entry apart below parent
  have entryHeight : entry.header.height.toNat = place := by rw [header, BlockTree.height_eq below]
  have number := BlockTree.height_eq here
  have rises := rising.rises branch place inside here
  have moment : (tree.block branch (place + 1)).header.time.toNat = tree.time branch (place + 1) :=
    rising.time_eq here
  have regtest := standing.tracks.network
  have unknown : chain.index.lookup (tree.block branch (place + 1)).header.blockId = none := by
    rwa [← Option.not_isSome_iff_eq_none, standing.knows _ _ here]
  refine ⟨unknown, ?_, entry, lookup, ?_, ?_, ?_⟩
  · rw [prevBlock_eq, standing.tip_eq]
    intro same
    exact offTip (BlockTree.place_inj apart below trunk same)
  · rw [number, entryHeight]
  · have next := addWork_next number
    rw [number] at next
    rw [work]
    exact next.symm
  · simp only [Chain.checkSide, Chain.checkContext, bind_eq_ok, require_eq_ok, mapError_eq_ok]
    refine ⟨(), ⟨(), ?_, (), ?_, (), .inr ?_, (), ?_, (), ?_, ?_⟩, (), ?_, (),
      tree.block_shape _ _, (), minedBlock_length _ _ _ _ _, checkWork_easy easy _ rfl⟩
    · rw [standing.height_eq, entryHeight]
      omega
    · rw [Chain.nextBitsAfter, regtest, if_pos rfl]
      rfl
    · rw [moment]
      apply medianTime_lt (Nat.zero_lt_of_lt rises)
      intro time listed
      obtain ⟨other, walked, rfl⟩ := mem_map.mp listed
      exact standing.headersBack_times apart rising here.branchFits _ inside.le
        (fun _ member => (not_mem_nil member).elim) rises other walked
    · have inactive : ¬ strictTimeActivation .regtest ≤ place + 1 := by
        have far : decayEpochBlocks < strictTimeActivation .regtest := by decide
        have limited := rising.early
        omega
      rw [regtest, number]
      unfold checkAfterParent
      split
      · rfl
      · rw [require_eq_ok]
        exact fun active => inactive active.1
    · rw [regtest]
      rfl
    · rwa [moment]
    · rintro ⟨_, easier⟩
      rw [show blockWork (tree.block branch (place + 1)).header.bits = blockWork initialBits from rfl,
        standing.not_tooEasy] at easier
      cases easier

theorem workOf_eq (indexed : (branch, place) ∈ known) :
    chain.workOf (tree.block branch place).header.blockId = (place + 1) * 256 := by
  obtain ⟨entry, found, _, work⟩ := standing.entry apart here indexed
  rw [Chain.workOf, found, Option.map_some, Option.getD_some, work]

/-- One more known place. -/
theorem knows_insert {index : FiniteMap Hash256 BlockIndex} {entry : BlockIndex}
    (inserted : index = chain.index.insert (tree.block branch place).header.blockId entry) :
    ∀ other step, tree.Place other step →
      ((index.lookup (tree.block other step).header.blockId).isSome = true ↔
        (other, step) ∈ insert (branch, place) known) := by
  intro other step there
  rw [inserted, lookup_insert_eq, Set.mem_insert_iff, Prod.mk.injEq]
  split
  · rename_i same
    exact ⟨fun _ => .inl (BlockTree.place_inj apart there here same), fun _ => rfl⟩
  · rename_i different
    rw [standing.knows other step there]
    refine ⟨.inr, fun found => found.resolve_left ?_⟩
    rintro ⟨rfl, rfl⟩
    exact different rfl

end

end

section
variable (apart : HistoryApart tree.history)
include apart

theorem setSource {source : Hash256 → Option Block}
    (genuine : ∀ id body, source id = some body → body ∈ tree.history ∧ ReadBack id body) :
    Standing tree { chain with source } height known := by
  obtain ⟨kept, weighted⟩ :=
    (weighted_stable 0 apart).source ⟨standing.kept, standing.weighted⟩ genuine
  have tracks := standing.tracks
  exact ⟨kept, weighted, ⟨tracks.lineage, tracks.network, tracks.active, tracks.utxo,
    tracks.issued, tracks.undos, tracks.indexed, tracks.bodies,
    fun id body found => (genuine id body found).1⟩, standing.knows, standing.hold⟩

/-- The next block of the trunk extends the chain. -/
theorem extend (rising : tree.Rising limit) (easy : EasyWork) (inside : height < limit)
    (marked : tree.Marked 0 (height + 1)) (fresh : (0, height + 1) ∉ known)
    (present : tree.time 0 (height + 1) ≤ now + maxFutureTime) :
    ∃ next, chain.submit (tree.block 0 (height + 1)) now = (next, .ok .extended) ∧
      Standing tree next (height + 1) (insert (0, height + 1) known) ∧
      next.undos.length = min (chain.undos.length + 1) bodyWindow := by
  have limited := rising.short
  have here : tree.Place 0 (height + 1) := ⟨.inl rfl, by decide, by omega⟩
  have accepts := rising.accepts easy (by decide) inside marked
    (show tree.time (tree.owner 0 (height + 1)) (height + 1) ≤ now + maxFutureTime by
      rw [BlockTree.owner_zero]
      exact present)
  rw [BlockTree.owner_zero] at accepts
  obtain ⟨next, fees, connected⟩ :=
    standing.tracks.connect_of_accepts standing.sound apart.headers accepts
  have tip := standing.tip_eq
  have parent : (tree.block 0 (height + 1)).header.prevBlock = chain.tipId := by
    rw [prevBlock_eq, BlockTree.owner_zero, tip]
  obtain ⟨entry, found, placed⟩ :=
    standing.sound.placed _ _ (Chain.tipId_eq standing.sound.nonempty)
  have unknown : chain.index.lookup (tree.block 0 (height + 1)).header.blockId = none := by
    rwa [← Option.not_isSome_iff_eq_none, standing.knows _ _ here]
  have attached : (tree.block 0 (height + 1)).header.height.toNat =
      entry.header.height.toNat + 1 := by
    rw [BlockTree.height_eq here, placed.height, standing.height_eq]
  have member : tree.block 0 (height + 1) ∈ tree.history := ⟨0, height + 1, here, rfl⟩
  obtain ⟨kept, weighted⟩ := (weighted_stable 0 apart).connect
    ⟨standing.kept, standing.weighted⟩ member connected
  obtain ⟨_, _, _, inserted⟩ := connect_index connected
  refine ⟨next, submit_of_connect unknown (parent ▸ found) attached parent connected,
    ⟨kept, weighted, ?_, standing.knows_insert apart.headers here inserted, ?_⟩,
    connect_undos_length connected⟩
  · have tracks := standing.tracks.connect standing.sound apart.headers member connected
    rwa [BlockTree.path_succ, BlockTree.owner_zero]
  · rw [(connect_sameSettings connected).finalityHold, standing.hold]

/-- A side block indexed. -/
theorem indexSide {branch total : Nat} (here : tree.Place branch place)
    (admits : chain.Admits (tree.block branch place) total now) :
    Standing tree (chain.indexSide (tree.block branch place) total) height
        (insert (branch, place) known) ∧
      (chain.indexSide (tree.block branch place) total).undos = chain.undos ∧
      (chain.indexSide (tree.block branch place) total).source = chain.source := by
  have member : tree.block branch place ∈ tree.history := ⟨branch, place, here, rfl⟩
  obtain ⟨kept, weighted⟩ := (weighted_stable 0 apart).index
    ⟨standing.kept, standing.weighted⟩ member admits
  have ledger := indexSide_sameLedger chain (tree.block branch place) total
  have settings := indexSide_sameSettings chain (tree.block branch place) total
  refine ⟨⟨kept, weighted, ?_, standing.knows_insert apart.headers here ledger.index, ?_⟩,
    ledger.undos, ledger.source⟩
  · exact standing.tracks.indexSide standing.sound member admits.unknown total
  · rw [settings.finalityHold, standing.hold]

/-- Every block is read back from the archive, if not from memory. -/
theorem bodyById_eq {branch : Nat} (here : tree.Place branch place) (archived : chain.source
      (tree.block branch place).header.blockId = some (tree.block branch place)) :
    chain.bodyById (tree.block branch place).header.blockId = some (tree.block branch place) := by
  cases held : chain.blocks.lookup (tree.block branch place).header.blockId with
  | none => rw [Chain.bodyById, held, Option.none_or, archived]
  | some body =>
    have genuine := standing.kept.2.bodies _ body held
    have member := standing.tracks.bodies _ body held
    have same := BlockTree.bodiesApart apart.headers ⟨member, genuine.2⟩
      ⟨⟨branch, place, here, rfl⟩, tree.block_shape branch place⟩ genuine.1
    rw [Chain.bodyById, held, same, Option.some_or]

/-- A submission after which the chain follows the trunk again. -/
theorem after_submit {branch other : Nat} (here : tree.Place branch place) (tracks : Tracks .regtest
      0 tree.history (chain.submit (tree.block branch place) now).1 (tree.path 0 other)) (knows : ∀
      branch' place', tree.Place branch' place' → (((chain.submit (tree.block branch place)
      now).1.index.lookup (tree.block branch' place').header.blockId).isSome = true ↔ (branch',
      place') ∈ places)) :
    Standing tree (chain.submit (tree.block branch place) now).1 other places := by
  have frame := (submit_frame chain (tree.block branch place) now).1
  obtain ⟨kept, weighted⟩ := (weighted_stable 0 apart).submit ⟨standing.kept, standing.weighted⟩
    ⟨branch, place, here, rfl⟩ now
  exact ⟨kept, weighted, tracks, knows, frame.finalityHold.trans standing.hold⟩

end

end

/-- Where a branch ends that leaves the trunk. -/
structure OnBranch (tree : BlockTree) (height branch place : Nat) (known : Set (Nat × Nat)) : Prop where
  side : branch ≠ 0
  onTrunk : tree.fork branch ≤ height
  leaves : tree.fork branch ≤ place
  here : tree.Place branch (place + 1)
  indexed : ∀ step, step ≤ place → (tree.owner branch step, step) ∈ known

omit [WorkHash] in
theorem OnBranch.mem_above {branch : Nat} (onBranch : OnBranch tree height branch place known)
    {block : Block} (listed : block ∈ tree.above branch (place + 1)) :
    ∃ step, tree.Place branch step ∧ step ≤ place + 1 ∧ block = tree.block branch step := by
  obtain ⟨step, higher, lower, rfl⟩ :=
    BlockTree.mem_above (Nat.le_succ_of_le onBranch.leaves) listed
  have small := onBranch.here.heightFits
  exact ⟨step, ⟨.inr higher, onBranch.here.branchFits, by omega⟩, lower, rfl⟩

theorem OnBranch.walk {branch : Nat}
    (standing : Standing tree chain height (insert (branch, place + 1) known))
    (apart : HashesApart (headersOf tree.history))
    (onBranch : OnBranch tree height branch place known) :
    chain.pathToActive (chain.reach + 2) (tree.block branch (place + 1)).header.blockId [] =
      if place + 1 - tree.fork branch < maxReorgDepth + 3 then
        some (tree.fork branch,
          (tree.above branch (place + 1)).map fun block => block.header.blockId)
      else none := by
  have leaves := onBranch.leaves
  have own := onBranch.here.owner_eq
  have walked := standing.walk apart onBranch.side onBranch.here.branchFits
    onBranch.here.heightFits onBranch.onTrunk (Nat.le_succ_of_le leaves) ?_ (chain.reach + 2) []
  · rw [own, append_nil] at walked
    rw [standing.reach_eq] at walked ⊢
    exact walked
  · intro step low
    rcases Nat.eq_or_lt_of_le low with rfl | lower
    · rw [own]
      exact Set.mem_insert _ _
    · exact Set.mem_insert_of_mem _ (onBranch.indexed step (Nat.lt_succ_iff.mp lower))

/-- Blocks already known leave the known blocks the same. -/
theorem switchTo_knows {depth : Nat} {branch old : List Block}
    (new : ∀ block ∈ branch, (chain.index.lookup block.header.blockId).isSome = true)
    (before : ∀ block ∈ old, (chain.index.lookup block.header.blockId).isSome = true) (id : Hash256) :
    ((chain.switchTo fork depth now branch old).1.index.lookup id).isSome =
      (chain.index.lookup id).isSome := by
  have switching : Switching {block | (chain.index.lookup block.header.blockId).isSome = true}
      fun next => ∀ id, (next.index.lookup id).isSome = (chain.index.lookup id).isSome := by
    refine ⟨?_, ?_, ?_⟩
    · intro current next block now fees held member connected id
      obtain ⟨_, _, _, inserted⟩ := connect_index connected
      rw [inserted, lookup_insert_eq]
      split
      · rename_i same
        rw [same]
        exact member.symm
      · exact held id
    · intro current held id
      rw [disconnect_index]
      exact held id
    · intro current next held same _ id
      rw [same.index]
      exact held id
  exact switching.switchTo (fun _ => rfl) new before id

/-- The branch is switched to, or the switch is given up at the first of its blocks that is refused.
-/
def Switched (tree : BlockTree) (chain : Chain) (height branch place now : Nat)
    (known : Set (Nat × Nat)) : Prop :=
  (∀ other step, tree.Place other step →
      (((chain.submit (tree.block branch (place + 1)) now).1.index.lookup
          (tree.block other step).header.blockId).isSome = true ↔
        (other, step) ∈ insert (branch, place + 1) known)) ∧
    (((chain.submit (tree.block branch (place + 1)) now).2 =
          .ok (.reorganized (height - tree.fork branch)) ∧
        Tracks .regtest 0 tree.history (chain.submit (tree.block branch (place + 1)) now).1
          (tree.path branch (place + 1))) ∨
      ∃ problem step, tree.fork branch ≤ step ∧ step ≤ place ∧
        (chain.submit (tree.block branch (place + 1)) now).2 = .error problem ∧
        ¬ (ledgerOf (tree.path branch step)).Accepts .regtest (tree.block branch (step + 1)) now ∧
        GivenUp .regtest 0 tree.history now chain.undos.length (tree.path 0 (tree.fork branch))
          ((tree.path 0 height).drop (tree.fork branch + 1)) (tree.above branch step)
          (chain.submit (tree.block branch (place + 1)) now).1)

section
variable (standing : Standing tree chain height known) (apart : HistoryApart tree.history)
  {branch : Nat} (onBranch : OnBranch tree height branch place known)
include standing apart onBranch

section
variable (fits : height < 2 ^ 32)
  (admits : chain.Admits (tree.block branch (place + 1)) ((place + 2) * 256) now)
include fits admits

/-- A block that leaves its branch too light, or too long for the walk back, switches nothing. -/
theorem quiet (weak : (place + 2) * 256 ≤ threshold height (tree.fork branch) ∨ maxReorgDepth + 3 ≤
      place + 1 - tree.fork branch) :
    Standing tree (chain.submit (tree.block branch (place + 1)) now).1 height
        (insert (branch, place + 1) known) ∧
      (chain.submit (tree.block branch (place + 1)) now).1.undos = chain.undos ∧
      (chain.submit (tree.block branch (place + 1)) now).1.source = chain.source := by
  obtain ⟨indexed, undos, source⟩ := standing.indexSide apart onBranch.here admits
  have unmoved : (chain.submit (tree.block branch (place + 1)) now).1 =
      chain.indexSide (tree.block branch (place + 1)) ((place + 2) * 256) := by
    have walked := OnBranch.walk indexed apart.headers onBranch
    have work := indexed.workOf_eq apart.headers onBranch.here (Set.mem_insert _ _)
    have height' := indexed.height_eq
    have binds := indexed.binds
    have required := indexed.reorgThreshold_eq onBranch.onTrunk fits
    rw [admits.submit_eq]
    generalize chain.indexSide (tree.block branch (place + 1)) ((place + 2) * 256) = side at *
    split
    · rfl
    · rw [map_fst, id]
      by_cases reached : place + 1 - tree.fork branch < maxReorgDepth + 3
      · rw [if_pos reached] at walked
        rw [tryReorg_of_path walked, Chain.requiredWork, binds, if_pos rfl, height', required, work]
        split
        · rfl
        · rw [if_pos (weak.resolve_right (by omega))]
      · rw [if_neg reached] at walked
        rw [tryReorg_of_no_path walked]
  rw [unmoved]
  exact ⟨indexed, undos, source⟩

omit fits admits in
/-- A block that makes its branch heavy, but too long for the walk back, is refused. -/
theorem unreached (admits : chain.Admits (tree.block branch (place + 1)) ((place + 2) * 256) now)
    (heavier : height + 1 < place + 2) (long : maxReorgDepth + 3 ≤ place + 1 - tree.fork branch) :
    (chain.submit (tree.block branch (place + 1)) now).2 =
      .error (.forkPointNotFound maxReorgDepth) := by
  obtain ⟨indexed, _⟩ := standing.indexSide apart onBranch.here admits
  have walked := OnBranch.walk indexed apart.headers onBranch
  rw [if_neg (by omega)] at walked
  have heavy : ¬ (place + 2) * 256 ≤
      (chain.indexSide (tree.block branch (place + 1)) ((place + 2) * 256)).totalWork := by
    rw [indexed.totalWork_eq]
    omega
  rw [admits.submit_eq, if_neg heavy, tryReorg_of_no_path walked]
  rfl

/-- A branch that is heavy enough is switched to, up to the first of its blocks that is refused. -/
theorem switch (reached : place + 1 - tree.fork branch < maxReorgDepth + 3)
    (final : height - tree.fork branch ≤ maxReorgDepth)
    (heavy : threshold height (tree.fork branch) < (place + 2) * 256)
    (undoable : height - tree.fork branch ≤ chain.undos.length) (archived : ∀ other step, tree.Place
      other step → (other = 0 ∧ step ≤ height) ∨ (other = branch ∧ step ≤ place + 1) → chain.source
      (tree.block other step).header.blockId = some (tree.block other step)) :
    Switched tree chain height branch place now known := by
  obtain ⟨indexed, undos, source⟩ := standing.indexSide apart onBranch.here admits
  have heavier : ¬ (place + 2) * 256 ≤
      (chain.indexSide (tree.block branch (place + 1)) ((place + 2) * 256)).totalWork := by
    rw [indexed.totalWork_eq]
    exact Nat.not_le.mpr ((totalWork_le_threshold onBranch.onTrunk).trans_lt heavy)
  have outcome := admits.submit_eq
  rw [if_neg heavier] at outcome
  unfold Switched
  rw [← undos] at undoable ⊢
  rw [← source] at archived
  rw [outcome, map_fst, map_snd, id]
  generalize chain.indexSide (tree.block branch (place + 1)) ((place + 2) * 256) = side at *
  have onTrunk := onBranch.onTrunk
  have walked := OnBranch.walk indexed apart.headers onBranch
  rw [if_pos reached] at walked
  have leaves : tree.fork branch ≤ place + 1 := Nat.le_succ_of_le onBranch.leaves
  have newBodies : Chain.bodiesOf side.bodyById
      ((tree.above branch (place + 1)).map fun block => block.header.blockId) =
      .ok (tree.above branch (place + 1)) := by
    apply bodiesOf_ok
    intro block listed
    obtain ⟨step, there, lower, rfl⟩ := onBranch.mem_above listed
    exact indexed.bodyById_eq apart there (archived branch step there (.inr ⟨rfl, lower⟩))
  have oldBodies : Chain.bodiesOf side.bodyById (side.active.drop (tree.fork branch + 1)) =
      .ok ((tree.path 0 height).drop (tree.fork branch + 1)) := by
    rw [indexed.tracks.active, ← map_drop]
    apply bodiesOf_ok
    intro block listed
    obtain ⟨step, there, lower, rfl⟩ := BlockTree.mem_trunk fits (mem_of_mem_drop listed)
    exact indexed.bodyById_eq apart there (archived 0 step there (.inl ⟨rfl, lower⟩))
  have height' := indexed.height_eq
  have switches : side.Switches (tree.block branch (place + 1)).header.blockId (tree.fork branch)
      ((tree.above branch (place + 1)).map fun block => block.header.blockId)
      (tree.above branch (place + 1)) ((tree.path 0 height).drop (tree.fork branch + 1)) := by
    refine ⟨walked, ?_, ?_, ?_, newBodies, oldBodies⟩
    · omega
    · rw [Chain.requiredWork, indexed.binds, if_pos rfl, height',
        indexed.reorgThreshold_eq onTrunk fits,
        indexed.workOf_eq apart.headers onBranch.here (Set.mem_insert _ _)]
      exact heavy
    · rwa [height']
  rw [switches.tryReorg_eq, height']
  have split : tree.path 0 height = tree.path 0 (tree.fork branch) ++
      (tree.path 0 height).drop (tree.fork branch + 1) := by
    rw [← tree.path_take 0 onTrunk, take_append_drop]
  have depth : ((tree.path 0 height).drop (tree.fork branch + 1)).length =
      height - tree.fork branch := by
    rw [length_drop, BlockTree.path_length]
    omega
  have members : ∀ block ∈ tree.above branch (place + 1), block ∈ tree.history := by
    intro block listed
    obtain ⟨step, there, _, rfl⟩ := onBranch.mem_above listed
    exact ⟨branch, step, there, rfl⟩
  have tracks := indexed.tracks
  rw [split] at tracks
  constructor
  · intro other step there
    rw [switchTo_knows, indexed.knows other step there]
    · intro block listed
      obtain ⟨step, there, lower, rfl⟩ := onBranch.mem_above listed
      rw [indexed.knows branch step there]
      rcases Nat.eq_or_lt_of_le lower with rfl | below
      · exact Set.mem_insert _ _
      · have known := onBranch.indexed step (Nat.lt_succ_iff.mp below)
        rw [there.owner_eq] at known
        exact Set.mem_insert_of_mem _ known
    · intro block listed
      obtain ⟨step, there, lower, rfl⟩ := BlockTree.mem_trunk fits (mem_of_mem_drop listed)
      obtain ⟨entry, found, _⟩ := indexed.sound.placed step _ (indexed.active_eq lower)
      rw [found]
      rfl
  · rcases tracks.switchTo indexed.sound indexed.kept.2.window apart (tree.path_length 0 _) depth
        undoable members now with ⟨verdict, after, _⟩ |
        ⟨problem, done, block, rest, cut, verdict, _, refused, given⟩
    · refine .inl ⟨?_, ?_⟩
      · rw [verdict]
        rfl
      · rwa [BlockTree.path_eq_append leaves]
    · obtain ⟨step, higher, lower, rfl, rfl⟩ := BlockTree.above_split cut
      rw [← BlockTree.path_eq_append higher] at refused
      refine .inr ⟨problem, step, higher, Nat.succ_le_succ_iff.mp lower, ?_, refused, given⟩
      rw [verdict]
      rfl

end

end

theorem congr (standing : Standing tree chain height known)
    (same : ∀ branch place, tree.Place branch place →
      ((branch, place) ∈ known ↔ (branch, place) ∈ places)) : Standing tree chain height places :=
  ⟨standing.kept, standing.weighted, standing.tracks,
    fun branch place here => (standing.knows branch place here).trans (same branch place here),
    standing.hold⟩

/-- The places up to a height on each branch. -/
def upTo (tops : Nat → Nat) : Set (Nat × Nat) := {place | place.2 ≤ tops place.1}

omit [Crypto] [WorkHash] in
theorem insert_upTo (tops : Nat → Nat) (branch : Nat) :
    insert (branch, tops branch + 1) (upTo tops) =
      upTo (Function.update tops branch (tops branch + 1)) := by
  ext ⟨other, place⟩
  rw [Set.mem_insert_iff, Prod.mk.injEq, upTo, upTo, Set.mem_ofPred_eq, Set.mem_ofPred_eq]
  dsimp only
  by_cases same : other = branch
  · subst same
    rw [Function.update_self]
    omega
  · rw [Function.update_of_ne same]
    exact ⟨fun either => either.resolve_left fun here => same here.1, .inr⟩

/-- The calls that submit `count` blocks of a branch above a height. -/
def submits (tree : BlockTree) (branch height count now : Nat) : List Call :=
  (range count).map fun step => .submit (tree.block branch (height + step + 1)) now

omit [WorkHash] in
theorem submits_succ (tree : BlockTree) (branch height count now : Nat) :
    submits tree branch height (count + 1) now = submits tree branch height count now ++
        [.submit (tree.block branch (height + count + 1)) now] := by
  rw [submits, range_succ, map_append, map_singleton, submits]

theorem run_submits_succ (tree : BlockTree) (branch height count now : Nat) (chain : Chain) :
    run (submits tree branch height (count + 1) now) chain =
      ((run (submits tree branch height count now) chain).submit
        (tree.block branch (height + count + 1)) now).1 := by
  rw [submits_succ, run, List.foldl_append, foldl_cons, foldl_nil, run]
  rfl

section
variable (apart : HistoryApart tree.history) (rising : tree.Rising limit) (easy : EasyWork)
include apart rising easy

/-- The trunk grows block by block. -/
theorem grow (standing : Standing tree chain (tops 0) (upTo tops)) (inside : tops 0 + count ≤ limit)
    (marked : tree.Marked 0 (tops 0 + count))
    (present : ∀ place ≤ tops 0 + count, tree.time 0 place ≤ now + maxFutureTime) :
    Standing tree (run (submits tree 0 (tops 0) count now) chain) (tops 0 + count)
        (upTo (Function.update tops 0 (tops 0 + count))) ∧
      (run (submits tree 0 (tops 0) count now) chain).source = chain.source ∧
      (chain.undos.length ≤ bodyWindow →
        (run (submits tree 0 (tops 0) count now) chain).undos.length =
          min (chain.undos.length + count) bodyWindow) := by
  induction count with
  | zero =>
    refine ⟨?_, rfl, fun window => (Nat.min_eq_left window).symm⟩
    rwa [Nat.add_zero, Function.update_eq_self]
  | succ count ih =>
    obtain ⟨grown, source, records⟩ := ih (by omega)
      (fun place positive low => marked place positive (by omega))
      fun place low => present place (by omega)
    have fresh : (0, tops 0 + count + 1) ∉ upTo (Function.update tops 0 (tops 0 + count)) := by
      rw [upTo, Set.mem_ofPred_eq, Function.update_self]
      omega
    obtain ⟨next, extended, stands, kept⟩ := grown.extend apart rising easy (by omega) marked
      fresh (present _ le_rfl)
    have sameSource := (submit_frame (run (submits tree 0 (tops 0) count now) chain)
      (tree.block 0 (tops 0 + count + 1)) now).2
    rw [extended] at sameSource
    rw [run_submits_succ, extended]
    refine ⟨?_, sameSource.trans source, fun window => ?_⟩
    · have more := insert_upTo (Function.update tops 0 (tops 0 + count)) 0
      rw [Function.update_self, Function.update_idem] at more
      rwa [more] at stands
    · dsimp only
      omega

section
variable {branch : Nat} (standing : Standing tree chain height (upTo tops))
  (trunk : height ≤ tops 0) (side : branch ≠ 0) (branchFits : branch < 2 ^ 32)
include standing trunk side branchFits

/-- The next block of a branch is admitted. -/
theorem next (onTrunk : tree.fork branch < height) (leaves : tree.fork branch ≤ tops branch)
    (inside : tops branch < limit) (near : height ≤ tops branch + maxReorgDepth)
    (present : tree.time branch (tops branch + 1) ≤ now + maxFutureTime) :
    OnBranch tree height branch (tops branch) (upTo tops) ∧
      chain.Admits (tree.block branch (tops branch + 1)) ((tops branch + 2) * 256) now := by
  have limited := rising.short
  have here : tree.Place branch (tops branch + 1) := ⟨.inr (by omega), branchFits, by omega⟩
  have indexed : ∀ step, step ≤ tops branch → (tree.owner branch step, step) ∈ upTo tops := by
    intro step low
    rw [upTo, Set.mem_ofPred_eq, BlockTree.owner]
    dsimp only
    split
    · omega
    · exact low
  have fresh : (branch, tops branch + 1) ∉ upTo tops := by
    exact Nat.not_succ_le_self (tops branch)
  have offTip : ¬ (tree.owner branch (tops branch) = 0 ∧ tops branch = height) := by
    rw [BlockTree.owner]
    split
    · omega
    · exact fun both => side both.1
  exact ⟨⟨side, onTrunk.le, leaves, here, indexed⟩,
    standing.admits apart.headers rising easy here fresh (indexed _ le_rfl) inside near offTip present⟩

/-- The blocks of a branch that switch nothing. -/
theorem fill (heightFits : height < 2 ^ 32) (onTrunk : tree.fork branch < height)
    (leaves : tree.fork branch ≤ tops branch) (inside : tops branch + count ≤ limit)
    (near : height ≤ tops branch + maxReorgDepth)
    (present : ∀ place ≤ tops branch + count, tree.time branch place ≤ now + maxFutureTime) (weak :
      ∀ place < tops branch + count, (place + 2) * 256 ≤ threshold height (tree.fork branch) ∨
      maxReorgDepth + 3 ≤ place + 1 - tree.fork branch) :
    Standing tree (run (submits tree branch (tops branch) count now) chain) height
        (upTo (Function.update tops branch (tops branch + count))) ∧
      (run (submits tree branch (tops branch) count now) chain).undos = chain.undos ∧
      (run (submits tree branch (tops branch) count now) chain).source = chain.source := by
  induction count with
  | zero =>
    refine ⟨?_, rfl, rfl⟩
    rwa [Nat.add_zero, Function.update_eq_self]
  | succ count ih =>
    obtain ⟨filled, undos, source⟩ := ih (by omega) (fun place low => present place (by omega))
      fun place low => weak place (by omega)
    have top : Function.update tops branch (tops branch + count) branch = tops branch + count :=
      Function.update_self ..
    have root : height ≤ Function.update tops branch (tops branch + count) 0 := by
      rwa [Function.update_of_ne side.symm]
    obtain ⟨onBranch, admits⟩ := filled.next apart rising easy root side branchFits onTrunk
      (by omega) (by omega) (by omega) (by rw [top]; exact present _ le_rfl)
    rw [top] at onBranch admits
    obtain ⟨stands, sameUndos, sameSource⟩ :=
      filled.quiet apart onBranch heightFits admits (weak _ (by omega))
    rw [run_submits_succ]
    refine ⟨?_, sameUndos.trans undos, sameSource.trans source⟩
    have more := insert_upTo (Function.update tops branch (tops branch + count)) branch
    rw [Function.update_self, Function.update_idem] at more
    rwa [more] at stands

end

/-- Where the branches stand before any block is submitted. -/
def roots (tree : BlockTree) (branch : Nat) : Nat := if branch = 0 then 0 else tree.fork branch

/-- The calls that plug in an archive of the tree and grow the trunk. -/
def trunkCalls (tree : BlockTree) (branches heights count now : Nat) : List Call :=
  .setBodySource (tree.archive branches heights) :: submits tree 0 0 count now

theorem trunk (branchesFit : branches ≤ 2 ^ 32) (heightsFit : heights ≤ 2 ^ 32)
    (inside : count ≤ limit) (marked : tree.Marked 0 count)
    (present : ∀ place ≤ count, tree.time 0 place ≤ now + maxFutureTime) (reached : chain = run
      (trunkCalls tree branches heights count now) (Chain.new .regtest (genesisBlock 0))) :
    Standing tree chain count (upTo (Function.update (roots tree) 0 count)) ∧
      chain.source = tree.archive branches heights ∧
      chain.undos.length = min (count + 1) bodyWindow := by
  have start : Standing tree
      { Chain.new .regtest (genesisBlock 0) with source := tree.archive branches heights } 0
      (upTo (roots tree)) := by
    refine ((new apart).setSource apart fun id body found =>
      BlockTree.archive_readBack branchesFit heightsFit found).congr ?_
    intro branch place here
    rw [Set.mem_singleton_iff, Prod.mk.injEq, upTo, Set.mem_ofPred_eq, roots]
    dsimp only
    split
    · rename_i onTrunk
      exact ⟨fun both => both.2.le, fun low => ⟨onTrunk, Nat.le_zero.mp low⟩⟩
    · rename_i side
      have above := here.own.resolve_left side
      exact ⟨fun both => absurd both.1 side, fun low => absurd low (by omega)⟩
  have root : roots tree 0 = 0 := if_pos rfl
  obtain ⟨grown, source, records⟩ := start.grow apart rising easy
    (show roots tree 0 + count ≤ limit by omega)
    (by rw [root, Nat.zero_add]; exact marked)
    (by rw [root, Nat.zero_add]; exact present)
  rw [root, Nat.zero_add] at grown
  rw [reached]
  refine ⟨grown, source, ?_⟩
  have first : (Chain.new .regtest (genesisBlock 0)).undos.length = 1 := rfl
  have whole := records (show 1 ≤ bodyWindow by decide)
  rwa [first, Nat.add_comm] at whole

/-- How far the tree is known with the trunk and one branch submitted. -/
def grown (tree : BlockTree) (height branch top : Nat) : Nat → Nat :=
  Function.update (Function.update (roots tree) 0 height) branch top

theorem branched {later branch : Nat} (branchesFit : branches ≤ 2 ^ 32)
    (heightsFit : heights ≤ 2 ^ 32) (trunkInside : height ≤ limit) (marked : tree.Marked 0 height)
    (trunkPresent : ∀ place ≤ height, tree.time 0 place ≤ now + maxFutureTime) (side : branch ≠ 0)
    (branchFits : branch < 2 ^ 32) (onTrunk : tree.fork branch < height)
    (inside : tree.fork branch + count ≤ limit) (near : height ≤ tree.fork branch + maxReorgDepth)
    (present : ∀ place ≤ tree.fork branch + count, tree.time branch place ≤ later + maxFutureTime)
      (weak : ∀ place < tree.fork branch + count, (place + 2) * 256 ≤ threshold height (tree.fork
      branch) ∨ maxReorgDepth + 3 ≤ place + 1 - tree.fork branch) (reached : chain = run (trunkCalls
      tree branches heights height now ++ submits tree branch (tree.fork branch) count later)
      (Chain.new .regtest (genesisBlock 0))) :
    Standing tree chain height (upTo (grown tree height branch (tree.fork branch + count))) ∧
      chain.source = tree.archive branches heights ∧
      chain.undos.length = min (height + 1) bodyWindow := by
  have limited := rising.short
  obtain ⟨standing, source, records⟩ := trunk apart rising easy branchesFit heightsFit trunkInside
    marked trunkPresent rfl
  have root : Function.update (roots tree) 0 height 0 = height := Function.update_self ..
  have top : Function.update (roots tree) 0 height branch = tree.fork branch := by
    rw [Function.update_of_ne side, roots, if_neg side]
  obtain ⟨filled, sameUndos, sameSource⟩ := standing.fill apart rising easy
    root.ge side branchFits (by omega) onTrunk top.ge (top.symm ▸ inside)
    (top.symm ▸ near) (by rw [top]; exact present) (by rw [top]; exact weak)
  rw [top] at filled sameUndos sameSource
  rw [reached, run, List.foldl_append]
  exact ⟨filled, sameSource.trans source, by rw [← records]; exact congrArg _ sameUndos⟩

/-- The next block of a branch that makes it heavy enough. -/
theorem switch_next (standing : Standing tree chain height (upTo tops)) {branch : Nat}
    (source : chain.source = tree.archive branches heights) (branchesFit : branches ≤ 2 ^ 32)
    (heightsFit : heights ≤ 2 ^ 32) (stored : branch < branches) (trunkStored : height < heights)
    (branchStored : place + 1 < heights) (trunk : height ≤ tops 0) (top : tops branch = place)
    (side : branch ≠ 0) (onTrunk : tree.fork branch < height) (leaves : tree.fork branch ≤ place)
    (inside : place < limit) (near : height ≤ place + maxReorgDepth)
    (present : tree.time branch (place + 1) ≤ now + maxFutureTime)
    (reached : place + 1 - tree.fork branch < maxReorgDepth + 3)
    (final : height - tree.fork branch ≤ maxReorgDepth)
    (heavy : threshold height (tree.fork branch) < (place + 2) * 256)
    (undoable : height - tree.fork branch ≤ chain.undos.length) :
    Switched tree chain height branch place now (upTo tops) := by
  subst top
  obtain ⟨onBranch, admits⟩ := standing.next apart rising easy trunk side (by omega)
    onTrunk leaves inside near present
  refine standing.switch apart onBranch (by omega) admits reached final heavy undoable ?_
  intro other step here within
  rw [source]
  exact BlockTree.archive_eq apart.headers branchesFit heightsFit here (by omega) (by omega)

end

omit [WorkHash] in
theorem submits_genuine (tree : BlockTree) {branch : Nat} (branchFits : branch < 2 ^ 32)
    (leaves : branch = 0 ∨ tree.fork branch ≤ height) (fits : height + count < 2 ^ 32) :
    ∀ call ∈ submits tree branch height count now,
      call.From tree.history ∧ call.Reads ReadBack := by
  intro call listed
  obtain ⟨step, inside, rfl⟩ := mem_map.mp listed
  have small := mem_range.mp inside
  refine ⟨⟨branch, height + step + 1, ⟨?_, branchFits, by omega⟩, rfl⟩, trivial⟩
  exact leaves.imp_right fun low => by omega

omit [WorkHash] in
theorem trunkCalls_genuine (tree : BlockTree) (branchesFit : branches ≤ 2 ^ 32)
    (heightsFit : heights ≤ 2 ^ 32) (fits : count < 2 ^ 32) :
    ∀ call ∈ trunkCalls tree branches heights count now,
      call.From tree.history ∧ call.Reads ReadBack := by
  intro call listed
  rcases mem_cons.mp listed with rfl | later
  · exact ⟨fun id body found => (BlockTree.archive_readBack branchesFit heightsFit found).1,
      fun id body found => (BlockTree.archive_readBack branchesFit heightsFit found).2⟩
  · exact submits_genuine tree (by decide) (.inl rfl) (by omega) call later

end Standing

end Standing

end Q21Formal.Ledger

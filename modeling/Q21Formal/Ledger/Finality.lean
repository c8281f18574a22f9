import Q21Formal.Ledger.Standing

/-!
# Refused blocks, finality and buried blocks

What a refused block may leave behind, when enough work wins, and for how long a buried block stays:
each holds under a condition on the clock, the branch or the height, and fails without it.
-/

namespace Q21Formal.Ledger
open Library.Maps Primitives List

section Refused
variable [Crypto] [WorkHash] {network : Network} {nonce : UInt64} {history : Set Block}
  {chain : Chain} {blocks : List Block} {now fork held : Nat} {below old done : List Block}
  {result : Chain}

/-! ## Refused blocks -/

omit [Crypto] [WorkHash] in
/-- No active block but the genesis is ahead of what the clock allows. -/
def Chain.Present (chain : Chain) (now : Nat) : Prop :=
  ∀ id ∈ chain.active.tail, ∀ entry, chain.index.lookup id = some entry →
    entry.header.time.toNat ≤ now + maxFutureTime

theorem Tracks.present (tracks : Tracks network nonce history chain blocks)
    (sound : Sound (headersOf history) chain) (apart : HashesApart (headersOf history))
    (present : chain.Present now) :
    ∀ block ∈ blocks.tail, block.header.time.toNat ≤ now + maxFutureTime := by
  intro block listed
  have member := mem_of_mem_tail listed
  obtain ⟨before, after, split⟩ := append_of_mem member
  obtain ⟨entry, found, _⟩ := tracks.indexed before block after split
  obtain ⟨inside, named⟩ := sound.indexed _ entry found
  have header := apart.injective inside ⟨block, tracks.lineage.members block member, rfl⟩ named
  rw [← header]
  refine present _ ?_ entry found
  rw [tracks.active, ← map_tail]
  exact mem_map_of_mem listed

omit [WorkHash] in
/-- When finality binds, the walk back finds only branches that fit the undo window. -/
theorem branchOf_short (binds : chain.finalityBinds = true) {block : Block} {branch : List Hash256}
    (found : chain.branchOf block = some (fork, branch)) : branch.length ≤ maxReorgDepth + 2 := by
  have shorter := (pathToActive_bounds found).2
  rw [Chain.reach, if_pos binds, length_nil, zero_add] at shorter
  omega

theorem GivenUp.restored_of_present
    (given : GivenUp network nonce history now held below old done result)
    (present : ∀ block ∈ old, block.header.time.toNat ≤ now + maxFutureTime)
    (short : done.length ≤ bodyWindow) : Tracks network nonce history result (below ++ old) := by
  cases given with
  | restored tracks _ _ _ => exact tracks
  | truncated _ ahead _ _ _ =>
    obtain ⟨block, listed, late⟩ := ahead
    exact absurd (present block listed) (not_le.mpr late)
  | stuck _ _ _ _ long => exact absurd short (not_le.mpr long)

theorem GivenUp.tracks_of_present
    (given : GivenUp network nonce history now held (blocks.take (fork + 1))
      (blocks.drop (fork + 1)) done result)
    (present : ∀ block ∈ blocks.drop (fork + 1), block.header.time.toNat ≤ now + maxFutureTime)
    (short : done.length ≤ bodyWindow) : Tracks network nonce history result blocks := by
  have restored := given.restored_of_present present short
  rwa [take_append_drop] at restored

omit [Crypto] [WorkHash] in
/-- The walk back collects blocks that are not active. -/
theorem pathToActive_inactive {steps : Nat} {current : Hash256} {found branch : List Hash256}
    (path : chain.pathToActive steps current found = some (fork, branch)) : ∀ id ∈ branch,
      id ∈ found ∨ ∃ entry, chain.index.lookup id = some entry ∧ chain.isActive id entry = false := by
  induction steps generalizing current found with
  | zero => cases path
  | succ steps ih =>
    rw [Chain.pathToActive] at path
    split at path
    · cases path
    · rename_i entry indexed
      split at path
      · cases path
        exact fun id listed => .inl listed
      · rename_i inactive
        split at path
        · cases path
        · intro id listed
          rcases ih path id listed with earlier | off
          · rcases mem_cons.mp earlier with rfl | before
            · exact .inr ⟨entry, indexed, Bool.eq_false_iff.mpr inactive⟩
            · exact .inl before
          · exact .inr off

section
variable {block : Block} (tracks : Tracks network nonce history chain blocks)
  (sound : Sound (headersOf history) chain) (kept : WellKept chain) (apart : HistoryApart history)
  (member : block ∈ history)
include tracks sound kept apart member

theorem Attempt.short (attempt : Attempt network chain blocks block now fork done)
    (binds : chain.finalityBinds = true) : done.length ≤ bodyWindow := by
  obtain ⟨refused, rest, exchanges, _⟩ := attempt
  obtain ⟨_, _, _, _, branchOf⟩ := exchanges.outline tracks sound kept apart member
  have short := branchOf_short binds branchOf
  have window : maxReorgDepth + 2 ≤ bodyWindow := by decide
  rw [length_map, length_append] at short
  omega

/-- The blocks a switch would bring are not in the chain at their height. -/
theorem Attempt.elsewhere (attempt : Attempt network chain blocks block now fork done)
    {first : Block} (among : first ∈ done) (place : Nat) :
    chain.active[place]? ≠ some first.header.blockId := by
  intro here
  obtain ⟨refused, rest, exchanges, _⟩ := attempt
  obtain ⟨_, _, _, _, branchOf⟩ := exchanges.outline tracks sound kept apart member
  obtain ⟨total, branch, admits, _, switches⟩ := exchanges
  obtain ⟨⟨soundIndexed, _⟩, _⟩ := (kept_stable network nonce apart).index
    ⟨⟨sound, blocks, tracks⟩, kept⟩ member admits
  have path := switches.path
  rw [branchOf_eq, branchOf] at path
  obtain ⟨_, rfl⟩ := Prod.mk.inj (Option.some.inj path)
  rw [← (indexSide_sameLedger chain block total).active] at here
  rcases pathToActive_inactive switches.path first.header.blockId
      (mem_map_of_mem (mem_append_left _ among)) with listed | ⟨entry, found, inactive⟩
  · cases listed
  · obtain ⟨other, found', height, _⟩ := soundIndexed.placed place _ here
    obtain rfl := Option.some.inj (found.symm.trans found')
    rw [Chain.isActive, height, here, beq_self_eq_true] at inactive
    cases inactive

/-- A switch given up that leaves the active chain in place. -/
theorem Attempt.restored (attempt : Attempt network chain blocks block now fork done)
    (same : (chain.submit block now).1.active = chain.active) :
    done.length ≤ bodyWindow ∧
      (∀ body ∈ blocks.drop (fork + 1), body.header.time.toNat ≤ now + maxFutureTime) ∧
      (chain.submit block now).1.undos.length =
        min (min (chain.undos.length - (chain.height - fork) + done.length) bodyWindow -
          done.length + (chain.height - fork)) bodyWindow := by
  have length := tracks.length_eq
  have depth : (blocks.drop (fork + 1)).length = chain.height - fork := by
    rw [length_drop, Chain.height]
    omega
  cases tracks.attempt sound kept apart member attempt with
  | restored _ present short undos =>
    rw [depth] at undos
    exact ⟨short, present, undos⟩
  | truncated below ahead _ _ _ =>
    obtain ⟨body, listed, _⟩ := ahead
    have positive := length_pos_of_mem listed
    have cut := below.length_eq
    rw [same, length, length_take] at cut
    rw [length_drop] at positive
    omega
  | stuck first more among after _ =>
    have here := after.active
    rw [same] at here
    refine absurd ?_ (attempt.elsewhere tracks sound kept apart member among
      (blocks.take (fork + 1)).length)
    rw [here, map_append, getElem?_append_right (by rw [length_map]), length_map, Nat.sub_self]
    rfl

end

/-- A refused block leaves active chain, outputs and emission as they were exactly when the switch it
gives up, if there is one, got no further than the undo records go back and replaced no block that
is ahead of the clock. -/
theorem refused_block_changes_nothing (network : Network) (nonce : UInt64)
    (apart : HistoryApart history) (bodiesApart : BodiesApart history)
    (genesisIn : genesisBlock nonce ∈ history) (calls : List Call)
    (brings : ∀ call ∈ calls, call.From history) (reads : ∀ call ∈ calls, call.Reads ReadBack) :
    let chain := run calls (Chain.new network (genesisBlock nonce))
    (∃ blocks, Tracks network nonce history chain blocks) ∧
      ∀ blocks, Tracks network nonce history chain blocks →
        ∀ block ∈ history, ∀ (now : Nat) (problem : ChainError),
        (chain.submit block now).2 = .error problem →
        ((chain.submit block now).1.active = chain.active ∧
            (chain.submit block now).1.utxo = chain.utxo ∧
            (chain.submit block now).1.issued = chain.issued ↔
          ∀ fork done, Attempt network chain blocks block now fork done →
            done.length ≤ bodyWindow ∧ ∀ body ∈ blocks.drop (fork + 1),
              body.header.time.toNat ≤ now + maxFutureTime) := by
  intro chain
  obtain ⟨⟨sound, tracked⟩, kept⟩ : Kept network nonce history chain :=
    kept_run network nonce apart genesisIn brings reads
  refine ⟨tracked, ?_⟩
  intro blocks tracks block member now problem refused
  constructor
  · rintro ⟨same, _⟩ fork done attempt
    obtain ⟨short, present, _⟩ := attempt.restored tracks sound kept apart member same
    exact ⟨short, present⟩
  · intro mild
    cases tracks.submit sound kept apart member bodiesApart now with
    | idle after _ _ _ => exact tracks.agree after
    | extended _ verdict =>
      rw [verdict] at refused
      cases refused
    | reorganized _ _ _ _ _ _ _ _ verdict =>
      rw [verdict] at refused
      cases refused
    | givenUp fork done _ attempt _ outcome =>
      obtain ⟨short, present⟩ := mild fork done attempt
      exact tracks.agree (outcome.tracks_of_present present short)

end Refused

/-- A trunk of one block far ahead, and a branch of two of which the second is not valid. -/
def lateTree : BlockTree := sampleTree (fun _ => 0) 0 10_000 (1, 2)

theorem lateTree_rising : lateTree.Rising 3 :=
  sampleTree_rising (fun _ => le_rfl) (by decide) (by decide)

variable {chain : Chain} {now : Nat}

section Late
variable [Crypto] [WorkHash]

/-- The trunk is submitted at a late clock, the first block of the branch at an early one. -/
def lateCalls : List Call :=
  Standing.trunkCalls lateTree 2 3 1 (genesisTime.toNat + 10_001) ++
    Standing.submits lateTree 1 0 1 genesisTime.toNat

section
variable (apart : HistoryApart lateTree.history) (easy : EasyWork)
  (reached : chain = run lateCalls (Chain.new .regtest (genesisBlock 0)))
include apart easy reached

theorem late_standing :
    Standing lateTree chain 1 (Standing.upTo (Standing.grown lateTree 1 1 1)) ∧
      chain.source = lateTree.archive 2 3 ∧ chain.undos.length = 2 := by
  refine Standing.branched apart lateTree_rising easy (by decide) (by decide) (by decide) ?_ ?_
    (by decide) (by decide) (by decide) (by decide) (by decide) ?_ ?_ reached
  · refine sampleTree_marked fun place _ _ => ?_
    rw [BlockTree.owner_zero]
    simp
  · decide
  · decide
  · decide

/-- The second block of the branch is refused, and the switch given up. -/
theorem late_refused (present : genesisTime.toNat + 2 ≤ now + maxFutureTime) :
    ∃ problem done, (chain.submit (lateTree.block 1 2) now).2 = .error problem ∧
      done.length ≤ bodyWindow ∧ GivenUp .regtest 0 lateTree.history now chain.undos.length (lateTree.path 0 0)
        ((lateTree.path 0 1).drop 1) done (chain.submit (lateTree.block 1 2) now).1 := by
  obtain ⟨standing, source, records⟩ := late_standing apart easy reached
  obtain ⟨_, ⟨_, after⟩ | ⟨problem, step, _, low, verdict, _, given⟩⟩ :=
    standing.switch_next apart lateTree_rising easy source (by decide) (by decide)
      (show 1 < 2 by decide) (by decide) (show 1 + 1 < 3 by decide) (by decide) rfl
      (by decide) (by decide) (by decide) (by decide) (by decide) present (by decide) (by decide)
      (by decide) (by rw [records]; decide)
  · have leaves : lateTree.fork 1 ≤ 1 := by decide
    exact absurd after.lineage
      (BlockTree.not_lineage leaves le_rfl (by decide) (by decide) (by decide))
  · refine ⟨problem, _, verdict, ?_, given⟩
    rw [BlockTree.above_length]
    exact (Nat.sub_le _ _).trans (low.trans (by decide))

end

omit [WorkHash] in
theorem lateCalls_genuine :
    ∀ call ∈ lateCalls, call.From lateTree.history ∧ call.Reads ReadBack := by
  intro call listed
  rcases mem_append.mp listed with early | later
  · exact Standing.trunkCalls_genuine lateTree (by decide) (by decide) (by decide) call early
  · exact Standing.submits_genuine lateTree (by decide) (.inr (by decide)) (by decide) call later

end Late

theorem lateTree_times :
    letI : Crypto := tailCrypto
    ∀ body ∈ lateTree.path 0 1,
      body.header.time.toNat ≤ genesisTime.toNat + 10_001 + maxFutureTime := by
  decide

/-- A block refused after the clock went back takes an active block with it. -/
theorem refused_block_truncates_chain :
    letI : Crypto := tailCrypto
    letI : WorkHash := zeroWork
    let chain := run lateCalls (Chain.new .regtest (genesisBlock 0))
    (∀ call ∈ lateCalls, call.From lateTree.history ∧ call.Reads ReadBack) ∧
      (∃ problem, (chain.submit (lateTree.block 1 2) genesisTime.toNat).2 = .error problem) ∧
      chain.active.length = 2 ∧
      (chain.submit (lateTree.block 1 2) genesisTime.toNat).1.active.length = 1 := by
  let _ := tailCrypto
  let _ := zeroWork
  have apart : HistoryApart lateTree.history := sampleTree_historyApart
  obtain ⟨standing, _, _⟩ := late_standing apart zeroWork_easy rfl
  obtain ⟨problem, done, verdict, few, given⟩ := late_refused apart zeroWork_easy rfl
    (show genesisTime.toNat + 2 ≤ genesisTime.toNat + maxFutureTime by decide)
  refine ⟨lateCalls_genuine, ⟨problem, verdict⟩, standing.tracks.length_eq, ?_⟩
  cases given with
  | restored _ present _ _ =>
    have late := present (lateTree.block 0 1) (mem_singleton.mpr rfl)
    exact absurd late (by decide)
  | truncated tracks _ _ _ _ => exact tracks.length_eq
  | stuck _ _ _ _ long => exact absurd few (not_le.mpr long)

/-- The same block, refused when no active block is ahead of the clock. -/
theorem refused_block_changes_nothing_late :
    letI : Crypto := tailCrypto
    letI : WorkHash := zeroWork
    let chain := run lateCalls (Chain.new .regtest (genesisBlock 0))
    ∃ problem, (chain.submit (lateTree.block 1 2) (genesisTime.toNat + 10_001)).2 = .error problem ∧
      (chain.submit (lateTree.block 1 2) (genesisTime.toNat + 10_001)).1.active = chain.active := by
  let _ := tailCrypto
  let _ := zeroWork
  have apart : HistoryApart lateTree.history := sampleTree_historyApart
  have root : lateTree.Place 0 0 := ⟨.inl rfl, by decide, by decide⟩
  have place : lateTree.Place 1 2 := ⟨.inr (by decide), by decide, by decide⟩
  obtain ⟨standing, _, _⟩ := late_standing apart zeroWork_easy rfl
  obtain ⟨problem, done, verdict, _⟩ := late_refused apart zeroWork_easy rfl
    (show genesisTime.toNat + 2 ≤ genesisTime.toNat + 10_001 + maxFutureTime by decide)
  refine ⟨problem, verdict, ?_⟩
  refine (((refused_block_changes_nothing .regtest 0 apart (BlockTree.bodiesApart apart.headers)
    ⟨0, 0, root, rfl⟩ lateCalls (fun call listed => (lateCalls_genuine call listed).1)
    (fun call listed => (lateCalls_genuine call listed).2)).2 _ standing.tracks _ ⟨1, 2, place, rfl⟩
    _ problem verdict).mpr ?_).1
  intro fork done attempt
  refine ⟨attempt.short standing.tracks standing.sound standing.kept.2 apart ⟨1, 2, place, rfl⟩
    standing.binds, ?_⟩
  intro body listed
  exact lateTree_times body (mem_of_mem_drop listed)

section Records
variable [Crypto] [WorkHash] {network : Network} {nonce : UInt64} {history : Set Block}

/-- A refused block that leaves the active chain in place leaves the undo records as they were
exactly when those below the fork and those of the branch blocks connected fit the window. -/
theorem failed_reorg_keeps_undo_depth (network : Network) (nonce : UInt64)
    (apart : HistoryApart history) (bodiesApart : BodiesApart history)
    (genesisIn : genesisBlock nonce ∈ history) (calls : List Call)
    (brings : ∀ call ∈ calls, call.From history) (reads : ∀ call ∈ calls, call.Reads ReadBack) :
    let chain := run calls (Chain.new network (genesisBlock nonce))
    (∃ blocks, Tracks network nonce history chain blocks) ∧
      ∀ blocks, Tracks network nonce history chain blocks →
        ∀ block ∈ history, ∀ (now : Nat) (problem : ChainError),
        (chain.submit block now).2 = .error problem →
        (chain.submit block now).1.active = chain.active →
        ((chain.submit block now).1.undoWindow = chain.undoWindow ∧
            (chain.submit block now).1.undos = chain.undos ↔
          ∀ fork done, Attempt network chain blocks block now fork done →
            chain.undos.length - (chain.height - fork) + done.length ≤ bodyWindow) := by
  intro chain
  obtain ⟨⟨sound, tracked⟩, kept⟩ : Kept network nonce history chain :=
    kept_run network nonce apart genesisIn brings reads
  refine ⟨tracked, ?_⟩
  intro blocks tracks block member now problem refused same
  have window := kept.window
  constructor
  · rintro ⟨_, undos⟩ fork done attempt
    obtain ⟨short, _, records⟩ := attempt.restored tracks sound kept apart member same
    obtain ⟨refused, rest, exchanges, _⟩ := attempt
    obtain ⟨_, undoable, _⟩ := exchanges.outline tracks sound kept apart member
    rw [undos] at records
    omega
  · intro room
    suffices kept : (chain.submit block now).1.undos = chain.undos from
      ⟨congrArg List.length kept, kept⟩
    cases tracks.submit sound kept apart member bodiesApart now with
    | idle _ undos _ _ => exact undos
    | extended _ verdict =>
      rw [verdict] at refused
      cases refused
    | reorganized _ _ _ _ _ _ _ _ verdict =>
      rw [verdict] at refused
      cases refused
    | givenUp fork done _ attempt _ outcome =>
      obtain ⟨short, present, records⟩ := attempt.restored tracks sound kept apart member same
      have fits := room fork done attempt
      have again := outcome.tracks_of_present present short
      obtain ⟨refused, rest, exchanges, _⟩ := attempt
      obtain ⟨_, undoable, _⟩ := exchanges.outline tracks sound kept apart member
      have whole : (chain.submit block now).1.undos.length = chain.undos.length := by omega
      exact (prefix_of_prefix_length_le again.undos tracks.undos whole.le).eq_of_length whole

end Records

/-- The block refused at the late clock costs no record. -/
theorem failed_reorg_keeps_undo_depth_late :
    letI : Crypto := tailCrypto
    letI : WorkHash := zeroWork
    let chain := run lateCalls (Chain.new .regtest (genesisBlock 0))
    ∃ problem, (chain.submit (lateTree.block 1 2) (genesisTime.toNat + 10_001)).2 = .error problem ∧
      (chain.submit (lateTree.block 1 2) (genesisTime.toNat + 10_001)).1.undoWindow = 2 := by
  let _ := tailCrypto
  let _ := zeroWork
  have apart : HistoryApart lateTree.history := sampleTree_historyApart
  have root : lateTree.Place 0 0 := ⟨.inl rfl, by decide, by decide⟩
  have place : lateTree.Place 1 2 := ⟨.inr (by decide), by decide, by decide⟩
  obtain ⟨standing, _, records⟩ := late_standing apart zeroWork_easy rfl
  obtain ⟨problem, done, verdict, few, given⟩ := late_refused apart zeroWork_easy rfl
    (show genesisTime.toNat + 2 ≤ genesisTime.toNat + 10_001 + maxFutureTime by decide)
  have restored := given.restored_of_present
    (fun body listed => lateTree_times body (mem_of_mem_drop listed)) few
  refine ⟨problem, verdict, ?_⟩
  refine (((failed_reorg_keeps_undo_depth .regtest 0 apart (BlockTree.bodiesApart apart.headers)
    ⟨0, 0, root, rfl⟩ lateCalls (fun call listed => (lateCalls_genuine call listed).1)
    (fun call listed => (lateCalls_genuine call listed).2)).2 _ standing.tracks _ ⟨1, 2, place, rfl⟩
    _ problem verdict (standing.tracks.agree restored).1).mpr ?_).1.trans records
  intro fork done attempt
  obtain ⟨refused, rest, exchanges, _⟩ := attempt
  obtain ⟨_, _, _, _, branchOf⟩ := exchanges.outline standing.tracks standing.sound standing.kept.2
    apart ⟨1, 2, place, rfl⟩
  have short := branchOf_short standing.binds branchOf
  have window : 2 + (maxReorgDepth + 2) ≤ bodyWindow + 1 := by decide
  rw [length_map, length_append, length_cons] at short
  omega

/-- A branch that leaves the trunk 14 blocks below its top, whose 16th block is not valid. -/
def deepTree : BlockTree := sampleTree (fun _ => 993) 993 0 (1, 1009)

theorem deepTree_rising : deepTree.Rising 1009 :=
  sampleTree_rising (fun _ => le_rfl) (by decide) (by decide)

variable {branch place : Nat}

theorem deepTree_time_le (low : place ≤ 1009) :
    deepTree.time branch place ≤ genesisTime.toNat + 1009 + maxFutureTime :=
  (sampleTree_time_le branch place).trans (by omega)

/-- The trunk fills the window of undo records, and the branch stops one block short of winning. -/
def deepCalls [Crypto] : List Call :=
  Standing.trunkCalls deepTree 2 1010 1007 (genesisTime.toNat + 1009) ++
    Standing.submits deepTree 1 993 15 (genesisTime.toNat + 1009)

section Deep
variable [Crypto] [WorkHash]

section
variable (apart : HistoryApart deepTree.history) (easy : EasyWork)
  (reached : chain = run deepCalls (Chain.new .regtest (genesisBlock 0)))
include apart easy reached

theorem deep_standing :
    Standing deepTree chain 1007 (Standing.upTo (Standing.grown deepTree 1007 1 1008)) ∧
      chain.source = deepTree.archive 2 1010 ∧ chain.undos.length = 1008 := by
  have bar : Standing.threshold 1007 993 = 258334 := by decide
  refine Standing.branched apart deepTree_rising easy (by decide) (by decide) (by decide) ?_ ?_
    (by decide) (by decide) (by decide) (by decide) (by decide) ?_ ?_ reached
  · refine sampleTree_marked fun place _ _ => ?_
    rw [BlockTree.owner_zero]
    simp
  · exact fun place low => deepTree_time_le (by omega)
  · exact fun place low => deepTree_time_le (low.trans (by decide))
  · have fork : deepTree.fork 1 = 993 := rfl
    rw [fork, bar]
    omega

/-- The block that makes the branch heavy enough is refused after 15 others were connected. -/
theorem deep_refused :
    ∃ problem,
      (chain.submit (deepTree.block 1 1009) (genesisTime.toNat + 1009)).2 = .error problem ∧
      GivenUp .regtest 0 deepTree.history (genesisTime.toNat + 1009) 1008 (deepTree.path 0 993)
        ((deepTree.path 0 1007).drop 994) (deepTree.above 1 1008)
        (chain.submit (deepTree.block 1 1009) (genesisTime.toNat + 1009)).1 := by
  obtain ⟨standing, source, records⟩ := deep_standing apart easy reached
  obtain ⟨_, ⟨_, after⟩ | ⟨problem, step, leaves, inside, verdict, refuses, given⟩⟩ :=
    standing.switch_next apart deepTree_rising easy source (by decide) (by decide)
      (show 1 < 2 by decide) (by decide) (show 1008 + 1 < 1010 by decide) (by decide) rfl (by decide)
      (by decide) (by decide) (by decide) (by decide) (deepTree_time_le le_rfl) (by decide)
      (by decide) (by decide) (by rw [records]; decide)
  · have leaves : deepTree.fork 1 ≤ 1008 := by decide
    exact absurd after.lineage
      (BlockTree.not_lineage leaves le_rfl (by decide) (by decide) (by decide))
  · have last : step = 1008 := by
      by_contra other
      have marked : deepTree.Marked 1 (step + 1) := by
        refine sampleTree_marked fun place _ low same => ?_
        have top : place = 1009 := congrArg Prod.snd same
        omega
      have own : deepTree.owner 1 (step + 1) = 1 := by rw [BlockTree.owner, if_neg (by omega)]
      have accepts := deepTree_rising.accepts easy (by decide) (by omega) marked
        (deepTree_time_le (show step + 1 ≤ 1009 by omega))
      rw [own] at accepts
      exact refuses accepts
    subst last
    rw [records] at given
    exact ⟨problem, verdict, given⟩

end

end Deep

/-- A branch refused at its 16th block costs an undo record, with the old chain back in place. -/
theorem failed_reorg_costs_undo_depth :
    letI : Crypto := tailCrypto
    letI : WorkHash := zeroWork
    let chain := run deepCalls (Chain.new .regtest (genesisBlock 0))
    let after := chain.submit (deepTree.block 1 1009) (genesisTime.toNat + 1009)
    (∃ problem, after.2 = .error problem) ∧ after.1.active = chain.active ∧
      chain.undoWindow = 1008 ∧ after.1.undoWindow = 1007 := by
  let _ := tailCrypto
  let _ := zeroWork
  have apart : HistoryApart deepTree.history := sampleTree_historyApart
  obtain ⟨standing, _, records⟩ := deep_standing apart zeroWork_easy rfl
  obtain ⟨problem, verdict, given⟩ := deep_refused apart zeroWork_easy rfl
  have replaced : (deepTree.path 0 993) ++ (deepTree.path 0 1007).drop 994 =
      deepTree.path 0 1007 := by
    rw [← deepTree.path_take 0 (show 993 ≤ 1007 by decide), take_append_drop]
  refine ⟨⟨problem, verdict⟩, ?_⟩
  cases given with
  | restored tracks _ _ undos =>
    rw [replaced] at tracks
    refine ⟨(standing.tracks.agree tracks).1, records, undos.trans ?_⟩
    rw [length_drop, BlockTree.path_length, BlockTree.above_length]
    decide
  | truncated _ ahead _ _ _ =>
    obtain ⟨block, listed, late⟩ := ahead
    obtain ⟨place, low, rfl⟩ := mem_map.mp (mem_of_mem_drop listed)
    have lower := mem_range.mp low
    rw [deepTree_rising.time_eq (deepTree.place_owner (by decide) (by omega))] at late
    exact absurd (deepTree_time_le (by omega)) (not_le.mpr late)
  | stuck _ _ _ _ long =>
    rw [BlockTree.above_length] at long
    exact absurd long (by decide)

section Winning
variable [Crypto] [WorkHash]

omit [WorkHash] in
/-- The work of the branch that the block would complete. -/
def Chain.workWith (chain : Chain) (block : Block) : Nat :=
  Chain.addWork (chain.workOf block.header.prevBlock) (blockWork block.header.bits)

theorem Chain.Admits.workWith_eq {block : Block} {total : Nat}
    (admits : chain.Admits block total now) : total = chain.workWith block := by
  obtain ⟨parent, found, _, rfl, _⟩ := admits.attached
  rw [Chain.workWith, Chain.workOf, found]
  rfl

/-- A branch within the finality window that leaves the active chain after `fork`: all its blocks
but the last are indexed, all are valid, the bodies are at hand, and with its last block the work
exceeds the threshold. -/
structure WinningBranch (network : Network) (history : Set Block) (chain : Chain)
    (blocks side : List Block) (block : Block) (fork now : Nat) : Prop where
  binds : chain.finalityBinds = true
  forks : fork ≤ chain.height
  final : chain.height - fork ≤ maxReorgDepth
  members : ∀ body ∈ side ++ [block], body ∈ history
  known : ∀ body ∈ side, (chain.index.lookup body.header.blockId).isSome = true
  off : ∀ body ∈ side, body.header.blockId ∉ chain.active
  unknown : chain.index.lookup block.header.blockId = none
  offTip : block.header.prevBlock ≠ chain.tipId
  valid : ValidAt network now (blocks.take (fork + 1)) (side ++ [block])
  undoable : chain.height - fork ≤ chain.undoWindow
  heavier : chain.reorgThreshold fork (chain.height - fork) < chain.workWith block
  available : ∀ body ∈ side ++ [block] ++ blocks.drop (fork + 1),
    ((chain.indexSide block (chain.workWith block)).bodyById body.header.blockId).isSome = true

/-- The block that completes a branch with enough work switches the chain to it exactly when the
walk back covers its blocks; the node finds no fork point of a longer one. -/
theorem enough_work_wins (network : Network) (nonce : UInt64) {history : Set Block}
    (apart : HistoryApart history) (bodiesApart : BodiesApart history)
    (genesisIn : genesisBlock nonce ∈ history) (calls : List Call)
    (brings : ∀ call ∈ calls, call.From history) (reads : ∀ call ∈ calls, call.Reads ReadBack) :
    let chain := run calls (Chain.new network (genesisBlock nonce))
    (∃ blocks, Tracks network nonce history chain blocks) ∧
      ∀ blocks, Tracks network nonce history chain blocks → ∀ side block fork now,
        WinningBranch network history chain blocks side block fork now →
        ((chain.submit block now).2 = .ok (.reorganized (chain.height - fork)) ∧
            (chain.submit block now).1.active = chain.active.take (fork + 1) ++
              (side ++ [block]).map (fun body => body.header.blockId) ↔
          side.length + 1 ≤ maxReorgDepth + 2) ∧
        (maxReorgDepth + 2 < side.length + 1 →
          (chain.submit block now).2 = .error (.forkPointNotFound maxReorgDepth)) := by
  intro chain
  obtain ⟨⟨sound, tracked⟩, kept⟩ : Kept network nonce history chain :=
    kept_run network nonce apart genesisIn brings reads
  refine ⟨tracked, ?_⟩
  intro blocks tracks side block fork now wins
  have length := tracks.height_eq
  have forks := wins.forks
  have belowLength : (blocks.take (fork + 1)).length = fork + 1 := by
    rw [length_take]
    omega
  have oldLength : (blocks.drop (fork + 1)).length = chain.height - fork := by
    rw [length_drop]
    omega
  have nonempty : blocks.take (fork + 1) ≠ [] := ne_nil_of_length_pos (by omega)
  have required : chain.requiredWork fork (chain.height - fork) < chain.workWith block := by
    rw [Chain.requiredWork, wins.binds, if_pos rfl]
    exact wins.heavier
  have heavier := (totalWork_le_requiredWork chain _ _).trans_lt required
  rw [← take_append_drop (fork + 1) blocks] at tracks
  have sideValid : ValidAt network now (blocks.take (fork + 1)) side :=
    fun done body rest split => wins.valid done body (rest ++ [block]) (by simp [split])
  have lineage := sideValid.lineage (tracks.lineage.below nonempty)
    fun body listed => wins.members body (mem_append_left _ listed)
  have final := wins.final
  have admits := lineage.admits sound apart.headers tracks.network
    (tracks.known_append wins.known) (wins.valid side block [] rfl) wins.unknown wins.offTip rfl
    (by rw [length_append, belowLength]; omega) fun easy => not_le.mpr heavier easy.1
  have reach : chain.reach = maxReorgDepth + 1 := by rw [Chain.reach, wins.binds, if_pos rfl]
  have refused (long : maxReorgDepth + 2 < side.length + 1) :
      (chain.submit block now).2 = .error (.forkPointNotFound maxReorgDepth) :=
    tracks.submit_unreached sound kept apart nonempty wins.members wins.valid wins.known wins.off
      admits (by omega) heavier
  refine ⟨⟨?_, ?_⟩, refused⟩
  · rintro ⟨verdict, _⟩
    by_contra long
    rw [refused (by omega)] at verdict
    cases verdict
  · intro near
    obtain ⟨verdict, after⟩ := tracks.submit_wins sound kept apart bodiesApart nonempty wins.members
      wins.valid wins.known wins.off admits (by omega)
      (by rw [oldLength]; omega) (by rw [belowLength, oldLength]; exact required)
      (by rw [oldLength]; exact wins.undoable) wins.available
    rw [oldLength] at verdict
    refine ⟨verdict, ?_⟩
    rw [after.active, map_append, tracks.active, take_append_drop, map_take]

variable {tree : BlockTree} {chain : Chain} {height : Nat}

theorem BlockTree.Rising.validAt {limit : Nat} (rising : tree.Rising limit)
    (easy : EasyWork) (branchFits : branch < 2 ^ 32) (inside : place ≤ limit)
    (marked : tree.Marked branch place)
    (present : ∀ step ≤ place, tree.time branch step ≤ now + maxFutureTime) :
    ValidAt .regtest now (tree.path 0 (tree.fork branch)) (tree.above branch place) := by
  intro done block rest split
  obtain ⟨step, higher, lower, rfl, rfl⟩ := BlockTree.above_split split
  have own : tree.owner branch (step + 1) = branch := by rw [BlockTree.owner, if_neg (by omega)]
  have clock : tree.time (tree.owner branch (step + 1)) (step + 1) ≤ now + maxFutureTime := by
    rw [own]
    exact present (step + 1) lower
  have accepts := rising.accepts easy branchFits (by omega)
    (fun part positive low => marked part positive (by omega)) clock
  rwa [own, BlockTree.path_eq_append higher] at accepts

/-- The next block of a branch of the tree completes it. -/
theorem Standing.winning {tops : Nat → Nat} (standing : Standing tree chain height (upTo tops))
    (apart : HistoryApart tree.history) {limit branches heights : Nat}
    (rising : tree.Rising limit) (easy : EasyWork)
    (source : chain.source = tree.archive branches heights) (branchesFit : branches ≤ 2 ^ 32)
    (heightsFit : heights ≤ 2 ^ 32) (stored : branch < branches) (trunkStored : height < heights)
    (branchStored : place + 1 < heights) (trunk : height ≤ tops 0) (top : tops branch = place)
    (side : branch ≠ 0) (onTrunk : tree.fork branch < height) (leaves : tree.fork branch ≤ place)
    (inside : place < limit) (marked : tree.Marked branch (place + 1))
    (present : ∀ step ≤ place + 1, tree.time branch step ≤ now + maxFutureTime)
    (near : height ≤ place + maxReorgDepth) (final : height - tree.fork branch ≤ maxReorgDepth)
    (heavy : threshold height (tree.fork branch) < (place + 2) * 256)
    (undoable : height - tree.fork branch ≤ chain.undos.length) :
    WinningBranch .regtest tree.history chain (tree.path 0 height) (tree.above branch place)
      (tree.block branch (place + 1)) (tree.fork branch) now := by
  subst top
  obtain ⟨onBranch, admits⟩ := standing.next apart rising easy trunk side (by omega)
    onTrunk leaves inside near (present _ le_rfl)
  have whole := standing.height_eq
  have joined := BlockTree.above_succ leaves
  obtain ⟨indexed, _, sameSource⟩ := standing.indexSide apart onBranch.here admits
  have weighs := admits.workWith_eq
  refine ⟨standing.binds, ?_, ?_, ?_, ?_, ?_, admits.unknown, admits.offTip, ?_, ?_, ?_, ?_⟩
  · omega
  · rwa [whole]
  · rw [← joined]
    intro body listed
    obtain ⟨step, here, _, rfl⟩ := onBranch.mem_above listed
    exact ⟨branch, step, here, rfl⟩
  · intro body listed
    obtain ⟨step, higher, lower, rfl⟩ := BlockTree.mem_above leaves listed
    have here : tree.Place branch step := ⟨.inr higher, by omega, by omega⟩
    have found := onBranch.indexed step lower
    rw [here.owner_eq] at found
    exact (standing.knows branch step here).mpr found
  · intro body listed active
    obtain ⟨step, higher, lower, rfl⟩ := BlockTree.mem_above leaves listed
    rw [standing.tracks.active] at active
    obtain ⟨other, onTrunk, same⟩ := mem_map.mp active
    obtain ⟨part, there, _, rfl⟩ := BlockTree.mem_trunk (by omega) onTrunk
    exact side (BlockTree.place_inj apart.headers there ⟨.inr higher, by omega, by omega⟩ same).1.symm
  · rw [tree.path_take 0 onTrunk.le, ← joined]
    exact rising.validAt easy (by omega) inside marked present
  · rwa [whole]
  · rwa [whole, standing.reorgThreshold_eq onTrunk.le (by omega), ← weighs]
  · rw [← weighs, ← joined]
    intro body listed
    have read : ∀ other step, tree.Place other step → other < branches → step < heights →
        (Chain.bodyById (chain.indexSide (tree.block branch (tops branch + 1))
          ((tops branch + 2) * 256)) (tree.block other step).header.blockId).isSome = true := by
      intro other step here few low
      rw [indexed.bodyById_eq apart here]
      · rfl
      · rw [sameSource, source]
        exact BlockTree.archive_eq apart.headers branchesFit heightsFit here few low
    rcases mem_append.mp listed with upper | replaced
    · obtain ⟨step, here, low, rfl⟩ := onBranch.mem_above upper
      exact read branch step here stored (by omega)
    · obtain ⟨step, here, low, rfl⟩ := BlockTree.mem_trunk (by omega) (mem_of_mem_drop replaced)
      exact read 0 step here (by omega) (by omega)

end Winning

/-- A trunk and a branch from the genesis, all their blocks valid. -/
def twinTree : BlockTree := sampleTree (fun _ => 0) 0 0 (2, 1)

theorem twinTree_rising : twinTree.Rising 727 :=
  sampleTree_rising (fun _ => le_rfl) (by decide) (by decide)

theorem twinTree_time_le (low : place ≤ 727) :
    twinTree.time branch place ≤ genesisTime.toNat + 727 + maxFutureTime :=
  (sampleTree_time_le branch place).trans (by omega)

variable {height : Nat}

theorem twinTree_marked (few : branch < 2) : twinTree.Marked branch height := by
  refine sampleTree_marked fun place _ _ same => ?_
  have owner : twinTree.owner branch place = 2 := congrArg Prod.fst same
  rw [BlockTree.owner] at owner
  split at owner <;> omega

section Twins
variable [Crypto] [WorkHash]

/-- The trunk up to a height, then the branch. -/
def twinCalls (height count : Nat) : List Call :=
  Standing.trunkCalls twinTree 2 728 height (genesisTime.toNat + 727) ++
    Standing.submits twinTree 1 0 count (genesisTime.toNat + 727)

omit [WorkHash] in
theorem twinCalls_genuine {count : Nat} (low : height < 728) (few : count < 728) :
    ∀ call ∈ twinCalls height count, call.From twinTree.history ∧ call.Reads ReadBack := by
  intro call listed
  rcases mem_append.mp listed with early | later
  · exact Standing.trunkCalls_genuine twinTree (by decide) (by decide) (by omega) call early
  · exact Standing.submits_genuine twinTree (by decide) (.inr (by decide)) (by omega) call later

theorem twin_standing (apart : HistoryApart twinTree.history) (easy : EasyWork)
    {count : Nat} (positive : 0 < height) (low : height ≤ maxReorgDepth) (few : count ≤ 727)
    (weak : (count + 1) * 256 ≤ Standing.threshold height 0)
    (reached : chain = run (twinCalls height count) (Chain.new .regtest (genesisBlock 0))) :
    Standing twinTree chain height (Standing.upTo (Standing.grown twinTree height 1 (0 + count))) ∧
      chain.source = twinTree.archive 2 728 ∧ chain.undos.length = min (height + 1) bodyWindow := by
  have limit : maxReorgDepth ≤ 727 := by decide
  refine Standing.branched apart twinTree_rising easy (by decide) (by decide) (by omega)
    (twinTree_marked (by decide)) ?_ (by decide) (by decide) positive ?_ ?_ ?_ ?_ reached
  · exact fun place lower => twinTree_time_le (by omega)
  · change 0 + count ≤ 727
    omega
  · omega
  · intro place lower
    have upper : place ≤ 0 + count := lower
    exact twinTree_time_le (by omega)
  · intro place lower
    have upper : place < 0 + count := lower
    exact .inl ((Nat.mul_le_mul_right 256 (show place + 2 ≤ count + 1 by omega)).trans weak)

end Twins

/-- A branch of two blocks from the genesis wins over one. -/
theorem enough_work_wins_twins :
    letI : Crypto := tailCrypto
    letI : WorkHash := zeroWork
    let chain := run (twinCalls 1 1) (Chain.new .regtest (genesisBlock 0))
    WinningBranch .regtest twinTree.history chain (twinTree.path 0 1) (twinTree.above 1 1)
        (twinTree.block 1 2) 0 (genesisTime.toNat + 727) ∧
      (chain.submit (twinTree.block 1 2) (genesisTime.toNat + 727)).2 = .ok (.reorganized 1) := by
  let _ := tailCrypto
  let _ := zeroWork
  have apart : HistoryApart twinTree.history := sampleTree_historyApart
  have root : twinTree.Place 0 0 := ⟨.inl rfl, by decide, by decide⟩
  obtain ⟨standing, source, records⟩ := twin_standing apart zeroWork_easy
    (show 0 < 1 by decide) (by decide) (show 1 ≤ 727 by decide) (by decide) rfl
  have wins := standing.winning apart twinTree_rising zeroWork_easy source (by decide) (by decide)
    (show 1 < 2 by decide) (by decide) (show 1 + 1 < 728 by decide) (by decide) rfl (by decide)
    (by decide) (by decide) (by decide) (twinTree_marked (by decide))
    (fun step low => twinTree_time_le (low.trans (by decide))) (by decide) (by decide) (by decide)
    (by rw [records]; decide)
  have switched := ((enough_work_wins .regtest 0 apart (BlockTree.bodiesApart apart.headers)
    ⟨0, 0, root, rfl⟩ (twinCalls 1 1)
    (fun call listed => (twinCalls_genuine (by decide) (by decide) call listed).1)
    (fun call listed => (twinCalls_genuine (by decide) (by decide) call listed).2)).2 _
    standing.tracks _ _ _ _ wins).1.mpr (by rw [BlockTree.above_length]; decide)
  rw [standing.height_eq] at switched
  exact ⟨wins, switched.1⟩

/-- A branch of 726 blocks with enough work is refused, for the walk back stops before its fork. -/
theorem enough_work_refused :
    letI : Crypto := tailCrypto
    letI : WorkHash := zeroWork
    let chain := run (twinCalls 580 725) (Chain.new .regtest (genesisBlock 0))
    (∀ call ∈ twinCalls 580 725, call.From twinTree.history ∧ call.Reads ReadBack) ∧
      WinningBranch .regtest twinTree.history chain (twinTree.path 0 580) (twinTree.above 1 725)
        (twinTree.block 1 726) 0 (genesisTime.toNat + 727) ∧
      (chain.submit (twinTree.block 1 726) (genesisTime.toNat + 727)).2 =
        .error (.forkPointNotFound maxReorgDepth) := by
  let _ := tailCrypto
  let _ := zeroWork
  have apart : HistoryApart twinTree.history := sampleTree_historyApart
  have bar : Standing.threshold 580 0 = 185856 := by decide
  obtain ⟨standing, source, records⟩ := twin_standing apart zeroWork_easy
    (show 0 < 580 by decide) (by decide) (show 725 ≤ 727 by decide) (by decide) rfl
  have wins := standing.winning apart twinTree_rising zeroWork_easy source (by decide) (by decide)
    (show 1 < 2 by decide) (by decide) (show 725 + 1 < 728 by decide) (by decide) rfl (by decide)
    (by decide) (by decide) (by decide) (twinTree_marked (by decide))
    (fun step low => twinTree_time_le (low.trans (by decide))) (by decide) (by decide)
    (bar.trans_lt (by decide)) (by rw [records]; decide)
  obtain ⟨onBranch, admits⟩ := standing.next apart twinTree_rising zeroWork_easy
    (show 580 ≤ _ by decide) (show 1 ≠ 0 by decide) (by decide) (by decide) (by decide) (by decide)
    (by decide) (twinTree_time_le (by decide))
  exact ⟨twinCalls_genuine (by decide) (by decide), wins,
    standing.unreached apart onBranch admits (by decide) (by decide)⟩

/-! ## Buried blocks -/

section Buried
variable [Crypto] [WorkHash] {network : Network} {nonce : UInt64} {history : Set Block}
  {chain : Chain} {blocks : List Block} {fork place : Nat} {branch : List Hash256} {block : Block}
  {id : Hash256}

/-- Submissions while finality binds, at clocks no active block is ahead of, with no block lower
than the tip that has more work. -/
def Orderly : Chain → List Call → Prop
  | _, [] => True
  | chain, call :: rest =>
    (∃ block now, call = .submit block now ∧ chain.finalityBinds = true ∧ chain.Present now ∧
      ∀ total, chain.Admits block total now → chain.totalWork < total →
        chain.height ≤ block.header.height.toNat) ∧
      Orderly (call.perform chain) rest

omit [Crypto] [WorkHash] in
/-- The walk back keeps what it found at the end. -/
theorem pathToActive_suffix {steps : Nat} {current : Hash256} {found : List Hash256}
    (path : chain.pathToActive steps current found = some (fork, branch)) : found <:+ branch := by
  induction steps generalizing current found with
  | zero => cases path
  | succ steps ih =>
    rw [Chain.pathToActive] at path
    split at path
    · cases path
    · split at path
      · cases path
        exact suffix_refl _
      · split at path
        · cases path
        · exact (suffix_cons current found).trans (ih path)

omit [WorkHash] in
/-- The branch of an unknown block ends with it. -/
theorem branchOf_getLast? (sound : Sound (headersOf history) chain)
    (unknown : chain.index.lookup block.header.blockId = none)
    (found : chain.branchOf block = some (fork, branch)) :
    branch.getLast? = some block.header.blockId := by
  have fresh := sound.unknown_notActive unknown
  rw [Chain.branchOf, Chain.pathToActive] at found
  rw [lookup_insert_eq, if_pos rfl] at found
  dsimp only at found
  split at found
  · rename_i active
    rw [Chain.isActive, beq_iff_eq] at active
    exact absurd (mem_of_getElem? active) fresh
  · split at found
    · cases found
    · obtain ⟨front, rfl⟩ := pathToActive_suffix found
      rw [getLast?_concat]

/-- After a switch the chain is as high as the block that started it. -/
theorem Tracks.height_of_switch {below bodies : List Block}
    (tracks : Tracks network nonce history chain (below ++ bodies))
    (apart : HashesApart (headersOf history)) (member : block ∈ history)
    (last : (bodies.map fun body => body.header.blockId).getLast? = some block.header.blockId) :
    chain.height = block.header.height.toNat := by
  rw [getLast?_map, Option.map_eq_some_iff] at last
  obtain ⟨tip, top, same⟩ := last
  obtain ⟨front, rfl⟩ := getLast?_eq_some_iff.mp top
  have length := tracks.height_eq
  rw [← append_assoc, length_append, length_singleton] at length
  have here : (below ++ (front ++ [tip]))[(below ++ front).length]? = some tip := by simp
  have place := tracks.lineage.heights here
  have header := apart.injective ⟨tip, tracks.lineage.members tip (by simp), rfl⟩
    ⟨block, member, rfl⟩ same
  rw [← header, place]
  omega

/-- What a submission leaves of a block with more than the finality window above it. -/
theorem Tracks.buried_submit (tracks : Tracks network nonce history chain blocks)
    (sound : Sound (headersOf history) chain) (kept : WellKept chain) (apart : HistoryApart history)
    (bodiesApart : BodiesApart history) (member : block ∈ history) {now : Nat}
    (binds : chain.finalityBinds = true) (present : chain.Present now)
    (higher : ∀ total, chain.Admits block total now → chain.totalWork < total →
      chain.height ≤ block.header.height.toNat) (here : chain.active[place]? = some id)
    (buried : place + maxReorgDepth < chain.height) :
    (chain.submit block now).1.active[place]? = some id ∧
      place + maxReorgDepth < (chain.submit block now).1.height := by
  have inTime := tracks.present sound apart.headers present
  have length := tracks.height_eq
  have unchanged : ∀ {next : Chain}, Tracks network nonce history next blocks →
      next.active[place]? = some id ∧ place + maxReorgDepth < next.height := by
    intro next after
    have same := (tracks.agree after).1
    rw [Chain.height, same]
    exact ⟨here, buried⟩
  cases tracks.submit sound kept apart member bodiesApart now with
  | idle after _ _ _ => exact unchanged after
  | extended after _ =>
    have grown := after.height_eq
    rw [length_append, length_singleton] at grown
    refine ⟨?_, by omega⟩
    rw [after.active, map_append, ← tracks.active]
    exact (getElem?_append_left (List.getElem?_eq_some_iff.mp here).1).trans here
  | reorganized fork branch bodies branchOf named final heavier after _ =>
    obtain ⟨total, admits, more⟩ := heavier
    have last := branchOf_getLast? sound admits.unknown branchOf
    rw [named] at last
    have top := after.height_of_switch apart.headers member last
    have least := higher total admits more
    have deep : place < fork + 1 := by
      by_contra shallow
      exact final ⟨binds, by omega⟩
    refine ⟨?_, by omega⟩
    rw [after.active, map_append, map_take, ← tracks.active,
      getElem?_append_left, getElem?_take_of_lt deep]
    · exact here
    · rw [length_take]
      exact lt_min deep (List.getElem?_eq_some_iff.mp here).1
  | givenUp fork _ _ attempt _ outcome =>
    refine unchanged (outcome.tracks_of_present (fun body listed => inTime body ?_)
      (attempt.short tracks sound kept apart member binds))
    rw [← drop_one]
    exact drop_subset_drop_left _ (Nat.le_add_left 1 fork) listed

theorem Kept.buried (apart : HistoryApart history) (bodiesApart : BodiesApart history)
    {later : List Call} (kept : Kept network nonce history chain)
    (brings : ∀ call ∈ later, call.From history) (orderly : Orderly chain later)
    (here : chain.active[place]? = some id) (buried : place + maxReorgDepth < chain.height) :
    (run later chain).active[place]? = some id := by
  induction later generalizing chain with
  | nil => exact here
  | cons call rest ih =>
    obtain ⟨⟨block, now, rfl, binds, present, higher⟩, further⟩ := orderly
    have member : block ∈ history := brings _ (.head _)
    obtain ⟨⟨sound, blocks, tracks⟩, well⟩ := kept
    obtain ⟨stays, deep⟩ := tracks.buried_submit sound well apart bodiesApart member binds present
      higher here buried
    exact ih ((kept_stable network nonce apart).submit ⟨⟨sound, blocks, tracks⟩, well⟩ member now)
      (fun other listed => brings other (.tail _ listed)) further stays deep

/-- A block with more than the finality window above it stays active through orderly submissions. -/
theorem buried_block_stays (network : Network) (nonce : UInt64) (apart : HistoryApart history)
    (bodiesApart : BodiesApart history) (genesisIn : genesisBlock nonce ∈ history)
    (calls : List Call) (brings : ∀ call ∈ calls, call.From history)
    (reads : ∀ call ∈ calls, call.Reads ReadBack) :
    let chain := run calls (Chain.new network (genesisBlock nonce))
    ∀ later : List Call, (∀ call ∈ later, call.From history) → Orderly chain later →
      ∀ place id, chain.active[place]? = some id → place + maxReorgDepth < chain.height →
        (run later chain).active[place]? = some id := by
  intro chain later members orderly place id here buried
  exact Kept.buried apart bodiesApart (kept_run network nonce apart genesisIn brings reads) members
    orderly here buried

end Buried

/-- Submissions leave the settings as they are. -/
theorem run_sameSettings [Crypto] [WorkHash] {calls : List Call}
    (submits : ∀ call ∈ calls, ∃ block now, call = .submit block now) (chain : Chain) :
    SameSettings chain (run calls chain) := by
  induction calls generalizing chain with
  | nil => exact .refl chain
  | cons call rest ih =>
    obtain ⟨block, now, rfl⟩ := submits call (.head _)
    exact (submit_frame chain block now).1.trans
      (ih (fun other listed => submits other (.tail _ listed)) _)

/-- A trunk far ahead above its block 577, a branch from there that starts with an invalid block,
and a valid branch from the genesis. -/
def buriedTree : BlockTree :=
  sampleTree (fun branch => if branch = 1 then 577 else 0) 577 1_000_000 (1, 578)

theorem buriedTree_rising : buriedTree.Rising 760 := by
  refine sampleTree_rising (fun branch => ?_) (by decide) (by decide)
  split <;> omega

theorem buriedTree_marked {branch height : Nat} (valid : branch ≠ 1) :
    buriedTree.Marked branch height := by
  refine sampleTree_marked fun place _ _ same => ?_
  have owner : buriedTree.owner branch place = 1 := congrArg Prod.fst same
  rw [BlockTree.owner] at owner
  split at owner <;> omega

theorem buriedTree_time_side {branch place : Nat} (side : branch ≠ 0) (low : place ≤ 760) :
    buriedTree.time branch place ≤ genesisTime.toNat + 760 + maxFutureTime := by
  rw [buriedTree, sampleTree_time_side side]
  omega

section BuriedTree
variable [Crypto] [WorkHash] {chain : Chain}

/-- The trunk at a late clock. -/
def buriedCalls : List Call :=
  Standing.trunkCalls buriedTree 3 761 722 (genesisTime.toNat + 1_000_722)

/-- Both branches at an early clock. -/
def digCalls : List Call :=
  Standing.submits buriedTree 1 577 182 (genesisTime.toNat + 760) ++
    Standing.submits buriedTree 2 0 722 (genesisTime.toNat + 760)

section
variable (apart : HistoryApart buriedTree.history) (easy : EasyWork)
  (reached : chain = run buriedCalls (Chain.new .regtest (genesisBlock 0)))
include apart easy reached

theorem buried_standing :
    Standing buriedTree chain 722
        (Standing.upTo (Function.update (Standing.roots buriedTree) 0 722)) ∧
      chain.source = buriedTree.archive 3 761 ∧ chain.undos.length = 723 := by
  refine Standing.trunk apart buriedTree_rising easy (by decide) (by decide) (by decide)
    (buriedTree_marked (by decide)) ?_ reached
  intro place low
  exact (sampleTree_time_le 0 place).trans (by omega)

/-- The branch that is not valid takes the trunk down to block 577. -/
theorem buried_truncated :
    Standing buriedTree
        (run (Standing.submits buriedTree 1 577 182 (genesisTime.toNat + 760)) chain) 577
        (Standing.upTo (Standing.grown buriedTree 722 1 759)) ∧
      (run (Standing.submits buriedTree 1 577 182 (genesisTime.toNat + 760)) chain).source =
        buriedTree.archive 3 761 ∧
      (run (Standing.submits buriedTree 1 577 182 (genesisTime.toNat + 760)) chain).undos.length =
        578 := by
  have bar : Standing.threshold 722 577 = 194368 := by decide
  obtain ⟨standing, source, records⟩ := buried_standing apart easy reached
  obtain ⟨filled, sameRecords, sameSource⟩ := standing.fill apart buriedTree_rising easy
    (show 722 ≤ _ by decide) (show 1 ≠ 0 by decide) (by decide) (by decide) (by decide) (by decide)
    (show 577 + 181 ≤ 760 by decide) (by decide)
    (fun place low => buriedTree_time_side (by decide) (low.trans (by decide)))
    (by
      intro place low
      have lower : place < 758 := low
      have fork : buriedTree.fork 1 = 577 := rfl
      rw [fork, bar]
      omega)
  have top : Function.update (Standing.roots buriedTree) 0 722 1 = 577 := rfl
  rw [top] at filled sameRecords sameSource
  rw [Standing.run_submits_succ]
  generalize run (Standing.submits buriedTree 1 577 181 (genesisTime.toNat + 760)) chain = before at *
  rw [source] at sameSource
  rw [← sameRecords] at records
  have here : buriedTree.Place 1 759 := ⟨.inr (by decide), by decide, by decide⟩
  have frame := (submit_frame before (buriedTree.block 1 759) (genesisTime.toNat + 760)).2
  obtain ⟨knows, ⟨_, after⟩ | ⟨_, step, _, inside, _, _, given⟩⟩ :=
    filled.switch_next apart buriedTree_rising easy sameSource (by decide) (by decide)
      (show 1 < 3 by decide) (by decide) (show 758 + 1 < 761 by decide) (by decide) rfl (by decide)
      (by decide) (by decide) (by decide) (by decide)
      (buriedTree_time_side (by decide) (by decide)) (by decide) (by decide)
      (bar.trans_lt (by decide)) (by rw [records]; decide)
  · have leaves : buriedTree.fork 1 ≤ 577 := by decide
    exact absurd after.lineage
      (BlockTree.not_lineage leaves (by decide) (by decide) (by decide) (by decide))
  · cases given with
    | stuck _ _ _ _ long =>
      have window : bodyWindow = 1008 := rfl
      rw [BlockTree.above_length, window] at long
      omega
    | restored _ present _ _ =>
      have late := present (buriedTree.block 0 578)
        (BlockTree.mem_drop_trunk (by decide) (by decide))
      rw [buriedTree_rising.time_eq ⟨.inl rfl, by decide, by decide⟩] at late
      exact absurd late (by decide)
    | truncated tracks _ again few undos =>
      have fork : buriedTree.fork 1 = 577 := rfl
      have window : bodyWindow = 1008 := rfl
      have more := Standing.insert_upTo (Standing.grown buriedTree 722 1 758) 1
      rw [Standing.grown, Function.update_self, Function.update_idem] at more
      refine ⟨?_, frame.trans sameSource, undos.trans ?_⟩
      · rw [Standing.grown, ← more]
        exact filled.after_submit apart here tracks knows
      · rw [length_drop, BlockTree.path_length, fork] at few
        rw [records, length_drop, BlockTree.path_length, BlockTree.above_length, fork, window]
        omega

/-- The branch from the genesis wins over what is left of the trunk. -/
theorem buried_replaced :
    Tracks .regtest 0 buriedTree.history (run digCalls chain) (buriedTree.path 2 722) := by
  have bar : Standing.threshold 577 0 = 184896 := by decide
  obtain ⟨standing, source, records⟩ := buried_truncated apart easy reached
  rw [digCalls, run, List.foldl_append]
  change Tracks _ _ _ (run _ (run _ chain)) _
  obtain ⟨filled, sameRecords, sameSource⟩ := standing.fill apart buriedTree_rising easy
    (show 577 ≤ _ by decide) (show 2 ≠ 0 by decide) (by decide) (by decide) (by decide) (by decide)
    (show 0 + 721 ≤ 760 by decide) (by decide)
    (fun place low => buriedTree_time_side (by decide) (low.trans (by decide)))
    (by
      intro place low
      have lower : place < 721 := low
      have fork : buriedTree.fork 2 = 0 := rfl
      rw [fork, bar]
      omega)
  rw [Standing.run_submits_succ]
  rw [source] at sameSource
  rw [← sameRecords] at records
  obtain ⟨_, ⟨_, after⟩ | ⟨_, step, _, inside, _, refuses, _⟩⟩ :=
    filled.switch_next apart buriedTree_rising easy sameSource (by decide) (by decide)
      (show 2 < 3 by decide) (by decide) (show 721 + 1 < 761 by decide) (by decide) rfl (by decide)
      (by decide) (by decide) (by decide) (by decide)
      (buriedTree_time_side (by decide) (by decide)) (by decide) (by decide)
      (bar.trans_lt (by decide)) (by rw [records]; decide)
  · exact after
  · have own : buriedTree.owner 2 (step + 1) = 2 := rfl
    have clock : buriedTree.time (buriedTree.owner 2 (step + 1)) (step + 1) ≤
        genesisTime.toNat + 760 + maxFutureTime := by
      rw [own]
      exact buriedTree_time_side (by decide) (by omega)
    exact absurd (buriedTree_rising.accepts easy (by decide) (by omega)
      (buriedTree_marked (by decide)) clock) refuses

end

omit [WorkHash] in
theorem buriedCalls_genuine :
    ∀ call ∈ buriedCalls, call.From buriedTree.history ∧ call.Reads ReadBack :=
  Standing.trunkCalls_genuine buriedTree (by decide) (by decide) (by decide)

omit [WorkHash] in
theorem digCalls_genuine :
    ∀ call ∈ digCalls, call.From buriedTree.history ∧ call.Reads ReadBack := by
  intro call listed
  rcases mem_append.mp listed with first | second
  · exact Standing.submits_genuine buriedTree (by decide) (.inr (by decide)) (by decide) call first
  · exact Standing.submits_genuine buriedTree (by decide) (.inr (by decide)) (by decide) call second

end BuriedTree

/-- A block with 721 above it is removed by submissions during which finality binds. -/
theorem buried_block_removed :
    letI : Crypto := tailCrypto
    letI : WorkHash := zeroWork
    let chain := run buriedCalls (Chain.new .regtest (genesisBlock 0))
    (∀ call ∈ buriedCalls ++ digCalls, call.From buriedTree.history ∧ call.Reads ReadBack) ∧
      (∀ call ∈ digCalls, ∃ block now, call = .submit block now) ∧
      (∀ before after, digCalls = before ++ after → (run before chain).finalityBinds = true) ∧
      chain.active[1]? = some (buriedTree.block 0 1).header.blockId ∧
      1 + maxReorgDepth < chain.height ∧
      (buriedTree.block 0 1).header.blockId ∉ (run digCalls chain).active := by
  let _ := tailCrypto
  let _ := zeroWork
  have apart : HistoryApart buriedTree.history := sampleTree_historyApart
  obtain ⟨standing, _, _⟩ := buried_standing apart zeroWork_easy rfl
  have replaced := buried_replaced apart zeroWork_easy rfl
  have submits : ∀ call ∈ digCalls, ∃ block now, call = Call.submit block now := by
    intro call listed
    rcases mem_append.mp listed with first | second
    · obtain ⟨step, _, rfl⟩ := mem_map.mp first
      exact ⟨_, _, rfl⟩
    · obtain ⟨step, _, rfl⟩ := mem_map.mp second
      exact ⟨_, _, rfl⟩
  refine ⟨?_, submits, ?_, standing.active_eq (by decide), ?_, ?_⟩
  · intro call listed
    exact (mem_append.mp listed).elim (buriedCalls_genuine call) (digCalls_genuine call)
  · intro before after split
    have frame := run_sameSettings (fun call listed => submits call (by
      rw [split]
      exact mem_append_left _ listed))
      (run buriedCalls (Chain.new .regtest (genesisBlock 0)))
    exact binds_regtest (frame.network.trans standing.tracks.network)
      (frame.finalityHold.trans standing.hold)
  · rw [standing.height_eq]
    decide
  · rw [replaced.active]
    intro listed
    obtain ⟨_, onPath, same⟩ := mem_map.mp listed
    obtain ⟨step, inside, rfl⟩ := mem_map.mp onPath
    have low := mem_range.mp inside
    obtain ⟨owner, rfl⟩ := BlockTree.place_inj apart.headers
      (buriedTree.place_owner (by decide) (by omega)) ⟨.inl rfl, by decide, by decide⟩ same
    exact absurd owner (by decide)

/-- The same block stays while the trunk grows. -/
theorem buried_block_stays_grown :
    letI : Crypto := tailCrypto
    letI : WorkHash := zeroWork
    let chain := run buriedCalls (Chain.new .regtest (genesisBlock 0))
    (run [.submit (buriedTree.block 0 723) (genesisTime.toNat + 1_000_723)] chain).active[1]? =
      some (buriedTree.block 0 1).header.blockId := by
  let _ := tailCrypto
  let _ := zeroWork
  have apart : HistoryApart buriedTree.history := sampleTree_historyApart
  have root : buriedTree.Place 0 0 := ⟨.inl rfl, by decide, by decide⟩
  have next : buriedTree.Place 0 723 := ⟨.inl rfl, by decide, by decide⟩
  obtain ⟨standing, _, _⟩ := buried_standing apart zeroWork_easy rfl
  refine buried_block_stays .regtest 0 apart (BlockTree.bodiesApart apart.headers)
    ⟨0, 0, root, rfl⟩ buriedCalls (fun call listed => (buriedCalls_genuine call listed).1)
    (fun call listed => (buriedCalls_genuine call listed).2) _ ?_ ?_ 1 _
    (standing.active_eq (by decide)) (by rw [standing.height_eq]; decide)
  · intro call listed
    rw [mem_singleton.mp listed]
    exact ⟨0, 723, next, rfl⟩
  · refine ⟨⟨_, _, rfl, standing.binds, ?_, ?_⟩, trivial⟩
    · intro id listed
      refine standing.active_times apart.headers buriedTree_rising (by decide) ?_ id
        (mem_of_mem_tail listed)
      intro place low
      exact (sampleTree_time_le 0 place).trans (by omega)
    · intro total admits _
      have onTip : (buriedTree.block 0 723).header.prevBlock = _ := standing.tip_eq.symm
      exact absurd onTip admits.offTip

end Q21Formal.Ledger

import Q21Formal.Ledger.Tracks

/-!
# A reorganization given up

When a block of a branch is refused, the old blocks are connected again, at the clock of the call.
The old chain comes back when none of its blocks is ahead of that clock; the undo records as far as
the window did not push them out.
-/

namespace Q21Formal.Ledger
open Library.Refusal Library.Maps Primitives List Option

section Restore
variable [Crypto]

/-- What the archive checks of a block it reads back. -/
def ReadBack (id : Hash256) (body : Block) : Prop :=
  body.header.blockId = id ∧ body.checkShape = .ok ()

/-- The blocks of good shape are told apart by their identifiers. -/
def BodiesApart (history : Set Block) : Prop :=
  Set.InjOn (fun block : Block => block.header.blockId) {block ∈ history | block.checkShape = .ok ()}

/-- The bodies at hand belong to their identifiers, and the records kept fit the window. -/
structure WellKept (chain : Chain) : Prop where
  bodies : ∀ id body, chain.blocks.lookup id = some body → ReadBack id body
  sources : ∀ id body, chain.source id = some body → ReadBack id body
  window : chain.undos.length ≤ bodyWindow

variable {chain next : Chain} {block body : Block} {fees now fork : Nat}
  {bodies below above : List Block}

section
variable (kept : WellKept chain)
include kept

theorem WellKept.sameLedger (same : SameLedger chain next) : WellKept next := by
  refine ⟨fun id body found => kept.bodies id body (same.blocks id body found), ?_, ?_⟩
  · rw [same.source]
    exact kept.sources
  · rw [same.undos]
    exact kept.window

theorem WellKept.insertBody (shape : block.checkShape = .ok ()) :
    WellKept { chain with blocks := chain.blocks.insert block.header.blockId block } := by
  refine ⟨?_, kept.sources, kept.window⟩
  intro id body found
  rw [lookup_insert_eq] at found
  split at found
  · rename_i same
    cases found
    exact ⟨same.symm, shape⟩
  · exact kept.bodies id body found

theorem WellKept.bodyById {id : Hash256} (found : chain.bodyById id = some body) :
    ReadBack id body := by
  rcases or_eq_some_iff.mp found with held | ⟨_, archived⟩
  · exact kept.bodies id body held
  · exact kept.sources id body archived

theorem WellKept.disconnect : WellKept chain.disconnect.1 := by
  unfold Chain.disconnect
  split
  · rename_i undo undos parent recorded last
    split
    · exact kept
    · refine ⟨kept.bodies, kept.sources, ?_⟩
      have window := kept.window
      rw [recorded, length_cons] at window
      exact Nat.le_of_succ_le window
  · exact kept

end

variable [WorkHash]

theorem checkBlock_shape {utxo : UtxoSet} {context : BlockContext}
    (checked : checkBlock block utxo context = .ok fees) : block.checkShape = .ok () := by
  simp only [checkBlock, bind_eq_ok, mapError_eq_ok] at checked
  obtain ⟨_, _, _, shape, _⟩ := checked
  exact shape

/-- A block connected: its shape was checked, and one more record is kept if the window allows. -/
theorem connect_shape (connected : chain.connect block now = .ok (next, fees)) :
    block.checkShape = .ok () := by
  simp only [Chain.connect, bind_eq_ok] at connected
  obtain ⟨_, _, _, accepted, _⟩ := connected
  exact checkBlock_shape accepted

theorem connect_undos_length (connected : chain.connect block now = .ok (next, fees)) :
    next.undos.length = min (chain.undos.length + 1) bodyWindow := by
  obtain ⟨_, _, _, passed⟩ := connect_ok connected
  obtain ⟨_, same⟩ := passed.extended
  rw [same.undos, Chain.extended, length_take, length_cons, Nat.min_comm]

theorem WellKept.connect (kept : WellKept chain)
    (connected : chain.connect block now = .ok (next, fees)) : WellKept next := by
  have shape := connect_shape connected
  have length := connect_undos_length connected
  obtain ⟨_, _, _, passed⟩ := connect_ok connected
  obtain ⟨_, same⟩ := passed.extended
  refine ⟨?_, ?_, length ▸ min_le_right _ _⟩
  · intro id body found
    exact (kept.insertBody shape).bodies id body (same.blocks id body found)
  · rw [same.source]
    exact kept.sources

omit [WorkHash] in
theorem genesisBlock_shape (nonce : UInt64) : (genesisBlock nonce).checkShape = .ok () := by
  have coinbase : genesisCoinbase.checkShape = .ok () := by decide +kernel
  simp only [Block.checkShape, genesisBlock, bind_eq_ok, require_eq_ok]
  refine ⟨(), rfl, (), rfl, (), forM_eq_ok.mpr ?_, (), require_eq_ok.mpr rfl, require_eq_ok.mpr rfl⟩
  intro tx member
  rw [mem_singleton.mp member, coinbase]
  rfl

variable {network : Network} {nonce : UInt64} {history : Set Block} {blocks : List Block}

theorem Lineage.shapes (lineage : Lineage network nonce history blocks) :
    ∀ block ∈ blocks, block.checkShape = .ok () := by
  intro block member
  obtain ⟨before, after, split⟩ := append_of_mem member
  cases before with
  | nil =>
    have first := lineage.genesis
    rw [split] at first
    cases first
    exact genesisBlock_shape nonce
  | cons first rest =>
    obtain ⟨now, accepts⟩ := lineage.accepted _ block after split (cons_ne_nil _ _)
    obtain ⟨fees, checked⟩ := accepts.checked
    exact checkBlock_shape checked

/-- The chain follows its blocks and its bodies are genuine. -/
def Kept (network : Network) (nonce : UInt64) (history : Set Block) (chain : Chain) : Prop :=
  Followed network nonce history chain ∧ WellKept chain

theorem kept_stable (network : Network) (nonce : UInt64) (apart : HistoryApart history) :
    Stable history ReadBack (Kept network nonce history) := by
  have followed := followed_stable network nonce apart.headers apart.transactions ReadBack
  refine ⟨⟨⟨?_, ?_, ?_⟩, ?_, ?_, ?_⟩, ?_, ?_⟩
  · rintro chain next block now fees ⟨held, kept⟩ member connected
    exact ⟨followed.connect held member connected, kept.connect connected⟩
  · rintro chain ⟨held, kept⟩
    exact ⟨followed.disconnect held, kept.disconnect⟩
  · rintro chain next ⟨held, kept⟩ same settings
    exact ⟨followed.idle held same settings, kept.sameLedger same⟩
  · rintro chain ⟨held, _⟩ id body found
    exact followed.bodies held found
  · rintro chain block total now ⟨held, kept⟩ member admits
    refine ⟨followed.index held member admits, ?_⟩
    have indexed : WellKept { chain with
        index := chain.index.insert block.header.blockId ⟨block.header, total, 0⟩ } :=
      ⟨kept.bodies, kept.sources, kept.window⟩
    exact ((indexed.insertBody admits.shape).sameLedger (keepBody_sameLedger _ _ _)).sameLedger
      (keepSideBody_sameLedger _ _ _)
  · rintro chain ids ⟨held, kept⟩
    refine ⟨followed.forget ids held, ?_, kept.sources, kept.window⟩
    intro id body found
    rw [Chain.forgetSide, lookup_retain] at found
    split at found
    · exact kept.bodies id body found
    · cases found
  · rintro chain finalityHold returning bound ⟨held, kept⟩
    exact ⟨followed.notes _ _ _ held, kept.bodies, kept.sources, kept.window⟩
  · rintro chain source ⟨held, kept⟩ members
    exact ⟨followed.source held members, kept.bodies, fun id body found => (members id body found).2,
      kept.window⟩

theorem kept_run (network : Network) (nonce : UInt64) (apart : HistoryApart history)
    (genesisIn : genesisBlock nonce ∈ history) {calls : List Call}
    (brings : ∀ call ∈ calls, call.From history) (reads : ∀ call ∈ calls, call.Reads ReadBack) :
    Kept network nonce history (run calls (Chain.new network (genesisBlock nonce))) := by
  have start : WellKept (Chain.new network (genesisBlock nonce)) := by
    have window : 1 ≤ bodyWindow := by decide
    refine ⟨?_, fun id body found => (some_ne_none _ found.symm).elim, window⟩
    intro id body found
    rw [Chain.new, lookup_insert_eq] at found
    split at found
    · rename_i same
      cases found
      exact ⟨same.symm, genesisBlock_shape nonce⟩
    · cases found
  exact (kept_stable network nonce apart).run
    ⟨⟨Sound.new network nonce ⟨_, genesisIn, rfl⟩, _, Tracks.new network nonce genesisIn⟩, start⟩
    brings reads

omit [WorkHash] in
/-- Bodies each of which is the only one of its identifier are read back as they are. -/
theorem bodiesOf_eq {bodyById : Hash256 → Option Block} {blocks : List Block}
    (only : ∀ block ∈ blocks, ∀ body, bodyById block.header.blockId = some body → body = block)
    (found : Chain.bodiesOf bodyById (blocks.map fun block => block.header.blockId) = .ok bodies) :
    bodies = blocks := by
  induction blocks generalizing bodies with
  | nil =>
    cases found
    rfl
  | cons block rest ih =>
    rw [map_cons, Chain.bodiesOf] at found
    split at found
    · cases found
    · rename_i body read
      split at found
      · cases found
      · rename_i others readRest
        cases found
        rw [only block (.head _) body read,
          ih (fun other member => only other (.tail _ member)) readRest]

omit [WorkHash] in
/-- The bodies read back carry the identifiers asked for. -/
theorem bodiesOf_named (kept : WellKept chain) {ids : List Hash256}
    (found : Chain.bodiesOf chain.bodyById ids = .ok bodies) :
    ids = bodies.map fun body => body.header.blockId := by
  induction ids generalizing bodies with
  | nil =>
    cases found
    rfl
  | cons id rest ih =>
    rw [Chain.bodiesOf] at found
    split at found
    · cases found
    · rename_i body read
      split at found
      · cases found
      · rename_i others readRest
        cases found
        rw [map_cons, (kept.bodyById read).1, ← ih readRest]

section
variable (tracks : Tracks network nonce history chain blocks)
include tracks

/-- The body read under the identifier of a block of good shape is that block. -/
theorem Tracks.body_eq (kept : WellKept chain) (apart : BodiesApart history)
    (member : block ∈ history) (shape : block.checkShape = .ok ())
    (read : chain.bodyById block.header.blockId = some body) : body = block := by
  have genuine := kept.bodyById read
  have inside : body ∈ history := by
    rcases or_eq_some_iff.mp read with held | ⟨_, archived⟩
    · exact tracks.bodies _ body held
    · exact tracks.sources _ body archived
  exact apart ⟨inside, genuine.2⟩ ⟨member, shape⟩ genuine.1

/-- The bodies of active blocks are the blocks the chain follows. -/
theorem Tracks.bodiesOf_active (kept : WellKept chain) (apart : BodiesApart history) {count : Nat}
    (found : Chain.bodiesOf chain.bodyById (chain.active.drop count) = .ok bodies) :
    bodies = blocks.drop count := by
  rw [tracks.active, ← map_drop] at found
  refine bodiesOf_eq ?_ found
  intro block listed body read
  have member := mem_of_mem_drop listed
  exact tracks.body_eq kept apart (tracks.lineage.members block member)
    (tracks.lineage.shapes block member) read

/-! ## Blocks undone and connected again -/

/-- A block accepted on the ledger of the chain's blocks is connected. -/
theorem Tracks.connect_of_accepts (sound : Sound (headersOf history) chain)
    (apart : HashesApart (headersOf history))
    (accepts : (ledgerOf blocks).Accepts network block now) :
    ∃ next fees, chain.connect block now = .ok (next, fees) := by
  obtain ⟨context, inContext, core⟩ := tracks.context sound apart now
  obtain ⟨fees, accepted⟩ := accepts.checked
  rw [← core, checkBlock_core, ← tracks.utxo] at accepted
  obtain ⟨coinbase, rest, checked⟩ := checkBlock_ok accepted
  have rules := checked.coinbaseRules
  simp only [checkCoinbase, bind_eq_ok, orRefuse_eq_ok, mapError_eq_ok] at rules
  obtain ⟨_, _, _, _, _, _, _, _, _, _, total, summed, issued, added, _⟩ := rules
  have sameIssued : context.cumulativeIssued = chain.issued := by
    rw [tracks.issued]
    exact congrArg BlockContext.cumulativeIssued core
  rw [sameIssued] at added
  have claimed : Chain.coinbaseTotal block = .ok total := by
    rwa [Chain.coinbaseTotal, checked.transactions]
  have parent : block.header.prevBlock = chain.tipId := by
    rw [(checkPlace_ok checked.place).2.2]
    simp only [Chain.context, bind_eq_bind, bind_eq_some_iff, Option.pure_def,
      some.injEq] at inContext
    obtain ⟨_, _, rfl⟩ := inContext
    rfl
  obtain ⟨entry, indexed, _⟩ := sound.placed _ _ (Chain.tipId_eq sound.nonempty)
  rw [← parent] at indexed
  have room : chain.active.length < activeCapacity := by
    have room := accepts.room
    rwa [ledgerOf_headers, length_map, ← tracks.length_eq] at room
  simp only [Chain.connect, bind_eq_ok, orRefuse_eq_ok, mapError_eq_ok, require_eq_ok, pure_eq_ok]
  exact ⟨_, _, context, inContext, fees, accepted, total, claimed, issued, added, entry, indexed, (),
    room, rfl⟩

end

/-- The last blocks undone, as far as records of them are kept. -/
theorem Tracks.disconnectMany (tracks : Tracks network nonce history chain (below ++ above))
    (transactions : TransactionsApart history) (nonempty : below ≠ [])
    (enough : above.length ≤ chain.undos.length) :
    Tracks network nonce history (Chain.disconnectMany above.length chain) below ∧
      (Chain.disconnectMany above.length chain).undos.length =
        chain.undos.length - above.length := by
  induction above using reverseRecOn generalizing chain with
  | nil =>
    rw [append_nil] at tracks
    exact ⟨tracks, rfl⟩
  | append_singleton above tip ih =>
    rw [length_append, length_singleton] at enough ⊢
    rw [← append_assoc] at tracks
    rcases tracks.disconnect transactions with
        ⟨done, rest, last, split, after, records⟩ | ⟨_, stuck⟩
    · obtain ⟨rfl, _⟩ := append_inj' split rfl
      have step : Chain.disconnectMany (above.length + 1) chain =
          Chain.disconnectMany above.length chain.disconnect.1 := by
        rw [Chain.disconnectMany]
        cases stepped : chain.disconnect with
        | mk next completed =>
          rw [stepped] at done
          cases done
          rfl
      have length := congrArg List.length records
      rw [ledgerOf_records_concat, length_append, head?_cons, toList_some,
        length_singleton] at length
      obtain ⟨reached, remaining⟩ := ih after (by omega)
      rw [step]
      refine ⟨reached, ?_⟩
      rw [remaining]
      omega
    · have positive := length_pos_iff.mpr nonempty
      rcases stuck with none' | single
      · rw [none', length_nil] at enough
        omega
      · rw [length_append, length_append, length_singleton] at single
        omega

/-- Where the records do not lead below a block, undoing blocks leaves it in place. -/
theorem Tracks.disconnectMany_few (tracks : Tracks network nonce history chain (below ++ above))
    (transactions : TransactionsApart history) (few : chain.undos.length ≤ above.length)
    (count : Nat) : ∃ left,
      Tracks network nonce history (Chain.disconnectMany count chain) (below ++ left) ∧
        (Chain.disconnectMany count chain).undos.length ≤ min left.length chain.undos.length := by
  induction count generalizing chain above with
  | zero => exact ⟨above, tracks, le_min few le_rfl⟩
  | succ count ih =>
    rw [Chain.disconnectMany]
    rcases tracks.disconnect transactions with
        ⟨done, rest, last, split, after, records⟩ | ⟨stays, _⟩
    · cases stepped : chain.disconnect with
      | mk next completed =>
        rw [stepped] at done after records
        cases done
        rcases eq_nil_or_concat' above with rfl | ⟨lower, top, rfl⟩
        · -- No record is left that could undo a block of `below`.
          rw [split, ledgerOf_records_concat, head?_cons, toList_some] at records
          rw [records] at few
          cases few
        · rw [← append_assoc] at split
          obtain ⟨rfl, _⟩ := append_inj' split rfl
          have length := congrArg List.length records
          rw [← append_assoc, ledgerOf_records_concat, length_append, head?_cons, toList_some,
            length_singleton] at length
          rw [length_append, length_singleton] at few
          dsimp only at after length ⊢
          obtain ⟨left, reached, fewer⟩ := ih after (by omega)
          exact ⟨left, reached, by omega⟩
    · rw [stays]
      exact ⟨above, tracks, le_min few le_rfl⟩

/-- The blocks are accepted one after the other on those below, all at the clock `now`. -/
def ValidAt (network : Network) (now : Nat) (below branch : List Block) : Prop :=
  ∀ done block rest, branch = done ++ block :: rest →
    (ledgerOf (below ++ done)).Accepts network block now

theorem ValidAt.nil (network : Network) (now : Nat) (below : List Block) :
    ValidAt network now below [] := by
  intro done block rest split
  simp at split

theorem ValidAt.cons {branch : List Block} (accepts : (ledgerOf below).Accepts network block now)
    (valid : ValidAt network now (below ++ [block]) branch) :
    ValidAt network now below (block :: branch) := by
  intro done other rest split
  cases done with
  | nil =>
    obtain ⟨rfl, _⟩ := cons_eq_cons.mp split
    rwa [append_nil]
  | cons first done =>
    obtain ⟨rfl, tail⟩ := cons_eq_cons.mp split
    have later := valid done other rest tail
    rwa [append_assoc, singleton_append] at later

/-- The first block that is refused is the same in any two splits of a branch. -/
theorem ValidAt.first_unique {done done' rest rest' : List Block} {block block' : Block}
    (valid : ValidAt network now below done)
    (refused : ¬ (ledgerOf (below ++ done)).Accepts network block now)
    (valid' : ValidAt network now below done')
    (refused' : ¬ (ledgerOf (below ++ done')).Accepts network block' now)
    (same : done ++ block :: rest = done' ++ block' :: rest') : done = done' := by
  rcases append_eq_append_iff.mp same with ⟨more, rfl, split⟩ | ⟨more, rfl, split⟩
  · cases more with
    | nil => rw [append_nil]
    | cons first more =>
      obtain ⟨rfl, _⟩ := cons_eq_cons.mp split
      exact absurd (valid' done block more rfl) refused
  · cases more with
    | nil => rw [append_nil]
    | cons first more =>
      obtain ⟨rfl, _⟩ := cons_eq_cons.mp split
      exact absurd (valid done' block' more rfl) refused'

/-- How far blocks were connected one after the other: up to the first one refused. -/
structure Advanced (network : Network) (nonce : UInt64) (history : Set Block) (now : Nat)
    (blocks branch done rest : List Block) (result : Chain × Option ValidationError) : Prop where
  split : branch = done ++ rest
  tracks : Tracks network nonce history result.1 (blocks ++ done)
  complete : result.2 = none ↔ rest = []
  valid : ValidAt network now blocks done
  refused : ∀ block ∈ rest.head?, ¬ (ledgerOf (blocks ++ done)).Accepts network block now

theorem LedgerState.Accepts.present {ledger : LedgerState}
    (accepts : ledger.Accepts network block now) :
    block.header.time.toNat ≤ now + maxFutureTime := by
  obtain ⟨fees, accepted⟩ := accepts.checked
  obtain ⟨_, _, checked⟩ := checkBlock_ok accepted
  have place := checked.place
  simp only [checkPlace, bind_eq_ok, require_eq_ok] at place
  obtain ⟨_, _, _, _, _, _, _, _, _, _, _, _, _, _, _, present, _⟩ := place
  exact present

theorem ValidAt.present {branch : List Block} (valid : ValidAt network now below branch) :
    ∀ block ∈ branch, block.header.time.toNat ≤ now + maxFutureTime := by
  intro block listed
  obtain ⟨done, rest, split⟩ := append_of_mem listed
  exact (valid done block rest split).present

section
variable (tracks : Tracks network nonce history chain blocks)
  (sound : Sound (headersOf history) chain) (apart : HashesApart (headersOf history))
include tracks sound apart

theorem Tracks.connectAll (window : chain.undos.length ≤ bodyWindow) (now : Nat)
    {branch : List Block} (members : ∀ block ∈ branch, block ∈ history) :
    ∃ done rest, Advanced network nonce history now blocks branch done rest
        (Chain.connectAll now branch chain) ∧
      (Chain.connectAll now branch chain).1.undos.length =
        min (chain.undos.length + done.length) bodyWindow := by
  induction branch generalizing chain blocks with
  | nil =>
    refine ⟨[], [], ⟨rfl, ?_, Iff.intro (fun _ => rfl) fun _ => rfl, .nil _ _ _, by simp⟩, ?_⟩
    · rwa [append_nil]
    · exact (min_eq_left window).symm
  | cons block branch ih =>
    cases connected : chain.connect block now with
    | error problem =>
      rw [Chain.connectAll, connected]
      refine ⟨[], block :: branch, ⟨rfl, ?_, by simp, .nil _ _ _, ?_⟩, ?_⟩
      · rwa [append_nil]
      · rintro _ ⟨⟩ accepts
        rw [append_nil] at accepts
        obtain ⟨next, fees, accepted⟩ := tracks.connect_of_accepts sound apart accepts
        rw [connected] at accepted
        cases accepted
      · exact (min_eq_left window).symm
    | ok result =>
      obtain ⟨next, fees⟩ := result
      have member := members block (.head _)
      have length := connect_undos_length connected
      obtain ⟨done, rest, advanced, records⟩ := ih (tracks.connect sound apart member connected)
        (sound.connect apart ⟨block, member, rfl⟩ connected)
        (length ▸ min_le_right _ _)
        fun other listed => members other (.tail _ listed)
      have joined : blocks ++ [block] ++ done = blocks ++ block :: done := by simp
      have after := advanced.tracks
      have refused := advanced.refused
      rw [joined] at after refused
      rw [Chain.connectAll, connected]
      refine ⟨block :: done, rest, ⟨?_, after, advanced.complete, ?_, refused⟩, ?_⟩
      · rw [advanced.split, cons_append]
      · exact .cons (tracks.accepts sound apart connected) advanced.valid
      · dsimp only
        rw [records, length, length_cons]
        omega

/-- Blocks accepted before are connected again, unless one is ahead of the clock. -/
theorem Tracks.connectAll_accepted {more : List Block}
    (lineage : Lineage network nonce history (blocks ++ more))
    (present : ∀ block ∈ more, block.header.time.toNat ≤ now + maxFutureTime) :
    (Chain.connectAll now more chain).2 = none := by
  induction more generalizing chain blocks with
  | nil => rfl
  | cons block more ih =>
    obtain ⟨clock, accepts⟩ := lineage.accepted blocks block more rfl tracks.nonempty
    have member := lineage.members block (by simp)
    obtain ⟨next, fees, connected⟩ := tracks.connect_of_accepts sound apart
      (accepts.at (present block (.head _)))
    rw [Chain.connectAll, connected]
    refine ih (tracks.connect sound apart member connected)
      (sound.connect apart ⟨block, member, rfl⟩ connected) ?_
      fun other listed => present other (.tail _ listed)
    rwa [append_assoc, singleton_append]

end

/-- Back down to the last block of `below`. -/
theorem Tracks.disconnectTo (tracks : Tracks network nonce history chain (below ++ above))
    (transactions : TransactionsApart history) (nonempty : below ≠ [])
    (enough : above.length ≤ chain.undos.length) :
    Tracks network nonce history (chain.disconnectTo (below.length - 1)) below ∧
      (chain.disconnectTo (below.length - 1)).undos.length = chain.undos.length - above.length := by
  have positive := length_pos_iff.mpr nonempty
  have count : chain.active.length - (below.length - 1 + 1) = above.length := by
    rw [tracks.length_eq, length_append]
    omega
  rw [Chain.disconnectTo, count]
  exact tracks.disconnectMany transactions nonempty enough

/-- What a switch given up after `done` leaves: the old chain, or only the blocks below the fork,
when an old block is ahead of the clock, or a part of the new branch, when it is longer than the
records go back. -/
inductive GivenUp (network : Network) (nonce : UInt64) (history : Set Block) (now kept : Nat)
    (below old done : List Block) (result : Chain) : Prop where
  | restored (tracks : Tracks network nonce history result (below ++ old))
      (present : ∀ block ∈ old, block.header.time.toNat ≤ now + maxFutureTime)
      (short : done.length ≤ bodyWindow) (undos : result.undos.length =
        min (min (kept - old.length + done.length) bodyWindow - done.length + old.length) bodyWindow)
  | truncated (tracks : Tracks network nonce history result below)
      (ahead : ∃ block ∈ old, now + maxFutureTime < block.header.time.toNat) (again : Nat)
      (few : again ≤ old.length)
      (undos : result.undos.length =
        min (min (kept - old.length + done.length) bodyWindow - done.length + again) bodyWindow - again)
  | stuck (first : Block) (more : List Block) (among : first ∈ done)
      (tracks : Tracks network nonce history result (below ++ first :: more))
      (long : bodyWindow < done.length)

section
variable {old done again : List Block} (apart : HistoryApart history) (nonempty : below ≠ [])
  (lineage : Lineage network nonce history (below ++ old)) (kept : Nat)
include apart nonempty lineage

/-- The way back from a branch that the records cover, and the old blocks once more. -/
theorem Tracks.giveUp (connected : Tracks network nonce history chain (below ++ done))
    (sound : Sound (headersOf history) chain) (short : done.length ≤ bodyWindow)
    (enough : old.length ≤ kept) (window : kept ≤ bodyWindow)
    (records : chain.undos.length = min (kept - old.length + done.length) bodyWindow) (now : Nat) :
    GivenUp network nonce history now kept below old done
      (match Chain.connectAll now old (chain.disconnectTo (below.length - 1)) with
        | (last, none) => last
        | (last, some _) => last.disconnectTo (below.length - 1)) := by
  have oldMembers : ∀ block ∈ old, block ∈ history := fun block listed =>
    lineage.members block (mem_append_right _ listed)
  obtain ⟨back, remaining⟩ := connected.disconnectTo apart.transactions nonempty (by omega)
  have soundBack : Sound (headersOf history) (chain.disconnectTo (below.length - 1)) :=
    sound.disconnectMany _
  obtain ⟨again, left, retrial, keptOld⟩ :=
    back.connectAll soundBack apart.headers (by omega) now oldMembers
  have accepted : (∀ block ∈ old, block.header.time.toNat ≤ now + maxFutureTime) →
      (Chain.connectAll now old (chain.disconnectTo (below.length - 1))).2 = none :=
    fun present => back.connectAll_accepted soundBack apart.headers lineage present
  cases retried : Chain.connectAll now old (chain.disconnectTo (below.length - 1)) with
  | mk last stuck =>
    rw [retried] at retrial keptOld accepted
    have restored := retrial.tracks
    cases stuck with
    | none =>
      have whole : old = again := by
        rw [retrial.split, retrial.complete.mp rfl, append_nil]
      refine .restored ?_ ?_ short ?_
      · rwa [whole]
      · rw [whole]
        exact retrial.valid.present
      · rw [keptOld, remaining, records, ← whole]
    | some second =>
      have fits : again.length ≤ old.length := by
        rw [retrial.split, length_append]
        omega
      obtain ⟨bottom, left⟩ := restored.disconnectTo apart.transactions nonempty (by omega)
      refine .truncated bottom ?_ again.length fits ?_
      · by_contra nowhere
        cases accepted fun block listed => not_lt.mp fun late => nowhere ⟨block, listed, late⟩
      · rw [left, keptOld, remaining, records]

omit nonempty in
/-- A branch that the records do not cover is left in part. -/
theorem Tracks.giveUp_long (connected : Tracks network nonce history chain (below ++ done))
    (sound : Sound (headersOf history) chain) (long : bodyWindow < done.length)
    (window : chain.undos.length ≤ bodyWindow) (now : Nat) :
    GivenUp network nonce history now kept below old done
      (match Chain.connectAll now old (chain.disconnectTo (below.length - 1)) with
        | (last, none) => last
        | (last, some _) => last.disconnectTo (below.length - 1)) := by
  obtain ⟨first, later, rfl⟩ := exists_cons_of_length_pos (Nat.zero_lt_of_lt long)
  rw [append_cons] at connected
  rw [length_cons] at long
  have oldMembers : ∀ block ∈ old, block ∈ history := fun block listed =>
    lineage.members block (mem_append_right _ listed)
  obtain ⟨left, back, few⟩ := connected.disconnectMany_few apart.transactions (by omega)
    (chain.active.length - (below.length - 1 + 1))
  have soundBack := sound.disconnectMany (chain.active.length - (below.length - 1 + 1))
  rw [← Chain.disconnectTo] at back few soundBack
  obtain ⟨again, rest, retrial, keptOld⟩ :=
    back.connectAll soundBack apart.headers (by omega) now oldMembers
  cases retried : Chain.connectAll now old (chain.disconnectTo (below.length - 1)) with
  | mk last stuck =>
    rw [retried] at retrial keptOld
    have restored := retrial.tracks
    rw [append_assoc] at restored
    cases stuck with
    | none =>
      rw [append_assoc, singleton_append] at restored
      exact .stuck first _ (.head _) restored (by rw [length_cons]; omega)
    | some second =>
      obtain ⟨remains, bottom, _⟩ := restored.disconnectMany_few apart.transactions
        (by rw [length_append]; exact keptOld.le.trans ((min_le_left _ _).trans (by omega)))
        (last.active.length - (below.length - 1 + 1))
      rw [append_assoc, singleton_append] at bottom
      exact .stuck first _ (.head _) bottom (by rw [length_cons]; omega)

end

/-- A switch completed, or given up at the first block of the branch that is refused. -/
theorem Tracks.switchTo {old branch : List Block} {depth : Nat}
    (tracks : Tracks network nonce history chain (below ++ old))
    (sound : Sound (headersOf history) chain) (window : chain.undos.length ≤ bodyWindow)
    (apart : HistoryApart history) (atHeight : below.length = fork + 1)
    (asDeep : old.length = depth) (enough : depth ≤ chain.undos.length)
    (members : ∀ block ∈ branch, block ∈ history) (now : Nat) :
    ((chain.switchTo fork depth now branch old).2 = .ok depth ∧
        Tracks network nonce history (chain.switchTo fork depth now branch old).1
          (below ++ branch) ∧ ValidAt network now below branch) ∨
      ∃ problem done block rest, branch = done ++ block :: rest ∧
        (chain.switchTo fork depth now branch old).2 = .error problem ∧
        ValidAt network now below done ∧
        ¬ (ledgerOf (below ++ done)).Accepts network block now ∧
        GivenUp network nonce history now chain.undos.length below old done
          (chain.switchTo fork depth now branch old).1 := by
  obtain rfl : fork = below.length - 1 := by omega
  subst asDeep
  have nonempty : below ≠ [] := ne_nil_of_length_pos (by omega)
  obtain ⟨atFork, records⟩ := tracks.disconnectMany apart.transactions nonempty enough
  have soundFork := sound.disconnectMany old.length
  obtain ⟨done, rest, advanced, kept⟩ :=
    atFork.connectAll soundFork apart.headers (by omega) now members
  have soundConnected := soundFork.connectAll apart.headers now
    fun block listed => ⟨block, members block listed, rfl⟩
  rw [Chain.switchTo]
  cases stopped : Chain.connectAll now branch (Chain.disconnectMany old.length chain) with
  | mk reached refusal =>
    rw [stopped] at advanced kept soundConnected
    have connected := advanced.tracks
    have valid := advanced.valid
    cases refusal with
    | none =>
      have whole : branch = done := by
        rw [advanced.split, advanced.complete.mp rfl, append_nil]
      rw [whole]
      exact .inl ⟨rfl, connected.sameLedger ⟨rfl, rfl, rfl, rfl, rfl, rfl, Within.refl _⟩ rfl, valid⟩
    | some refusal =>
      obtain ⟨block, later, rfl⟩ : ∃ block later, rest = block :: later := by
        refine exists_cons_of_ne_nil fun empty => ?_
        exact some_ne_none _ (advanced.complete.mpr empty)
      dsimp only at connected kept soundConnected ⊢
      rw [records] at kept
      have given : GivenUp network nonce history now chain.undos.length below old done
          (match Chain.connectAll now old (reached.disconnectTo (below.length - 1)) with
            | (last, none) => last
            | (last, some _) => last.disconnectTo (below.length - 1)) := by
        rcases Nat.lt_or_ge bodyWindow done.length with long | short
        · exact connected.giveUp_long apart tracks.lineage _ soundConnected long
            (kept.le.trans (min_le_right _ _)) now
        · exact connected.giveUp apart nonempty tracks.lineage _ soundConnected short enough
            window kept now
      refine .inr ⟨.validation refusal, done, block, later, advanced.split, ?_, valid,
        advanced.refused block rfl, ?_⟩
      · split
        · rfl
        · rfl
      · cases retried : Chain.connectAll now old (reached.disconnectTo (below.length - 1)) with
        | mk last stuck =>
          rw [retried] at given
          cases stuck with
          | none => exact given
          | some second => exact given

/-! ## A refused submission -/

omit [Crypto] [WorkHash] in
theorem pathToActive_bounds {steps : Nat} {current : Hash256} {found branch : List Hash256}
    (path : chain.pathToActive steps current found = some (fork, branch)) :
    fork < chain.active.length ∧ branch.length < found.length + steps := by
  induction steps generalizing current found with
  | zero => cases path
  | succ steps ih =>
    rw [Chain.pathToActive] at path
    split at path
    · cases path
    · split at path
      · rename_i active
        cases path
        refine ⟨?_, by omega⟩
        rw [Chain.isActive, beq_iff_eq] at active
        exact (List.getElem?_eq_some_iff.mp active).1
      · split at path
        · cases path
        · obtain ⟨inside, shorter⟩ := ih path
          rw [length_cons] at shorter
          exact ⟨inside, by omega⟩

omit [Crypto] [WorkHash] in
/-- The walk back reads headers only. -/
theorem pathToActive_congr (active : next.active = chain.active)
    (headers : ∀ id, (next.index.lookup id).map BlockIndex.header =
      (chain.index.lookup id).map BlockIndex.header)
    (steps : Nat) (current : Hash256) (found : List Hash256) :
    next.pathToActive steps current found = chain.pathToActive steps current found := by
  induction steps generalizing current found with
  | zero => rfl
  | succ steps ih =>
    have same := headers current
    rw [Chain.pathToActive, Chain.pathToActive]
    cases before : chain.index.lookup current with
    | none =>
      rw [before, map_none, map_eq_none_iff] at same
      rw [same]
    | some entry =>
      rw [before, map_some, map_eq_some_iff] at same
      obtain ⟨other, found', header⟩ := same
      rw [found']
      dsimp only
      rw [Chain.isActive, Chain.isActive, active, header, ih]

omit [WorkHash] in
/-- The branch the block would complete: the height of its fork and its blocks, oldest first. -/
def Chain.branchOf (chain : Chain) (block : Block) : Option (Nat × List Hash256) :=
  Chain.pathToActive
    { chain with index := chain.index.insert block.header.blockId ⟨block.header, 0, 0⟩ }
    (chain.reach + 2) block.header.blockId []

omit [WorkHash] in
theorem indexSide_reach (chain : Chain) (block : Block) (total : Nat) :
    (chain.indexSide block total).finalityBinds = chain.finalityBinds := by
  have settings := indexSide_sameSettings chain block total
  have active := (indexSide_sameLedger chain block total).active
  rw [Chain.finalityBinds, Chain.finalityBinds, Chain.height, Chain.height, active,
    settings.network, settings.finalityHold, settings.returning, settings.bound]

omit [WorkHash] in
theorem branchOf_eq (chain : Chain) (block : Block) (total : Nat) :
    (chain.indexSide block total).pathToActive ((chain.indexSide block total).reach + 2)
      block.header.blockId [] = chain.branchOf block := by
  have same := indexSide_sameLedger chain block total
  rw [Chain.reach, indexSide_reach, ← Chain.reach, Chain.branchOf]
  refine pathToActive_congr ?_ ?_ _ _ _
  · exact same.active
  · intro id
    rw [same.index]
    rw [lookup_insert_eq, lookup_insert_eq]
    split
    · rfl
    · rfl

/-- Two chains that follow the same blocks. -/
theorem Tracks.agree (tracks : Tracks network nonce history chain blocks)
    (other : Tracks network nonce history next blocks) :
    next.active = chain.active ∧ next.utxo = chain.utxo ∧ next.issued = chain.issued :=
  ⟨other.active.trans tracks.active.symm, other.utxo.trans tracks.utxo.symm,
    other.issued.trans tracks.issued.symm⟩

/-- The submission of the block starts a switch: the blocks `old` above `fork` go, `bodies` come. -/
def Chain.Exchanges (chain : Chain) (block : Block) (now fork : Nat) (bodies old : List Block) :
    Prop :=
  ∃ total branch, chain.Admits block total now ∧ chain.totalWork < total ∧
    (chain.indexSide block total).Switches block.header.blockId fork branch bodies old

/-- A switch that the submission of the block starts and gives up: the blocks `done` of the branch
are valid on those up to `fork`, and the next one is not. -/
def Attempt (network : Network) (chain : Chain) (blocks : List Block) (block : Block)
    (now fork : Nat) (done : List Block) : Prop :=
  ∃ refused rest, chain.Exchanges block now fork (done ++ refused :: rest) (blocks.drop (fork + 1)) ∧
    ValidAt network now (blocks.take (fork + 1)) done ∧
    ¬ (ledgerOf (blocks.take (fork + 1) ++ done)).Accepts network refused now

/-- What a submission comes to, in terms of the blocks the chain follows. -/
inductive Submitted (network : Network) (nonce : UInt64) (history : Set Block) (chain : Chain)
    (blocks : List Block) (block : Block) (now : Nat) (result : Chain × Except ChainError Accept) :
    Prop where
  | idle (tracks : Tracks network nonce history result.1 blocks)
      (undos : result.1.undos = chain.undos) (stays : result.2 ≠ .ok .extended)
      (same : ∀ depth, result.2 ≠ .ok (.reorganized depth))
  | extended (tracks : Tracks network nonce history result.1 (blocks ++ [block]))
      (verdict : result.2 = .ok .extended)
  | reorganized (fork : Nat) (branch : List Hash256) (bodies : List Block)
      (branchOf : chain.branchOf block = some (fork, branch))
      (named : branch = bodies.map fun body => body.header.blockId)
      (final : ¬ (chain.finalityBinds = true ∧ maxReorgDepth < chain.height - fork))
      (heavier : ∃ total, chain.Admits block total now ∧ chain.totalWork < total)
      (tracks : Tracks network nonce history result.1 (blocks.take (fork + 1) ++ bodies))
      (verdict : result.2 = .ok (.reorganized (chain.height - fork)))
  | givenUp (fork : Nat) (done : List Block) (problem : ChainError)
      (attempt : Attempt network chain blocks block now fork done)
      (verdict : result.2 = .error problem)
      (outcome : GivenUp network nonce history now chain.undos.length (blocks.take (fork + 1))
        (blocks.drop (fork + 1)) done result.1)

omit [WorkHash] in
theorem indexSide_totalWork (sound : Sound (headersOf history) chain)
    (unknown : chain.index.lookup block.header.blockId = none) (total : Nat) :
    (chain.indexSide block total).totalWork = chain.totalWork := by
  have ledger := indexSide_sameLedger chain block total
  have tip : (chain.indexSide block total).tipId = chain.tipId := by
    rw [Chain.tipId, ledger.active, Chain.tipId]
  have different : chain.tipId ≠ block.header.blockId := by
    obtain ⟨entry, found, _⟩ := sound.placed _ _ (Chain.tipId_eq sound.nonempty)
    intro same
    rw [← same, found] at unknown
    cases unknown
  rw [Chain.totalWork, tip, ledger.index]
  rw [lookup_insert_eq, if_neg different, Chain.totalWork]

section
variable (tracks : Tracks network nonce history chain blocks)
  (sound : Sound (headersOf history) chain) (kept : WellKept chain) (apart : HistoryApart history)
  (member : block ∈ history)
include tracks sound kept apart member

/-- What is known of a switch that starts: where it leaves the chain and which blocks it brings. -/
theorem Chain.Exchanges.outline {bodies old : List Block}
    (exchanges : chain.Exchanges block now fork bodies old) :
    fork < chain.active.length ∧ chain.height - fork ≤ chain.undos.length ∧
      ¬ (chain.finalityBinds = true ∧ maxReorgDepth < chain.height - fork) ∧
      (∀ body ∈ bodies, body ∈ history) ∧
      chain.branchOf block = some (fork, bodies.map fun body => body.header.blockId) := by
  obtain ⟨total, branch, admits, _, switches⟩ := exchanges
  have stable := kept_stable network nonce apart
  obtain ⟨⟨soundIndexed, _⟩, keptIndexed⟩ :=
    stable.index ⟨⟨sound, blocks, tracks⟩, kept⟩ member admits
  have tracksIndexed := tracks.indexSide sound member admits.unknown total
  have ledger := indexSide_sameLedger chain block total
  have height : (chain.indexSide block total).height = chain.height := by
    rw [Chain.height, ledger.active]
    rfl
  have undoable := switches.undoable
  have final := switches.final
  have path := branchOf_eq chain block total
  have named := bodiesOf_named keptIndexed switches.bodies
  have inside := (pathToActive_bounds switches.path).1
  rw [switches.path, named] at path
  rw [height, ledger.undos] at undoable
  rw [height, indexSide_reach] at final
  rw [ledger.active] at inside
  exact ⟨inside, undoable, final, stable.bodiesOf ⟨⟨soundIndexed, blocks, tracksIndexed⟩,
    keptIndexed⟩ switches.bodies, path.symm⟩

/-- A switch that starts is completed, or given up at the first block that is refused. -/
theorem Tracks.exchange {bodies : List Block}
    (exchanges : chain.Exchanges block now fork bodies (blocks.drop (fork + 1))) :
    ((chain.submit block now).2 = .ok (.reorganized (chain.height - fork)) ∧
        Tracks network nonce history (chain.submit block now).1
          (blocks.take (fork + 1) ++ bodies) ∧
        ValidAt network now (blocks.take (fork + 1)) bodies) ∨
      ∃ problem done refused rest, bodies = done ++ refused :: rest ∧
        (chain.submit block now).2 = .error problem ∧
        ValidAt network now (blocks.take (fork + 1)) done ∧
        ¬ (ledgerOf (blocks.take (fork + 1) ++ done)).Accepts network refused now ∧
        GivenUp network nonce history now chain.undos.length (blocks.take (fork + 1))
          (blocks.drop (fork + 1)) done (chain.submit block now).1 := by
  obtain ⟨inside, undoable, _, members, _⟩ := exchanges.outline tracks sound kept apart member
  obtain ⟨total, branch, admits, heavier, switches⟩ := exchanges
  obtain ⟨⟨soundIndexed, _⟩, keptIndexed⟩ := (kept_stable network nonce apart).index
    ⟨⟨sound, blocks, tracks⟩, kept⟩ member admits
  have tracksIndexed := tracks.indexSide sound member admits.unknown total
  have ledger := indexSide_sameLedger chain block total
  have height : (chain.indexSide block total).height = chain.height := by
    rw [Chain.height, ledger.active]
    rfl
  have outcome := admits.submit_eq
  rw [indexSide_totalWork sound admits.unknown, if_neg (not_le.mpr heavier),
    switches.tryReorg_eq, height] at outcome
  have length := tracks.length_eq
  have below : (blocks.take (fork + 1)).length = fork + 1 := by
    rw [length_take]
    omega
  have depth : (blocks.drop (fork + 1)).length = chain.height - fork := by
    rw [length_drop, Chain.height]
    omega
  rw [← take_append_drop (fork + 1) blocks] at tracksIndexed
  have outcomes := tracksIndexed.switchTo soundIndexed keptIndexed.window apart below depth
    (ledger.undos.symm ▸ undoable) members now
  rw [ledger.undos] at outcomes
  rw [outcome]
  generalize (chain.indexSide block total).switchTo fork (chain.height - fork) now bodies
    (blocks.drop (fork + 1)) = result at outcomes ⊢
  obtain ⟨reached, verdict⟩ := result
  rcases outcomes with ⟨switched, after⟩ |
      ⟨problem, done, refused, rest, splitBranch, failed, given⟩
  · subst switched
    exact .inl ⟨rfl, after⟩
  · subst failed
    exact .inr ⟨problem, done, refused, rest, splitBranch, rfl, given⟩

/-- An attempt is given up as it says. -/
theorem Tracks.attempt {done : List Block}
    (attempt : Attempt network chain blocks block now fork done) :
    GivenUp network nonce history now chain.undos.length (blocks.take (fork + 1))
      (blocks.drop (fork + 1)) done (chain.submit block now).1 := by
  obtain ⟨refused, rest, exchanges, valid, refuses⟩ := attempt
  rcases tracks.exchange sound kept apart member exchanges with
    ⟨_, _, whole⟩ | ⟨_, done', refused', rest', split, _, valid', refuses', given⟩
  · exact absurd (whole done refused rest rfl) refuses
  · rwa [valid.first_unique refuses valid' refuses' split]

theorem Tracks.submit (bodiesApart : BodiesApart history) (now : Nat) :
    Submitted network nonce history chain blocks block now (chain.submit block now) := by
  rcases submit_cases chain block now with ⟨same, quiet⟩ | ⟨next, fees, connected, same⟩ |
      ⟨total, admits, same⟩ | ⟨total, admits, heavier, same⟩
  · refine .idle ?_ ?_ ?_ ?_
    · rwa [same]
    · rw [same]
    · rcases quiet with known | ⟨problem, refused⟩ <;> simp [*]
    · rcases quiet with known | ⟨problem, refused⟩ <;> simp [*]
  · rw [same]
    exact .extended (tracks.connect sound apart.headers member connected) rfl
  · have after := tracks.indexSide sound member admits.unknown total
    have undos := (indexSide_sameLedger chain block total).undos
    rw [same]
    generalize chain.indexSide block total = indexed at after undos ⊢
    exact .idle after undos (by rintro ⟨⟩) (by rintro _ ⟨⟩)
  · obtain ⟨⟨soundIndexed, _⟩, keptIndexed⟩ := (kept_stable network nonce apart).index
      ⟨⟨sound, blocks, tracks⟩, kept⟩ member admits
    have tracksIndexed := tracks.indexSide sound member admits.unknown total
    have undos : (chain.indexSide block total).undos = chain.undos :=
      (indexSide_sameLedger chain block total).undos
    rw [indexSide_totalWork sound admits.unknown] at heavier
    rcases tryReorg_cases (chain.indexSide block total) block.header.blockId now with
        ⟨_, outcome⟩ | ⟨branch, rest, _, outcome⟩ | ⟨fork, branch, bodies, old, switches, _⟩
    · rw [same, outcome]
      generalize chain.indexSide block total = indexed at *
      exact .idle tracksIndexed undos (by rintro ⟨⟩) (by rintro _ ⟨⟩)
    · rw [same, outcome]
      generalize chain.indexSide block total = indexed at *
      refine .idle ?_ undos (by rintro ⟨⟩) (by rintro _ ⟨⟩)
      have wanted : SameLedger indexed (indexed.wantOnDisk branch) :=
        ⟨rfl, rfl, rfl, rfl, rfl, rfl, Within.refl _⟩
      exact (tracksIndexed.sameLedger wanted rfl).forgetSide (soundIndexed.sameLedger wanted)
        apart.headers rest
    · obtain rfl := tracksIndexed.bodiesOf_active keptIndexed bodiesApart switches.old
      have exchanges : chain.Exchanges block now fork bodies (blocks.drop (fork + 1)) :=
        ⟨total, branch, admits, heavier, switches⟩
      obtain ⟨_, _, final, _, path⟩ := exchanges.outline tracks sound kept apart member
      rcases tracks.exchange sound kept apart member exchanges with ⟨verdict, after, _⟩ |
          ⟨problem, done, refused, rest, split, verdict, valid, refuses, given⟩
      · exact .reorganized fork _ bodies path rfl final ⟨total, admits, heavier⟩ after verdict
      · subst split
        exact .givenUp fork done problem ⟨refused, rest, exchanges, valid, refuses⟩ verdict given

end

end Restore

end Q21Formal.Ledger

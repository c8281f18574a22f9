import Q21Formal.Wallet.Model

/-!
# One-time keys sign once

No one-time index signs twice, nor after a block showed its key, as long as no block recorded while
a spend is held shows a key of it.  Indices a recheck released are set apart.
-/

namespace Q21Formal.Spending
open Library.Codec Primitives Ledger List

/-- A prepared spend in the hands of a caller, and whether the wallet was saved since. -/
structure Held where
  spend : PreparedSpend
  saved : Bool := false

/-- A call of `sign_at`: was its index released before, and was it consumed at that moment? -/
structure SignCall where
  index : Nat
  message : Hash256
  released : Bool
  consumed : Bool
deriving DecidableEq

structure System where
  wallet : Wallet
  held : List Held := []
  file : Wallet.WalletFile
  calls : List SignCall := []
  released : Finset Nat := ∅

inductive Action where
  | newAddress
  | rewindAddresses (start : Nat)
  | lockCoins (coins : Finset OutPoint)
  | unlockCoins (coins : Finset OutPoint)
  | prepareSpend (utxo : UtxoSet) (height : Nat) (destinations : List (Address × UInt64))
      (fee : UInt64) (avoid : OutPoint → Bool) (pending : List (OutPoint × TxOut))
  | prepareFunding (utxo : UtxoSet) (height : Nat) (fundingOutput : TxOut) (fee : UInt64)
      (avoid : OutPoint → Bool) (pending : List (OutPoint × TxOut))
  | prepareSplice (utxo : UtxoSet) (height : Nat) (funding : OutPoint)
      (fundingOutput newFunding : TxOut) (fee : UInt64) (sequence : UInt32)
      (avoid : OutPoint → Bool)
  | prepareConsolidation (utxo : UtxoSet) (height maxInputs : Nat) (avoid : OutPoint → Bool)
      (feeFor : Nat → Nat)
  | signSpend (position : Nat) (lookup : OutPoint → Option UtxoEntry)
  | cancelSpend (position : Nat)
  | recordSpends (block : Block)
  | scanChain (height : Nat) (readBlock : Nat → Option Block)
  | recheckReservations (height : Nat) (readBlock : Nat → Option Block)
  | save
  | reload

section Runs
variable [Crypto] [KeyRing]

namespace System

variable (system : System)

def withWallet (wallet : Wallet) : System := { system with wallet }

/-- A spend just prepared goes to its caller. -/
def prepared (result : Wallet × Except WalletError PreparedSpend) : System :=
  match result.2 with
  | .error _ => system.withWallet result.1
  | .ok spend => { system with wallet := result.1, held := system.held ++ [⟨spend, false⟩] }

/-- The spend at a position of the list is signed, if it was saved, and is gone. -/
def sign (position : Nat) (lookup : OutPoint → Option UtxoEntry) : System :=
  match system.held[position]? with
  | some ⟨spend, true⟩ =>
    let signed := system.wallet.signSpend lookup spend
    { system with
      wallet := signed.wallet
      held := system.held.eraseIdx position
      calls := system.calls ++ signed.calls.map fun call =>
        ⟨call.1, call.2, decide (call.1 ∈ system.released),
          decide (call.1 ∈ system.wallet.consumed)⟩ }
  | _ => system

def cancel (position : Nat) : System :=
  match system.held[position]? with
  | none => system
  | some entry =>
    { system with
      wallet := system.wallet.cancelSpend entry.spend
      held := system.held.eraseIdx position }

/-- A recheck; the indices it makes free are noted. -/
def recheck (height : Nat) (readBlock : Nat → Option Block) : System :=
  let wallet := system.wallet.recheckReservations height readBlock
  { system with
    wallet
    released := system.released ∪
      (system.wallet.expired height).keys.filter fun index => wallet.taken index = false }

/-- A restart: what callers held in memory is lost. -/
def reload (system : System) : System :=
  { system with wallet := system.wallet.reload system.file, held := [] }

def perform : Action → System
  | .newAddress => system.withWallet system.wallet.newAddress.1
  | .rewindAddresses start => system.withWallet (system.wallet.rewindAddresses start)
  | .lockCoins coins =>
    system.withWallet { system.wallet with locked := system.wallet.locked ∪ coins }
  | .unlockCoins coins =>
    system.withWallet { system.wallet with locked := system.wallet.locked \ coins }
  | .prepareSpend utxo height destinations fee avoid pending =>
    system.prepared (system.wallet.prepareSpendAvoiding utxo height destinations fee avoid pending)
  | .prepareFunding utxo height fundingOutput fee avoid pending =>
    system.prepared (system.wallet.prepareFunding utxo height fundingOutput fee avoid pending)
  | .prepareSplice utxo height funding fundingOutput newFunding fee sequence avoid =>
    system.prepared (system.wallet.prepareSplice utxo height funding fundingOutput newFunding fee
      sequence avoid)
  | .prepareConsolidation utxo height maxInputs avoid feeFor =>
    system.prepared (system.wallet.prepareConsolidation utxo height maxInputs avoid feeFor)
  | .signSpend position lookup => system.sign position lookup
  | .cancelSpend position => system.cancel position
  | .recordSpends block => system.withWallet (system.wallet.recordSpends block)
  | .scanChain height readBlock => system.withWallet (system.wallet.scanChain height readBlock)
  | .recheckReservations height readBlock => system.recheck height readBlock
  | .save =>
    { system with
      file := system.wallet.toFile
      held := system.held.map fun entry => { entry with saved := true } }
  | .reload => system.reload

def run (actions : List Action) : System := actions.foldl perform system

/-- A wallet just opened or created, and saved. -/
def start (wallet : Wallet) : System where
  wallet
  file := wallet.toFile

/-- The keys a step shows the wallet. -/
def shownKeys : Action → List Hash256
  | .recordSpends block => Wallet.blockKeys system.wallet.scheme block
  | .scanChain height readBlock =>
    (Wallet.scanned readBlock (height - system.wallet.verifiedUpTo)
      (system.wallet.verifiedUpTo + 1)).flatMap (Wallet.blockKeys system.wallet.scheme)
  | .recheckReservations height readBlock =>
    (Wallet.reread readBlock (system.wallet.recheckHeights height)).flatMap
      (Wallet.blockKeys system.wallet.scheme)
  | _ => []

/-- No block recorded in this step shows a key that a held spend is about to sign with. -/
def Undisturbed (action : Action) : Prop :=
  ∀ entry ∈ system.held, ∀ coin ∈ entry.spend.chosen,
    coin.output.pubkeyHash ∉ system.shownKeys action

/-- Every step of a history is undisturbed. -/
def AllUndisturbed : System → List Action → Prop
  | _, [] => True
  | system, action :: rest => system.Undisturbed action ∧ AllUndisturbed (system.perform action) rest

end System

/-- What holds after any steps. -/
structure Intact (system : System) : Prop where
  oneTime : system.wallet.scheme.isOneTime = true
  derived : system.wallet.Derived
  signedTaken : ∀ call ∈ system.calls, call.index ∉ system.released →
    system.wallet.taken call.index = true
  signedFiled : ∀ call ∈ system.calls, call.index ∉ system.released →
    call.index ∈ system.file.consumed
  heldTaken : ∀ entry ∈ system.held, ∀ index ∈ entry.spend.indices, index ∉ system.released →
    system.wallet.taken index = true
  heldUnsigned : ∀ entry ∈ system.held, ∀ index ∈ entry.spend.indices, index ∉ system.released →
    ∀ call ∈ system.calls, call.index ≠ index
  heldFiled : ∀ entry ∈ system.held, entry.saved = true → ∀ index ∈ entry.spend.indices,
    index ∉ system.released → index ∈ system.file.consumed
  heldNodup : ∀ entry ∈ system.held, entry.spend.indices.Nodup
  heldLocks : ∀ entry ∈ system.held, ∀ coin ∈ entry.spend.chosen,
    coin.output.pubkeyHash = system.wallet.keyHash coin.index
  heldKeyed : ∀ entry ∈ system.held, entry.spend.keys.length = entry.spend.chosen.length
  apart : system.held.Pairwise fun first second =>
    ∀ index ∈ first.spend.indices, index ∈ second.spend.indices → index ∈ system.released
  once : system.calls.Pairwise fun earlier call =>
    call.released = false → earlier.index ≠ call.index

/-- What also holds when no step was disturbed. -/
structure Clean (system : System) : Prop where
  heldFree : ∀ entry ∈ system.held, ∀ index ∈ entry.spend.indices, index ∉ system.released →
    index ∉ system.wallet.consumed
  callsFree : ∀ call ∈ system.calls, call.released = false → call.consumed = false

variable {system : System} {wallet : Wallet} {hashes : List Hash256}
  {result : Wallet × Except WalletError PreparedSpend} {position : Nat}

theorem Intact.start (oneTime : wallet.scheme.isOneTime = true) (derived : wallet.Derived) :
    Intact (System.start wallet) :=
  ⟨oneTime, derived, forall_mem_nil _, forall_mem_nil _, forall_mem_nil _,
    forall_mem_nil _, forall_mem_nil _, forall_mem_nil _, forall_mem_nil _,
    forall_mem_nil _, Pairwise.nil, Pairwise.nil⟩

omit [Crypto] [KeyRing] in
theorem Clean.start (wallet : Wallet) : Clean (System.start wallet) :=
  ⟨forall_mem_nil _, forall_mem_nil _⟩

section
variable (intact : Intact system)
include intact

/-- The wallet moves on and keeps what was taken, except for indices set apart. -/
theorem Intact.withWallet (keys : Wallet.SameKeys system.wallet wallet) (derived : wallet.Derived)
      (taken : ∀ index ∉ system.released, system.wallet.taken index = true → wallet.taken index =
      true) : Intact (system.withWallet wallet) := by
  refine ⟨?_, derived, ?_, intact.signedFiled, ?_, intact.heldUnsigned, intact.heldFiled,
    intact.heldNodup, ?_, intact.heldKeyed, intact.apart, intact.once⟩
  · have oneTime := intact.oneTime
    rwa [← keys.scheme] at oneTime
  · intro call member outside
    exact taken _ outside (intact.signedTaken call member outside)
  · intro entry member index indexed outside
    exact taken _ outside (intact.heldTaken entry member index indexed outside)
  · intro entry member coin chosen
    rw [System.withWallet, keys.keyHash]
    exact intact.heldLocks entry member coin chosen

theorem Intact.sameIndices (same : Wallet.SameIndices system.wallet wallet) :
    Intact (system.withWallet wallet) :=
  intact.withWallet same.keys (same.derived intact.derived) fun index _ held =>
    (same.taken index).trans held

omit intact in
theorem Clean.sameIndices (clean : Clean system) (same : Wallet.SameIndices system.wallet wallet) :
    Clean (system.withWallet wallet) := by
  refine ⟨?_, clean.callsFree⟩
  rw [System.withWallet, same.consumed]
  exact clean.heldFree

theorem Intact.observes (observed : Wallet.Observes hashes system.wallet wallet) :
    Intact (system.withWallet wallet) :=
  intact.withWallet observed.keys (observed.derived intact.derived) fun index _ held =>
    observed.taken index held

omit intact in
/-- Keys other than those of the held spends leave the held indices free. -/
theorem Clean.observes (clean : Clean system) (intact : Intact system)
    (observed : Wallet.Observes hashes system.wallet wallet)
    (quiet : ∀ entry ∈ system.held, ∀ coin ∈ entry.spend.chosen, coin.output.pubkeyHash ∉ hashes) :
    Clean (system.withWallet wallet) := by
  refine ⟨?_, clean.callsFree⟩
  intro entry member index indexed outside consumed
  rcases observed.consumed intact.derived index consumed with earlier | shown
  · exact clean.heldFree entry member index indexed outside earlier
  · obtain ⟨coin, chosen, rfl⟩ := mem_map.mp indexed
    rw [← intact.heldLocks entry member coin chosen] at shown
    exact quiet entry member coin chosen shown

/-! ## The steps -/

theorem Intact.prepared (spec : Wallet.PrepareSpec system.wallet result) :
    Intact (system.prepared result) := by
  obtain ⟨next, answer⟩ := result
  cases answer with
  | error problem => exact intact.sameIndices spec
  | ok spend =>
    have prepares : Wallet.Prepares system.wallet next spend := spec
    have moved := intact.withWallet prepares.keys (prepares.derived intact.derived)
      fun index _ held => (prepares.taken index).mpr (.inl held)
    -- The new indices were free, so nothing signed, held or filed is among them.
    have free : ∀ index ∈ spend.indices, system.wallet.taken index = true → False := by
      intro index member held
      rw [prepares.fresh index member] at held
      cases held
    refine ⟨moved.oneTime, moved.derived, moved.signedTaken, moved.signedFiled, ?_, ?_, ?_, ?_, ?_,
      ?_, ?_, moved.once⟩
    · refine forall_mem_append.mpr ⟨moved.heldTaken, forall_mem_singleton.mpr ?_⟩
      intro index member _
      exact (prepares.taken index).mpr (.inr member)
    · refine forall_mem_append.mpr ⟨moved.heldUnsigned, forall_mem_singleton.mpr ?_⟩
      rintro index member outside call called rfl
      exact free _ member (intact.signedTaken call called outside)
    · refine forall_mem_append.mpr ⟨moved.heldFiled, forall_mem_singleton.mpr ?_⟩
      rintro ⟨⟩
    · exact forall_mem_append.mpr ⟨moved.heldNodup, forall_mem_singleton.mpr prepares.nodup⟩
    · refine forall_mem_append.mpr ⟨moved.heldLocks, forall_mem_singleton.mpr ?_⟩
      intro coin chosen
      rw [prepares.locks coin chosen]
      exact (congrFun prepares.keys.keyHash coin.index).symm
    · exact forall_mem_append.mpr ⟨moved.heldKeyed, forall_mem_singleton.mpr prepares.keyed⟩
    · refine pairwise_append.mpr ⟨moved.apart, pairwise_singleton _ _, ?_⟩
      intro earlier member new isNew index indexed again
      rw [mem_singleton.mp isNew] at again
      by_contra outside
      exact free index again (intact.heldTaken earlier member index indexed outside)

omit intact in
theorem Clean.prepared (clean : Clean system) (spec : Wallet.PrepareSpec system.wallet result) :
    Clean (system.prepared result) := by
  obtain ⟨next, answer⟩ := result
  cases answer with
  | error problem => exact clean.sameIndices spec
  | ok spend =>
    have prepares : Wallet.Prepares system.wallet next spend := spec
    refine ⟨?_, clean.callsFree⟩
    change ∀ entry ∈ system.held ++ [⟨spend, false⟩], ∀ index ∈ entry.spend.indices,
      index ∉ system.released → index ∉ next.consumed
    rw [prepares.consumed]
    refine forall_mem_append.mpr ⟨clean.heldFree, forall_mem_singleton.mpr ?_⟩
    intro index member _ consumed
    have held := prepares.fresh index member
    rw [Wallet.taken, decide_eq_true consumed] at held
    cases held

/-- A spend taken out shares no index with those left, outside the released ones. -/
theorem Intact.apart_of_erased {taken other : Held} (here : system.held[position]? = some taken)
    (left : other ∈ system.held.eraseIdx position) :
    ∀ index ∈ other.spend.indices, index ∉ system.released → index ∉ taken.spend.indices := by
  intro index indexed outside again
  obtain ⟨place, different, there⟩ := mem_eraseIdx_iff_getElem?.mp left
  obtain ⟨inside, rfl⟩ := List.getElem?_eq_some_iff.mp here
  obtain ⟨inside', rfl⟩ := List.getElem?_eq_some_iff.mp there
  have pairs := pairwise_iff_getElem.mp intact.apart
  rcases Nat.lt_or_gt_of_ne different with before | after
  · exact outside (pairs place position inside' inside before index indexed again)
  · exact outside (pairs position place inside inside' after index again indexed)

/-- A spend leaves the list, the wallet keeping every index but those of the spend. -/
theorem Intact.erase {gone : Held} (here : system.held[position]? = some gone)
    (keys : Wallet.SameKeys system.wallet wallet) (derived : wallet.Derived) (taken : ∀ index ∉
      gone.spend.indices, system.wallet.taken index = true → wallet.taken index = true) :
    Intact { system with wallet, held := system.held.eraseIdx position } := by
  have member : gone ∈ system.held := mem_of_getElem? here
  refine ⟨?_, derived, ?_, intact.signedFiled, ?_, ?_, ?_, ?_, ?_, ?_, ?_, intact.once⟩
  · have oneTime := intact.oneTime
    rwa [← keys.scheme] at oneTime
  · intro call called outside
    refine taken _ ?_ (intact.signedTaken call called outside)
    intro indexed
    exact intact.heldUnsigned gone member call.index indexed outside call called rfl
  · intro entry left index indexed outside
    refine taken _ (intact.apart_of_erased here left index indexed outside) ?_
    exact intact.heldTaken entry (mem_of_mem_eraseIdx left) index indexed outside
  · exact fun entry left => intact.heldUnsigned entry (mem_of_mem_eraseIdx left)
  · exact fun entry left => intact.heldFiled entry (mem_of_mem_eraseIdx left)
  · exact fun entry left => intact.heldNodup entry (mem_of_mem_eraseIdx left)
  · intro entry left coin chosen
    rw [keys.keyHash]
    exact intact.heldLocks entry (mem_of_mem_eraseIdx left) coin chosen
  · exact fun entry left => intact.heldKeyed entry (mem_of_mem_eraseIdx left)
  · exact intact.apart.sublist (eraseIdx_sublist _ _)

theorem Intact.cancel (position : Nat) : Intact (system.cancel position) := by
  unfold System.cancel
  split
  · exact intact
  · rename_i gone here
    refine intact.erase here ⟨rfl, rfl, rfl⟩ ⟨intact.derived.known, intact.derived.lookahead⟩ ?_
    intro index outside held
    rwa [Wallet.cancelSpend_taken outside]

end

omit [Crypto] [KeyRing] in
theorem Clean.cancel (clean : Clean system) (position : Nat) : Clean (system.cancel position) := by
  unfold System.cancel
  split
  · exact clean
  · exact ⟨fun entry left => clean.heldFree entry (mem_of_mem_eraseIdx left), clean.callsFree⟩

/-- Signing a spend of a one-time scheme: each of its indices signs, or nothing does. -/
theorem signSpend_cases {spend : PreparedSpend} (oneTime : wallet.scheme.isOneTime = true)
    (keyed : spend.keys.length = spend.chosen.length) (lookup : OutPoint → Option UtxoEntry) :
    ((wallet.signSpend lookup spend).calls = [] ∧
        (wallet.signSpend lookup spend).wallet = wallet.cancelSpend spend) ∨
      ((wallet.signSpend lookup spend).calls.map Prod.fst = spend.indices ∧
        (wallet.signSpend lookup spend).wallet = wallet.consumeAll spend.indices) := by
  unfold Wallet.signSpend
  split
  · refine .inr ?_
    obtain ⟨calls, witnesses, looped, indices, count⟩ := Wallet.signLoop_oneTime oneTime spend.tx 0
      (spend.chosen.zip spend.keys)
    have firsts : (spend.chosen.zip spend.keys).map (fun pair => pair.1.index) = spend.indices := by
      change (spend.chosen.zip spend.keys).map (Coin.index ∘ Prod.fst) = _
      rw [← map_map, map_fst_zip keyed.ge, PreparedSpend.indices]
    have all : spend.indices.take witnesses.length = spend.indices := by
      refine take_of_length_le ?_
      rw [count, length_zip, keyed, PreparedSpend.indices, length_map, Nat.min_self]
    rw [looped]
    dsimp only
    rw [all]
    exact ⟨indices.trans firsts, rfl⟩
  · exact .inl ⟨rfl, rfl⟩

section
variable (intact : Intact system)
include intact

theorem Intact.sign (position : Nat) (lookup : OutPoint → Option UtxoEntry) :
    Intact (system.sign position lookup) := by
  unfold System.sign
  split
  · rename_i spend here
    have member : (⟨spend, true⟩ : Held) ∈ system.held := mem_of_getElem? here
    dsimp only
    rcases signSpend_cases intact.oneTime (intact.heldKeyed _ member) lookup with
      ⟨none', cancelled⟩ | ⟨indices, consumed⟩
    · rw [none', cancelled, map_nil, append_nil]
      refine intact.erase here ⟨rfl, rfl, rfl⟩ ⟨intact.derived.known, intact.derived.lookahead⟩ ?_
      intro index outside held
      rwa [Wallet.cancelSpend_taken outside]
    · rw [consumed]
      have keys := Wallet.consumeAll_sameKeys system.wallet spend.indices
      have derived := Wallet.consumeAll_derived intact.derived spend.indices
      have left := intact.erase here keys derived fun index _ held =>
        Wallet.consumeAll_taken.mpr (.inl held)
      -- The new calls are those of the spend's indices, which nothing else holds or signed.
      have listed : ∀ call ∈ (system.wallet.signSpend lookup spend).calls,
          call.1 ∈ spend.indices := by
        intro call called
        rw [← indices]
        exact mem_map_of_mem called
      refine ⟨left.oneTime, left.derived, ?_, ?_, left.heldTaken, ?_, left.heldFiled, left.heldNodup,
        left.heldLocks, left.heldKeyed, left.apart, ?_⟩
      · refine forall_mem_append.mpr ⟨left.signedTaken, forall_mem_map.mpr ?_⟩
        intro call called _
        exact Wallet.consumeAll_taken.mpr (.inr (listed call called))
      · refine forall_mem_append.mpr ⟨left.signedFiled, forall_mem_map.mpr ?_⟩
        intro call called outside
        exact intact.heldFiled _ member rfl call.1 (listed call called) outside
      · intro entry remains index indexed outside
        refine forall_mem_append.mpr
          ⟨left.heldUnsigned entry remains index indexed outside, forall_mem_map.mpr ?_⟩
        rintro call called rfl
        exact intact.apart_of_erased here remains call.1 indexed outside (listed call called)
      · refine pairwise_append.mpr ⟨left.once, ?_, ?_⟩
        · have nodup := intact.heldNodup _ member
          rw [← indices] at nodup
          refine pairwise_map.mpr ((pairwise_map.mp nodup).imp ?_)
          intro first second different _
          exact different
        · intro earlier before call new unreleased
          obtain ⟨signed, called, rfl⟩ := mem_map.mp new
          have outside : signed.1 ∉ system.released := by simpa using unreleased
          exact intact.heldUnsigned _ member signed.1 (listed signed called) outside earlier before
  · exact intact

omit intact in
theorem Clean.sign (clean : Clean system) (intact : Intact system) (position : Nat)
    (lookup : OutPoint → Option UtxoEntry) : Clean (system.sign position lookup) := by
  unfold System.sign
  split
  · rename_i spend here
    have member : (⟨spend, true⟩ : Held) ∈ system.held := mem_of_getElem? here
    dsimp only
    rcases signSpend_cases intact.oneTime (intact.heldKeyed _ member) lookup with
      ⟨none', cancelled⟩ | ⟨indices, consumed⟩
    · rw [none', cancelled, map_nil, append_nil]
      exact ⟨fun entry left => clean.heldFree entry (mem_of_mem_eraseIdx left), clean.callsFree⟩
    · rw [consumed]
      constructor
      · intro entry left index indexed outside again
        rcases Wallet.consumeAll_consumed again with earlier | signed
        · exact clean.heldFree entry (mem_of_mem_eraseIdx left) index indexed outside earlier
        · exact intact.apart_of_erased here left index indexed outside signed
      · refine forall_mem_append.mpr ⟨clean.callsFree, forall_mem_map.mpr ?_⟩
        intro call called unreleased
        have outside : call.1 ∉ system.released := by simpa using unreleased
        have indexed : call.1 ∈ spend.indices := by
          rw [← indices]
          exact mem_map_of_mem called
        exact decide_eq_false (clean.heldFree _ member call.1 indexed outside)
  · exact clean

/-- Setting more indices apart asks for less. -/
theorem Intact.release (more : Finset Nat) :
    Intact { system with released := system.released ∪ more } := by
  have outside : ∀ {index : Nat}, index ∉ system.released ∪ more → index ∉ system.released :=
    fun unreleased member => unreleased (Finset.mem_union_left _ member)
  refine ⟨intact.oneTime, intact.derived, ?_, ?_, ?_, ?_, ?_, intact.heldNodup, intact.heldLocks,
    intact.heldKeyed, ?_, intact.once⟩
  · exact fun call called unreleased => intact.signedTaken call called (outside unreleased)
  · exact fun call called unreleased => intact.signedFiled call called (outside unreleased)
  · exact fun entry member index indexed unreleased =>
      intact.heldTaken entry member index indexed (outside unreleased)
  · exact fun entry member index indexed unreleased =>
      intact.heldUnsigned entry member index indexed (outside unreleased)
  · exact fun entry member saved index indexed unreleased =>
      intact.heldFiled entry member saved index indexed (outside unreleased)
  · exact intact.apart.imp fun apart index first second =>
      Finset.mem_union_left _ (apart index first second)

theorem Intact.recheck (height : Nat) (readBlock : Nat → Option Block) :
    Intact (system.recheck height readBlock) := by
  obtain ⟨middle, observed, keys, derived, _, lifted⟩ :=
    Wallet.recheckReservations_observes system.wallet height readBlock
  unfold System.recheck
  generalize system.wallet.recheckReservations height readBlock = wallet at keys derived lifted ⊢
  refine (intact.release ((system.wallet.expired height).keys.filter
    fun index => wallet.taken index = false)).withWallet (observed.keys.trans keys)
    (derived (observed.derived intact.derived)) ?_
  intro index outside held
  by_contra free
  refine free (lifted index (observed.taken index held) ?_)
  intro expired
  refine outside (Finset.mem_union_right _ (Finset.mem_filter.mpr ⟨expired, ?_⟩))
  simpa using free

omit intact in
theorem Clean.recheck (clean : Clean system) (intact : Intact system) (height : Nat)
    (readBlock : Nat → Option Block)
    (quiet : system.Undisturbed (.recheckReservations height readBlock)) :
    Clean (system.recheck height readBlock) := by
  obtain ⟨middle, observed, _, _, consumed, _⟩ :=
    Wallet.recheckReservations_observes system.wallet height readBlock
  have seen := clean.observes intact observed quiet
  refine ⟨?_, clean.callsFree⟩
  intro entry member index indexed outside
  unfold System.recheck
  rw [consumed]
  refine seen.heldFree entry member index indexed ?_
  exact fun released => outside (Finset.mem_union_left _ released)

theorem Intact.save : Intact (system.perform .save) := by
  have filed : ∀ index, system.wallet.taken index = true → index ∈ system.wallet.toFile.consumed :=
    fun index held => Wallet.mem_toFile_consumed.mpr held
  refine ⟨intact.oneTime, intact.derived, intact.signedTaken, ?_, ?_, ?_, ?_, ?_, ?_, ?_, ?_,
    intact.once⟩
  · exact fun call called outside => filed _ (intact.signedTaken call called outside)
  · exact forall_mem_map.mpr intact.heldTaken
  · exact forall_mem_map.mpr intact.heldUnsigned
  · refine forall_mem_map.mpr fun entry member _ index indexed outside => ?_
    exact filed _ (intact.heldTaken entry member index indexed outside)
  · exact forall_mem_map.mpr intact.heldNodup
  · exact forall_mem_map.mpr intact.heldLocks
  · exact forall_mem_map.mpr intact.heldKeyed
  · exact pairwise_map.mpr intact.apart

omit intact in
theorem Clean.save (clean : Clean system) : Clean (system.perform .save) :=
  ⟨forall_mem_map.mpr clean.heldFree, clean.callsFree⟩

theorem Intact.reload : Intact system.reload := by
  obtain ⟨keys, derived, taken⟩ := Wallet.reload_spec system.wallet system.file
  refine ⟨?_, derived, ?_, intact.signedFiled, forall_mem_nil _, forall_mem_nil _,
    forall_mem_nil _, forall_mem_nil _, forall_mem_nil _, forall_mem_nil _,
    Pairwise.nil, intact.once⟩
  · have oneTime := intact.oneTime
    rwa [← keys.scheme] at oneTime
  · exact fun call called outside => taken _ (intact.signedFiled call called outside)

omit intact in
theorem Clean.reload (clean : Clean system) : Clean system.reload :=
  ⟨forall_mem_nil _, clean.callsFree⟩

theorem Intact.perform (action : Action) : Intact (system.perform action) := by
  cases action with
  | newAddress => exact intact.sameIndices (Wallet.newAddress_sameIndices _)
  | rewindAddresses start => exact intact.sameIndices (Wallet.rewindAddresses_sameIndices _ _)
  | lockCoins coins =>
    exact intact.sameIndices ⟨⟨rfl, rfl, rfl⟩, rfl, rfl, fun derived =>
      ⟨derived.known, derived.lookahead⟩⟩
  | unlockCoins coins =>
    exact intact.sameIndices ⟨⟨rfl, rfl, rfl⟩, rfl, rfl, fun derived =>
      ⟨derived.known, derived.lookahead⟩⟩
  | prepareSpend utxo height destinations fee avoid pending =>
    exact intact.prepared (Wallet.prepareSpendAvoiding_spec intact.oneTime _ _ _ _ _ _)
  | prepareFunding utxo height fundingOutput fee avoid pending =>
    exact intact.prepared (Wallet.prepareFunding_spec intact.oneTime _ _ _ _ _ _)
  | prepareSplice utxo height funding fundingOutput newFunding fee sequence avoid =>
    exact intact.prepared (Wallet.prepareSplice_spec intact.oneTime _ _ _ _ _ _ _ _)
  | prepareConsolidation utxo height maxInputs avoid feeFor =>
    exact intact.prepared (Wallet.prepareConsolidation_spec intact.oneTime _ _ _ _ _)
  | signSpend position lookup => exact intact.sign position lookup
  | cancelSpend position => exact intact.cancel position
  | recordSpends block => exact intact.observes (Wallet.recordSpends_observes _ _)
  | scanChain height readBlock => exact intact.observes (Wallet.scanLoop_observes _ _ _)
  | recheckReservations height readBlock => exact intact.recheck height readBlock
  | save => exact intact.save
  | reload => exact intact.reload

omit intact in
theorem Clean.perform (clean : Clean system) (intact : Intact system) {action : Action}
    (quiet : system.Undisturbed action) : Clean (system.perform action) := by
  cases action with
  | newAddress => exact clean.sameIndices (Wallet.newAddress_sameIndices _)
  | rewindAddresses start => exact clean.sameIndices (Wallet.rewindAddresses_sameIndices _ _)
  | lockCoins | unlockCoins => exact ⟨clean.heldFree, clean.callsFree⟩
  | prepareSpend utxo height destinations fee avoid pending =>
    exact clean.prepared (Wallet.prepareSpendAvoiding_spec intact.oneTime _ _ _ _ _ _)
  | prepareFunding utxo height fundingOutput fee avoid pending =>
    exact clean.prepared (Wallet.prepareFunding_spec intact.oneTime _ _ _ _ _ _)
  | prepareSplice utxo height funding fundingOutput newFunding fee sequence avoid =>
    exact clean.prepared (Wallet.prepareSplice_spec intact.oneTime _ _ _ _ _ _ _ _)
  | prepareConsolidation utxo height maxInputs avoid feeFor =>
    exact clean.prepared (Wallet.prepareConsolidation_spec intact.oneTime _ _ _ _ _)
  | signSpend position lookup => exact clean.sign intact position lookup
  | cancelSpend position => exact clean.cancel position
  | recordSpends block => exact clean.observes intact (Wallet.recordSpends_observes _ _) quiet
  | scanChain height readBlock =>
    exact clean.observes intact (Wallet.scanLoop_observes _ _ _) quiet
  | recheckReservations height readBlock => exact clean.recheck intact height readBlock quiet
  | save => exact clean.save
  | reload => exact clean.reload

theorem Intact.run (actions : List Action) : Intact (system.run actions) := by
  induction actions generalizing system with
  | nil => exact intact
  | cons action rest ih => exact ih (intact.perform action)

end

theorem Clean.run (clean : Clean system) (intact : Intact system) {actions : List Action}
    (quiet : system.AllUndisturbed actions) : Clean (system.run actions) := by
  induction actions generalizing system with
  | nil => exact clean
  | cons action rest ih =>
    exact ih (clean.perform intact quiet.1) (intact.perform action) quiet.2

/-- No index signs a second time unless a recheck released it; and when no step was disturbed, none
was consumed at the moment it signed. -/
theorem one_time_keys_sign_once {wallet : Wallet} (oneTime : wallet.scheme.isOneTime = true)
    (derived : wallet.Derived) (actions : List Action) :
    let system := (System.start wallet).run actions
    (system.calls.Pairwise fun earlier call =>
        call.released = false → earlier.index ≠ call.index) ∧
      ((System.start wallet).AllUndisturbed actions →
        ∀ call ∈ system.calls, call.released = false → call.consumed = false) := by
  have intact := Intact.start oneTime derived
  refine ⟨(intact.run actions).once, fun quiet => ?_⟩
  exact ((Clean.start wallet).run intact quiet).callsFree

end Runs

/-- Keys to evaluate with: the index itself, and signatures that end with their message. -/
@[reducible] def plainKeys : KeyRing where
  publicKey _ _ index := leBytes 4 index
  sign _ _ _ message := message.bytes
  hedgedSign _ _ _ message := some message.bytes

def plainWallet : Wallet where
  seed := Hash256.zero
  network := .regtest
  scheme := .lamportOts

/-- A coin of 1,000,000 units on the wallet's first address. -/
def plainOutPoint : OutPoint := ⟨Hash256.ofNat 7, 0⟩

section Plain
variable [Crypto] [KeyRing]

def plainEntry : UtxoEntry := ⟨⟨1_000_000, .lamportOts, plainWallet.keyHash 0⟩, 1, false⟩

def plainUtxo : UtxoSet := UtxoSet.insert {} plainOutPoint plainEntry

/-- An address, a payment from its coin, and the save before the signature. -/
def plainPreparation : List Action :=
  [.newAddress,
    .prepareSpend plainUtxo 10 [(⟨.regtest, .lamportOts, Hash256.ofNat 9⟩, 100_000)] 1_000
      (fun _ => false) [],
    .save]

/-- A block in which the same key signs for another coin of the address. -/
def plainBlock : Block where
  header :=
    { version := 1, prevBlock := Hash256.zero, merkleRoot := Hash256.zero
      unclesRoot := Hash256.zero, miner := Hash256.zero, time := 0, bits := 0, height := 11
      nonce := 0 }
  transactions :=
    [{ version := 1
       inputs := [⟨⟨Hash256.ofNat 8, 0⟩, ⟨plainWallet.publicKey 0, []⟩, 0⟩]
       outputs := [⟨50_000, .lamportOts, plainWallet.keyHash 0⟩]
       lockTime := 0 }]
  uncles := []

def plainSignature : Action := .signSpend 0 plainUtxo.lookup

end Plain

/-- The block consumes the index of the held spend, and the signature is made all the same. -/
theorem signs_after_a_block_showed_the_key :
    letI : Crypto := checksumCrypto
    letI : KeyRing := plainKeys
    let prepared := (System.start plainWallet).run plainPreparation
    let shown := prepared.perform (.recordSpends plainBlock)
    let signed := shown.perform plainSignature
    prepared.wallet.consumed = [] ∧ shown.wallet.consumed = [0] ∧ shown.calls = [] ∧
      signed.calls.map (fun call => (call.index, call.released, call.consumed)) =
        [(0, false, true)] := by
  decide +kernel

/-- Without the block, the index signs once and was free. -/
theorem one_time_keys_sign_once_plain :
    letI : Crypto := checksumCrypto
    letI : KeyRing := plainKeys
    let signed := (System.start plainWallet).run (plainPreparation ++ [plainSignature])
    signed.calls.map (fun call => call.index) = [0] ∧
      ∀ call ∈ signed.calls, call.released = false → call.consumed = false := by
  let _ := checksumCrypto
  let _ := plainKeys
  have derived : plainWallet.Derived := ⟨Wallet.Agrees.empty _, Wallet.Agrees.empty _⟩
  have quiet : ∀ system : System, system.AllUndisturbed (plainPreparation ++ [plainSignature]) :=
    fun _ => ⟨fun _ _ _ _ => not_mem_nil, fun _ _ _ _ => not_mem_nil,
      fun _ _ _ _ => not_mem_nil, fun _ _ _ _ => not_mem_nil, trivial⟩
  exact ⟨by decide +kernel, (one_time_keys_sign_once rfl derived _).2 (quiet _)⟩

end Q21Formal.Spending

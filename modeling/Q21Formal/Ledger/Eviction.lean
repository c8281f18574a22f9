import Q21Formal.Ledger.PoolIndex

/-!
# Making room

What is pushed out of a full pool goes in packages: an entry with everything that depends on it.
Each pays enough less than the newcomer and holds nothing of the node's own.  Once a transaction has
passed the checks it gets in, or nothing changes.
-/

namespace Q21Formal.Ledger
open Library.Codec Library.Refusal Library.Maps Library.Listing Library.Reach Primitives List

namespace Mempool

section Descendants
variable [Crypto] {pool : Mempool} {entries smaller : FiniteMap Hash256 MempoolEntry}
  {root id parent child : Hash256}

/-- One entry is another or depends on it, through any number of others. -/
def Below (entries : FiniteMap Hash256 MempoolEntry) : Hash256 → Hash256 → Prop :=
  Relation.ReflTransGen (ParentOf entries)

theorem mem_descendants (indexed : Indexed pool) :
    id ∈ pool.descendants root ↔ Below pool.entries root id := by
  constructor
  · intro member
    refine Relation.ReflTransGen.mono ?_ root id (reached_of_mem_sweep member)
    intro parent child follows
    exact (indexed.children parent child).mp follows
  · intro below
    have outside : ∀ item ∉ pool.children.keys, pool.childrenOf item = [] := by
      intro item absent
      rw [childrenOf, Finmap.lookup_eq_none.mpr (mt Finmap.mem_keys.mpr absent), Option.getD_none]
    induction below with
    | refl => exact root_mem_sweep _ _ root
    | tail _ related ih =>
      exact sweep_closed outside root _ ih _ ((indexed.children _ _).mpr related)

omit [Crypto] in
theorem ParentOf.shrink (related : ParentOf entries parent child)
    (parentKept : smaller.lookup parent = entries.lookup parent)
    (childKept : smaller.lookup child = entries.lookup child) : ParentOf smaller parent child := by
  obtain ⟨different, outpoint, ⟨entry, found, spent⟩, rfl, created⟩ := related
  refine ⟨different, outpoint, ⟨entry, childKept.trans found, spent⟩, rfl, ?_⟩
  rwa [outputAt, parentKept]

omit [Crypto] in
/-- Where the removed entries are closed under descendants, what is left depends on the same
entries. -/
theorem below_shrink (kept : ∀ query, (smaller.lookup query).isSome = true →
      smaller.lookup query = entries.lookup query)
    (closed : ∀ parent child, ParentOf entries parent child →
      (smaller.lookup child).isSome = true → (smaller.lookup parent).isSome = true)
    (present : (smaller.lookup id).isSome = true) :
    Below smaller root id ↔ Below entries root id := by
  have within : Within smaller entries := by
    intro key value found
    rwa [← kept key (by rw [found]; rfl)]
  constructor
  · exact Relation.ReflTransGen.mono (fun _ _ related => ParentOf.mono within related) root id
  · intro below
    induction below with
    | refl => exact .refl
    | @tail parent child _ related ih =>
      have here := closed parent child related present
      exact (ih here).tail (related.shrink (kept parent here) (kept child present))

/-- What leaves with some entries: they and everything below them. -/
theorem lookup_removeAll (indexed : Indexed pool) (roots : List Hash256) :
    (pool.removeAll roots).entries.lookup id = none ↔
      pool.entries.lookup id = none ∨ ∃ root ∈ roots, Below pool.entries root id := by
  induction roots generalizing pool id with
  | nil => simp [removeAll]
  | cons root rest ih =>
    have removed := removed_remove pool root
    have gone : ∀ query, Below pool.entries root query →
        (pool.remove root).entries.lookup query = none := by
      intro query below
      rw [lookup_remove, if_pos ((mem_descendants indexed).mpr below)]
    have stays : ∀ query, ¬ Below pool.entries root query →
        (pool.remove root).entries.lookup query = pool.entries.lookup query := by
      intro query outside
      rw [lookup_remove, if_neg (mt (mem_descendants indexed).mp outside)]
    have outside : ∀ query, ((pool.remove root).entries.lookup query).isSome = true →
        ¬ Below pool.entries root query := by
      intro query present below
      rw [gone query below] at present
      cases present
    have kept : ∀ query, ((pool.remove root).entries.lookup query).isSome = true →
        (pool.remove root).entries.lookup query = pool.entries.lookup query :=
      fun query present => stays query (outside query present)
    have closed : ∀ parent child, ParentOf pool.entries parent child →
        ((pool.remove root).entries.lookup child).isSome = true →
        ((pool.remove root).entries.lookup parent).isSome = true := by
      intro parent child related present
      rw [stays parent fun below => outside child present (below.tail related)]
      exact related.parent_mem
    change ((pool.remove root).removeAll rest).entries.lookup id = none ↔ _
    rw [ih (removed.indexed indexed)]
    cases found : (pool.remove root).entries.lookup id with
    | none =>
      refine ⟨fun _ => ?_, fun _ => .inl rfl⟩
      by_cases below : Below pool.entries root id
      · exact .inr ⟨root, mem_cons_self, below⟩
      · exact .inl ((stays id below).symm.trans found)
    | some entry =>
      have present : ((pool.remove root).entries.lookup id).isSome = true := by
        rw [found]
        rfl
      have held : pool.entries.lookup id ≠ none := by
        rw [← kept id present, found]
        exact Option.some_ne_none entry
      simp only [below_shrink kept closed present, reduceCtorEq, false_or, held,
        exists_mem_cons_iff, outside id present]

end Descendants

section Packages
variable [Crypto] {pool : Mempool} {rate : Nat} {root : Hash256} {members : List Hash256}

/-- `u64` values added up, none of them past the bound. -/
def saturatingSum (values : List Nat) : Nat := values.foldl saturatingAdd 0

/-- The fee rate of some entries taken together. -/
def packageRate (entries : FiniteMap Hash256 MempoolEntry) (members : List Hash256) : Nat :=
  let held := members.filterMap entries.lookup
  saturatingMul (saturatingSum (held.map MempoolEntry.fee)) 1000 /
    max (saturatingSum (held.map MempoolEntry.weight)) 1

/-- An entry with all its descendants, none of them shielded from eviction. -/
structure Whole (pool : Mempool) (root : Hash256) (members : List Hash256) : Prop where
  exact : ∀ id, id ∈ members ↔ Below pool.entries root id
  distinct : members.Nodup
  ordinary : ∀ id ∈ members, ∃ entry, pool.entries.lookup id = some entry ∧ entry.ordinary = true

/-- The walk of a package so far: its items before `index` are ordinary, with their children. -/
structure Walked (pool : Mempool) (root : Hash256) (index : Nat) (members : List Hash256) :
    Prop where
  start : root ∈ members
  below : ∀ id ∈ members, Below pool.entries root id
  distinct : members.Nodup
  done : ∀ id ∈ members.take index,
    ((pool.entries.lookup id).any fun entry => !entry.ordinary) = false ∧
      ∀ child ∈ pool.childrenOf id, child ∈ members

omit [Crypto] in
theorem foldl_saturatingAdd_pair {members : List Hash256} {held : List MempoolEntry}
    (listed : members.filterMap pool.entries.lookup = held) (totals : Nat × Nat) :
    members.foldl (fun totals member =>
      match pool.entries.lookup member with
      | none => totals
      | some entry => (saturatingAdd totals.1 entry.fee, saturatingAdd totals.2 entry.weight))
      totals =
      ((held.map MempoolEntry.fee).foldl saturatingAdd totals.1,
        (held.map MempoolEntry.weight).foldl saturatingAdd totals.2) := by
  subst listed
  induction members generalizing totals with
  | nil => rfl
  | cons member rest ih =>
    rw [foldl_cons, ih]
    cases found : pool.entries.lookup member with
    | none => simp only [filterMap_cons, found]
    | some entry =>
      simp only [filterMap_cons, found, map_cons, foldl_cons]

section
variable (indexed : Indexed pool)
include indexed

theorem Walked.whole (walked : Walked pool root members.length members)
    (present : (pool.entries.lookup root).isSome = true) : Whole pool root members := by
  have done := walked.done
  rw [take_length] at done
  refine ⟨fun id => ⟨walked.below id, fun below => ?_⟩, walked.distinct, ?_⟩
  · induction below with
    | refl => exact walked.start
    | tail _ related ih => exact (done _ ih).2 _ ((indexed.children _ _).mpr related)
  · intro id member
    have held : (pool.entries.lookup id).isSome = true := by
      rcases Relation.ReflTransGen.cases_tail (walked.below id member) with rfl | ⟨_, _, related⟩
      · exact present
      · exact related.child_mem
    obtain ⟨entry, found⟩ := Option.isSome_iff_exists.mp held
    refine ⟨entry, found, ?_⟩
    have free := (done id member).1
    rwa [found, Option.any_some, Bool.not_eq_false'] at free

theorem Walked.next {index : Nat} {id : Hash256} (walked : Walked pool root index members)
    (here : members[index]? = some id)
    (free : ((pool.entries.lookup id).any fun entry => !entry.ordinary) = false) :
    Walked pool root (index + 1) (pushFresh members (pool.childrenOf id)) := by
  have inRange := (List.getElem?_eq_some_iff.mp here).1
  have taken : (pushFresh members (pool.childrenOf id)).take (index + 1) =
      members.take index ++ [id] := by
    obtain ⟨pushed, extended⟩ := prefix_pushFresh members (pool.childrenOf id)
    rw [← extended, take_append_of_le_length (by omega), take_add_one, here]
    rfl
  refine ⟨mem_pushFresh.mpr (.inl walked.start), ?_, pushFresh_nodup walked.distinct _, ?_⟩
  · intro other member
    rcases mem_pushFresh.mp member with known | child
    · exact walked.below other known
    · exact (walked.below id (mem_of_getElem? here)).tail ((indexed.children id other).mp child)
  · rw [taken]
    intro other member
    rcases mem_append.mp member with before | last
    · obtain ⟨ordinary, children⟩ := walked.done other before
      exact ⟨ordinary, fun child listed => mem_pushFresh.mpr (.inl (children child listed))⟩
    · rw [mem_singleton.mp last]
      exact ⟨free, fun child listed => mem_pushFresh.mpr (.inr listed)⟩

theorem Walked.finish {index fuel : Nat} {final : List Hash256}
    (walked : Walked pool root index members) (enough : packageMax + 1 ≤ fuel + index)
    (few : members.length ≤ packageMax) (found : packageFrom pool fuel index members = some final) :
    Walked pool root final.length final := by
  induction fuel generalizing index members with
  | zero =>
    cases found
    refine ⟨walked.start, walked.below, walked.distinct, ?_⟩
    have done := walked.done
    rw [take_of_length_le (by omega)] at done
    rwa [take_length]
  | succ fuel ih =>
    unfold packageFrom at found
    split at found
    · rename_i ended
      cases found
      refine ⟨walked.start, walked.below, walked.distinct, ?_⟩
      have done := walked.done
      rw [take_of_length_le (List.getElem?_eq_none_iff.mp ended)] at done
      rwa [take_length]
    · rename_i id here
      split at found
      · cases found
      · rename_i free
        dsimp only at found
        split at found
        · cases found
        · exact ih (walked.next indexed here (Bool.not_eq_true _ ▸ free)) (by omega) (by omega)
            found

theorem descendantPackage_whole (present : (pool.entries.lookup root).isSome = true)
    (found : pool.descendantPackage root = some members) : Whole pool root members := by
  have start : Walked pool root 0 [root] := by
    refine ⟨mem_singleton_self root, ?_, nodup_singleton root, ?_⟩
    · intro id member
      rw [mem_singleton.mp member]
      exact .refl
    · intro id member
      cases member
  exact (start.finish indexed (by omega) (show 1 ≤ 64 by decide) found).whole indexed present

/-- Something that may be pushed out for a newcomer paying `rate`. -/
def Yields (pool : Mempool) (rate : Nat) (root : Hash256) : Prop :=
  ∃ members, Whole pool root members ∧
    saturatingAdd (packageRate pool.entries members) incrementalFeeRate ≤ rate

theorem packageOf_yields (present : (pool.entries.lookup root).isSome = true) {package : Package}
    (made : pool.packageOf rate false root = some package) :
    package.root = root ∧ Whole pool root package.members ∧
      saturatingAdd (packageRate pool.entries package.members) incrementalFeeRate ≤ rate := by
  obtain ⟨members, found, made⟩ := Option.bind_eq_some_iff.mp made
  generalize folded : members.foldl _ ((0, 0) : Nat × Nat) = totals at made
  rw [folded.symm.trans (foldl_saturatingAdd_pair rfl (0, 0))] at made
  dsimp only at made
  split at made
  · rename_i cheap
    cases made
    rw [Bool.false_or, decide_eq_true_eq] at cheap
    exact ⟨rfl, descendantPackage_whole indexed present found, cheap⟩
  · cases made

/-- The fee and the weight of an entry are `u64` values. -/
structure Bounded (entry : MempoolEntry) : Prop where
  fee : entry.fee < u64Bound
  weight : entry.weight < u64Bound

omit [Crypto] indexed in
theorem saturatingSum_singleton {value : Nat} (small : value < u64Bound) :
    saturatingSum [value] = value := by
  rw [saturatingSum, foldl_cons, foldl_nil, saturatingAdd, zero_add]
  exact min_eq_left (by omega)

/-- A leaf is a package of its own. -/
theorem leaf_yields {key : EvictionKey} (leaf : key ∈ pool.evictable)
    (bounded : ∀ id entry, pool.entries.lookup id = some entry → Bounded entry)
    (cheap : saturatingAdd (ofLex key).1 incrementalFeeRate ≤ rate) :
    Yields pool rate (ofLex (ofLex key).2).2 := by
  obtain ⟨id, entry, found, ordinary, childless, rfl⟩ := (indexed.evictable key).mp leaf
  have whole : Whole pool id [id] := by
    refine ⟨fun other => ?_, nodup_singleton id, ?_⟩
    · rw [mem_singleton]
      constructor
      · rintro rfl
        exact .refl
      · intro below
        rcases Relation.ReflTransGen.cases_head below with same | ⟨child, related, _⟩
        · exact same.symm
        · exact (childless child related).elim
    · intro other member
      rw [mem_singleton.mp member]
      exact ⟨entry, found, ordinary⟩
  have small := bounded id entry found
  refine ⟨[id], whole, ?_⟩
  have alone : [id].filterMap pool.entries.lookup = [entry] := by
    simp only [filterMap_cons, found, filterMap_nil]
  rw [packageRate, alone, map_singleton, map_singleton,
    saturatingSum_singleton small.fee, saturatingSum_singleton small.weight]
  exact cheap

end

end Packages

/-! ## The bytes freed -/

section Bytes
variable [Crypto] {pool : Mempool} {order : MapOrder} {rate : Nat}
  {shielded counted : Finset Hash256} {out : List Hash256}

/-- What is pushed out may be, and everything counted leaves with it. -/
structure Frees (pool : Mempool) (rate : Nat) (out : List Hash256) (counted : Finset Hash256) :
    Prop where
  yields : ∀ root ∈ out, Yields pool rate root
  covered : ∀ id ∈ counted, ∃ root ∈ out, Below pool.entries root id

theorem freeLeaves_frees (need : Nat) (shielded : Finset Hash256) (indexed : Indexed pool)
    (bounded : ∀ id entry, pool.entries.lookup id = some entry → Bounded entry)
    {keys : List EvictionKey}
    (leaves : ∀ key ∈ keys, key ∈ pool.evictable)
    (distinct : (keys.map fun key => (ofLex (ofLex key).2).2).Nodup)
    (fresh : ∀ key ∈ keys, (ofLex (ofLex key).2).2 ∉ out)
    (frees : Frees pool rate out out.toFinset) :
    let result := pool.freeLeaves rate need shielded false keys
      (∑ id ∈ out.toFinset, pool.entrySize id) out
    Frees pool rate result.2 result.2.toFinset ∧
      result.1 = ∑ id ∈ result.2.toFinset, pool.entrySize id := by
  induction keys generalizing out with
  | nil => exact ⟨frees, rfl⟩
  | cons key rest ih =>
    rw [map_cons, nodup_cons] at distinct
    have restLeaves := fun other member => leaves other (mem_cons_of_mem key member)
    unfold freeLeaves
    dsimp only
    split
    · exact ⟨frees, rfl⟩
    · split
      · exact ⟨frees, rfl⟩
      · rename_i cheap
        split
        · exact ih restLeaves distinct.2
            (fun other member => fresh other (mem_cons_of_mem key member)) frees
        · have here := fresh key (.head _)
          rw [Bool.not_false, Bool.true_and, decide_eq_true_eq, not_lt] at cheap
          have summed : ∑ id ∈ (out ++ [(ofLex (ofLex key).2).2]).toFinset, pool.entrySize id =
              ∑ id ∈ out.toFinset, pool.entrySize id + pool.entrySize (ofLex (ofLex key).2).2 := by
            rw [toFinset_append, toFinset_cons, toFinset_nil,
              Finset.union_comm, Finset.insert_union, Finset.empty_union,
              Finset.sum_insert (mt mem_toFinset.mp here), add_comm]
          rw [← summed]
          refine ih restLeaves distinct.2 ?_ ⟨?_, ?_⟩
          · intro other member known
            rcases mem_append.mp known with before | last
            · exact fresh other (mem_cons_of_mem key member) before
            · exact distinct.1 (mem_singleton.mp last ▸ mem_map_of_mem member)
          · intro root member
            rcases mem_append.mp member with before | last
            · exact frees.yields root before
            · rw [mem_singleton.mp last]
              exact leaf_yields indexed (leaves key (.head _)) bounded cheap
          · intro id member
            exact ⟨id, mem_toFinset.mp member, .refl⟩

omit [Crypto] in
theorem takePackages_frees {need : Nat} {packages : List Package} {taken : Finset Hash256}
    (cheap : ∀ package ∈ packages, Whole pool package.root package.members ∧
      saturatingAdd (packageRate pool.entries package.members) incrementalFeeRate ≤ rate)
    (frees : Frees pool rate out taken) :
    let result := pool.takePackages need packages (∑ id ∈ taken, pool.entrySize id) taken out
    ∃ counted, Frees pool rate result.2 counted ∧ result.1 = ∑ id ∈ counted, pool.entrySize id := by
  induction packages generalizing taken out with
  | nil => exact ⟨taken, frees, rfl⟩
  | cons package rest ih =>
    obtain ⟨whole, less⟩ := cheap package (.head _)
    unfold takePackages
    dsimp only
    split
    · exact ⟨taken, frees, rfl⟩
    · have summed : ∑ id ∈ taken ∪ package.members.toFinset, pool.entrySize id =
          ∑ id ∈ taken, pool.entrySize id + ((package.members.filter fun member =>
            decide (member ∉ taken)).map pool.entrySize).sum := by
        have split : taken ∪ package.members.toFinset = taken ∪ (package.members.filter fun member =>
            decide (member ∉ taken)).toFinset := by
          ext id
          simp only [Finset.mem_union, mem_toFinset, mem_filter, decide_eq_true_eq]
          tauto
        rw [split, Finset.sum_union, sum_toFinset _ (whole.distinct.filter _)]
        rw [Finset.disjoint_right]
        intro id member
        rw [mem_toFinset, mem_filter, decide_eq_true_eq] at member
        exact member.2
      rw [← summed]
      refine ih (fun other member => cheap other (mem_cons_of_mem package member)) ?_
      split
      · rename_i nothing
        refine ⟨frees.yields, fun id member => ?_⟩
        rcases Finset.mem_union.mp member with before | now
        · exact frees.covered id before
        · refine frees.covered id (not_not.mp fun new => ?_)
          have added : id ∈ package.members.filter fun member => decide (member ∉ taken) :=
            mem_filter.mpr ⟨mem_toFinset.mp now, decide_eq_true new⟩
          rw [List.isEmpty_iff.mp nothing] at added
          cases added
      · refine ⟨fun root member => ?_, fun id member => ?_⟩
        · rcases mem_append.mp member with before | last
          · exact frees.yields root before
          · rw [mem_singleton.mp last]
            exact ⟨package.members, whole, less⟩
        · rcases Finset.mem_union.mp member with before | now
          · obtain ⟨root, listed, below⟩ := frees.covered id before
            exact ⟨root, mem_append_left _ listed, below⟩
          · exact ⟨package.root, mem_append_right _ (mem_singleton_self _),
              (whole.exact id).mp (mem_toFinset.mp now)⟩

section
variable {size : Nat} (indexed : Indexed pool)
  (bounded : ∀ id entry, pool.entries.lookup id = some entry → Bounded entry)
  (room : pool.roomFor order rate size shielded false = some out)
include indexed bounded room

/-- What `room_for` returns frees what is needed. -/
theorem roomFor_frees :
    ∃ counted, Frees pool rate out counted ∧
      pool.bytes + size - pool.capacity ≤ ∑ id ∈ counted, pool.entrySize id := by
  have distinct : ((listing pool.evictable).map fun key => (ofLex (ofLex key).2).2).Nodup := by
    refine (listing_nodup pool.evictable).map_on ?_
    intro first firstIn second secondIn same
    obtain ⟨one, entry, found, _, _, rfl⟩ := (indexed.evictable first).mp (mem_listing.mp firstIn)
    obtain ⟨other, entry', found', _, _, rfl⟩ :=
      (indexed.evictable second).mp (mem_listing.mp secondIn)
    obtain rfl : one = other := same
    rw [found] at found'
    cases found'
    rfl
  have start : Frees pool rate [] ([] : List Hash256).toFinset := ⟨by simp, by simp⟩
  have leaves := fun need => freeLeaves_frees need shielded indexed bounded
    (fun key member => mem_listing.mp member) distinct (fun _ _ => not_mem_nil) start
  unfold roomFor at room
  dsimp only at room leaves
  rw [toFinset_nil, Finset.sum_empty] at leaves
  obtain ⟨frees, freed⟩ := leaves (pool.bytes + size - pool.capacity)
  split at room
  · rename_i enough
    cases room
    exact ⟨_, frees, freed ▸ enough⟩
  · rw [freed] at room
    generalize sorted : (filterMap _ _).insertionSort (fun first second : Package =>
      toLex (first.rate, first.root) ≤ toLex (second.rate, second.root)) = packages at room
    have cheap : ∀ package ∈ packages, Whole pool package.root package.members ∧
        saturatingAdd (packageRate pool.entries package.members) incrementalFeeRate ≤ rate := by
      intro package listed
      rw [← sorted, mem_insertionSort, mem_filterMap] at listed
      obtain ⟨key, candidate, made⟩ := listed
      have inside := mem_of_mem_take candidate
      rw [mem_insertionSort, mem_map] at inside
      obtain ⟨⟨root, entry⟩, kept, rfl⟩ := inside
      have held := order.entries.mem_list.mp (mem_filter.mp kept).1
      have present : (pool.entries.lookup root).isSome = true := by
        rw [held]
        rfl
      obtain ⟨rfl, whole, less⟩ := packageOf_yields indexed present made
      exact ⟨whole, less⟩
    split at room
    · rename_i enough
      cases room
      obtain ⟨counted, taken, summed⟩ := takePackages_frees cheap frees
      exact ⟨counted, taken, summed ▸ enough⟩
    · cases room

omit indexed bounded room in
/-- Pushing out frees at least what was counted. -/
theorem Frees.bytes (frees : Frees pool rate out counted) (indexed : Indexed pool) :
    (pool.removeAll out).bytes + ∑ id ∈ counted, pool.entrySize id ≤ pool.bytes := by
  have removed := removed_removeAll pool out
  have held : ∀ id ∈ counted, id ∈ pool.entries.keys := by
    intro id member
    obtain ⟨root, listed, below⟩ := frees.covered id member
    obtain ⟨members, whole, _⟩ := frees.yields root listed
    obtain ⟨entry, found, _⟩ := whole.ordinary id ((whole.exact id).mpr below)
    exact Finmap.mem_keys.mpr (Finmap.mem_of_lookup_eq_some found)
  have apart : Disjoint (pool.removeAll out).entries.keys counted := by
    rw [Finset.disjoint_right]
    intro id member
    rw [Finmap.mem_keys, ← Finmap.lookup_eq_none, lookup_removeAll indexed]
    exact .inr (frees.covered id member)
  have kept : ∀ id ∈ (pool.removeAll out).entries.keys, id ∈ pool.entries.keys ∧
      (((pool.removeAll out).entries.lookup id).map MempoolEntry.size).getD 0 =
        pool.entrySize id := by
    intro id member
    obtain ⟨entry, found⟩ := Finmap.mem_iff.mp (Finmap.mem_keys.mp member)
    have before := removed.within id entry found
    rw [entrySize, found, before]
    exact ⟨Finmap.mem_keys.mpr (Finmap.mem_of_lookup_eq_some before), rfl⟩
  rw [(removed.indexed indexed).bytes, indexed.bytes, total_eq_sum_keys, total_eq_sum_keys]
  calc _ = ∑ id ∈ (pool.removeAll out).entries.keys, pool.entrySize id +
        ∑ id ∈ counted, pool.entrySize id := by
        rw [Finset.sum_congr rfl fun id member => (kept id member).2]
    _ = ∑ id ∈ (pool.removeAll out).entries.keys ∪ counted, pool.entrySize id :=
        (Finset.sum_union apart).symm
    _ ≤ ∑ id ∈ pool.entries.keys, pool.entrySize id := by
        refine Finset.sum_le_sum_of_subset (Finset.union_subset ?_ held)
        exact fun id member => (kept id member).1

theorem makeRoom_roomy : (pool.removeAll out).bytes + size ≤ (pool.removeAll out).capacity := by
  obtain ⟨counted, frees, enough⟩ := roomFor_frees indexed bounded room
  have fewer := frees.bytes indexed
  have same : (pool.removeAll out).capacity = pool.capacity := by
    unfold capacity
    rw [(removed_removeAll pool out).maxBytes]
  omega

end

end Bytes

/-! ## Admission -/

section Admission
variable [Crypto] {pool : Mempool} {order : MapOrder} {tx : Transaction} {utxo : UtxoSet}
  {network : Network} {height : Nat} {offered : Set Transaction} {admission : Admission}

theorem checkTransaction_fee {view : UtxoView} {seen seenNext : List OutPoint} {fee : Nat}
    (checked : checkTransaction tx view network height seen = .ok (fee, seenNext)) :
    fee < u64Bound := by
  simp only [checkTransaction, bind_eq_ok, pure_eq_ok, Prod.mk.injEq] at checked
  obtain ⟨_, _, _, _, _, _, _, _, totals, looped, outputs, _, _, _, rfl, _⟩ := checked
  have small := foldlM_invariant (fun _ (totals : InputTotals) => totals.total < u64Bound)
    (fun before indexed totals next _ stepped => by
      simp only [checkInput, bind_eq_ok, orRefuse_eq_ok, pure_eq_ok] at stepped
      obtain ⟨_, _, _, _, _, _, _, _, _, _, _, _, total, added, rfl⟩ := stepped
      obtain ⟨bound, rfl⟩ := checkedAdd_eq_some.mp added
      exact bound)
    [] (show 0 < u64Bound by decide) looped
  exact (Nat.sub_le _ _).trans_lt small

section
variable (examined : Examined pool tx utxo network height admission)
include examined

theorem Examined.bounded : Bounded admission.entry := by
  obtain ⟨seen, checked⟩ := examined.checked
  refine ⟨checkTransaction_fee checked, ?_⟩
  rw [examined.weight]
  exact examined.small.2.trans_lt (by decide)

/-- No fee rate of an entry is the largest `u64`. -/
theorem Examined.rate_lt : admission.entry.feeRate < u64Bound - 1 := by
  have heavy : 2 ≤ admission.entry.weight := by
    rw [examined.weight, Transaction.weight, Transaction.encodeWithoutWitness, witnessDiscount]
    simp only [length_append, writeU32, leBytes_length]
    omega
  have capped : saturatingMul admission.entry.fee 1000 ≤ u64Bound - 1 := min_le_right _ _
  rw [MempoolEntry.feeRate, Nat.div_lt_iff_lt_mul (by omega)]
  have positive : 1 < u64Bound := by decide
  calc saturatingMul admission.entry.fee 1000 ≤ u64Bound - 1 := capped
    _ < (u64Bound - 1) * 2 := by omega
    _ ≤ (u64Bound - 1) * max admission.entry.weight 1 := Nat.mul_le_mul_left _ (by omega)

/-- The ancestors in the pool of a transaction that enters it. -/
def Ancestor (entries : FiniteMap Hash256 MempoolEntry) (tx : Transaction) (id : Hash256) : Prop :=
  ∃ input ∈ tx.inputs, (outputAt entries input.prevOut).isSome = true ∧
    Below entries id input.prevOut.txid

/-- What the admission of a newcomer, paying `rate`, does to the other entries. -/
structure PushedOut (before after : FiniteMap Hash256 MempoolEntry) (tx : Transaction)
    (rate : Nat) : Prop where
  kept : ∀ id, id ≠ tx.txid → after.lookup id = none ∨ after.lookup id = before.lookup id
  ancestors : ∀ id, Ancestor before tx id → after.lookup id = before.lookup id
  ordinary : ∀ id entry, before.lookup id = some entry → after.lookup id = none →
    entry.isLocal = false ∧ entry.returned = false
  closed : ∀ parent child, ParentOf before parent child → after.lookup parent = none →
    after.lookup child = none
  packages : ∀ id, (before.lookup id).isSome = true → after.lookup id = none →
    ∃ root members, id ∈ members ∧ members.Nodup ∧
      (∀ member, member ∈ members ↔ Below before root member) ∧
      (∀ member ∈ members, after.lookup member = none) ∧
      packageRate before members + incrementalFeeRate ≤ rate

theorem Examined.shields (indexed : Indexed pool) {id : Hash256}
    (ancestor : Ancestor pool.entries tx id) :
    id ∈ admission.shielded ∧ (pool.entries.lookup id).isSome = true := by
  obtain ⟨input, spends, created, below⟩ := ancestor
  obtain ⟨closed, roots⟩ := mark_closed pool.entries.keys pool.parentsOf admission.parents
  have present : (pool.entries.lookup input.prevOut.txid).isSome = true :=
    creator_mem created
  rw [examined.shielded]
  induction below using Relation.ReflTransGen.head_induction_on with
  | refl =>
    refine ⟨roots _ ?_ (Finmap.mem_keys.mpr (Finmap.lookup_isSome.mp present)), present⟩
    rw [(examined.enters indexed).parents, examined.carries]
    exact ⟨input.prevOut, mem_map_of_mem spends, rfl, created⟩
  | head related _ ih =>
    obtain ⟨recorded, here⟩ := (indexed.parents _ _).mpr related
    exact ⟨closed _ ih.1 _ recorded (Finmap.mem_keys.mpr (Finmap.lookup_isSome.mp here)), here⟩

theorem Examined.pushedOut (indexed : Indexed pool) {out : List Hash256}
    (outside : ∀ root ∈ out, root ∉ admission.shielded)
    (yields : ∀ root ∈ out, Yields pool admission.entry.feeRate root) :
    PushedOut pool.entries ((pool.removeAll out).entries.insert tx.txid admission.entry) tx
      admission.entry.feeRate := by
  have entered : ∀ id, id ≠ tx.txid →
      ((pool.removeAll out).entries.insert tx.txid admission.entry).lookup id =
        (pool.removeAll out).entries.lookup id := by
    intro id other
    rw [lookup_insert_eq, if_neg other]
  have fresh : ∀ id, (pool.entries.lookup id).isSome = true → id ≠ tx.txid := by
    rintro id present rfl
    rw [examined.fresh] at present
    cases present
  have leaves : ∀ id, (pool.entries.lookup id).isSome = true →
      (((pool.removeAll out).entries.insert tx.txid admission.entry).lookup id = none ↔
        ∃ root ∈ out, Below pool.entries root id) := by
    intro id present
    rw [entered id (fresh id present), lookup_removeAll indexed]
    refine ⟨fun gone => gone.resolve_left ?_, .inr⟩
    exact Option.isSome_iff_ne_none.mp present
  refine ⟨?_, ?_, ?_, ?_, ?_⟩
  · intro id other
    rw [entered id other]
    cases found : (pool.removeAll out).entries.lookup id with
    | none => exact .inl rfl
    | some entry => exact .inr ((removed_removeAll pool out).within id entry found).symm
  · intro id ancestor
    obtain ⟨member, present⟩ := examined.shields indexed ancestor
    have closed := (mark_closed pool.entries.keys pool.parentsOf admission.parents).1
    rw [examined.shielded] at outside member
    rw [entered id (fresh id present)]
    exact removeAll_shielded indexed closed .refl outside member
  · intro id entry found gone
    obtain ⟨root, listed, below⟩ := (leaves id (by rw [found]; rfl)).mp gone
    obtain ⟨members, whole, _⟩ := yields root listed
    obtain ⟨held, foundHeld, ordinary⟩ := whole.ordinary id ((whole.exact id).mpr below)
    rw [found] at foundHeld
    cases foundHeld
    simpa [MempoolEntry.ordinary] using ordinary
  · intro parent child related gone
    obtain ⟨root, listed, below⟩ := (leaves parent related.parent_mem).mp gone
    exact (leaves child related.child_mem).mpr ⟨root, listed, below.tail related⟩
  · intro id present gone
    obtain ⟨root, listed, below⟩ := (leaves id present).mp gone
    obtain ⟨members, whole, cheap⟩ := yields root listed
    refine ⟨root, members, (whole.exact id).mpr below, whole.distinct, whole.exact, ?_, ?_⟩
    · intro member inside
      obtain ⟨entry, found, _⟩ := whole.ordinary member inside
      exact (leaves member (by rw [found]; rfl)).mpr ⟨root, listed, (whole.exact member).mp inside⟩
    · have small := examined.rate_lt
      unfold saturatingAdd at cheap
      omega

end

/-- Every admission is all or nothing, and pushes out only what pays less. -/
theorem Consistent.admits (holds : Consistent offered Bounded pool) (order : MapOrder)
    (tx : Transaction) (utxo : UtxoSet) (network : Network) (height : Nat) (isLocal : Bool) :
    let result := pool.acceptWith order tx utxo network height isLocal false
    (∀ problem, result.1 = .error problem → result.2 = pool) ∧
      ∀ id, result.1 = .ok id → id = tx.txid ∧ ∃ entry,
        result.2.entries.lookup tx.txid = some entry ∧ entry.tx = tx ∧
          result.2.bytes ≤ result.2.capacity ∧
          PushedOut pool.entries result.2.entries tx entry.feeRate := by
  dsimp only
  unfold Mempool.acceptWith
  cases examined : pool.examine order tx utxo network height isLocal false with
  | error problem =>
    refine ⟨fun _ _ => rfl, ?_⟩
    intro id impossible
    cases impossible
  | ok admission =>
    have passed := examine_ok examined
    have accepted : ∀ out : List Hash256, (∀ root ∈ out, root ∉ admission.shielded) →
        (∀ root ∈ out, Yields pool admission.entry.feeRate root) →
        (pool.removeAll out).bytes + admission.entry.size ≤ (pool.removeAll out).capacity →
        ∃ entry, ((pool.removeAll out).enter admission height).entries.lookup tx.txid =
            some entry ∧ entry.tx = tx ∧ ((pool.removeAll out).enter admission height).bytes ≤
            ((pool.removeAll out).enter admission height).capacity ∧
          PushedOut pool.entries ((pool.removeAll out).enter admission height).entries tx
            entry.feeRate := by
      intro out outside yields room
      have entries : ((pool.removeAll out).enter admission height).entries =
          (pool.removeAll out).entries.insert tx.txid admission.entry := by
        rw [← passed.carries]
        rfl
      rw [entries]
      refine ⟨admission.entry, ?_, passed.carries, room, ?_⟩
      · rw [lookup_insert_eq, if_pos rfl]
      · exact passed.pushedOut holds.indexed outside yields
    dsimp only
    split
    · rename_i room
      constructor
      · intro problem impossible
        cases impossible
      · intro id same
        cases same
        exact ⟨rfl, accepted [] (by simp) (by simp) room⟩
    · unfold makeRoom
      cases found : pool.roomFor order admission.entry.feeRate admission.entry.size
          admission.shielded false with
      | none =>
        refine ⟨fun _ _ => rfl, ?_⟩
        intro id impossible
        cases impossible
      | some out =>
        have room := makeRoom_roomy holds.indexed holds.kept found
        obtain ⟨_, frees, _⟩ := roomFor_frees holds.indexed holds.kept found
        dsimp only
        rw [if_pos (decide_eq_true room)]
        constructor
        · intro problem impossible
          cases impossible
        · intro id same
          cases same
          exact ⟨rfl, accepted out (roomFor_outside found) frees.yields room⟩

/-- The figures of every entry are `u64` values. -/
theorem grants_bounded (offered : Set Transaction) (utxo : UtxoSet) (network : Network)
    (height : Nat) : Grants offered Bounded utxo network height :=
  fun _ _ _ _ _ examined => examined.bounded

/-- A refused admission changes nothing.  One that succeeds leaves the newcomer in the pool, within
its capacity; what it pushed out holds no ancestor of the newcomer and nothing of the node's own or
put back, takes every descendant along, and goes in packages that each pay less by the increment. -/
theorem admission_all_or_nothing (maxBytes : Nat) (calls : List PoolCall)
    (apart : OfferedApart (offeredBy calls)) (order : MapOrder) (tx : Transaction) (utxo : UtxoSet)
    (network : Network) (height : Nat) (result : Except MempoolError Hash256 × Mempool)
    (returned : result = (performAll { maxBytes } calls).accept order tx utxo network height ∨
      result = (performAll { maxBytes } calls).acceptLocal order tx utxo network height) :
    let pool := performAll { maxBytes } calls
    (∀ problem, result.1 = .error problem → result.2 = pool) ∧
      ∀ id, result.1 = .ok id → id = tx.txid ∧ ∃ entry,
        result.2.entries.lookup tx.txid = some entry ∧ entry.tx = tx ∧
          result.2.bytes ≤ result.2.capacity ∧
          PushedOut pool.entries result.2.entries tx entry.feeRate := by
  have holds := (Consistent.fresh (offeredBy calls) Bounded maxBytes).performAll apart
    (fun _ bounded => ⟨bounded.fee, bounded.weight⟩)
    (fun call _ => by
      cases call <;> first | trivial | exact grants_bounded _ _ _ _)
    fun call member tx listed => ⟨call, member, listed⟩
  rcases returned with rfl | rfl
  · exact holds.admits order tx utxo network height false
  · exact holds.admits order tx utxo network height true

/-- Another coin of the one key. -/
def twoCoins : UtxoSet := paymentSet.insert ⟨Hash256.zero, 1⟩ ⟨paymentOutput 1_000_000, 0, false⟩

/-- A payment from the other coin that pays ten times the fee. -/
def dearPayment : Transaction :=
  let unsigned : Transaction :=
    { version := 1, inputs := [⟨⟨Hash256.zero, 1⟩, {}, 0⟩], outputs := [paymentOutput 900_000]
      lockTime := 0 }
  let signature := replicate (SchemeId.mlDsa65.sigLen - 32) 0 ++
    (unsigned.sighash 0 .regtest (paymentOutput 1_000_000)).bytes
  { unsigned with inputs := [⟨⟨Hash256.zero, 1⟩, ⟨paymentKey, signature⟩, 0⟩] }

/-- The cheap payment offered. -/
def cheapCalls : List PoolCall := [.accept sortedOrder firstPayment twoCoins .regtest 0]

end Admission

/-- In a pool with room for one payment the dear one replaces the cheap one. -/
theorem cheapCalls_accepts :
    letI : Crypto := checksumCrypto
    let pool := performAll { maxBytes := 6_000 } cheapCalls
    let result := pool.accept sortedOrder dearPayment twoCoins .regtest 0
    (pool.entries.lookup firstPayment.txid).isSome = true ∧ result.1 = .ok dearPayment.txid ∧
      (result.2.entries.lookup firstPayment.txid).isSome = false := by
  decide +kernel

theorem cheapCalls_apart :
    letI : Crypto := checksumCrypto
    OfferedApart (offeredBy cheapCalls) := by
  rintro _ ⟨one, ⟨call, member, offers⟩, rfl⟩ _ ⟨other, ⟨call', member', offers'⟩, rfl⟩ _
  rw [mem_singleton.mp member] at offers
  rw [mem_singleton.mp member'] at offers'
  rw [mem_singleton.mp offers, mem_singleton.mp offers']

/-- The dear payment takes the place of the cheap one. -/
theorem admission_all_or_nothing_crowded :
    letI : Crypto := checksumCrypto
    let pool := performAll { maxBytes := 6_000 } cheapCalls
    let result := pool.accept sortedOrder dearPayment twoCoins .regtest 0
    (result.2.entries.lookup firstPayment.txid).isSome = false ∧
      ∃ entry, result.2.entries.lookup dearPayment.txid = some entry ∧
        PushedOut pool.entries result.2.entries dearPayment entry.feeRate := by
  obtain ⟨_, accepted, gone⟩ := cheapCalls_accepts
  obtain ⟨_, entry, found, _, _, pushedOut⟩ := (@admission_all_or_nothing checksumCrypto 6_000 _
    cheapCalls_apart _ _ _ _ _ _ (.inl rfl)).2 _ accepted
  exact ⟨gone, entry, found, pushedOut⟩

end Mempool

end Q21Formal.Ledger

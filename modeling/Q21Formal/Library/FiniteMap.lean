import Mathlib.Tactic
import Mathlib.Data.Finmap

/-!
# Finite maps with a total, and sets as ordered lists

Rules for Mathlib's `Finmap` at a constant value type: lookups after an update, the part of a map
whose keys satisfy a condition, the order by inclusion, and the total of a weight over all values.
Code that collects an unordered set and sorts it computes the listing of the set, whatever the order
it met the elements in.
-/

namespace Q21Formal.Library.Listing
open List

variable {α : Type*} [LinearOrder α]

theorem insertionSort_congr {first second : List α} (same : first.Perm second) :
    first.insertionSort (· ≤ ·) = second.insertionSort (· ≤ ·) := by
  have perm := (first.perm_insertionSort (· ≤ ·)).trans
    (same.trans (second.perm_insertionSort (· ≤ ·)).symm)
  exact perm.eq_of_pairwise' (first.pairwise_insertionSort (· ≤ ·))
    (second.pairwise_insertionSort (· ≤ ·))

/-- The elements of a finite set, in increasing order. -/
def listing (set : Finset α) : List α :=
  Quot.liftOn set.val (fun items => items.insertionSort (· ≤ ·)) fun _ _ => insertionSort_congr

@[simp] theorem mem_listing {set : Finset α} {item : α} : item ∈ listing set ↔ item ∈ set := by
  obtain ⟨items, distinct⟩ := set
  induction items using Quotient.inductionOn with
  | h list => exact mem_insertionSort (· ≤ ·)

theorem listing_nodup (set : Finset α) : (listing set).Nodup := by
  obtain ⟨items, distinct⟩ := set
  induction items using Quotient.inductionOn with
  | h list => exact (list.perm_insertionSort (· ≤ ·)).nodup_iff.mpr distinct

theorem listing_sorted (set : Finset α) : (listing set).Pairwise (· ≤ ·) := by
  obtain ⟨items, distinct⟩ := set
  induction items using Quotient.inductionOn with
  | h list => exact list.pairwise_insertionSort (· ≤ ·)

/-- An item comes after the first `count` ones when that many of the others are below it. -/
theorem mem_drop_insertionSort {items : List α} (distinct : items.Nodup) {count : Nat} {item : α} :
    item ∈ (items.insertionSort (· ≤ ·)).drop count ↔ item ∈ items ∧ ∃ earlier : List α,
      earlier.Nodup ∧ count ≤ earlier.length ∧ ∀ other ∈ earlier, other ∈ items ∧ other < item := by
  have perm := items.perm_insertionSort (· ≤ ·)
  have sorted := items.pairwise_insertionSort (· ≤ ·)
  generalize items.insertionSort (· ≤ ·) = ranked at perm sorted ⊢
  have apart := perm.nodup_iff.mpr distinct
  rw [← take_append_drop count ranked] at sorted apart
  obtain ⟨-, -, below⟩ := pairwise_append.mp sorted
  obtain ⟨-, -, disjoint⟩ := nodup_append'.mp apart
  constructor
  · intro after
    refine ⟨perm.mem_iff.mp (mem_of_mem_drop after), ranked.take count,
      apart.of_append_left, ?_, fun other before => ⟨perm.mem_iff.mp (mem_of_mem_take before),
        (below other before item after).lt_of_ne ?_⟩⟩
    · have long := length_pos_of_mem after
      rw [length_drop] at long
      rw [length_take]
      omega
    · rintro rfl
      exact disjoint before after
  · rintro ⟨member, earlier, distinctEarlier, many, lower⟩
    have ranked_item := perm.mem_iff.mpr member
    rw [← take_append_drop count ranked] at ranked_item
    refine (mem_append.mp ranked_item).resolve_left fun before => ?_
    -- The items below it would all be among the first, which it is one of.
    have inside : earlier ⊆ (ranked.take count).erase item := by
      intro other listed
      obtain ⟨otherIn, less⟩ := lower other listed
      have placed := perm.mem_iff.mpr otherIn
      rw [← take_append_drop count ranked] at placed
      refine (mem_erase_of_ne less.ne).mpr ((mem_append.mp placed).resolve_right ?_)
      exact fun after => (below item before other after).not_gt less
    have short := (distinctEarlier.subperm inside).length_le
    rw [length_erase_of_mem before, length_take] at short
    have some_item := length_pos_of_mem before
    rw [length_take] at some_item
    omega

end Q21Formal.Library.Listing

namespace Q21Formal.Library.Maps
open List

/-- A finite map from keys to values of one type. -/
abbrev FiniteMap (κ : Type*) (ν : Type*) := Finmap fun _ : κ => ν

variable {κ ν : Type*} [DecidableEq κ]

variable {map : FiniteMap κ ν} {key : κ} {value : ν} {entries : List (κ × ν)}

theorem lookup_insert_eq (map : FiniteMap κ ν) (key query : κ) (value : ν) :
    (map.insert key value).lookup query = if query = key then some value else map.lookup query := by
  split
  · rename_i same
    subst same
    exact map.lookup_insert
  · rename_i different
    exact map.lookup_insert_of_ne different

theorem lookup_erase_eq (map : FiniteMap κ ν) (key query : κ) :
    (map.erase key).lookup query = if query = key then none else map.lookup query := by
  split
  · rename_i same
    subst same
    exact Finmap.lookup_erase query map
  · rename_i different
    exact Finmap.lookup_erase_ne different

theorem erase_of_lookup_none (absent : map.lookup key = none) : map.erase key = map := by
  apply Finmap.ext_lookup
  intro query
  rw [lookup_erase_eq]
  split
  · rename_i here
    rw [here, absent]
  · rfl

theorem lookup_eq_some_iff :
    map.lookup key = some value ↔ (⟨key, value⟩ : (_ : κ) × ν) ∈ map.entries :=
  Finmap.lookup_eq_some_iff

/-- The entries of a list; a later one takes the place of an earlier one. -/
def collect (entries : List (κ × ν)) : FiniteMap κ ν :=
  entries.foldl (fun map entry => map.insert entry.1 entry.2) ∅

theorem lookup_collect_append (entries : List (κ × ν)) (last : κ × ν) (key : κ) :
    (collect (entries ++ [last])).lookup key =
      if key = last.1 then some last.2 else (collect entries).lookup key := by
  rw [collect, List.foldl_append, foldl_cons, foldl_nil, lookup_insert_eq, collect]

theorem mem_of_lookup_collect (found : (collect entries).lookup key = some value) :
    (key, value) ∈ entries := by
  induction entries using reverseRecOn with
  | nil =>
    cases found
  | append_singleton entries last ih =>
    rw [lookup_collect_append] at found
    split at found
    · rename_i same
      cases found
      rw [same]
      exact mem_append_right _ (mem_singleton_self _)
    · exact mem_append_left _ (ih found)

theorem exists_lookup_collect (member : (key, value) ∈ entries) :
    ∃ found, (collect entries).lookup key = some found ∧ (key, found) ∈ entries := by
  suffices ∃ found, (collect entries).lookup key = some found by
    obtain ⟨found, lookup⟩ := this
    exact ⟨found, lookup, mem_of_lookup_collect lookup⟩
  induction entries using reverseRecOn with
  | nil => cases member
  | append_singleton entries last ih =>
    rw [lookup_collect_append]
    split
    · exact ⟨last.2, rfl⟩
    · rename_i different
      refine ih ((mem_append.mp member).resolve_right fun here => different ?_)
      rw [← mem_singleton.mp here]

/-- The entries that satisfy a condition. -/
def select (keep : κ → ν → Bool) (map : FiniteMap κ ν) : FiniteMap κ ν where
  entries := map.entries.filter fun entry => keep entry.1 entry.2
  nodupKeys := by
    rcases map with ⟨entries, distinct⟩
    induction entries using Quotient.inductionOn with
    | h list =>
      refine Multiset.coe_nodupKeys.mpr ?_
      exact (Multiset.coe_nodupKeys.mp distinct).sublist filter_sublist

theorem lookup_select_eq_some {keep : κ → ν → Bool} {query : κ} :
    (select keep map).lookup query = some value ↔
      map.lookup query = some value ∧ keep query value = true := by
  rw [lookup_eq_some_iff, lookup_eq_some_iff]
  exact Multiset.mem_filter

/-- The entries whose key satisfies a condition. -/
def retain (keep : κ → Bool) (map : FiniteMap κ ν) : FiniteMap κ ν :=
  select (fun key _ => keep key) map

theorem lookup_retain (keep : κ → Bool) (map : FiniteMap κ ν) (query : κ) :
    (retain keep map).lookup query = if keep query then map.lookup query else none := by
  apply Option.ext
  intro value
  rw [retain, lookup_select_eq_some]
  split <;> simp_all

/-- The list goes through the entries of the map, each once, in some order. -/
structure Enumerates (entries : List (κ × ν)) (map : FiniteMap κ ν) : Prop where
  nodup : (entries.map Prod.fst).Nodup
  mem : ∀ entry, entry ∈ entries ↔ map.lookup entry.1 = some entry.2

/-- The entries of the map are those enumerated. -/
theorem Enumerates.entries_eq {entries : List (κ × ν)} {map : FiniteMap κ ν}
    (enumerates : Enumerates entries map) :
    map.entries = (entries.map fun entry => (⟨entry.1, entry.2⟩ : (_ : κ) × ν) : List _) := by
  have distinct : (entries.map fun entry => (⟨entry.1, entry.2⟩ : (_ : κ) × ν)).Nodup := by
    refine Nodup.of_map Sigma.fst ?_
    rw [map_map]
    exact enumerates.nodup
  refine (Multiset.Nodup.ext map.nodupKeys.nodup (Multiset.coe_nodup.mpr distinct)).mpr ?_
  rintro ⟨key, value⟩
  rw [← lookup_eq_some_iff, Multiset.mem_coe, mem_map, ← enumerates.mem (key, value)]
  constructor
  · intro member
    exact ⟨(key, value), member, rfl⟩
  · rintro ⟨⟨key', value'⟩, member, same⟩
    cases same
    exact member

/-- Every map has an enumeration. -/
theorem exists_enumerates (map : FiniteMap κ ν) : ∃ entries, Enumerates entries map := by
  obtain ⟨items, spelled⟩ := Quotient.exists_rep map.entries
  have distinct := map.nodupKeys
  rw [← spelled] at distinct
  refine ⟨items.map fun entry => (entry.1, entry.2), ?_, ?_⟩
  · rw [map_map]
    exact Multiset.coe_nodupKeys.mp distinct
  · rintro ⟨key, value⟩
    rw [lookup_eq_some_iff, ← spelled, mem_map]
    constructor
    · rintro ⟨entry, member, same⟩
      cases same
      exact Multiset.mem_coe.mpr member
    · intro member
      exact ⟨⟨key, value⟩, Multiset.mem_coe.mp member, rfl⟩

/-- An order in which code iterates over a map: unspecified, but each entry is met once. -/
structure Iteration (κ ν : Type*) [DecidableEq κ] where
  list : FiniteMap κ ν → List (κ × ν)
  enumerates : ∀ map, Enumerates (list map) map

theorem Iteration.mem_list (order : Iteration κ ν) {map : FiniteMap κ ν} {key : κ} {value : ν} :
    (key, value) ∈ order.list map ↔ map.lookup key = some value :=
  (order.enumerates map).mem (key, value)

/-- The entries in the increasing order of their keys. -/
def Iteration.sorted (κ ν : Type*) [LinearOrder κ] : Iteration κ ν where
  list map := (Listing.listing map.keys).filterMap fun key =>
    (map.lookup key).map fun value => (key, value)
  enumerates map := by
    have fixed : ((Listing.listing map.keys).filterMap fun key =>
        (map.lookup key).map fun value => (key, value)).map Prod.fst =
          Listing.listing map.keys := by
      rw [map_filterMap]
      refine (filterMap_congr fun key member => ?_).trans filterMap_some
      obtain ⟨value, found⟩ := Finmap.mem_iff.mp
        (Finmap.mem_keys.mp (Listing.mem_listing.mp member))
      rw [found]
      rfl
    constructor
    · rw [fixed]
      exact Listing.listing_nodup _
    · rintro ⟨key, value⟩
      rw [mem_filterMap]
      constructor
      · rintro ⟨other, _, same⟩
        obtain ⟨held, found, same⟩ := Option.map_eq_some_iff.mp same
        cases same
        exact found
      · intro found
        refine ⟨key, ?_, ?_⟩
        · rw [Listing.mem_listing, Finmap.mem_keys, Finmap.mem_iff]
          exact ⟨value, found⟩
        · rw [show map.lookup key = some value from found]
          rfl

variable {small large : FiniteMap κ ν}

/-- Every entry of the first map is an entry of the second. -/
def Within (small large : FiniteMap κ ν) : Prop :=
  ∀ key value, small.lookup key = some value → large.lookup key = some value

theorem Within.refl (map : FiniteMap κ ν) : Within map map := fun _ _ found => found

theorem Within.trans {middle : FiniteMap κ ν} (first : Within small middle)
    (second : Within middle large) : Within small large :=
  fun key value found => second key value (first key value found)

theorem erase_within (map : FiniteMap κ ν) (key : κ) : Within (map.erase key) map := by
  intro query value found
  rw [lookup_erase_eq] at found
  split at found
  · cases found
  · exact found

theorem Within.erase (within : Within small large) (key : κ) :
    Within (small.erase key) (large.erase key) := by
  intro query value found
  rw [lookup_erase_eq] at found ⊢
  split at found
  · cases found
  · rename_i different
    rw [if_neg different]
    exact within query value found

theorem Within.insert (within : Within small large) (key : κ) (value : ν) :
    Within (small.insert key value) (large.insert key value) := by
  intro query found
  rw [lookup_insert_eq, lookup_insert_eq]
  split
  · exact id
  · exact within query found

/-! ## Totals -/

variable (weight : ν → Nat) {map : FiniteMap κ ν} {key : κ} {value : ν}

/-- The sum of a weight over all values. -/
def total (map : FiniteMap κ ν) : Nat := (map.entries.map fun entry => weight entry.2).sum

omit [DecidableEq κ] in
@[simp] theorem total_empty : total weight (∅ : FiniteMap κ ν) = 0 := rfl

theorem total_insert_of_notMem (fresh : key ∉ map) (value : ν) :
    total weight (map.insert key value) = weight value + total weight map := by
  rw [total, total, Finmap.entries_insert_of_notMem fresh, Multiset.map_cons, Multiset.sum_cons]

theorem insert_erase_eq (map : FiniteMap κ ν) (key : κ) (value : ν) :
    (map.erase key).insert key value = map.insert key value := by
  apply Finmap.ext_lookup
  intro query
  simp only [lookup_insert_eq, lookup_erase_eq]
  split <;> rfl

theorem insert_of_lookup (found : map.lookup key = some value) : map.insert key value = map := by
  apply Finmap.ext_lookup
  intro query
  rw [lookup_insert_eq]
  split
  · rename_i same
    rw [same, found]
  · rfl

/-- Removing a key takes away exactly what it held. -/
theorem total_erase_add (found : map.lookup key = some value) :
    total weight (map.erase key) + weight value = total weight map := by
  have restored := total_insert_of_notMem weight
    (Finmap.notMem_erase_self (s := map) (a := key)) value
  rw [insert_erase_eq, insert_of_lookup found] at restored
  omega

/-- A map inside another totals at most as much. -/
theorem total_mono {small large : FiniteMap κ ν} (within : Within small large) :
    total weight small ≤ total weight large := by
  have entries : small.entries ≤ large.entries := by
    refine (Multiset.le_iff_subset small.nodupKeys.nodup).mpr ?_
    rintro ⟨key, value⟩ member
    exact lookup_eq_some_iff.mp (within key value (lookup_eq_some_iff.mpr member))
  obtain ⟨rest, split⟩ := Multiset.le_iff_exists_add.mp entries
  rw [total, total, split, Multiset.map_add, Multiset.sum_add]
  exact Nat.le_add_right _ _

theorem total_erase_le (map : FiniteMap κ ν) (key : κ) :
    total weight (map.erase key) ≤ total weight map :=
  total_mono weight (erase_within map key)

/-- An insertion adds at most what it inserts: an entry it replaces is lost. -/
theorem total_insert_le (map : FiniteMap κ ν) (key : κ) (value : ν) :
    total weight (map.insert key value) ≤ weight value + total weight map := by
  rw [← insert_erase_eq, total_insert_of_notMem weight Finmap.notMem_erase_self]
  exact Nat.add_le_add_left (total_erase_le weight map key) _

/-- An insertion over an existing entry loses the entry. -/
theorem total_insert_of_lookup {old : ν} (found : map.lookup key = some old) (value : ν) :
    total weight (map.insert key value) + weight old = weight value + total weight map := by
  rw [← insert_erase_eq, total_insert_of_notMem weight Finmap.notMem_erase_self,
    ← total_erase_add weight found, Nat.add_assoc]

/-- The total, key by key. -/
theorem total_eq_sum_keys (map : FiniteMap κ ν) :
    total weight map = ∑ key ∈ map.keys, ((map.lookup key).map weight).getD 0 := by
  change _ = ((map.entries.map Sigma.fst).map fun key => ((map.lookup key).map weight).getD 0).sum
  rw [Multiset.map_map, total]
  congr 1
  refine Multiset.map_congr rfl ?_
  rintro ⟨key, value⟩ member
  rw [Function.comp_apply, lookup_eq_some_iff.mpr member, Option.map_some, Option.getD_some]

/-!
## Indices by group

For each group the set of keys whose value belongs to it, no set empty.  The map determines such an
index, which follows the insertion of a fresh key and the removal of a present one.
-/

section Groups
variable {κ ν ι : Type*} [DecidableEq κ] [DecidableEq ι]

section
variable (index : FiniteMap ι (Finset κ))

/-- The keys the index holds for a group. -/
def bucket (name : ι) : Finset κ := (index.lookup name).getD ∅

def putInto (name : ι) (key : κ) : FiniteMap ι (Finset κ) :=
  index.insert name (insert key (bucket index name))

/-- The key leaves its group, and the group the index with its last key. -/
def dropFrom (name : ι) (key : κ) : FiniteMap ι (Finset κ) :=
  match index.lookup name with
  | none => index
  | some members =>
    if members.erase key = ∅ then index.erase name else index.insert name (members.erase key)

/-- The index holds exactly the keys of the map, under the groups of their values. -/
structure Grouped (group : ν → Option ι) (map : FiniteMap κ ν) (index : FiniteMap ι (Finset κ)) :
    Prop where
  nonempty : ∀ name members, index.lookup name = some members → members ≠ ∅
  mem_bucket : ∀ name key, key ∈ bucket index name ↔
    ∃ value, map.lookup key = some value ∧ group value = some name

theorem bucket_putInto (name other : ι) (key : κ) :
    bucket (putInto index name key) other =
      if other = name then insert key (bucket index name) else bucket index other := by
  rw [bucket, putInto, lookup_insert_eq]
  split <;> rfl

theorem bucket_dropFrom (name other : ι) (key : κ) :
    bucket (dropFrom index name key) other =
      if other = name then (bucket index name).erase key else bucket index other := by
  unfold dropFrom
  cases found : index.lookup name with
  | none =>
    dsimp only
    split
    · rename_i same
      rw [same, bucket, found]
      rfl
    · rfl
  | some members =>
    have held : bucket index name = members := by rw [bucket, found]; rfl
    dsimp only
    by_cases last : members.erase key = ∅
    · rw [if_pos last, bucket, lookup_erase_eq, held, last]
      split <;> rfl
    · rw [if_neg last, bucket, lookup_insert_eq, held]
      split <;> rfl

end

section Grouped
variable {group : ν → Option ι} {map : FiniteMap κ ν} {index other : FiniteMap ι (Finset κ)}
  {name : ι} {key : κ} {value : ν}

theorem lookup_of_bucket (full : ∀ name members, index.lookup name = some members → members ≠ ∅)
    (name : ι) :
    index.lookup name = if bucket index name = ∅ then none else some (bucket index name) := by
  cases found : index.lookup name with
  | none => rw [if_pos (by rw [bucket, found]; rfl)]
  | some members =>
    have held : bucket index name = members := by rw [bucket, found]; rfl
    rw [held, if_neg (full name members found)]

/-- The map leaves no choice. -/
theorem Grouped.unique (first : Grouped group map index) (second : Grouped group map other) :
    index = other := by
  apply Finmap.ext_lookup
  intro name
  have same : bucket index name = bucket other name := by
    ext key
    rw [first.mem_bucket, second.mem_bucket]
  rw [lookup_of_bucket first.nonempty, lookup_of_bucket second.nonempty, same]

theorem Grouped.empty : Grouped group (∅ : FiniteMap κ ν) ∅ := by
  constructor
  · intro name members found
    cases found
  · simp [bucket]

section
variable (grouped : Grouped group map index)
include grouped

theorem Grouped.insert (fresh : map.lookup key = none) (named : group value = some name) :
    Grouped group (map.insert key value) (putInto index name key) := by
  constructor
  · intro target members found
    rw [putInto, lookup_insert_eq] at found
    split at found
    · cases found
      exact Finset.insert_ne_empty _ _
    · exact grouped.nonempty target members found
  · intro target query
    rw [bucket_putInto, lookup_insert_eq]
    by_cases same : query = key
    · subst same
      have absent := grouped.mem_bucket target query
      rw [fresh] at absent
      split
      · rename_i here
        simp [here, named]
      · rename_i elsewhere
        simp [absent, named, Ne.symm elsewhere]
    · rw [if_neg same, ← grouped.mem_bucket]
      split
      · rename_i here
        rw [here, Finset.mem_insert, or_iff_right same]
      · rfl

/-- A value outside every group changes nothing. -/
theorem Grouped.insert_none (fresh : map.lookup key = none) (unnamed : group value = none) :
    Grouped group (map.insert key value) index := by
  refine ⟨grouped.nonempty, ?_⟩
  intro target query
  rw [grouped.mem_bucket, lookup_insert_eq]
  split
  · rename_i same
    subst same
    simp [fresh, unnamed]
  · rfl

/-- A value replaced by one of its own group. -/
theorem Grouped.replace {old : ν} (present : map.lookup key = some old)
    (oldNamed : group old = some name) (named : group value = some name) :
    Grouped group (map.insert key value) (putInto index name key) := by
  have held : key ∈ bucket index name := (grouped.mem_bucket name key).mpr ⟨old, present, oldNamed⟩
  constructor
  · intro target members found
    rw [putInto, lookup_insert_eq] at found
    split at found
    · cases found
      exact Finset.insert_ne_empty _ _
    · exact grouped.nonempty target members found
  · intro target query
    have same : bucket (putInto index name key) target = bucket index target := by
      rw [bucket_putInto, Finset.insert_eq_of_mem held]
      split
      · rename_i here
        rw [here]
      · rfl
    rw [same, grouped.mem_bucket, lookup_insert_eq]
    split
    · rename_i here
      subst here
      simp [present, oldNamed, named]
    · rfl

theorem Grouped.erase (present : map.lookup key = some value) (named : group value = some name) :
    Grouped group (map.erase key) (dropFrom index name key) := by
  constructor
  · intro target members found
    unfold dropFrom at found
    split at found
    · exact grouped.nonempty target members found
    · split at found
      · exact grouped.nonempty target members (erase_within _ _ _ _ found)
      · rename_i more
        rw [lookup_insert_eq] at found
        split at found
        · cases found
          exact more
        · exact grouped.nonempty target members found
  · intro target query
    rw [bucket_dropFrom, lookup_erase_eq]
    by_cases same : query = key
    · subst same
      have here := grouped.mem_bucket target query
      rw [present] at here
      split
      · simp
      · rename_i elsewhere
        simp [here, named, Ne.symm elsewhere]
    · rw [if_neg same, ← grouped.mem_bucket]
      split
      · rename_i here
        rw [here, Finset.mem_erase, and_iff_right same]
      · rfl

theorem Grouped.erase_none (present : map.lookup key = some value) (unnamed : group value = none) :
    Grouped group (map.erase key) index := by
  refine ⟨grouped.nonempty, ?_⟩
  intro target query
  rw [grouped.mem_bucket, lookup_erase_eq]
  split
  · rename_i same
    subst same
    simp [present, unnamed]
  · rfl

end

end Grouped

end Groups

end Q21Formal.Library.Maps

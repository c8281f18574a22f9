import Mathlib.Tactic

/-!
# Secrets derived along a binary tree

A family of secrets, each derived from a seed by one turn for every set bit of its index.  Revealed
from the highest index down they fit in `width + 1` entries: the latest secret of each number of
trailing zeros derives all the earlier ones it covers.  A new secret is taken only if it derives
those it should.
-/

namespace Q21Formal.Library.HashChain
open List

variable {α : Type}

/-- Take the turns of the `bits` lowest bits of `index`, highest first. -/
def deriveFrom (turn : Nat → α → α) : Nat → α → Nat → α
  | 0, base, _ => base
  | bits + 1, base, index =>
    deriveFrom turn bits (if index.testBit bits then turn bits base else base) index

variable (turn : Nat → α → α)

variable {bits index : Nat}

theorem deriveFrom_of_clear (base : α) (clear : ∀ position < bits, index.testBit position = false) :
    deriveFrom turn bits base index = base := by
  induction bits generalizing base with
  | zero => rfl
  | succ bits ih =>
    rw [deriveFrom, clear bits (Nat.lt_succ_self bits), if_neg Bool.false_ne_true]
    exact ih base fun position below => clear position (Nat.lt_succ_of_lt below)

/-- A derivation may stop at any index that shares the higher bits and go on from there. -/
theorem deriveFrom_split {low stop : Nat} (base : α) (within : low ≤ bits)
    (shared : ∀ position, low ≤ position → index.testBit position = stop.testBit position)
    (clear : ∀ position < low, stop.testBit position = false) :
    deriveFrom turn bits base index =
      deriveFrom turn low (deriveFrom turn bits base stop) index := by
  induction bits generalizing base with
  | zero =>
    obtain rfl : low = 0 := Nat.le_zero.mp within
    rfl
  | succ bits ih =>
    rcases Nat.lt_or_ge bits low with above | below
    · obtain rfl : low = bits + 1 := by omega
      rw [deriveFrom_of_clear turn base clear]
    · rw [deriveFrom, deriveFrom, shared bits below]
      exact ih _ below

/-! ## Buckets -/

variable {width index zeros : Nat}

/-- The number of trailing zeros, at most `width`. -/
def bucket : Nat → Nat → Nat
  | 0, _ => 0
  | width + 1, index => if index % 2 = 0 then bucket width (index / 2) + 1 else 0

theorem bucket_le (width index : Nat) : bucket width index ≤ width := by
  induction width generalizing index with
  | zero => exact Nat.le_refl 0
  | succ width ih =>
    rw [bucket]
    split
    · exact Nat.succ_le_succ (ih _)
    · exact Nat.zero_le _

theorem bucket_zero (width : Nat) : bucket width 0 = width := by
  induction width with
  | zero => rfl
  | succ width ih => rw [bucket, if_pos rfl, Nat.zero_div, ih]

theorem bucket_odd (below : zeros < width) (half : Nat) :
    bucket width (2 ^ zeros * (2 * half + 1)) = zeros := by
  induction zeros generalizing width with
  | zero =>
    obtain ⟨rest, rfl⟩ := Nat.exists_eq_succ_of_ne_zero (Nat.ne_of_gt below)
    rw [bucket, if_neg (by omega)]
  | succ zeros ih =>
    obtain ⟨rest, rfl⟩ := Nat.exists_eq_succ_of_ne_zero (Nat.ne_of_gt (Nat.zero_lt_of_lt below))
    have even : 2 ^ (zeros + 1) * (2 * half + 1) = 2 * (2 ^ zeros * (2 * half + 1)) := by ring
    rw [bucket, even, if_pos (Nat.mul_mod_right 2 _), Nat.mul_div_cancel_left _ Nat.two_pos,
      ih (Nat.lt_of_succ_lt_succ below)]

/-- An index is zero, or an odd multiple of a power of two. -/
theorem bucket_cases (width : Nat) (small : index < 2 ^ width) :
    (index = 0 ∧ bucket width index = width) ∨
      ∃ zeros half, zeros < width ∧ index = 2 ^ zeros * (2 * half + 1) ∧
        bucket width index = zeros := by
  rcases Nat.eq_zero_or_pos index with rfl | positive
  · exact .inl ⟨rfl, bucket_zero width⟩
  · obtain ⟨zeros, odd, isOdd, rfl⟩ := Nat.exists_eq_two_pow_mul_odd (Nat.ne_of_gt positive)
    obtain ⟨half, rfl⟩ := isOdd
    have below : zeros < width := by
      have larger : 2 ^ zeros ≤ 2 ^ zeros * (2 * half + 1) := Nat.le_mul_of_pos_right _ (by omega)
      exact (Nat.pow_lt_pow_iff_right (by decide)).mp (Nat.lt_of_le_of_lt larger small)
    exact .inr ⟨zeros, half, below, rfl, bucket_odd below half⟩

theorem bucket_dvd (width : Nat) (small : index < 2 ^ width) : 2 ^ bucket width index ∣ index := by
  rcases bucket_cases width small with ⟨rfl, -⟩ | ⟨zeros, half, -, shape, same⟩
  · exact Nat.dvd_zero _
  · rw [same, shape]
    exact Nat.dvd_mul_right _ _

/-- The block an index derives stays inside the family. -/
theorem block_le (width : Nat) (small : index < 2 ^ width) :
    index + 2 ^ bucket width index ≤ 2 ^ width := by
  obtain ⟨quotient, shape⟩ := bucket_dvd width small
  obtain ⟨rest, total⟩ := Nat.pow_dvd_pow 2 (bucket_le width index)
  have fewer : quotient < rest := by
    refine Nat.lt_of_mul_lt_mul_left (a := 2 ^ bucket width index) ?_
    rwa [← shape, ← total]
  calc index + 2 ^ bucket width index
      = 2 ^ bucket width index * (quotient + 1) := by rw [Nat.mul_succ, ← shape]
    _ ≤ 2 ^ bucket width index * rest := Nat.mul_le_mul_left _ fewer
    _ = 2 ^ width := total.symm

/-- Inside a block the next index of each lower bucket is a power of two away. -/
theorem bucket_add_pow (small : index < 2 ^ width) (lower : zeros < bucket width index) :
    bucket width (index + 2 ^ zeros) = zeros := by
  obtain ⟨quotient, shape⟩ := bucket_dvd width small
  obtain ⟨gap, gapped⟩ : ∃ gap, bucket width index = zeros + 1 + gap :=
    ⟨bucket width index - (zeros + 1), by omega⟩
  have odd : index + 2 ^ zeros = 2 ^ zeros * (2 * (2 ^ gap * quotient) + 1) := by
    conv_lhs => rw [shape, gapped]
    ring
  rw [odd]
  exact bucket_odd (Nat.lt_of_lt_of_le lower (bucket_le width index)) _

/-- No index strictly between shares a bucket at least as low. -/
theorem bucket_gap {first second : Nat} (small : second < 2 ^ width)
    (same : bucket width first = bucket width second) (ordered : first < second) :
    first + 2 ^ bucket width second * 2 ≤ second := by
  rcases bucket_cases width (Nat.lt_trans ordered small) with ⟨-, top⟩ | ⟨zeros, half, _, shape, at₁⟩
  · rcases bucket_cases width small with ⟨rfl, -⟩ | ⟨zeros, half, below, -, at₂⟩
    · exact absurd ordered (Nat.not_lt_zero _)
    · omega
  · rcases bucket_cases width small with ⟨rfl, -⟩ | ⟨zeros', half', _, shape', at₂⟩
    · exact absurd ordered (Nat.not_lt_zero _)
    · obtain rfl : zeros = zeros' := by omega
      rw [at₂]
      have halves : half < half' := by
        rw [shape, shape'] at ordered
        have := Nat.lt_of_mul_lt_mul_left ordered
        omega
      rw [shape, shape']
      calc 2 ^ zeros * (2 * half + 1) + 2 ^ zeros * 2 = 2 ^ zeros * (2 * half + 3) := by ring
        _ ≤ 2 ^ zeros * (2 * half' + 1) := Nat.mul_le_mul_left _ (by omega)

inductive Problem where
  | inconsistent (index : Nat)
  | outOfOrder (expected received : Nat)
  | indexOutOfRange (index : Nat)
deriving DecidableEq, Repr

/-- Entry `b` holds the latest secret whose index has `b` trailing zeros; `next` is the index
expected now. -/
structure Store (α : Type) where
  known : List (Option (α × Nat))
  next : Option Nat
deriving DecidableEq

/-- The index below, if there is one. -/
def before (index : Nat) : Option Nat := if index = 0 then none else some (index - 1)

namespace Store

variable (width : Nat)

def new : Store α := ⟨replicate (width + 1) none, some (2 ^ width - 1)⟩

/-- The secret of `index`, from the entry of `bits` trailing zeros if that one covers it. -/
def answer (index : Nat) (entry : Option (α × Nat) × Nat) : Option α :=
  match entry with
  | (some (secret, first), bits) =>
    if index >>> bits = first >>> bits ∧ first ≤ index then
      some (deriveFrom turn bits secret index)
    else none
  | (none, _) => none

def get (store : Store α) (index : Nat) : Option α :=
  store.known.zipIdx.findSome? (answer turn index)

/-- The entries held, highest index first. -/
def entries (store : Store α) : List (α × Nat) :=
  (store.known.filterMap id).insertionSort fun first second => second.2 ≤ first.2

/-- Put one entry of a saved store back in its place, which must be empty. -/
def place (store : Store α) (entry : α × Nat) : Except Problem (Store α) :=
  if 2 ^ width - 1 < entry.2 then
    .error (.indexOutOfRange entry.2)
  else if (store.known[bucket width entry.2]?).join.isSome then
    .error (.inconsistent entry.2)
  else
    .ok { store with known := store.known.set (bucket width entry.2) (some entry) }

variable [DecidableEq α]

/-- The secret derives what the entry holds. -/
def derives (bits : Nat) (secret : α) (entry : Option (α × Nat)) : Bool :=
  match entry with
  | some (older, index) => deriveFrom turn bits secret index = older
  | none => true

def insert (store : Store α) (secret : α) (index : Nat) : Except Problem (Store α) :=
  if 2 ^ width - 1 < index then
    .error (.indexOutOfRange index)
  else if store.next.isNone ∨ index ≠ store.next.getD 0 then
    .error (.outOfOrder (store.next.getD 0) index)
  else if (store.known.take (bucket width index)).all (derives turn (bucket width index) secret) then
    .ok ⟨store.known.set (bucket width index) (some (secret, index)), before index⟩
  else
    .error (.inconsistent index)

/-- The entry derives every higher index held in a lower place. -/
def coherent (known : List (Option (α × Nat))) (entry : Option (α × Nat) × Nat) : Bool :=
  match entry with
  | (some (secret, index), bits) =>
    (known.take bits).all fun older =>
      match older with
      | some (_, higher) => decide (higher ≤ index) || derives turn bits secret older
      | none => true
  | (none, _) => true

/-- Rebuild a store from its entries. -/
def restore (saved : List (α × Nat)) : Except Problem (Store α) := do
  let placed ← saved.foldlM (place width) (new width)
  match placed.known.zipIdx.find? fun entry => !coherent turn placed.known entry with
  | some (entry, _) => .error (.inconsistent ((entry.map Prod.snd).getD 0))
  | none =>
    pure ⟨placed.known,
      match (saved.map Prod.snd).min? with
      | some lowest => before lowest
      | none => some (2 ^ width - 1)⟩

/-! ## What a store represents -/

/-- The store was given `secret index` for every index from `low` on, each consistent. -/
structure Represents (secret : Nat → α) (low : Nat) (store : Store α) : Prop where
  bounded : low ≤ 2 ^ width
  next_eq : store.next = before low
  length_known : store.known.length = width + 1
  vacant : ∀ bits, store.known[bits]? = some none →
    ∀ index, low ≤ index → index < 2 ^ width → bucket width index ≠ bits
  held : ∀ bits value index, store.known[bits]? = some (some (value, index)) →
    value = secret index ∧ bucket width index = bits ∧ low ≤ index ∧ index < 2 ^ width ∧
      ∀ earlier, low ≤ earlier → earlier < index → bucket width earlier ≠ bits
  consistent : ∀ index, low ≤ index → index < 2 ^ width → ∀ later, index ≤ later →
    later < index + 2 ^ bucket width index →
      deriveFrom turn (bucket width index) (secret index) later = secret later

omit [DecidableEq α] in
theorem new_represents (secret : Nat → α) : Represents turn width secret (2 ^ width) (new width) where
  bounded := Nat.le_refl _
  next_eq := by
    have positive : 2 ^ width ≠ 0 := Nat.pos_iff_ne_zero.mp (Nat.two_pow_pos width)
    rw [before, if_neg positive]
    rfl
  length_known := length_replicate
  vacant _ _ _ above below := absurd below (Nat.not_lt.mpr above)
  held bits value index found := by
    rw [new, getElem?_replicate] at found
    split at found <;> cases found
  consistent _ above below := absurd below (Nat.not_lt.mpr above)

variable {later : Nat}

omit [DecidableEq α] in
/-- A derivation inside an aligned block passes through the bottom of the block. -/
theorem deriveFrom_aligned {zeros quotient : Nat} (base : α) (within : zeros ≤ bits)
    (above : 2 ^ zeros * quotient ≤ later) (below : later < 2 ^ zeros * (quotient + 1)) :
    deriveFrom turn bits base later =
      deriveFrom turn zeros (deriveFrom turn bits base (2 ^ zeros * quotient)) later := by
  have sameQuotient : later / 2 ^ zeros = 2 ^ zeros * quotient / 2 ^ zeros := by
    rw [Nat.mul_div_cancel_left _ (Nat.two_pow_pos zeros)]
    refine Nat.div_eq_of_lt_le ?_ ?_
    · rwa [Nat.mul_comm]
    · rwa [Nat.mul_comm]
  refine deriveFrom_split turn base within ?_ ?_
  · intro position high
    have split := congrArg (Nat.testBit · (position - zeros)) sameQuotient
    simpa only [Nat.testBit_div_two_pow, Nat.add_sub_cancel' high,
      Nat.sub_add_cancel high] using split
  · intro position low
    rw [Nat.testBit_two_pow_mul]
    simp [Nat.not_le.mpr low]

omit [DecidableEq α] in
/-- A derivation from the bottom of a block passes through the block's lower buckets. -/
theorem deriveFrom_through {zeros : Nat} (small : index < 2 ^ width)
    (lower : zeros < bucket width index) (above : index + 2 ^ zeros ≤ later)
    (below : later < index + 2 ^ (zeros + 1)) (base : α) :
    deriveFrom turn (bucket width index) base later =
      deriveFrom turn zeros (deriveFrom turn (bucket width index) base (index + 2 ^ zeros))
        later := by
  obtain ⟨quotient, shape⟩ : 2 ^ zeros ∣ index :=
    (Nat.pow_dvd_pow 2 (Nat.le_of_lt lower)).trans (bucket_dvd width small)
  have stopShape : index + 2 ^ zeros = 2 ^ zeros * (quotient + 1) := by
    rw [Nat.mul_succ, ← shape]
  rw [stopShape] at above ⊢
  refine deriveFrom_aligned turn base (Nat.le_of_lt lower) above ?_
  rw [Nat.mul_succ, ← stopShape]
  omega

omit [DecidableEq α] in
/-- The secrets of a seed: each derives those of its block. -/
theorem deriveFrom_block (small : index < 2 ^ width) (above : index ≤ later)
    (below : later < index + 2 ^ bucket width index) (seed : α) :
    deriveFrom turn (bucket width index) (deriveFrom turn width seed index) later =
      deriveFrom turn width seed later := by
  obtain ⟨quotient, shape⟩ := bucket_dvd width small
  have bottom : 2 ^ bucket width index * quotient ≤ later := by omega
  have top : later < 2 ^ bucket width index * (quotient + 1) := by
    rw [Nat.mul_succ]
    omega
  rw [deriveFrom_aligned turn seed (bucket_le width index) bottom top, ← shape]

section Facts
variable {turn width} {secret : Nat → α} {low : Nat} {store : Store α} {index : Nat} {value : α}

omit [DecidableEq α] in
/-- The lowest bits of an index are clear, so its own derivation takes no turn. -/
theorem deriveFrom_self (small : index < 2 ^ width) (base : α) :
    deriveFrom turn (bucket width index) base index = base := by
  refine deriveFrom_of_clear turn base ?_
  intro position below
  obtain ⟨quotient, shape⟩ := bucket_dvd width small
  rw [shape, Nat.testBit_two_pow_mul]
  simp [Nat.not_le.mpr below]

omit [DecidableEq α] in
theorem mem_entries {entry : α × Nat} :
    entry ∈ store.entries ↔ ∃ bits : Nat, store.known[bits]? = some (some entry) := by
  rw [entries, mem_insertionSort, mem_filterMap]
  constructor
  · rintro ⟨content, member, rfl⟩
    exact mem_iff_getElem?.mp member
  · rintro ⟨bits, found⟩
    exact ⟨some entry, mem_of_getElem? found, rfl⟩

omit [DecidableEq α] in
/-- Entries of different buckets are put back each in its place. -/
theorem foldlM_place {saved : List (α × Nat)} (inRange : ∀ entry ∈ saved, entry.2 < 2 ^ width)
    (apart : saved.Pairwise fun first second => bucket width first.2 ≠ bucket width second.2)
    (sized : store.known.length = width + 1)
    (free : ∀ entry ∈ saved, store.known[bucket width entry.2]? = some none) :
    ∃ placed : Store α, saved.foldlM (place width) store = .ok placed ∧
      placed.known.length = width + 1 ∧
      (∀ entry ∈ saved, placed.known[bucket width entry.2]? = some (some entry)) ∧
      ∀ bits, (∀ entry ∈ saved, bucket width entry.2 ≠ bits) →
        placed.known[bits]? = store.known[bits]? := by
  induction saved generalizing store with
  | nil => exact ⟨store, rfl, sized, forall_mem_nil _, fun _ _ => rfl⟩
  | cons entry rest ih =>
    obtain ⟨others, apartRest⟩ := pairwise_cons.mp apart
    have present : bucket width entry.2 < store.known.length := by
      have := bucket_le width entry.2
      omega
    have fits := inRange entry (.head _)
    have stepped : place width store entry =
        .ok { store with known := store.known.set (bucket width entry.2) (some entry) } := by
      rw [place, if_neg (by omega), free entry (.head _)]
      rfl
    have written : ∀ bits, (store.known.set (bucket width entry.2) (some entry))[bits]? =
        if bucket width entry.2 = bits then some (some entry) else store.known[bits]? := by
      intro bits
      rw [getElem?_set, if_pos present]
    obtain ⟨placed, ran, sizedAfter, inPlace, elsewhere⟩ :=
      @ih { store with known := store.known.set (bucket width entry.2) (some entry) }
        (fun other member => inRange other (.tail _ member)) apartRest
        (by rw [length_set, sized])
        (by
          intro other member
          rw [written, if_neg (others other member)]
          exact free other (.tail _ member))
    refine ⟨placed, ?_, sizedAfter, ?_, ?_⟩
    · rwa [foldlM_cons, stepped]
    · intro other member
      rcases mem_cons.mp member with rfl | later
      · rw [elsewhere _ fun third among => (others third among).symm, written, if_pos rfl]
      · exact inPlace other later
    · intro bits none
      rw [elsewhere bits fun third among => none third (.tail _ among), written,
        if_neg (none entry (.head _))]

section
variable (represents : Represents turn width secret low store)
include represents

omit [DecidableEq α] in
/-- Every place of the store has been written or is still empty. -/
theorem Represents.place_cases (within : bits ≤ width) : store.known[bits]? = some none ∨
      ∃ value index, store.known[bits]? = some (some (value, index)) := by
  have present : bits < store.known.length := by
    rw [represents.length_known]
    omega
  rw [getElem?_eq_getElem present]
  rcases store.known[bits] with _ | ⟨value, index⟩
  · exact .inl rfl
  · exact .inr ⟨value, index, rfl⟩

omit [DecidableEq α] in
/-- The place of an index holds it as long as no lower index of its bucket was given. -/
theorem Represents.held_least (index : Nat) (given : low ≤ index) (small : index < 2 ^ width)
    (least : ∀ earlier, low ≤ earlier → earlier < index → bucket width earlier ≠ bucket width index) :
    store.known[bucket width index]? = some (some (secret index, index)) := by
  rcases represents.place_cases (bucket_le width index) with empty | ⟨value, other, found⟩
  · exact absurd rfl (represents.vacant _ empty index given small)
  · obtain ⟨rfl, same, above, -, first⟩ := represents.held _ _ _ found
    have : other = index := by
      rcases Nat.lt_trichotomy other index with lower | equal | higher
      · exact absurd same (least other above lower)
      · exact equal
      · exact absurd rfl (first index given higher)
    rw [found, this]

omit represents in
/-- The entries in the lower places vouch for the whole block of a new index. -/
theorem Represents.derives_later (represents : Represents turn width secret (index + 1) store)
    (small : index < 2 ^ width) (derived : (store.known.take (bucket width index)).all
      (derives turn (bucket width index) value) = true) (above : index < later)
    (below : later < index + 2 ^ bucket width index) :
    deriveFrom turn (bucket width index) value later = secret later := by
  -- `later` lies in the block of the lower bucket that its distance from `index` selects
  obtain ⟨zeros, from_, upto⟩ : ∃ zeros, index + 2 ^ zeros ≤ later ∧
      later < index + 2 ^ (zeros + 1) := by
    have apart : later - index ≠ 0 := by omega
    refine ⟨Nat.log2 (later - index), ?_, ?_⟩
    · have := Nat.log2_self_le apart
      omega
    · have := @Nat.lt_log2_self (later - index)
      omega
  have lower : zeros < bucket width index := by
    refine (Nat.pow_lt_pow_iff_right (a := 2) (by decide)).mp ?_
    omega
  have block := block_le width small
  have middleSmall : index + 2 ^ zeros < 2 ^ width := by omega
  have middleBucket := bucket_add_pow small lower
  have found := represents.held_least (index + 2 ^ zeros) (by omega) middleSmall (by
    intro earlier given before same
    rw [middleBucket] at same
    have gap := bucket_gap middleSmall (same.trans middleBucket.symm) before
    rw [middleBucket] at gap
    omega)
  rw [middleBucket] at found
  have checked : derives turn (bucket width index) value
      (some (secret (index + 2 ^ zeros), index + 2 ^ zeros)) = true := by
    refine all_eq_true.mp derived _ (mem_of_getElem? (i := zeros) ?_)
    rw [getElem?_take_of_lt lower, found]
  rw [deriveFrom_through turn width small lower from_ upto, of_decide_eq_true checked]
  have onward := represents.consistent (index + 2 ^ zeros) (by omega) middleSmall later from_ (by
    rw [middleBucket]
    omega)
  rwa [middleBucket] at onward

/-- A secret is taken only at the expected index, and only if it derives what it covers. -/
theorem Represents.insert {after : Store α}
    (taken : store.insert turn width value index = .ok after) :
    low = index + 1 ∧ Represents turn width (Function.update secret index value) index after := by
  unfold Store.insert at taken
  split at taken
  · cases taken
  split at taken
  · cases taken
  rename_i expected
  split at taken
  swap
  · cases taken
  rename_i derived
  obtain rfl := Except.ok.inj taken
  have positive := Nat.two_pow_pos width
  have small : index < 2 ^ width := by omega
  have lowEq : low = index + 1 := by
    rw [represents.next_eq, before] at expected
    split at expected
    · exact absurd (.inl rfl) expected
    · have same := not_not.mp (not_or.mp expected).2
      rw [Option.getD_some] at same
      omega
  have unchanged : ∀ other, index < other → Function.update secret index value other = secret other :=
    fun other above => Function.update_of_ne (Nat.ne_of_gt above) _ _
  have placed : ∀ bits, (store.known.set (bucket width index) (some (value, index)))[bits]? =
      if bucket width index = bits then some (some (value, index)) else store.known[bits]? := by
    intro bits
    have present : bucket width index < store.known.length := by
      have := bucket_le width index
      rw [represents.length_known]
      omega
    rw [getElem?_set, if_pos present]
  refine ⟨lowEq, Nat.le_of_lt small, rfl, ?_, ?_, ?_, ?_⟩
  · rw [length_set, represents.length_known]
  · intro bits empty other above below
    rw [placed] at empty
    split at empty
    · cases empty
    · rename_i different
      rcases Nat.eq_or_lt_of_le above with rfl | higher
      · exact different
      · exact represents.vacant bits empty other (by omega) below
  · intro bits held other found
    rw [placed] at found
    split at found
    · rename_i same
      cases found
      refine ⟨by rw [Function.update_self], same, Nat.le_refl _, small, ?_⟩
      omega
    · rename_i different
      obtain ⟨rfl, same, above, below, least⟩ := represents.held bits held other found
      refine ⟨(unchanged other (by omega)).symm, same, by omega, below, ?_⟩
      intro earlier from_ upto
      rcases Nat.eq_or_lt_of_le from_ with rfl | higher
      · exact different
      · exact least earlier (by omega) upto
  · intro other above below later from_ upto
    rcases Nat.eq_or_lt_of_le above with rfl | higher
    · rw [Function.update_self]
      rcases Nat.eq_or_lt_of_le from_ with rfl | beyond
      · rw [Function.update_self]
        exact deriveFrom_self small value
      · rw [unchanged later beyond]
        subst lowEq
        exact represents.derives_later small derived beyond upto
    · rw [unchanged other higher, unchanged later (by omega)]
      exact represents.consistent other (by omega) below later from_ upto

omit [DecidableEq α] in
/-- An entry in a place below that of an index is in the block of the index, if it is above it. -/
theorem Represents.mem_lower {higher : Nat} (small : index < 2 ^ width) (given : low ≤ index + 1)
    (among : some (value, higher) ∈ store.known.take (bucket width index)) :
    value = secret higher ∧ low ≤ higher ∧
      (index < higher → higher < index + 2 ^ bucket width index) := by
  obtain ⟨place, found⟩ := mem_iff_getElem?.mp among
  have lower : place < bucket width index := by
    by_contra beyond
    rw [getElem?_take_eq_none (Nat.not_lt.mp beyond)] at found
    cases found
  rw [getElem?_take_of_lt lower] at found
  obtain ⟨rfl, -, above, -, least⟩ := represents.held _ _ _ found
  refine ⟨rfl, above, fun later => ?_⟩
  have power := (Nat.pow_lt_pow_iff_right (a := 2) (by decide)).mpr lower
  have positive := Nat.two_pow_pos place
  by_contra beyond
  exact least (index + 2 ^ place) (by omega) (by omega) (bucket_add_pow small lower)

omit represents in
/-- The next secret of a seed is always taken. -/
theorem Represents.insert_derived {seed : α}
    (represents : Represents turn width (deriveFrom turn width seed) (index + 1) store)
    (small : index < 2 ^ width) :
    ∃ after, store.insert turn width (deriveFrom turn width seed index) index = .ok after := by
  have expected : store.next = some index := represents.next_eq
  have derived : (store.known.take (bucket width index)).all
      (derives turn (bucket width index) (deriveFrom turn width seed index)) = true := by
    refine all_eq_true.mpr fun older among => ?_
    rcases older with _ | ⟨value, higher⟩
    · rfl
    obtain ⟨rfl, above, within⟩ := represents.mem_lower small (Nat.le_refl _) among
    exact decide_eq_true
      (deriveFrom_block turn width small (Nat.le_of_lt above) (within above) seed)
  refine ⟨⟨store.known.set (bucket width index) (some (deriveFrom turn width seed index, index)),
    before index⟩, ?_⟩
  rw [Store.insert, if_neg (by omega), if_neg, if_pos derived]
  simp [expected]

omit [DecidableEq α] in
/-- Whatever an entry answers is the secret given for the index, and one was given. -/
theorem Represents.answer_eq {entry : Option (α × Nat) × Nat} (member : entry ∈ store.known.zipIdx)
    (answered : answer turn index entry = some value) :
    value = secret index ∧ low ≤ index ∧ index < 2 ^ width := by
  obtain ⟨content, bits⟩ := entry
  rcases content with _ | ⟨base, first⟩
  · cases answered
  · have found := mem_zipIdx_iff_getElem?.mp member
    obtain ⟨rfl, same, above, small, -⟩ := represents.held _ _ _ found
    subst same
    unfold answer at answered
    dsimp only at answered
    split at answered
    · rename_i covers
      obtain rfl := Option.some.inj answered
      have quotients := covers.1
      rw [Nat.shiftRight_eq_div_pow, Nat.shiftRight_eq_div_pow] at quotients
      obtain ⟨quotient, shape⟩ := bucket_dvd width small
      have positive := Nat.two_pow_pos (bucket width first)
      have firstQuotient : first / 2 ^ bucket width first = quotient :=
        Nat.div_eq_of_eq_mul_right positive shape
      rw [firstQuotient] at quotients
      have below := Nat.lt_mul_div_succ index positive
      rw [quotients, Nat.mul_succ, ← shape] at below
      have block := block_le width small
      exact ⟨represents.consistent first above small index covers.2 below,
        Nat.le_trans above covers.2, Nat.lt_of_lt_of_le below block⟩
    · cases answered

omit [DecidableEq α] in
/-- Some entry covers every index given: the one above the highest bit that cannot be cleared. -/
theorem Represents.covered (given : low ≤ index) (small : index < 2 ^ width) :
    ∃ bits first, store.known[bits]? = some (some (secret first, first)) ∧ first ≤ index ∧
      index / 2 ^ bits = first / 2 ^ bits := by
  let inside (bits : Nat) : Prop := low ≤ 2 ^ bits * (index / 2 ^ bits)
  have start : inside 0 := by simpa [inside] using given
  have atBits : inside (Nat.findGreatest inside width) :=
    Nat.findGreatest_spec (m := 0) (Nat.zero_le _) start
  generalize chosen : Nat.findGreatest inside width = bits at atBits
  have within : bits ≤ width := chosen ▸ Nat.findGreatest_le width
  have positive := Nat.two_pow_pos bits
  have bottom : 2 ^ bits * (index / 2 ^ bits) ≤ index := Nat.mul_div_le index _
  have bottomSmall := Nat.lt_of_le_of_lt bottom small
  have quotient : index / 2 ^ bits = 2 ^ bits * (index / 2 ^ bits) / 2 ^ bits :=
    (Nat.mul_div_cancel_left _ positive).symm
  rcases Nat.lt_or_eq_of_le within with lower | top
  · have outside : ¬ inside (bits + 1) := by
      have beyond := Nat.findGreatest_is_greatest (P := inside) (n := width) (k := bits + 1)
      exact beyond (by omega) (by omega)
    obtain ⟨half, odd⟩ : ∃ half, index / 2 ^ bits = 2 * half + 1 := by
      rcases Nat.even_or_odd' (index / 2 ^ bits) with ⟨half, even | odd⟩
      · refine absurd ?_ outside
        have halved : index / 2 ^ (bits + 1) = half := by
          rw [pow_succ, ← Nat.div_div_eq_div_mul, even]
          omega
        have same : 2 ^ (bits + 1) * half = 2 ^ bits * (2 * half) := by ring
        simpa only [inside, halved, same, ← even] using atBits
      · exact ⟨half, odd⟩
    have inBucket : bucket width (2 ^ bits * (index / 2 ^ bits)) = bits := by
      rw [odd]
      exact bucket_odd lower half
    refine ⟨bits, _, ?_, bottom, quotient⟩
    have found := represents.held_least _ atBits bottomSmall ?_
    · rwa [inBucket] at found
    · intro earlier given' before same
      have gap := bucket_gap bottomSmall same before
      rw [inBucket, odd] at gap
      refine outside ?_
      have halved : index / 2 ^ (bits + 1) = half := by
        rw [pow_succ, ← Nat.div_div_eq_div_mul, odd]
        omega
      have same' : 2 ^ (bits + 1) * half + 2 ^ bits = 2 ^ bits * (2 * half + 1) := by ring
      change low ≤ 2 ^ (bits + 1) * (index / 2 ^ (bits + 1))
      rw [halved]
      omega
  · subst top
    have zero : index / 2 ^ bits = 0 := Nat.div_eq_of_lt small
    have lowZero : low ≤ 0 := by simpa [inside, zero] using atBits
    refine ⟨bits, 0, ?_, Nat.zero_le _, by rw [zero, Nat.zero_div]⟩
    have found := represents.held_least 0 lowZero (Nat.two_pow_pos bits)
      fun earlier _ before => absurd before (Nat.not_lt_zero _)
    rwa [bucket_zero] at found

omit [DecidableEq α] in
/-- A store answers every index it was given with the secret it was given. -/
theorem Represents.get_eq (given : low ≤ index) (small : index < 2 ^ width) :
    store.get turn index = some (secret index) := by
  rcases found : store.get turn index with _ | value
  · obtain ⟨bits, first, at_, above, quotients⟩ := represents.covered given small
    have silent := findSome?_eq_none_iff.mp found (some (secret first, first), bits)
      (mem_zipIdx_iff_getElem?.mpr at_)
    rw [answer, if_pos] at silent
    · cases silent
    · rw [Nat.shiftRight_eq_div_pow, Nat.shiftRight_eq_div_pow]
      exact ⟨quotients, above⟩
  · obtain ⟨entry, member, answered⟩ := exists_of_findSome?_eq_some found
    rw [(represents.answer_eq member answered).1]

omit [DecidableEq α] in
/-- A store answers no index it was not given. -/
theorem Represents.get_none (missing : ¬ (low ≤ index ∧ index < 2 ^ width)) :
    store.get turn index = none := by
  refine findSome?_eq_none_iff.mpr fun entry member => ?_
  refine Option.eq_none_iff_forall_ne_some.mpr fun value answered => ?_
  exact missing (represents.answer_eq member answered).2

omit [DecidableEq α] in
/-- The entries of a store lie in different places. -/
theorem Represents.entries_apart :
    store.entries.Pairwise fun first second => bucket width first.2 ≠ bucket width second.2 := by
  have listed : (store.known.filterMap id).Pairwise
      fun first second => bucket width first.2 ≠ bucket width second.2 := by
    refine pairwise_filterMap.mpr (pairwise_iff_getElem.mpr ?_)
    intro first second firstIn secondIn ordered entry held other heldOther same
    have at₁ := (represents.held first entry.1 entry.2
      ((getElem?_eq_getElem firstIn).trans (congrArg some held))).2.1
    have at₂ := (represents.held second other.1 other.2
      ((getElem?_eq_getElem secondIn).trans (congrArg some heldOther))).2.1
    omega
  refine (Perm.pairwise_iff ?_ (perm_insertionSort _ _)).mpr listed
  exact Ne.symm

theorem Represents.coherent {entry : Option (α × Nat) × Nat} (member : entry ∈ store.known.zipIdx) :
    Store.coherent turn store.known entry = true := by
  obtain ⟨content, bits⟩ := entry
  rcases content with _ | ⟨value, index⟩
  · rfl
  obtain ⟨rfl, rfl, above, small, -⟩ :=
    represents.held _ _ _ (mem_zipIdx_iff_getElem?.mp member)
  refine all_eq_true.mpr ?_
  intro older among
  rcases older with _ | ⟨olderValue, higher⟩
  · rfl
  obtain ⟨rfl, -, within⟩ := represents.mem_lower small (Nat.le_succ_of_le above) among
  dsimp only
  rcases Nat.lt_or_ge index higher with later | earlier
  · have derived := represents.consistent index above small higher (Nat.le_of_lt later)
      (within later)
    rw [derives, decide_eq_true derived, Bool.or_true]
  · rw [decide_eq_true earlier, Bool.true_or]

/-- A store is rebuilt from its entries. -/
theorem Represents.restore_entries : restore turn width store.entries = .ok store := by
  have inStore : ∀ entry ∈ store.entries,
      store.known[bucket width entry.2]? = some (some entry) ∧ low ≤ entry.2 ∧
        entry.2 < 2 ^ width := by
    intro entry member
    obtain ⟨bits, found⟩ := mem_entries.mp member
    obtain ⟨-, rfl, above, small, -⟩ := represents.held _ _ _ found
    exact ⟨found, above, small⟩
  obtain ⟨placed, ran, sized, inPlace, elsewhere⟩ :=
    @foldlM_place α width (Store.new width) store.entries
      (fun entry member => (inStore entry member).2.2) represents.entries_apart
      length_replicate
      (fun entry _ => by
        rw [Store.new, getElem?_replicate, if_pos (Nat.lt_succ_of_le (bucket_le width _))])
  have sameKnown : placed.known = store.known := by
    refine ext_getElem? fun bits => ?_
    rcases Nat.lt_or_ge width bits with outside | within
    · rw [getElem?_eq_none (by omega), getElem?_eq_none (by rw [represents.length_known]; omega)]
    rcases represents.place_cases within with empty | ⟨value, index, found⟩
    · rw [elsewhere bits, Store.new, getElem?_replicate, if_pos (by omega), empty]
      intro entry member same
      rw [← same, (inStore entry member).1] at empty
      cases empty
    · have member : (value, index) ∈ store.entries := mem_entries.mpr ⟨bits, found⟩
      have same := (represents.held _ _ _ found).2.1
      rw [← same, inPlace _ member, (inStore _ member).1]
  have sound : placed.known.zipIdx.find? (fun entry => !Store.coherent turn placed.known entry) =
      none := by
    rw [sameKnown, find?_eq_none]
    intro entry member
    rw [represents.coherent member]
    exact Bool.false_ne_true
  have lowest : (match (store.entries.map Prod.snd).min? with
      | some lowest => before lowest
      | none => some (2 ^ width - 1)) = store.next := by
    rw [represents.next_eq]
    rcases Nat.lt_or_eq_of_le represents.bounded with given | nothing
    · have found := represents.held_least low (Nat.le_refl _) given
        fun earlier above below => absurd below (Nat.not_lt.mpr above)
      have least : (store.entries.map Prod.snd).min? = some low := by
        refine min?_eq_some_iff.mpr ⟨?_, ?_⟩
        · exact mem_map.mpr ⟨_, mem_entries.mpr ⟨_, found⟩, rfl⟩
        · intro index member
          obtain ⟨entry, among, rfl⟩ := mem_map.mp member
          exact (inStore entry among).2.1
      rw [least]
    · have empty : store.entries = [] := by
        refine eq_nil_iff_forall_not_mem.mpr fun entry member => ?_
        have := (inStore entry member).2
        omega
      have positive : 2 ^ width ≠ 0 := Nat.pos_iff_ne_zero.mp (Nat.two_pow_pos width)
      rw [empty, nothing, before, if_neg positive]
      rfl
  simp only [restore, ran, bind, Except.bind, sound, pure, Except.pure]
  rw [lowest, sameKnown]

end

end Facts

end Store

end Q21Formal.Library.HashChain

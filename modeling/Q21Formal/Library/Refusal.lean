import Mathlib.Tactic

/-!
# Codes, and computations that may be refused

A code is self-delimiting when the value it starts with and the bytes that follow can both be read
back; such codes compose by concatenation.  For `Except` programs written as a sequence of checks, a
sequence that succeeded is the success of each part, and an invariant of every step of a loop is an
invariant of the loop.
-/

namespace Q21Formal.Library.Codec
open List

/-- A byte string. -/
abbrev Bytes := List UInt8

section
variable (bytes : Bytes)

/-- The `width` low bytes of `value`, least significant first. -/
def leBytes : Nat → Nat → Bytes
  | 0, _ => []
  | width + 1, value => UInt8.ofNat (value % 256) :: leBytes width (value / 256)

/-- The number a little-endian string stands for. -/
def leValue : Bytes → Nat
  | [] => 0
  | byte :: rest => byte.toNat + 256 * leValue rest

@[simp] theorem leBytes_length (width value : Nat) : (leBytes width value).length = width := by
  induction width generalizing value with
  | zero => rfl
  | succ width ih => simp [leBytes, ih]

theorem leValue_leBytes (width value : Nat) :
    leValue (leBytes width value) = value % 256 ^ width := by
  induction width generalizing value with
  | zero => simp [leBytes, leValue, Nat.mod_one]
  | succ width ih =>
    have byte : (UInt8.ofNat (value % 256)).toNat = value % 256 := by
      simp [UInt8.toNat_ofNat']
    rw [leBytes, leValue, ih, byte, pow_succ, Nat.mul_comm (256 ^ width) 256, Nat.mod_mul]

/-- Numerals of one width are equal only when the numbers agree up to that width. -/
theorem leBytes_injective {width first second : Nat} (firstFits : first < 256 ^ width)
    (secondFits : second < 256 ^ width) (same : leBytes width first = leBytes width second) :
    first = second := by
  have values := congrArg leValue same
  rwa [leValue_leBytes, leValue_leBytes, Nat.mod_eq_of_lt firstFits,
    Nat.mod_eq_of_lt secondFits] at values

theorem leBytes_leValue : leBytes bytes.length (leValue bytes) = bytes := by
  induction bytes with
  | nil => rfl
  | cons byte rest ih =>
    have small := byte.toNat_lt
    have low : (byte.toNat + 256 * leValue rest) % 256 = byte.toNat := by omega
    have high : (byte.toNat + 256 * leValue rest) / 256 = leValue rest := by omega
    rw [length_cons, leValue, leBytes, low, high, ih, UInt8.ofNat_toNat]

theorem leValue_lt : leValue bytes < 256 ^ bytes.length := by
  induction bytes with
  | nil => exact Nat.one_pos
  | cons byte rest ih =>
    have small := byte.toNat_lt
    rw [leValue, length_cons, pow_succ]
    omega

theorem leValue_append (low high : Bytes) :
    leValue (low ++ high) = leValue low + 256 ^ low.length * leValue high := by
  induction low with
  | nil => simp [leValue]
  | cons byte rest ih =>
    rw [cons_append, leValue, leValue, ih, length_cons, pow_succ']
    ring

theorem leValue_take {width : Nat} (short : width ≤ bytes.length) :
    leValue (bytes.take width) = leValue bytes % 256 ^ width := by
  have low := leValue_lt (bytes.take width)
  have whole := leValue_append (bytes.take width) (bytes.drop width)
  rw [length_take_of_le short] at low whole
  rw [take_append_drop] at whole
  rw [whole, Nat.add_mul_mod_self_left, Nat.mod_eq_of_lt low]

/-- Reading a string most significant byte first. -/
theorem foldl_bytes :
    bytes.foldl (fun value byte => value * 256 + byte.toNat) 0 = leValue bytes.reverse := by
  induction bytes using reverseRecOn with
  | nil => rfl
  | append_singleton rest byte ih =>
    rw [List.foldl_append, foldl_cons, foldl_nil, ih, reverse_append,
      reverse_singleton, singleton_append, leValue]
    ring

/-! ## Self-delimiting codes -/

/-- The value a string starts with and the bytes after it are both determined by the string. -/
def SelfDelimiting {α : Type*} (encode : α → Bytes) : Prop :=
  ∀ first second before after,
    encode first ++ before = encode second ++ after → first = second ∧ before = after

end

section Combinators
variable {α β : Type*}

theorem SelfDelimiting.injective {encode : α → Bytes} (code : SelfDelimiting encode) :
    Function.Injective encode := by
  intro first second same
  exact (code first second [] [] (by rw [same])).1

/-- An injective code of one fixed width is self-delimiting. -/
theorem selfDelimiting_of_width {encode : α → Bytes} (width : Nat)
    (lengths : ∀ value, (encode value).length = width) (injective : Function.Injective encode) :
    SelfDelimiting encode := by
  intro first second before after same
  have sameLength : (encode first).length = (encode second).length := by
    rw [lengths, lengths]
  obtain ⟨codes, rests⟩ := append_inj same sameLength
  exact ⟨injective codes, rests⟩

/-- Two codes written one after the other. -/
theorem SelfDelimiting.append {first : α → Bytes} {second : β → Bytes}
    (firstCode : SelfDelimiting first) (secondCode : SelfDelimiting second) :
    SelfDelimiting fun pair : α × β => first pair.1 ++ second pair.2 := by
  rintro ⟨left, right⟩ ⟨left', right'⟩ before after same
  simp only [append_assoc] at same
  obtain ⟨rfl, rest⟩ := firstCode _ _ _ _ same
  obtain ⟨rfl, tails⟩ := secondCode _ _ _ _ rest
  exact ⟨rfl, tails⟩

/-- A code read through a map that loses nothing. -/
theorem SelfDelimiting.comap {encode : β → Bytes} (code : SelfDelimiting encode) (view : α → β)
    (injective : Function.Injective view) : SelfDelimiting fun value => encode (view value) := by
  intro first second before after same
  obtain ⟨views, rests⟩ := code _ _ _ _ same
  exact ⟨injective views, rests⟩

/-- Lists of one length, each element by a self-delimiting code. -/
theorem SelfDelimiting.flatMap_eq {encode : α → Bytes} (code : SelfDelimiting encode)
    (first second : List α) (before after : Bytes) (sameLength : first.length = second.length)
    (same : first.flatMap encode ++ before = second.flatMap encode ++ after) :
    first = second ∧ before = after := by
  induction first generalizing second with
  | nil =>
    cases second with
    | nil => exact ⟨rfl, same⟩
    | cons head tail => simp at sameLength
  | cons head tail ih =>
    cases second with
    | nil => simp at sameLength
    | cons head' tail' =>
      simp only [flatMap_cons, append_assoc] at same
      obtain ⟨rfl, rest⟩ := code _ _ _ _ same
      obtain ⟨rfl, tails⟩ := ih tail' (by simpa using sameLength) rest
      exact ⟨rfl, tails⟩

end Combinators

end Q21Formal.Library.Codec

namespace Q21Formal.Library.Refusal
open List

universe u v

variable {ε : Type u} {α β σ : Type v} {problem : ε} {first : Except ε α} {items : List α}

/-- Continue when the condition holds, refuse otherwise. -/
def require (condition : Prop) [Decidable condition] (problem : ε) : Except ε Unit :=
  if condition then .ok () else .error problem

@[simp] theorem require_eq_ok {condition : Prop} [Decidable condition] {done : Unit} :
    require condition problem = .ok done ↔ condition := by
  unfold require
  split <;> simp_all

/-- Turn an absent value into a refusal. -/
def orRefuse (value : Option α) (problem : ε) : Except ε α :=
  match value with
  | some found => .ok found
  | none => .error problem

@[simp] theorem orRefuse_eq_ok {value : Option α} {found : α} :
    orRefuse value problem = .ok found ↔ value = some found := by
  cases value <;> simp [orRefuse]

@[simp] theorem bind_eq_ok {next : α → Except ε β} {result : β} :
    (first >>= next) = .ok result ↔ ∃ middle, first = .ok middle ∧ next middle = .ok result := by
  cases first <;> simp [bind, Except.bind]

@[simp] theorem pure_eq_ok {value result : α} :
    (pure value : Except ε α) = .ok result ↔ value = result := by
  simp [pure, Except.pure]

@[simp] theorem mapError_eq_ok {ε' : Type*} {convert : ε → ε'} {result : α} :
    first.mapError convert = .ok result ↔ first = .ok result := by
  cases first <;> simp [Except.mapError]

theorem exists_eq_ok (accepted : first.isOk) : ∃ value, first = .ok value := by
  cases first with
  | error problem => cases accepted
  | ok value => exact ⟨value, rfl⟩

/-- A loop of checks succeeds exactly when every check does. -/
theorem forM_eq_ok {check : α → Except ε PUnit} :
    items.forM check = .ok ⟨⟩ ↔ ∀ item ∈ items, check item = .ok ⟨⟩ := by
  induction items with
  | nil => simp [List.forM, pure, Except.pure]
  | cons item rest ih =>
    change (check item >>= fun _ => rest.forM check) = .ok ⟨⟩ ↔ _
    rw [bind_eq_ok, forall_mem_cons, ← ih]
    exact ⟨fun ⟨_, first, others⟩ => ⟨first, others⟩, fun ⟨first, others⟩ => ⟨_, first, others⟩⟩

/-- What every step of a loop preserves holds after the loop. -/
theorem foldlM_invariant {step : σ → α → Except ε σ} (invariant : List α → σ → Prop)
    (preserved : ∀ before item state next, invariant before state →
      step state item = .ok next → invariant (before ++ [item]) next) (before : List α)
    {state final : σ} (holds : invariant before state)
    (looped : items.foldlM step state = .ok final) : invariant (before ++ items) final := by
  induction items generalizing before state with
  | nil =>
    simp only [foldlM_nil, pure_eq_ok] at looped
    simpa [← looped] using holds
  | cons item rest ih =>
    simp only [foldlM_cons, bind_eq_ok] at looped
    obtain ⟨next, stepped, restLooped⟩ := looped
    simpa using ih (before ++ [item]) (preserved before item state next holds stepped) restLooped

/-- Every item of a loop that succeeded was accepted in some state. -/
theorem foldlM_each {step : σ → α → Except ε σ} {state final : σ}
    (looped : items.foldlM step state = .ok final) :
    ∀ item ∈ items, ∃ before after, step before item = .ok after := by
  induction items generalizing state with
  | nil => exact forall_mem_nil _
  | cons item rest ih =>
    simp only [foldlM_cons, bind_eq_ok] at looped
    obtain ⟨next, stepped, looped⟩ := looped
    exact forall_mem_cons.mpr ⟨⟨state, next, stepped⟩, ih looped⟩

end Q21Formal.Library.Refusal

/-!
## Readers that accept exactly what a writer writes

A reader is exact for a code when it accepts the codes of the valid values and nothing else, and
stops right after them.  Exact readers compose.
-/

namespace Q21Formal.Library.Parsing
open Library.Refusal List

variable {σ ε ε' α β : Type}

/-- What the reader accepts is the code of a valid value followed by what it leaves. -/
def Exact (read : List σ → Except ε (α × List σ)) (encode : α → List σ) (valid : α → Prop) : Prop :=
  ∀ left value rest, read left = .ok (value, rest) ↔ valid value ∧ left = encode value ++ rest

theorem exact_of_iff {read : List σ → Except ε (α × List σ)} {encode : α → List σ}
    (accepts : ∀ left value rest, read left = .ok (value, rest) ↔ left = encode value ++ rest) :
    Exact read encode fun _ => True := by
  intro left value rest
  rw [true_and]
  exact accepts left value rest

/-- One value for each item, one after the other. -/
def readEach (read : α → List σ → Except ε (β × List σ)) :
    List α → List σ → Except ε (List β × List σ)
  | [], left => .ok ([], left)
  | item :: items, left => do
      let (value, left) ← read item left
      let (values, left) ← readEach read items left
      pure (value :: values, left)

theorem Exact.each {read : α → List σ → Except ε (β × List σ)} {encode : β → List σ}
    {valid : α → β → Prop} (exact : ∀ item, Exact (read item) encode (valid item))
    (items : List α) :
    Exact (readEach read items) (fun values => values.flatMap encode)
      fun values => Forall₂ valid items values := by
  induction items with
  | nil =>
    intro left values rest
    constructor
    · intro done
      cases done
      exact ⟨.nil, rfl⟩
    · rintro ⟨none, rfl⟩
      cases none
      rfl
  | cons item items ih =>
    intro left values rest
    simp only [readEach, bind_eq_ok, pure_eq_ok, Prod.exists, Prod.mk.injEq]
    constructor
    · rintro ⟨value, middle, first, others, _, following, rfl, rfl⟩
      obtain ⟨good, rfl⟩ := (exact item left value middle).mp first
      obtain ⟨goods, rfl⟩ := (ih middle others _).mp following
      exact ⟨.cons good goods, by rw [flatMap_cons, append_assoc]⟩
    · rintro ⟨goods, rfl⟩
      cases goods with
      | cons good goods =>
        refine ⟨_, _, (exact item _ _ _).mpr ⟨good, ?_⟩, _, rest,
          (ih _ _ rest).mpr ⟨goods, rfl⟩, rfl, rfl⟩
        rw [flatMap_cons, append_assoc]

/-- Values that show the item each was read for. -/
theorem forall₂_view {view : β → α} {valid : β → Prop} {items : List α} {values : List β} :
    Forall₂ (fun item value => view value = item ∧ valid value) items values ↔
      items = values.map view ∧ ∀ value ∈ values, valid value := by
  constructor
  · intro goods
    induction goods with
    | nil => exact ⟨rfl, fun _ absurd => by cases absurd⟩
    | cons good _ ih =>
      obtain ⟨rfl, valid⟩ := good
      obtain ⟨rfl, valids⟩ := ih
      exact ⟨rfl, forall_mem_cons.mpr ⟨valid, valids⟩⟩
  · rintro ⟨rfl, valids⟩
    rw [List.forall₂_map_left_iff, List.forall₂_same]
    exact fun value member => ⟨rfl, valids value member⟩

/-- A number of values, one after the other. -/
def readMany (read : List σ → Except ε (β × List σ)) (count : Nat) :
    List σ → Except ε (List β × List σ) :=
  readEach (fun _ => read) (range count)

theorem Exact.many {read : List σ → Except ε (β × List σ)} {encode : β → List σ}
    {valid : β → Prop} (exact : Exact read encode valid) (count : Nat) :
    Exact (readMany read count) (fun values => values.flatMap encode)
      fun values => values.length = count ∧ ∀ value ∈ values, valid value := by
  intro left values rest
  rw [readMany, Exact.each (fun _ => exact) (range count) left values rest]
  dsimp only
  rw [List.forall₂_iff_get, length_range]
  refine and_congr_left fun _ => ⟨fun ⟨sized, goods⟩ => ⟨sized.symm, ?_⟩,
    fun ⟨sized, goods⟩ => ⟨sized.symm, ?_⟩⟩
  · intro value member
    obtain ⟨position, rfl⟩ := mem_iff_get.mp member
    exact goods position (sized ▸ position.isLt) position.isLt
  · intro position _ within
    exact goods _ (get_mem _ _)

end Q21Formal.Library.Parsing

/-!
## Checks over ranges of positions

Cutting a range into consecutive parts, checking them in any order and reporting the refusal of the
lowest part gives the same verdict, however the range is cut.
-/

namespace Q21Formal.Library.Ranges
open Library.Refusal List

universe u

variable {ε : Type u} {check : Nat → Except ε Unit} {start middle stop : Nat}

/-- Checks the positions from `start` up to `stop`, `stop` excluded. -/
def checkFrom (check : Nat → Except ε Unit) (start stop : Nat) : Except ε Unit :=
  (range' start (stop - start)).forM check

theorem checkFrom_eq_ok : checkFrom check start stop = .ok () ↔
      ∀ place, start ≤ place → place < stop → check place = .ok () := by
  rw [checkFrom, forM_eq_ok]
  constructor
  · intro passed place low high
    exact passed place (mem_range'_1.mpr ⟨low, by omega⟩)
  · intro passed place member
    obtain ⟨low, high⟩ := mem_range'_1.mp member
    exact passed place low (by omega)

theorem checkFrom_empty (none' : stop ≤ start) : checkFrom check start stop = .ok () := by
  rw [checkFrom, Nat.sub_eq_zero_of_le none']
  rfl

/-- A range is checked part by part. -/
theorem checkFrom_split (low : start ≤ middle) (high : middle ≤ stop) : checkFrom check start stop =
      checkFrom check start middle >>= fun _ => checkFrom check middle stop := by
  have lengths : stop - start = (middle - start) + (stop - middle) := by omega
  have joined : start + (middle - start) = middle := by omega
  rw [checkFrom, lengths, ← range'_append_1, forM_eq_forM, forM_append, joined]
  rfl

/-- The refusal of the first part that has one. -/
def firstError : List (Except ε Unit) → Except ε Unit
  | [] => .ok ()
  | .error problem :: _ => .error problem
  | .ok _ :: rest => firstError rest

theorem firstError_cons (result : Except ε Unit) (rest : List (Except ε Unit)) :
    firstError (result :: rest) = result >>= fun _ => firstError rest := by
  cases result <;> rfl

/-- Parts that follow each other from `start` to `stop`. -/
inductive Consecutive : Nat → Nat → List (Nat × Nat) → Prop
  | done (stop : Nat) : Consecutive stop stop []
  | part {start middle stop : Nat} {rest : List (Nat × Nat)} (low : start ≤ middle)
      (following : Consecutive middle stop rest) :
      Consecutive start stop ((start, middle) :: rest)

section
variable {parts : List (Nat × Nat)} (parted : Consecutive start stop parts)
include parted

theorem Consecutive.le : start ≤ stop := by
  induction parted with
  | done stop => exact le_rfl
  | part low _ ih => exact low.trans ih

/-- However a range is cut, the parts give the verdict of the whole. -/
theorem Consecutive.firstError_eq (check : Nat → Except ε Unit) :
    firstError (parts.map fun part => checkFrom check part.1 part.2) =
      checkFrom check start stop := by
  induction parted with
  | done stop => exact (checkFrom_empty le_rfl).symm
  | part low following ih =>
    rw [map_cons, firstError_cons, ih, ← checkFrom_split low following.le]

end

/-- Parts of `size` positions, the last one shorter. -/
def partsFrom (size stop : Nat) : Nat → Nat → List (Nat × Nat)
  | 0, _ => []
  | fuel + 1, start =>
    if start < stop then
      (start, min (start + size) stop) :: partsFrom size stop fuel (min (start + size) stop)
    else []

theorem partsFrom_consecutive {size fuel : Nat} (positive : 0 < size) (low : start ≤ stop)
    (enough : stop - start ≤ fuel) : Consecutive start stop (partsFrom size stop fuel start) := by
  induction fuel generalizing start with
  | zero =>
    obtain rfl : start = stop := by omega
    exact .done start
  | succ fuel ih =>
    rw [partsFrom]
    split
    · exact .part (by omega) (ih (by omega) (by omega))
    · obtain rfl : start = stop := by omega
      exact .done start

end Q21Formal.Library.Ranges

import Mathlib.Data.Nat.Size
import Mathlib.Tactic

/-!
# Numbers in 64-bit limbs

A number is a list of limbs, the least significant first.  Each operation carries from limb to limb;
what is written and what is carried out together are the exact result.
-/

namespace Q21Formal.Library.Limbs

section
variable (limbs : List UInt64)

/-- The number a list of limbs stands for. -/
def value : Nat := Nat.ofDigits (2 ^ 64) (limbs.map UInt64.toNat)

@[simp] theorem value_nil : value [] = 0 := rfl

@[simp] theorem value_cons (limb : UInt64) (rest : List UInt64) :
    value (limb :: rest) = limb.toNat + 2 ^ 64 * value rest := Nat.ofDigits_cons

theorem value_lt : value limbs < (2 ^ 64) ^ limbs.length := by
  have small := Nat.ofDigits_lt_base_pow_length (b := 2 ^ 64) (l := limbs.map UInt64.toNat)
    (by norm_num) (by simpa using fun limb _ => limb.toNat_lt)
  rwa [List.length_map] at small

theorem base_pow_succ (count last : Nat) :
    (2 ^ 64) ^ (count + 1) * last = 2 ^ 64 * ((2 ^ 64) ^ count * last) := by
  rw [pow_succ', Nat.mul_assoc]

/-- `u64::overflowing_add`, the flag as a number. -/
def overflowingAdd (first second : UInt64) : UInt64 × UInt64 :=
  (first + second, if 2 ^ 64 ≤ first.toNat + second.toNat then 1 else 0)

/-- Limb by limb with a carry; the last carry is returned beside the sum. -/
def addLimbs : UInt64 → List UInt64 → List UInt64 → List UInt64 × UInt64
  | carry, first :: firsts, second :: seconds =>
    let low := overflowingAdd first second
    let sum := overflowingAdd low.1 carry
    let rest := addLimbs (low.2 + sum.2) firsts seconds
    (sum.1 :: rest.1, rest.2)
  | carry, _, _ => ([], carry)

theorem overflowingAdd_value (first second : UInt64) :
    (overflowingAdd first second).1.toNat + 2 ^ 64 * (overflowingAdd first second).2.toNat =
      first.toNat + second.toNat := by
  have firstSmall := first.toNat_lt
  have secondSmall := second.toNat_lt
  unfold overflowingAdd
  rw [UInt64.toNat_add]
  split
  · rw [UInt64.toNat_one]
    omega
  · rw [UInt64.toNat_zero]
    omega

end

variable {carry : UInt64}

/-- The two flags of a limb are not both raised, and are the carry of the limb. -/
theorem add_step (first second : UInt64) (small : carry.toNat ≤ 1) :
    let low := overflowingAdd first second
    let sum := overflowingAdd low.1 carry
    sum.1.toNat + 2 ^ 64 * (low.2 + sum.2).toNat = first.toNat + second.toNat + carry.toNat ∧
      (low.2 + sum.2).toNat ≤ 1 := by
  have lowest := overflowingAdd_value first second
  have highest := overflowingAdd_value (overflowingAdd first second).1 carry
  have firstSmall := first.toNat_lt
  have secondSmall := second.toNat_lt
  dsimp only
  rw [UInt64.toNat_add]
  omega

variable {firsts seconds : List UInt64}

section
variable (factor : UInt64) (limbs : List UInt64) (index : Nat)

theorem addLimbs_value (aligned : firsts.length = seconds.length) (small : carry.toNat ≤ 1) :
    (addLimbs carry firsts seconds).1.length = firsts.length ∧
      value (addLimbs carry firsts seconds).1 +
          (2 ^ 64) ^ firsts.length * (addLimbs carry firsts seconds).2.toNat =
        value firsts + value seconds + carry.toNat := by
  induction firsts generalizing seconds carry with
  | nil =>
    cases seconds with
    | nil => simp [addLimbs]
    | cons second seconds => cases aligned
  | cons first firsts ih =>
    cases seconds with
    | nil => cases aligned
    | cons second seconds =>
      obtain ⟨step, next⟩ := add_step first second small
      obtain ⟨length, rest⟩ := ih (Nat.succ.inj aligned) next
      simp only [addLimbs, List.length_cons, length, value_cons, base_pow_succ, true_and]
      omega

/-- `u64::overflowing_sub`, the flag as a number. -/
def overflowingSub (first second : UInt64) : UInt64 × UInt64 :=
  (first - second, if first.toNat < second.toNat then 1 else 0)

/-- Limb by limb with a borrow; the last borrow is returned beside the difference. -/
def subLimbs : UInt64 → List UInt64 → List UInt64 → List UInt64 × UInt64
  | borrow, first :: firsts, second :: seconds =>
    let low := overflowingSub first second
    let difference := overflowingSub low.1 borrow
    let rest := subLimbs (low.2 + difference.2) firsts seconds
    (difference.1 :: rest.1, rest.2)
  | borrow, _, _ => ([], borrow)

theorem overflowingSub_value (first second : UInt64) :
    (overflowingSub first second).1.toNat + second.toNat =
      first.toNat + 2 ^ 64 * (overflowingSub first second).2.toNat := by
  have firstSmall := first.toNat_lt
  have secondSmall := second.toNat_lt
  unfold overflowingSub
  rw [UInt64.toNat_sub]
  split
  · rw [UInt64.toNat_one]
    omega
  · rw [UInt64.toNat_zero]
    omega

theorem sub_step (first second : UInt64) {borrow : UInt64} (small : borrow.toNat ≤ 1) :
    let low := overflowingSub first second
    let difference := overflowingSub low.1 borrow
    difference.1.toNat + second.toNat + borrow.toNat =
        first.toNat + 2 ^ 64 * (low.2 + difference.2).toNat ∧
      (low.2 + difference.2).toNat ≤ 1 := by
  have lowest := overflowingSub_value first second
  have highest := overflowingSub_value (overflowingSub first second).1 borrow
  have secondSmall := second.toNat_lt
  have written := (overflowingSub (overflowingSub first second).1 borrow).1.toNat_lt
  dsimp only
  rw [UInt64.toNat_add]
  omega

theorem subLimbs_value (aligned : firsts.length = seconds.length)
    {borrow : UInt64} (small : borrow.toNat ≤ 1) :
    (subLimbs borrow firsts seconds).1.length = firsts.length ∧
      value (subLimbs borrow firsts seconds).1 + value seconds + borrow.toNat =
        value firsts + (2 ^ 64) ^ firsts.length * (subLimbs borrow firsts seconds).2.toNat := by
  induction firsts generalizing seconds borrow with
  | nil =>
    cases seconds with
    | nil => simp [subLimbs]
    | cons second seconds => cases aligned
  | cons first firsts ih =>
    cases seconds with
    | nil => cases aligned
    | cons second seconds =>
      obtain ⟨step, next⟩ := sub_step first second small
      obtain ⟨length, rest⟩ := ih (Nat.succ.inj aligned) next
      simp only [subLimbs, List.length_cons, length, value_cons, base_pow_succ, true_and]
      omega

/-- The product with one limb; the double-width carry is returned beside it. -/
def mulLimbs (factor : UInt64) : Nat → List UInt64 → List UInt64 × Nat
  | carry, [] => ([], carry)
  | carry, limb :: limbs =>
    let product := limb.toNat * factor.toNat + carry
    let rest := mulLimbs factor (product / 2 ^ 64) limbs
    (UInt64.ofNat product :: rest.1, rest.2)

theorem mulLimbs_value (carry : Nat) :
    (mulLimbs factor carry limbs).1.length = limbs.length ∧ value (mulLimbs factor carry limbs).1 +
          (2 ^ 64) ^ limbs.length * (mulLimbs factor carry limbs).2 =
        value limbs * factor.toNat + carry := by
  induction limbs generalizing carry with
  | nil => simp [mulLimbs]
  | cons limb limbs ih =>
    obtain ⟨length, rest⟩ := ih ((limb.toNat * factor.toNat + carry) / 2 ^ 64)
    have split := Nat.mod_add_div (limb.toNat * factor.toNat + carry) (2 ^ 64)
    simp only [mulLimbs, List.length_cons, length, value_cons, base_pow_succ, true_and, Nat.add_mul,
      UInt64.toNat_ofNat']
    rw [Nat.mul_assoc]
    omega

/-- The quotient by one limb, the most significant limb divided first, and the remainder. -/
def divLimbs (divisor : UInt64) : List UInt64 → List UInt64 × Nat
  | [] => ([], 0)
  | limb :: limbs =>
    let rest := divLimbs divisor limbs
    let current := rest.2 * 2 ^ 64 + limb.toNat
    (UInt64.ofNat (current / divisor.toNat) :: rest.1, current % divisor.toNat)

theorem divLimbs_value {divisor : UInt64} (positive : 0 < divisor.toNat) (limbs : List UInt64) :
    (divLimbs divisor limbs).1.length = limbs.length ∧ (divLimbs divisor limbs).2 < divisor.toNat ∧
      value limbs = value (divLimbs divisor limbs).1 * divisor.toNat + (divLimbs divisor limbs).2 := by
  induction limbs with
  | nil => simp [divLimbs, positive]
  | cons limb limbs ih =>
    obtain ⟨length, below, whole⟩ := ih
    have small := limb.toNat_lt
    have current : (divLimbs divisor limbs).2 * 2 ^ 64 + limb.toNat < divisor.toNat * 2 ^ 64 := by
      omega
    have fits : ((divLimbs divisor limbs).2 * 2 ^ 64 + limb.toNat) / divisor.toNat < 2 ^ 64 :=
      Nat.div_lt_of_lt_mul current
    have split := Nat.div_add_mod ((divLimbs divisor limbs).2 * 2 ^ 64 + limb.toNat) divisor.toNat
    simp only [divLimbs, List.length_cons, length, value_cons, true_and, Nat.mod_lt _ positive,
      UInt64.toNat_ofNat_of_lt' fits]
    nlinarith

/-! ## Bits -/

/-- The shift by one bit; the bit that falls out is returned beside it. -/
def shlLimbs : UInt64 → List UInt64 → List UInt64 × UInt64
  | carry, [] => ([], carry)
  | carry, limb :: limbs =>
    let rest := shlLimbs (limb >>> 63) limbs
    ((limb <<< 1 ||| carry) :: rest.1, rest.2)

theorem shlLimbs_value (small : carry.toNat ≤ 1) :
    (shlLimbs carry limbs).1.length = limbs.length ∧
      value (shlLimbs carry limbs).1 + (2 ^ 64) ^ limbs.length * (shlLimbs carry limbs).2.toNat =
        2 * value limbs + carry.toNat := by
  induction limbs generalizing carry with
  | nil => simp [shlLimbs]
  | cons limb limbs ih =>
    have top : (limb >>> 63).toNat = limb.toNat / 2 ^ 63 := by
      exact Nat.shiftRight_eq_div_pow _ _
    have small' := limb.toNat_lt
    have next : (limb >>> 63).toNat ≤ 1 := by omega
    obtain ⟨length, rest⟩ := ih next
    have low : (limb <<< 1 ||| carry).toNat = 2 * limb.toNat % 2 ^ 64 + carry.toNat := by
      have even : 2 * limb.toNat % 2 ^ 64 = (limb.toNat % 2 ^ 63) <<< 1 := by
        omega
      rw [even, Nat.shiftLeft_add_eq_or_of_lt (by omega), ← even, UInt64.toNat_or,
        UInt64.toNat_shiftLeft]
      simp [Nat.shiftLeft_eq, Nat.mul_comm]
    simp only [shlLimbs, List.length_cons, length, value_cons, base_pow_succ, true_and, low]
    omega

/-- The bit at an index, none beyond the limbs. -/
def bitOf : Bool :=
  (limbs.getD (index / 64) 0 >>> UInt64.ofNat (index % 64)) &&& 1 == 1

def setBitOf : List UInt64 :=
  limbs.modify (index / 64) fun limb => limb ||| 1 <<< UInt64.ofNat (index % 64)

theorem bit_of_limb (limb : UInt64) {index : Nat} (inside : index < 64) :
    ((limb >>> UInt64.ofNat index) &&& 1 == 1) = limb.toNat.testBit index := by
  have small : (UInt64.ofNat index).toNat = index :=
    UInt64.toNat_ofNat_of_lt' (inside.trans (by decide))
  rw [Nat.testBit_eq_decide_div_mod_eq, ← beq_eq_decide, Bool.eq_iff_iff, beq_iff_eq, beq_iff_eq,
    ← UInt64.toNat_inj, UInt64.toNat_and, UInt64.toNat_shiftRight, small, UInt64.toNat_one,
    Nat.mod_eq_of_lt inside, Nat.shiftRight_eq_div_pow, Nat.and_one_is_mod]

theorem bitOf_eq : bitOf limbs index = (value limbs).testBit index := by
  induction limbs generalizing index with
  | nil => simp [bitOf]
  | cons limb limbs ih =>
    rw [value_cons, Nat.add_comm, Nat.testBit_two_pow_mul_add _ limb.toNat_lt]
    split
    · rename_i inside
      rw [← bit_of_limb limb inside, bitOf, Nat.div_eq_of_lt inside, Nat.mod_eq_of_lt inside]
      rfl
    · obtain ⟨rest, rfl⟩ : ∃ rest, index = rest + 64 := ⟨index - 64, by omega⟩
      rw [Nat.add_sub_cancel, ← ih, bitOf, bitOf, Nat.add_div_right _ (by decide),
        Nat.add_mod_right]
      rfl

theorem setBitOf_value {limbs : List UInt64} {index : Nat} (inside : index < 64 * limbs.length) :
    value (setBitOf limbs index) = value limbs ||| 2 ^ index := by
  induction limbs generalizing index with
  | nil => cases inside
  | cons limb limbs ih =>
    rcases Nat.lt_or_ge index 64 with low | high
    · have small : (UInt64.ofNat index).toNat = index :=
        UInt64.toNat_ofNat_of_lt' (low.trans (by decide))
      have raised : (1 <<< UInt64.ofNat index : UInt64).toNat = 2 ^ index := by
        rw [UInt64.toNat_shiftLeft, small, UInt64.toNat_one, Nat.mod_eq_of_lt low,
          Nat.one_shiftLeft]
        exact Nat.mod_eq_of_lt (Nat.pow_lt_pow_right (by decide) low)
      have written : setBitOf (limb :: limbs) index =
          (limb ||| 1 <<< UInt64.ofNat index) :: limbs := by
        rw [setBitOf, Nat.div_eq_of_lt low, Nat.mod_eq_of_lt low]
        rfl
      have bounded : limb.toNat ||| 2 ^ index < 2 ^ 64 :=
        Nat.or_lt_two_pow limb.toNat_lt (Nat.pow_lt_pow_right (by decide) low)
      rw [written, value_cons, value_cons, UInt64.toNat_or, raised, Nat.add_comm,
        Nat.add_comm limb.toNat, Nat.two_pow_add_eq_or_of_lt bounded,
        Nat.two_pow_add_eq_or_of_lt limb.toNat_lt, Nat.or_assoc]
    · obtain ⟨rest, rfl⟩ : ∃ rest, index = rest + 64 := ⟨index - 64, by omega⟩
      rw [List.length_cons] at inside
      have written : setBitOf (limb :: limbs) (rest + 64) = limb :: setBitOf limbs rest := by
        rw [setBitOf, Nat.add_div_right _ (by decide), Nat.add_mod_right]
        rfl
      rw [written, value_cons, value_cons, ih (by omega)]
      refine Nat.eq_of_testBit_eq fun place => ?_
      rw [Nat.testBit_or, Nat.add_comm, Nat.add_comm limb.toNat,
        Nat.testBit_two_pow_mul_add _ limb.toNat_lt, Nat.testBit_two_pow_mul_add _ limb.toNat_lt,
        Nat.testBit_two_pow]
      split
      · simp
        omega
      · rw [Nat.testBit_or, Nat.testBit_two_pow]
        congr 2
        simp
        omega

/-- The complement of every limb. -/
def notLimbs : List UInt64 := limbs.map fun limb => ~~~limb

theorem notLimbs_value : value (notLimbs limbs) + value limbs + 1 = (2 ^ 64) ^ limbs.length := by
  induction limbs with
  | nil => rfl
  | cons limb limbs ih =>
    have small := limb.toNat_lt
    have flipped : (~~~limb).toNat = 2 ^ 64 - 1 - limb.toNat := UInt64.toNat_not limb
    have power : (2 ^ 64) ^ (limbs.length + 1) = 2 ^ 64 * (2 ^ 64) ^ limbs.length := pow_succ' _ _
    rw [notLimbs, List.map_cons, value_cons, value_cons, flipped, List.length_cons, power, ← ih,
      notLimbs]
    omega

/-- The number of significant bits: those of the highest limb that is not zero, and the ones below.
-/
def bitLength : List UInt64 → Nat
  | [] => 0
  | limb :: limbs =>
    match bitLength limbs with
    | 0 => Nat.size limb.toNat
    | upper => 64 + upper

theorem bitLength_eq : bitLength limbs = Nat.size (value limbs) := by
  induction limbs with
  | nil => rfl
  | cons limb limbs ih =>
    have small := limb.toNat_lt
    rw [bitLength, value_cons, ih]
    split
    · rename_i zero
      rw [Nat.size_eq_zero.mp zero, Nat.mul_zero, Nat.add_zero]
    · rename_i nonzero
      obtain ⟨lower, sized⟩ := Nat.exists_eq_succ_of_ne_zero nonzero
      have least : 2 ^ lower ≤ value limbs := Nat.lt_size.mp (by omega)
      refine le_antisymm ?_ ?_
      · rw [sized, Nat.add_succ, Nat.succ_le_iff, Nat.lt_size, Nat.pow_add]
        omega
      · rw [Nat.size_le, Nat.pow_add]
        have upper := Nat.lt_size_self (value limbs)
        omega

/-- The order of two numbers, decided by the highest limbs that differ. -/
def compareLimbs : List UInt64 → List UInt64 → Ordering
  | first :: firsts, second :: seconds =>
    (compareLimbs firsts seconds).then (compare first.toNat second.toNat)
  | _, _ => .eq

theorem compareLimbs_eq (aligned : firsts.length = seconds.length) :
    compareLimbs firsts seconds = compare (value firsts) (value seconds) := by
  induction firsts generalizing seconds with
  | nil =>
    cases seconds with
    | nil => rfl
    | cons second seconds => cases aligned
  | cons first firsts ih =>
    cases seconds with
    | nil => cases aligned
    | cons second seconds =>
      have firstSmall := first.toNat_lt
      have secondSmall := second.toNat_lt
      rw [compareLimbs, ih (Nat.succ.inj aligned), value_cons, value_cons]
      rcases Nat.lt_trichotomy (value firsts) (value seconds) with below | same | above
      · rw [Nat.compare_eq_lt.mpr below]
        exact (Nat.compare_eq_lt.mpr (by omega)).symm
      · rw [same, Nat.compare_eq_eq.mpr rfl, Ordering.eq_then]
        simp only [Nat.compare_eq_ite_lt, Nat.add_lt_add_iff_right]
      · rw [Nat.compare_eq_gt.mpr above]
        exact (Nat.compare_eq_gt.mpr (by omega)).symm

end

end Q21Formal.Library.Limbs

import Q21Formal.Library.Refusal
import Q21Formal.Library.Limbs

/-!
# 256-bit integers

Four limbs, and the operations the code performs on them.  Each is exact: it gives the number
natural arithmetic gives, or reports that it does not fit.
-/

namespace Q21Formal.Primitives
open Library.Codec Library.Limbs List

structure U256 where
  limbs : List UInt64
  width : limbs.length = 4

namespace U256

section
variable (number : U256) (low : UInt64)

def value (number : U256) : Nat := Library.Limbs.value number.limbs

theorem value_lt (number : U256) : number.value < 2 ^ 256 := by
  have small := Library.Limbs.value_lt number.limbs
  rwa [number.width, ← pow_mul] at small

def fromU64 : U256 := ⟨[low, 0, 0, 0], rfl⟩

theorem fromU64_value : (fromU64 low).value = low.toNat := by
  simp [fromU64, value]

def toBeBytes : Bytes :=
  number.limbs.reverse.flatMap fun limb => (leBytes 8 limb.toNat).reverse

theorem toBeBytes_length : number.toBeBytes.length = 32 := by
  simp [toBeBytes, length_flatMap, number.width]

theorem toBeBytes_value : leValue number.toBeBytes.reverse = number.value := by
  have limbs : ∀ limbs : List UInt64,
      leValue (limbs.flatMap fun limb => leBytes 8 limb.toNat) = Library.Limbs.value limbs := by
    intro limbs
    induction limbs with
    | nil => rfl
    | cons limb rest ih =>
      have small : limb.toNat < 256 ^ 8 := limb.toNat_lt
      rw [flatMap_cons, leValue_append, ih, leValue_leBytes, Nat.mod_eq_of_lt small,
        leBytes_length, value_cons]
      rfl
  rw [value, ← limbs, toBeBytes, reverse_flatMap, reverse_reverse]
  simp [Function.comp_def]

def isZero : Bool := number.limbs == [0, 0, 0, 0]

def bits : Nat := bitLength number.limbs

end

variable {first second number : U256}

/-- The number, unless something is carried out of it. -/
def unlessCarried (number : U256) (carry : Nat) : Option U256 :=
  if carry = 0 then some number else none

/-- A number that fits in 256 bits. -/
def fitted (whole : Nat) : Option Nat := if whole < 2 ^ 256 then some whole else none

theorem unlessCarried_value {carry whole : Nat} (sum : number.value + 2 ^ 256 * carry = whole) :
    (number.unlessCarried carry).map value = fitted whole := by
  have small := number.value_lt
  unfold unlessCarried fitted
  rcases Nat.eq_zero_or_pos carry with rfl | carried
  · rw [if_pos rfl, if_pos (by omega), Option.map_some, ← sum, Nat.mul_zero, Nat.add_zero]
  · rw [if_neg (by omega), if_neg (by omega), Option.map_none]

theorem fitted_cases {result : Option U256} {whole : Nat} (spec : result.map value = fitted whole) :
    (∃ number, result = some number ∧ number.value = whole ∧ whole < 2 ^ 256) ∨
      (result = none ∧ 2 ^ 256 ≤ whole) := by
  unfold fitted at spec
  split at spec
  · rename_i fits
    obtain ⟨number, found, same⟩ := Option.map_eq_some_iff.mp spec
    exact .inl ⟨number, found, same, fits⟩
  · rename_i large
    exact .inr ⟨Option.map_eq_none_iff.mp spec, Nat.le_of_not_lt large⟩

theorem base_pow_width (number : U256) : (2 ^ 64) ^ number.limbs.length = 2 ^ 256 := by
  rw [number.width, ← pow_mul]

def checkedAdd (first second : U256) : Option U256 :=
  let sum := addLimbs 0 first.limbs second.limbs
  have aligned := addLimbs_value (first.width.trans second.width.symm)
    (show (0 : UInt64).toNat ≤ 1 by decide)
  unlessCarried ⟨sum.1, aligned.1.trans first.width⟩ sum.2.toNat

theorem checkedAdd_eq (first second : U256) :
    (first.checkedAdd second).map value = fitted (first.value + second.value) := by
  obtain ⟨_, sum⟩ := addLimbs_value (first.width.trans second.width.symm)
    (show (0 : UInt64).toNat ≤ 1 by decide)
  rw [base_pow_width] at sum
  exact unlessCarried_value sum

def checkedMulU64 (number : U256) (factor : UInt64) : Option U256 :=
  let product := mulLimbs factor 0 number.limbs
  unlessCarried ⟨product.1, (mulLimbs_value factor number.limbs 0).1.trans number.width⟩ product.2

theorem checkedMulU64_eq (number : U256) (factor : UInt64) :
    (number.checkedMulU64 factor).map value = fitted (number.value * factor.toNat) := by
  obtain ⟨_, product⟩ := mulLimbs_value factor number.limbs 0
  rw [base_pow_width] at product
  exact unlessCarried_value product

def checkedDivU64 (number : U256) (divisor : UInt64) : Option U256 :=
  if zero : divisor.toNat = 0 then none
  else
    some ⟨(divLimbs divisor number.limbs).1,
      (divLimbs_value (Nat.pos_of_ne_zero zero) number.limbs).1.trans number.width⟩

theorem checkedDivU64_eq (number : U256) (divisor : UInt64) :
    (number.checkedDivU64 divisor).map value =
      if divisor.toNat = 0 then none else some (number.value / divisor.toNat) := by
  unfold checkedDivU64
  split
  · rfl
  · rename_i nonzero
    have positive := Nat.pos_of_ne_zero nonzero
    obtain ⟨_, below, whole⟩ := divLimbs_value positive number.limbs
    rw [Option.map_some, Option.some_inj, value, value, whole]
    refine (Nat.div_eq_of_lt_le (Nat.le_add_right _ _) ?_).symm
    rw [Nat.add_mul, Nat.one_mul]
    exact Nat.add_lt_add_left below _

def checkedSub (first second : U256) : Option U256 :=
  let difference := subLimbs 0 first.limbs second.limbs
  have aligned := subLimbs_value (first.width.trans second.width.symm)
    (show (0 : UInt64).toNat ≤ 1 by decide)
  unlessCarried ⟨difference.1, aligned.1.trans first.width⟩ difference.2.toNat

theorem checkedSub_eq (first second : U256) : (first.checkedSub second).map value =
      if second.value ≤ first.value then some (first.value - second.value) else none := by
  obtain ⟨length, difference⟩ := subLimbs_value (first.width.trans second.width.symm)
    (show (0 : UInt64).toNat ≤ 1 by decide)
  have small := first.value_lt
  have written := value_lt ⟨(subLimbs 0 first.limbs second.limbs).1, length.trans first.width⟩
  rw [base_pow_width, UInt64.toNat_zero] at difference
  unfold checkedSub unlessCarried
  unfold value at small written ⊢
  dsimp only at written ⊢
  split
  · rw [if_pos (by omega), Option.map_some, Option.some_inj]
    dsimp only
    omega
  · rw [if_neg (by omega), Option.map_none]

/-- `mul_div`: the product first, unless it overflows. -/
def mulDiv (number : U256) (factor divisor : UInt64) : Option U256 :=
  if divisor.toNat = 0 then none
  else
    match number.checkedMulU64 factor with
    | some product => product.checkedDivU64 divisor
    | none => (number.checkedDivU64 divisor).bind fun quotient => quotient.checkedMulU64 factor

/-! ## Long division -/

def bit (number : U256) (index : Nat) : Bool :=
  if 256 ≤ index then false else bitOf number.limbs index

def setBit (number : U256) (index : Nat) : U256 :=
  ⟨setBitOf number.limbs index, by rw [setBitOf, length_modify, number.width]⟩

def shl1 (number : U256) : U256 :=
  ⟨(shlLimbs 0 number.limbs).1, (shlLimbs_value number.limbs (by decide)).1.trans number.width⟩

def not (number : U256) : U256 :=
  ⟨notLimbs number.limbs, by rw [notLimbs, length_map, number.width]⟩

theorem bit_eq (number : U256) (index : Nat) : number.bit index = number.value.testBit index := by
  unfold bit
  split
  · rename_i beyond
    exact (Nat.testBit_lt_two_pow
      (number.value_lt.trans_le (Nat.pow_le_pow_right (by decide) beyond))).symm
  · exact bitOf_eq number.limbs index

theorem setBit_value {index : Nat} (inside : index < 256) :
    (number.setBit index).value = number.value ||| 2 ^ index :=
  setBitOf_value (by rw [number.width]; exact inside)

theorem shl1_value (small : number.value < 2 ^ 255) : number.shl1.value = 2 * number.value := by
  obtain ⟨_, shifted⟩ := shlLimbs_value number.limbs (show (0 : UInt64).toNat ≤ 1 by decide)
  rw [base_pow_width, UInt64.toNat_zero] at shifted
  unfold value at small ⊢
  unfold shl1
  dsimp only
  omega

theorem not_value (number : U256) : number.not.value = 2 ^ 256 - 1 - number.value := by
  have whole := notLimbs_value number.limbs
  rw [base_pow_width] at whole
  unfold value not
  dsimp only
  omega

theorem compare_eq_lt : compareLimbs first.limbs second.limbs = .lt ↔
    first.value < second.value := by
  rw [compareLimbs_eq (first.width.trans second.width.symm), Nat.compare_eq_lt]
  rfl

theorem isZero_iff : number.isZero = true ↔ number.value = 0 := by
  obtain ⟨limbs, width⟩ := number
  obtain ⟨first, second, third, fourth, rfl⟩ := length_eq_four.mp width
  simp only [isZero, value, value_cons, value_nil, beq_iff_eq, List.cons.injEq,
    ← UInt64.toNat_inj, UInt64.toNat_zero, and_true]
  omega

/-- The loop of `div_rem`, from the highest bit down; the subtraction it expects to succeed may
fail. -/
def divRemFrom (dividend divisor : U256) : Nat → U256 → U256 → Option (U256 × U256)
  | 0, quotient, remainder => some (quotient, remainder)
  | index + 1, quotient, remainder =>
    let shifted := remainder.shl1
    let current := if dividend.bit index then shifted.setBit 0 else shifted
    if compareLimbs current.limbs divisor.limbs = .lt then
      divRemFrom dividend divisor index quotient current
    else
      (current.checkedSub divisor).bind fun rest =>
        divRemFrom dividend divisor index (quotient.setBit index) rest

def divRem (dividend divisor : U256) : Option (U256 × U256) :=
  if divisor.isZero then none else divRemFrom dividend divisor 256 (fromU64 0) (fromU64 0)

variable {dividend divisor quotient remainder : U256} {index upper : Nat}

/-- The next bit enters the remainder and nothing falls out of it. -/
theorem next_remainder (inside : index < 256)
    (read : dividend.value / 2 ^ (index + 1) = upper * divisor.value + remainder.value) :
    (if dividend.bit index then remainder.shl1.setBit 0 else remainder.shl1).value =
        2 * remainder.value + dividend.value / 2 ^ index % 2 ∧
      dividend.value / 2 ^ index =
        2 * (upper * divisor.value + remainder.value) + dividend.value / 2 ^ index % 2 := by
  have halves : dividend.value / 2 ^ (index + 1) = dividend.value / 2 ^ index / 2 := by
    rw [pow_succ, Nat.div_div_eq_div_mul]
  have low : dividend.value / 2 ^ (index + 1) < 2 ^ 255 := by
    refine Nat.div_lt_of_lt_mul (dividend.value_lt.trans_le ?_)
    rw [← pow_add]
    exact Nat.pow_le_pow_right (by decide) (by omega)
  have doubled : remainder.shl1.value = 2 * remainder.value := shl1_value (by omega)
  refine ⟨?_, by omega⟩
  rw [bit_eq, Nat.testBit_eq_decide_div_mod_eq]
  by_cases set : dividend.value / 2 ^ index % 2 = 1
  · rw [if_pos (decide_eq_true set), setBit_value (by decide), doubled, set]
    exact (Nat.two_pow_add_eq_or_of_lt (i := 1) (by decide) remainder.value).symm
  · rw [if_neg (by simpa using set), doubled]
    omega

theorem divRemFrom_exact (inside : index ≤ 256) (below : remainder.value < divisor.value)
    (written : quotient.value = 2 ^ index * upper)
    (read : dividend.value / 2 ^ index = upper * divisor.value + remainder.value) :
    ∃ result rest, divRemFrom dividend divisor index quotient remainder = some (result, rest) ∧
      dividend.value = result.value * divisor.value + rest.value ∧ rest.value < divisor.value := by
  induction index generalizing quotient remainder upper with
  | zero =>
    rw [pow_zero, Nat.div_one] at read
    rw [pow_zero, Nat.one_mul] at written
    exact ⟨quotient, remainder, rfl, by rw [written, read], below⟩
  | succ index ih =>
    obtain ⟨value, next⟩ := next_remainder inside read
    rw [divRemFrom]
    generalize (if dividend.bit index then remainder.shl1.setBit 0 else remainder.shl1) = current
      at value ⊢
    split
    · rename_i less
      have doubled : quotient.value = 2 ^ index * (2 * upper) := by
        rw [written, pow_succ, Nat.mul_assoc]
      refine ih (by omega) (compare_eq_lt.mp less) doubled ?_
      rw [next, value, Nat.mul_add, Nat.mul_assoc, Nat.add_assoc]
    · rename_i least
      have least := Nat.le_of_not_lt fun less => least (compare_eq_lt.mpr less)
      have subtracted := checkedSub_eq current divisor
      rw [if_pos least] at subtracted
      obtain ⟨rest, found, difference⟩ := Option.map_eq_some_iff.mp subtracted
      rw [found, Option.bind_some]
      have raised : (quotient.setBit index).value = 2 ^ index * (2 * upper + 1) := by
        rw [setBit_value (by omega), written,
          ← Nat.two_pow_add_eq_or_of_lt (Nat.pow_lt_pow_succ (by decide)) upper]
        ring
      refine ih (by omega) (by omega) raised ?_
      have scaled : 2 * upper * divisor.value = 2 * (upper * divisor.value) := Nat.mul_assoc _ _ _
      rw [next, Nat.add_mul]
      omega

theorem divRem_exact (nonzero : divisor.value ≠ 0) :
    ∃ result rest, dividend.divRem divisor = some (result, rest) ∧
      dividend.value = result.value * divisor.value + rest.value ∧ rest.value < divisor.value := by
  have zero : (fromU64 0).value = 0 := fromU64_value 0
  rw [divRem, if_neg fun empty => nonzero (isZero_iff.mp empty)]
  refine divRemFrom_exact le_rfl ?_ (zero.trans (Nat.mul_zero _).symm) ?_
  · omega
  · rw [zero, Nat.zero_mul, Nat.div_eq_of_lt dividend.value_lt]

end U256

end Q21Formal.Primitives

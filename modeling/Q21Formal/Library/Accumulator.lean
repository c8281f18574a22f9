import Mathlib.Tactic

/-!
# Products kept as a fraction

A product modulo a number, kept as a numerator and a denominator so that a removal is a
multiplication.  Its value is the product of what is left, as long as the power used as an inverse
cancels what was removed.
-/

namespace Q21Formal.Library.Accumulator

/-- The power by the lowest `bits` bits of the exponent, from the most significant one down. -/
def powBits (modulus base exponent : Nat) : Nat → Nat → Nat
  | 0, result => result
  | bits + 1, result =>
    let squared := result * result % modulus
    powBits modulus base exponent bits
      (if exponent.testBit bits then squared * base % modulus else squared)

theorem mod_two_pow_succ (value bits : Nat) :
    value % 2 ^ (bits + 1) = 2 ^ bits * (value.testBit bits).toNat + value % 2 ^ bits := by
  rw [Nat.pow_succ, Nat.mod_mul, Nat.toNat_testBit, Nat.add_comm]

theorem powBits_modEq (modulus base exponent bits result : Nat) :
    powBits modulus base exponent bits result ≡
      result ^ 2 ^ bits * base ^ (exponent % 2 ^ bits) [MOD modulus] := by
  induction bits generalizing result with
  | zero => simp [powBits, Nat.mod_one, Nat.ModEq.refl]
  | succ bits ih =>
    have squared : result * result % modulus ≡ result ^ 2 [MOD modulus] := by
      rw [pow_two]
      exact Nat.mod_modEq _ _
    rw [powBits]
    refine (ih _).trans ?_
    rw [mod_two_pow_succ]
    cases exponent.testBit bits with
    | false =>
      have powered := (squared.pow (2 ^ bits)).mul_right (base ^ (exponent % 2 ^ bits))
      rw [← pow_mul, ← pow_succ'] at powered
      simpa using powered
    | true =>
      have stepped : result * result % modulus * base % modulus ≡ result ^ 2 * base [MOD modulus] :=
        (Nat.mod_modEq _ _).trans (squared.mul_right base)
      have powered := (stepped.pow (2 ^ bits)).mul_right (base ^ (exponent % 2 ^ bits))
      rw [mul_pow, ← pow_mul, ← pow_succ', Nat.mul_assoc, ← pow_add] at powered
      simpa using powered

/-- The power by `exponent` is an inverse of the value. -/
def Cancels (modulus exponent value : Nat) : Prop := value * value ^ exponent ≡ 1 [MOD modulus]

section Cancels
variable {modulus exponent : Nat}

theorem Cancels.one : Cancels modulus exponent 1 := by
  rw [Cancels, one_pow, Nat.one_mul]

theorem Cancels.mul {first second : Nat} (one : Cancels modulus exponent first)
    (other : Cancels modulus exponent second) : Cancels modulus exponent (first * second) := by
  have product := Nat.ModEq.mul one other
  rw [Cancels, mul_pow]
  calc first * second * (first ^ exponent * second ^ exponent)
      = first * first ^ exponent * (second * second ^ exponent) := by ring
    _ ≡ 1 * 1 [MOD modulus] := product

theorem Cancels.congr {first second : Nat} (cancels : Cancels modulus exponent first)
    (same : second ≡ first [MOD modulus]) : Cancels modulus exponent second :=
  (same.mul (same.pow exponent)).trans cancels

/-- Below a prime the power by two less is an inverse. -/
theorem cancels_of_prime {value : Nat} (prime : modulus.Prime) (positive : 0 < value)
    (small : value < modulus) : Cancels modulus (modulus - 2) value := by
  have coprime : Nat.Coprime value modulus :=
    (Nat.coprime_of_lt_prime positive.ne' small prime).symm
  have fermat := Nat.ModEq.pow_totient coprime
  have two := prime.two_le
  rw [Nat.totient_prime prime] at fermat
  rw [Cancels, ← pow_succ']
  rwa [show modulus - 2 + 1 = modulus - 1 by omega]

end Cancels

/-! ## Fractions -/

structure Fraction where
  numerator : Nat
  denominator : Nat
deriving DecidableEq

/-- The fraction stands for the product of the items. -/
structure Fraction.Represents (modulus exponent : Nat) (fraction : Fraction)
    (items : Multiset Nat) : Prop where
  product : fraction.numerator ≡ fraction.denominator * items.prod [MOD modulus]
  cancels : Cancels modulus exponent fraction.denominator

section Fraction
variable {modulus exponent : Nat} {fraction : Fraction} {items : Multiset Nat} {item : Nat}

theorem Fraction.Represents.one : Fraction.Represents modulus exponent ⟨1, 1⟩ 0 :=
  ⟨Nat.ModEq.refl 1, .one⟩

theorem Fraction.Represents.insert (represents : fraction.Represents modulus exponent items) :
    Fraction.Represents modulus exponent
      ⟨fraction.numerator * item % modulus, fraction.denominator⟩ (item ::ₘ items) := by
  refine ⟨?_, represents.cancels⟩
  rw [Multiset.prod_cons]
  calc fraction.numerator * item % modulus
      ≡ fraction.numerator * item [MOD modulus] := Nat.mod_modEq _ _
    _ ≡ fraction.denominator * items.prod * item [MOD modulus] := represents.product.mul_right item
    _ = fraction.denominator * (item * items.prod) := by ring

theorem Fraction.Represents.remove
    (represents : fraction.Represents modulus exponent (item ::ₘ items))
    (cancels : Cancels modulus exponent item) :
    Fraction.Represents modulus exponent
      ⟨fraction.numerator, fraction.denominator * item % modulus⟩ items := by
  have reduced := Nat.mod_modEq (fraction.denominator * item) modulus
  refine ⟨?_, (represents.cancels.mul cancels).congr reduced⟩
  have product := represents.product
  rw [Multiset.prod_cons] at product
  calc fraction.numerator ≡ fraction.denominator * (item * items.prod) [MOD modulus] := product
    _ = fraction.denominator * item * items.prod := by ring
    _ ≡ fraction.denominator * item % modulus * items.prod [MOD modulus] :=
      reduced.symm.mul_right _

/-- The numerator times the inverse of the denominator is the product. -/
theorem Fraction.Represents.value (represents : fraction.Represents modulus exponent items) :
    fraction.numerator * fraction.denominator ^ exponent ≡ items.prod [MOD modulus] := by
  calc fraction.numerator * fraction.denominator ^ exponent
      ≡ fraction.denominator * items.prod * fraction.denominator ^ exponent [MOD modulus] :=
        represents.product.mul_right _
    _ = fraction.denominator * fraction.denominator ^ exponent * items.prod := by ring
    _ ≡ 1 * items.prod [MOD modulus] := Nat.ModEq.mul_right _ represents.cancels
    _ = items.prod := Nat.one_mul _

end Fraction

end Q21Formal.Library.Accumulator

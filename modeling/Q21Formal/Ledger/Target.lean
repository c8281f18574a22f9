import Q21Formal.Ledger.Block
import Q21Formal.Primitives.U256

/-!
# Targets and the weighted average in 256-bit arithmetic

Decoding a compact target and the work of a block on 256-bit integers: the numbers the ledger's
rules are stated with.  A compact target rounds down by less than one part in 2^15.  In the
difficulty after a window of headers no sum overflows; the product of the mean target and the
average solve time can, but only where the average is above the floor in any case.
-/

namespace Q21Formal.Ledger
open Library.Codec Library.Limbs Library.Refusal Primitives List

namespace Pow

section
variable (bits : UInt32)

/-! ## Work -/

/-- The loop of `target_from_compact`. -/
def scaleTarget : Nat → U256 → Except PowError U256
  | 0, target => .ok target
  | count + 1, target =>
      match target.checkedMulU64 256 with
      | some scaled => scaleTarget count scaled
      | none => .error .targetTooLarge

/-- `pow::target_from_compact`. -/
def targetFromCompact : Except PowError U256 := do
  let exponent := bits.toNat / 2 ^ 24
  let mantissa := bits.toNat % 2 ^ 23
  require (bits.toNat / 2 ^ 23 % 2 = 0) .negativeTarget
  require (mantissa ≠ 0) .zeroTarget
  let target ←
    if exponent ≤ 3 then .ok (U256.fromU64 (UInt64.ofNat (mantissa / 256 ^ (3 - exponent))))
    else scaleTarget (exponent - 3) (U256.fromU64 (UInt64.ofNat mantissa))
  require (target.isZero = false) .zeroTarget
  pure target

/-- `pow::block_work`. -/
def blockWork : U256 :=
  match targetFromCompact bits with
  | .error _ => U256.fromU64 0
  | .ok target =>
      match target.checkedAdd (U256.fromU64 1) with
      | none => U256.fromU64 1
      | some denominator =>
          match target.not.divRem denominator with
          | none => U256.fromU64 0
          | some (quotient, _) => (quotient.checkedAdd (U256.fromU64 1)).getD quotient

theorem scaleTarget_value (count : Nat) (target : U256) :
    (scaleTarget count target).map U256.value = shiftTarget count target.value := by
  induction count generalizing target with
  | zero => rfl
  | succ count ih =>
      have bound : u256Bound = 2 ^ 256 := rfl
      rw [scaleTarget, shiftTarget, bound]
      rcases U256.fitted_cases (target.checkedMulU64_eq 256) with
        ⟨scaled, found, same, fits⟩ | ⟨found, large⟩
      · have byte : (256 : UInt64).toNat = 256 := rfl
        rw [byte] at same fits
        rw [found, if_pos fits, ← same]
        exact ih scaled
      · have byte : (256 : UInt64).toNat = 256 := rfl
        rw [byte] at large
        rw [found, if_neg (Nat.not_lt.mpr large)]
        rfl

/-- The check that ends the decoding. -/
theorem nonzero_value (target : Except PowError U256) (number : Except PowError Nat)
    (same : target.map U256.value = number) :
    (do let found ← target
        require (found.isZero = false) .zeroTarget
        pure found : Except PowError U256).map U256.value =
      (do let found ← number
          require (found ≠ 0) .zeroTarget
          pure found : Except PowError Nat) := by
  subst same
  cases target with
  | error problem => rfl
  | ok found =>
      have zero : found.isZero = false ↔ found.value ≠ 0 := by
        rw [← Bool.not_eq_true, Ne, U256.isZero_iff]
      by_cases absent : found.value = 0 <;>
        simp [bind, Except.bind, Except.map, require, pure, Except.pure, zero, absent]

/-- The decoded target is the one the rules speak of. -/
theorem targetFromCompact_value :
    (targetFromCompact bits).map U256.value = Ledger.targetFromCompact bits := by
  have small : bits.toNat % 2 ^ 23 < 2 ^ 64 := (Nat.mod_lt _ (by decide)).trans (by decide)
  unfold targetFromCompact Ledger.targetFromCompact
  dsimp only
  by_cases positive : bits.toNat / 2 ^ 23 % 2 = 0
  · by_cases present : bits.toNat % 2 ^ 23 ≠ 0
    · rw [require, require, if_pos positive, if_pos present]
      split
      · refine nonzero_value (.ok _) (.ok _) ?_
        rw [Except.map, U256.fromU64_value,
          UInt64.toNat_ofNat_of_lt' ((Nat.div_le_self _ _).trans_lt small)]
      · apply nonzero_value
        rw [scaleTarget_value, U256.fromU64_value, UInt64.toNat_ofNat_of_lt' small]
    · rw [require, require, if_pos positive, if_neg present]
      rfl
  · rw [require, if_neg positive]
    rfl

theorem blockWork_value : (blockWork bits).value = Ledger.blockWork bits := by
  have decoded := targetFromCompact_value bits
  unfold blockWork Ledger.blockWork
  cases found : targetFromCompact bits with
  | error problem =>
      rw [found] at decoded
      rw [← decoded]
      exact U256.fromU64_value 0
  | ok target =>
      rw [found] at decoded
      rw [← decoded]
      have one : (U256.fromU64 1).value = 1 := U256.fromU64_value 1
      have bound : u256Bound = 2 ^ 256 := rfl
      dsimp only [Except.map]
      rw [bound]
      rcases U256.fitted_cases (target.checkedAdd_eq (U256.fromU64 1)) with
        ⟨denominator, added, same, fits⟩ | ⟨added, large⟩
      · rw [one] at same fits
        have nonzero : denominator.value ≠ 0 := by omega
        obtain ⟨quotient, rest, divided, whole, below⟩ :
            ∃ quotient rest, target.not.divRem denominator = some (quotient, rest) ∧ _ :=
          U256.divRem_exact nonzero
        have quotientValue : quotient.value =
            (2 ^ 256 - 1 - target.value) / (target.value + 1) := by
          rw [U256.not_value, same] at whole
          exact (Nat.div_eq_of_lt_le (by omega) (by rw [Nat.succ_mul]; omega)).symm
        rw [added, if_pos fits]
        dsimp only
        rw [divided]
        dsimp only
        rw [← quotientValue]
        rcases U256.fitted_cases (quotient.checkedAdd_eq (U256.fromU64 1)) with
          ⟨work, raised, sum, room⟩ | ⟨raised, large⟩
        · rw [one] at sum room
          rw [raised, if_pos room, ← sum]
          rfl
        · rw [one] at large
          rw [raised, if_neg (Nat.not_lt.mpr large)]
          rfl
      · rw [added, if_neg (by omega)]
        exact one

theorem targetFromCompact_nonzero {bits : UInt32} {target : Nat}
    (decoded : Ledger.targetFromCompact bits = .ok target) : target ≠ 0 := by
  simp only [Ledger.targetFromCompact, bind_eq_ok, require_eq_ok] at decoded
  obtain ⟨_, _, _, _, decoded⟩ := decoded
  split at decoded <;>
    simp only [bind_eq_ok, require_eq_ok, pure_eq_ok] at decoded <;>
    obtain ⟨_, _, _, nonzero, rfl⟩ := decoded <;>
    exact nonzero

/-- A block counts for the expected number of hashes under its target, in the arithmetic of the
natural numbers below 2^256. -/
theorem blockWork_exact : (∀ bits target, targetFromCompact bits = .ok target →
      (blockWork bits).value = 2 ^ 256 / (target.value + 1)) ∧
    (∀ dividend divisor : U256, divisor.value ≠ 0 → ∃ quotient rest,
      dividend.divRem divisor = some (quotient, rest) ∧
        dividend.value = quotient.value * divisor.value + rest.value ∧
        rest.value < divisor.value) ∧
    (∀ left right : U256, (left.checkedAdd right).map U256.value =
      if left.value + right.value < 2 ^ 256 then some (left.value + right.value) else none) ∧
    (∀ left right : U256, (left.checkedSub right).map U256.value =
      if right.value ≤ left.value then some (left.value - right.value) else none) ∧
    (∀ (number : U256) (factor : UInt64), (number.checkedMulU64 factor).map U256.value =
      if number.value * factor.toNat < 2 ^ 256 then some (number.value * factor.toNat) else none) ∧
    (∀ (number : U256) (divisor : UInt64), (number.checkedDivU64 divisor).map U256.value =
      if divisor.toNat = 0 then none else some (number.value / divisor.toNat)) := by
  refine ⟨fun bits target decoded => ?_, fun dividend divisor nonzero => U256.divRem_exact nonzero,
    fun left right => left.checkedAdd_eq right, fun left right => left.checkedSub_eq right,
    fun number factor => number.checkedMulU64_eq factor,
    fun number divisor => number.checkedDivU64_eq divisor⟩
  have refined := targetFromCompact_value bits
  rw [decoded] at refined
  have nonzero := targetFromCompact_nonzero refined.symm
  have small := target.value_lt
  have bound : u256Bound = 2 ^ 256 := rfl
  rw [blockWork_value, Ledger.blockWork, ← refined]
  dsimp only [Except.map]
  rw [bound]
  -- The complement of the target falls short of 2^256 by one denominator.
  have whole : 2 ^ 256 / (target.value + 1) =
      (2 ^ 256 - 1 - target.value) / (target.value + 1) + 1 := by
    rw [← Nat.add_div_right _ (Nat.succ_pos _)]
    congr 1
    omega
  have room : (2 ^ 256 - 1 - target.value) / (target.value + 1) + 1 < 2 ^ 256 := by
    rw [← whole]
    exact Nat.div_lt_self (by decide) (by omega)
  rw [if_pos room, whole]
  split
  · rfl
  · have all : target.value + 1 = 2 ^ 256 := by omega
    rw [all, Nat.div_eq_of_lt (by omega)]

theorem blockWork_exact_initial : (blockWork initialBits).value = 256 :=
  (blockWork_exact.1 initialBits ⟨[0, 0, 0, 0x00ffff0000000000], rfl⟩ rfl).trans (by decide +kernel)

end

end Pow

/-- The words of `mul_div` are the number the rules compute with. -/
theorem U256.value_mulDiv (number : U256) (factor divisor : UInt64) :
    (number.mulDiv factor divisor).map U256.value =
      mulDiv number.value factor.toNat divisor.toNat := by
  have bound : u256Bound = 2 ^ 256 := rfl
  unfold U256.mulDiv mulDiv
  rw [bound]
  split
  · rfl
  · rename_i nonzero
    rcases U256.fitted_cases (number.checkedMulU64_eq factor) with
      ⟨product, found, same, fits⟩ | ⟨found, large⟩
    · rw [found, if_pos fits, ← same]
      exact (product.checkedDivU64_eq divisor).trans (if_neg nonzero)
    · obtain ⟨quotient, there, exactly⟩ := Option.map_eq_some_iff.mp
        ((number.checkedDivU64_eq divisor).trans (if_neg nonzero))
      rw [found, if_neg (Nat.not_lt.mpr large)]
      dsimp only
      rw [there, Option.bind_some, quotient.checkedMulU64_eq factor, exactly]
      rfl

/-! ## Compact targets -/

/-- The three leading bytes of a target of `count` bytes. -/
def leading (target count : Nat) : Nat := target / 256 ^ (count - 3) * 256 ^ (3 - count)

/-- The exponent of a compact target: the bytes of the target, its sign bit included. -/
def signedLength (target : Nat) : Nat := Nat.size target / 8 + 1

variable {target count width : Nat}

theorem leading_eq : leading target count =
      if count ≤ 3 then target * 256 ^ (3 - count) else target / 256 ^ (count - 3) := by
  unfold leading
  split
  · rename_i short
    rw [Nat.sub_eq_zero_of_le short, pow_zero, Nat.div_one]
  · rename_i long
    rw [Nat.sub_eq_zero_of_le (Nat.le_of_not_le long), pow_zero, Nat.mul_one]

theorem leading_succ : leading target count / 256 = leading target (count + 1) := by
  unfold leading
  rcases Nat.lt_or_ge count 3 with short | long
  · have step : 3 - count = 3 - (count + 1) + 1 := by omega
    rw [step, pow_succ, ← Nat.mul_assoc, Nat.mul_div_cancel _ (by decide),
      Nat.sub_eq_zero_of_le short.le, Nat.sub_eq_zero_of_le short]
  · have step : count + 1 - 3 = count - 3 + 1 := by omega
    rw [step, pow_succ, ← Nat.div_div_eq_div_mul, Nat.sub_eq_zero_of_le long,
      Nat.sub_eq_zero_of_le (Nat.le_succ_of_le long), pow_zero, Nat.mul_one, Nat.mul_one]

theorem leading_lt_iff (room : 24 ≤ 8 * count + width) :
    leading target count < 2 ^ width ↔ target < 2 ^ (8 * count + width - 24) := by
  have byte (places : Nat) : 256 ^ places = 2 ^ (8 * places) := (pow_mul 2 8 places).symm
  rw [leading_eq, byte, byte]
  split
  · have whole : 2 ^ width = 2 ^ (8 * count + width - 24) * 2 ^ (8 * (3 - count)) := by
      rw [← pow_add]
      congr 1
      omega
    rw [whole]
    exact Nat.mul_lt_mul_right (Nat.two_pow_pos _)
  · rw [Nat.div_lt_iff_lt_mul (Nat.two_pow_pos _), ← pow_add]
    have same : width + 8 * (count - 3) = 8 * count + width - 24 := by omega
    rw [same]

/-- The mantissa of an encoded target leaves the sign bit clear. -/
theorem leading_lt (target : Nat) : leading target (signedLength target) < 2 ^ 23 := by
  rw [leading_lt_iff (by unfold signedLength; omega), ← Nat.size_le]
  unfold signedLength
  omega

theorem targetToCompact_toNat (nonzero : target ≠ 0) (small : target < 2 ^ 256) :
    (targetToCompact target).toNat =
      signedLength target * 2 ^ 24 + leading target (signedLength target) := by
  have positive : 0 < Nat.size target := Nat.size_pos.mpr (Nat.pos_of_ne_zero nonzero)
  have short : Nat.size target ≤ 256 := Nat.size_le.mpr small
  have fits := leading_lt target
  have room : signedLength target * 2 ^ 24 + 2 ^ 23 < UInt32.size := by
    have size : UInt32.size = 2 ^ 32 := rfl
    unfold signedLength
    omega
  have sign : 2 ^ 23 ≤ leading target (byteLength target) ↔ Nat.size target % 8 = 0 := by
    rw [← Nat.not_lt, leading_lt_iff (by unfold byteLength; omega), ← Nat.size_le]
    unfold byteLength
    omega
  unfold targetToCompact
  rw [if_neg nonzero]
  dsimp only
  rw [← leading_eq]
  split
  · have longer : byteLength target + 1 = signedLength target := by
      unfold byteLength signedLength
      omega
    rw [leading_succ, longer, UInt32.toNat_ofNat_of_lt' (by omega)]
  · have same : byteLength target = signedLength target := by
      unfold byteLength signedLength
      omega
    rw [same, UInt32.toNat_ofNat_of_lt' (by omega)]

/-- The weight of the last place a compact target keeps. -/
def lastPlace (target : Nat) : Nat := 256 ^ (signedLength target - 3)

/-- What a compact target keeps of a target. -/
def kept (target : Nat) : Nat := target / lastPlace target * lastPlace target

theorem shiftTarget_eq (places value : Nat) (fits : value * 256 ^ places < 2 ^ 256) :
    shiftTarget places value = .ok (value * 256 ^ places) := by
  induction places generalizing value with
  | zero => rw [shiftTarget, pow_zero, Nat.mul_one]
  | succ places ih =>
      have step : value * 256 ^ (places + 1) = value * 256 * 256 ^ places := by
        rw [pow_succ', Nat.mul_assoc]
      rw [step] at fits ⊢
      have one : value * 256 < u256Bound :=
        (Nat.le_mul_of_pos_right _ (Nat.pow_pos (by decide))).trans_lt fits
      rw [shiftTarget, if_pos one, ih _ fits]

theorem kept_le (target : Nat) : kept target ≤ target := Nat.div_mul_le_self _ _

theorem lastPlace_pos (target : Nat) : 0 < lastPlace target := Nat.pow_pos (by decide)

/-- Short targets are kept whole; of a longer one at least fifteen bits are kept. -/
theorem lastPlace_cases (target : Nat) : lastPlace target = 1 ∨
      lastPlace target * 2 ^ 15 = 2 ^ (8 * (Nat.size target / 8) - 1) ∧
        lastPlace target * 2 ^ 15 ≤ target := by
  unfold lastPlace signedLength
  rcases Nat.lt_or_ge (Nat.size target / 8) 3 with short | long
  · exact .inl (by rw [Nat.sub_eq_zero_of_le (by omega), pow_zero])
  · right
    have weight : 256 ^ (Nat.size target / 8 + 1 - 3) * 2 ^ 15 =
        2 ^ (8 * (Nat.size target / 8) - 1) := by
      rw [show 256 = 2 ^ 8 from rfl, ← pow_mul, ← pow_add]
      congr 1
      omega
    refine ⟨weight, ?_⟩
    rw [weight, ← Nat.lt_size]
    omega

theorem kept_eq_self (exact : lastPlace target = 1) : kept target = target := by
  rw [kept, exact, Nat.div_one, Nat.mul_one]

section
variable (nonzero : target ≠ 0)
include nonzero

theorem kept_close : (target - kept target) * 2 ^ 15 < target := by
  have rest : target - kept target = target % lastPlace target := by
    rw [kept, Nat.mod_eq_sub_div_mul]
  rw [rest]
  rcases lastPlace_cases target with exact | ⟨_, long⟩
  · rw [exact, Nat.mod_one, Nat.zero_mul]
    exact Nat.pos_of_ne_zero nonzero
  · have below := Nat.mod_lt target (lastPlace_pos target)
    exact (Nat.mul_lt_mul_of_pos_right below (by decide)).trans_le long

theorem kept_ne_zero : kept target ≠ 0 := by
  have close := kept_close nonzero
  omega

omit nonzero in
theorem kept_signedLength (target : Nat) : signedLength (kept target) = signedLength target := by
  rcases lastPlace_cases target with exact | ⟨weight, long⟩
  · rw [kept_eq_self exact]
  · have shorter : Nat.size (kept target) ≤ Nat.size target := Nat.size_le_size (kept_le target)
    have longEnough : 8 * (Nat.size target / 8) - 1 < Nat.size (kept target) := by
      rw [Nat.lt_size, ← weight, Nat.mul_comm]
      exact Nat.mul_le_mul_right _ ((Nat.le_div_iff_mul_le (lastPlace_pos target)).mpr
        (by rwa [Nat.mul_comm]))
    unfold signedLength
    omega

theorem leading_ne_zero : leading target (signedLength target) ≠ 0 := by
  have places := kept_ne_zero nonzero
  exact Nat.mul_ne_zero (left_ne_zero_of_mul places) (Nat.pow_pos (by decide)).ne'

/-- Decoding an encoded target gives what was kept of it. -/
theorem targetFromCompact_targetToCompact (small : target < 2 ^ 256) :
    targetFromCompact (targetToCompact target) = .ok (kept target) := by
  have encoded := targetToCompact_toNat nonzero small
  have present := leading_ne_zero nonzero
  have fits := leading_lt target
  have exponent : (targetToCompact target).toNat / 2 ^ 24 = signedLength target := by omega
  have mantissa : (targetToCompact target).toNat % 2 ^ 23 =
      leading target (signedLength target) := by omega
  have sign : (targetToCompact target).toNat / 2 ^ 23 % 2 = 0 := by omega
  unfold targetFromCompact
  dsimp only
  rw [exponent, mantissa, require, require, if_pos sign, if_pos present]
  change (if _ then _ else _) = _
  -- The nonzero check that follows either way of scaling the mantissa.
  have checked : (do
      let found ← Except.ok (kept target)
      require (found ≠ 0) PowError.zeroTarget
      pure found : Except PowError Nat) = .ok (kept target) := by
    simp [bind, Except.bind, require, pure, Except.pure, kept_ne_zero nonzero]
  have decoded : kept target = leading target (signedLength target) *
      256 ^ (signedLength target - 3) / 256 ^ (3 - signedLength target) := by
    rw [leading, Nat.mul_right_comm, Nat.mul_div_cancel _ (Nat.pow_pos (by decide)), kept,
      lastPlace]
  split
  · rename_i short
    rw [Nat.sub_eq_zero_of_le short, pow_zero, Nat.mul_one] at decoded
    rw [← decoded]
    exact checked
  · rename_i long
    rw [Nat.sub_eq_zero_of_le (Nat.le_of_not_le long), pow_zero, Nat.div_one] at decoded
    have room := (kept_le target).trans_lt small
    rw [decoded] at room checked ⊢
    rw [shiftTarget_eq _ _ room]
    exact checked

theorem targetToCompact_kept (small : target < 2 ^ 256) :
    targetToCompact (kept target) = targetToCompact target := by
  apply UInt32.toNat_inj.mp
  rw [targetToCompact_toNat (kept_ne_zero nonzero) ((kept_le target).trans_lt small),
    targetToCompact_toNat nonzero small, kept_signedLength, leading, leading, kept, lastPlace,
    Nat.mul_div_cancel _ (Nat.pow_pos (by decide))]

end

theorem targetToCompact_mono {first second : Nat} (ordered : first ≤ second)
    (small : second < 2 ^ 256) : targetToCompact first ≤ targetToCompact second := by
  rcases Nat.eq_zero_or_pos first with rfl | positive
  · exact UInt32.zero_le
  · have firstNonzero : first ≠ 0 := positive.ne'
    have secondNonzero : second ≠ 0 := (positive.trans_le ordered).ne'
    have sizes : signedLength first ≤ signedLength second := by
      have longer := Nat.size_le_size ordered
      unfold signedLength
      omega
    rw [UInt32.le_iff_toNat_le, targetToCompact_toNat firstNonzero (ordered.trans_lt small),
      targetToCompact_toNat secondNonzero small]
    have fits := leading_lt first
    rcases sizes.lt_or_eq with shorter | same
    · omega
    · rw [same]
      exact Nat.add_le_add_left (Nat.mul_le_mul_right _ (Nat.div_le_div_right ordered)) _

namespace Pow

/-- `pow::target_to_compact`. -/
def targetToCompact (target : U256) : UInt32 :=
  if target.isZero then 0
  else
    let bytes := target.toBeBytes
    let exponent := (target.bits + 7) / 8
    let start := 32 - exponent
    let mantissa :=
      if exponent ≤ 3 then
        (bytes.drop start).foldl (fun value byte => value * 256 + byte.toNat) 0 *
          256 ^ (3 - exponent)
      else
        (bytes.getD start 0).toNat * 2 ^ 16 + (bytes.getD (start + 1) 0).toNat * 2 ^ 8 +
          (bytes.getD (start + 2) 0).toNat
    if 2 ^ 23 ≤ mantissa then UInt32.ofNat ((exponent + 1) * 2 ^ 24 + mantissa / 256)
    else UInt32.ofNat (exponent * 2 ^ 24 + mantissa)

/-- The bytes of a number, most significant first, from its leading one on. -/
theorem toBeBytes_drop {number : U256} {count : Nat} (short : count ≤ 32)
    (fits : number.value < 256 ^ count) :
    leValue (number.toBeBytes.drop (32 - count)).reverse = number.value := by
  have length : number.toBeBytes.reverse.length = 32 := by
    rw [length_reverse, number.toBeBytes_length]
  rw [reverse_drop, number.toBeBytes_length, Nat.sub_sub_self short,
    leValue_take _ (by omega), number.toBeBytes_value, Nat.mod_eq_of_lt fits]

/-- The first three of more bytes are the leading part of the number they stand for. -/
theorem three_bytes {bytes : Bytes} (long : 3 ≤ bytes.length) :
    (bytes.getD 0 0).toNat * 2 ^ 16 + (bytes.getD 1 0).toNat * 2 ^ 8 + (bytes.getD 2 0).toNat =
      leValue bytes.reverse / 256 ^ (bytes.length - 3) := by
  obtain ⟨first, second, third, rest, rfl⟩ : ∃ first second third rest,
      bytes = first :: second :: third :: rest := by
    match bytes, long with
    | first :: second :: third :: rest, _ => exact ⟨first, second, third, rest, rfl⟩
  have small := leValue_lt rest.reverse
  have whole := leValue_append rest.reverse [third, second, first]
  have same : (first :: second :: third :: rest).reverse = rest.reverse ++ [third, second, first] := by
    simp
  rw [length_reverse] at small whole
  have left : (first :: second :: third :: rest).length - 3 = rest.length := rfl
  rw [same, whole, left, Nat.add_mul_div_left _ _ (Nat.pow_pos (by decide)), Nat.div_eq_of_lt small]
  simp only [leValue, getD_cons_zero, getD_cons_succ]
  ring

theorem targetToCompact_eq (target : U256) :
    targetToCompact target = Ledger.targetToCompact target.value := by
  have length : (target.bits + 7) / 8 = byteLength target.value := by
    rw [U256.bits, bitLength_eq]
    rfl
  have zero : target.isZero = true ↔ target.value = 0 := U256.isZero_iff
  have size : Nat.size target.value ≤ 256 := Nat.size_le.mpr target.value_lt
  have short : byteLength target.value ≤ 32 := by
    unfold byteLength
    omega
  have fits : target.value < 256 ^ byteLength target.value := by
    rw [show 256 = 2 ^ 8 from rfl, ← pow_mul, ← Nat.size_le]
    unfold byteLength
    omega
  have dropped := toBeBytes_drop short fits
  have left : (target.toBeBytes.drop (32 - byteLength target.value)).length =
      byteLength target.value := by
    rw [length_drop, target.toBeBytes_length]
    omega
  have mantissa : (if byteLength target.value ≤ 3 then
        (target.toBeBytes.drop (32 - byteLength target.value)).foldl
          (fun value byte => value * 256 + byte.toNat) 0 * 256 ^ (3 - byteLength target.value)
      else
        (target.toBeBytes.getD (32 - byteLength target.value) 0).toNat * 2 ^ 16 +
          (target.toBeBytes.getD (32 - byteLength target.value + 1) 0).toNat * 2 ^ 8 +
          (target.toBeBytes.getD (32 - byteLength target.value + 2) 0).toNat) =
      if byteLength target.value ≤ 3 then target.value * 256 ^ (3 - byteLength target.value)
      else target.value / 256 ^ (byteLength target.value - 3) := by
    split
    · rw [foldl_bytes, dropped]
    · rename_i long
      have three := three_bytes (left.symm ▸ Nat.le_of_not_le long)
      simp only [dropped, left, getD_eq_getElem?_getD, getElem?_drop, Nat.add_zero] at three
      simpa only [getD_eq_getElem?_getD] using three
  unfold targetToCompact Ledger.targetToCompact
  simp only [zero, length, mantissa]

theorem targetFromCompact_encoded {target : U256} (nonzero : target.value ≠ 0) :
    ∃ rounded, targetFromCompact (targetToCompact target) = .ok rounded ∧
      rounded.value = kept target.value := by
  have refined := targetFromCompact_value (targetToCompact target)
  rw [targetToCompact_eq,
    Ledger.targetFromCompact_targetToCompact nonzero target.value_lt] at refined
  rw [targetToCompact_eq]
  cases found : targetFromCompact (Ledger.targetToCompact target.value) with
  | error refused =>
      rw [found] at refined
      cases refined
  | ok rounded =>
      rw [found] at refined
      exact ⟨rounded, rfl, Except.ok.inj refined⟩

theorem targetToCompact_rounded {target rounded : U256} (nonzero : target.value ≠ 0)
    (same : rounded.value = kept target.value) :
    targetToCompact rounded = targetToCompact target := by
  rw [targetToCompact_eq, targetToCompact_eq, same,
    Ledger.targetToCompact_kept nonzero target.value_lt]

/-- Compact targets round down by less than one part in 2^15, keep the order, and are stable. -/
theorem compact_rounds_down : (∀ target : U256, target.value ≠ 0 → ∃ rounded,
      targetFromCompact (targetToCompact target) = .ok rounded ∧ rounded.value ≤ target.value ∧
        (target.value - rounded.value) * 2 ^ 15 < target.value ∧
        targetToCompact rounded = targetToCompact target) ∧
    (∀ first second : U256, first.value ≤ second.value →
      targetToCompact first ≤ targetToCompact second) ∧
    (∀ target rounded, targetFromCompact (targetToCompact target) = .ok rounded →
      targetToCompact rounded = targetToCompact target) := by
  refine ⟨fun target nonzero => ?_, fun first second ordered => ?_, fun target rounded decoded => ?_⟩
  · obtain ⟨rounded, decoded, same⟩ := targetFromCompact_encoded nonzero
    refine ⟨rounded, decoded, ?_, ?_, targetToCompact_rounded nonzero same⟩
    · rw [same]
      exact kept_le target.value
    · rw [same]
      exact kept_close nonzero
  · rw [targetToCompact_eq, targetToCompact_eq]
    exact Ledger.targetToCompact_mono ordered second.value_lt
  · have nonzero : target.value ≠ 0 := by
      intro zero
      rw [targetToCompact, if_pos (U256.isZero_iff.mpr zero)] at decoded
      cases decoded
    obtain ⟨_, again, same⟩ := targetFromCompact_encoded nonzero
    rw [decoded] at again
    cases again
    exact targetToCompact_rounded nonzero same

end Pow

section
variable (weight : Nat) (recent : List BlockHeader) (header : BlockHeader)

/-- The seconds a block took, as far as they count. -/
def solveTime (parent header : BlockHeader) : Int :=
  max (-(lwmaMaxBehind * targetBlockSecs)) (min (lwmaMaxAhead * targetBlockSecs)
    ((header.time.toNat : Int) - parent.time.toNat))

/-- The solve times of a window, each weighted with its place, the first of them with `weight`. -/
def weightedTimes : Int :=
  ((recent.zip recent.tail).mapIdx fun place pair =>
    solveTime pair.1 pair.2 * (weight + place : Nat)).sum

def headerTarget : Nat :=
  match targetFromCompact header.bits with
  | .ok target => target
  | .error _ => 0

/-- The average solve time of a window, at least a twentieth of the expected one. -/
def averageTime : Nat :=
  let weights : Int := ((recent.length - 1) * recent.length / 2 : Nat)
  (max (max (weightedTimes 1 recent) (weights * targetBlockSecs / 20) / weights) 1).toNat

def averageTarget : Nat :=
  (recent.tail.map headerTarget).sum / (recent.length - 1)

/-- The target the average asks for, within the change allowed at once, before the floor. -/
def lwmaTarget (headers : List BlockHeader) : Nat :=
  let recent := headers.drop (headers.length - (lwmaWindow + 1))
  let average := averageTarget recent
  max (min (average * averageTime recent / targetBlockSecs) (average * maxTargetChange))
    (average / maxTargetChange)

/-- A header whose target is no easier than the floor. -/
def WithinFloor : Prop :=
  ∃ target ≤ floorTarget, targetFromCompact header.bits = .ok target

theorem WithinFloor.decoded {header : BlockHeader} (within : WithinFloor header) :
    targetFromCompact header.bits = .ok (headerTarget header) ∧
      headerTarget header ≤ floorTarget := by
  obtain ⟨target, below, decoded⟩ := within
  have same : headerTarget header = target := by rw [headerTarget, decoded]
  exact ⟨decoded.trans (congrArg _ same.symm), same ▸ below⟩

theorem weightedTimes_cons (parent header : BlockHeader) (rest : List BlockHeader) :
    weightedTimes weight (parent :: header :: rest) =
      solveTime parent header * weight + weightedTimes (weight + 1) (header :: rest) := by
  have shifted : (fun (place : Nat) (pair : BlockHeader × BlockHeader) =>
      solveTime pair.1 pair.2 * (weight + (place + 1) : Nat)) =
      fun place pair => solveTime pair.1 pair.2 * (weight + 1 + place : Nat) := by
    funext place pair
    rw [Nat.add_right_comm, Nat.add_assoc]
  simp only [weightedTimes, tail_cons, zip_cons_cons, mapIdx_cons, sum_cons, Nat.add_zero, shifted]

theorem targets_le {headers : List BlockHeader}
    (announced : ∀ header ∈ headers, WithinFloor header) :
    (headers.map headerTarget).sum ≤ headers.length * floorTarget := by
  induction headers with
  | nil => exact Nat.zero_le _
  | cons header rest ih =>
    rw [forall_mem_cons] at announced
    rw [map_cons, sum_cons, length_cons, Nat.succ_mul, Nat.add_comm]
    exact Nat.add_le_add (ih announced.2) announced.1.decoded.2

/-- As long as the targets fit, the sums of the code are the exact ones. -/
theorem lwmaSums_eq {recent : List BlockHeader} (weighted : Int) (targets : Nat)
    (announced : ∀ header ∈ recent.tail, WithinFloor header)
    (fits : targets + recent.tail.length * floorTarget < u256Bound) :
    lwmaSums weight recent weighted targets = some (weighted + weightedTimes weight recent,
        targets + (recent.tail.map headerTarget).sum) := by
  induction recent generalizing weight weighted targets with
  | nil => simp [lwmaSums, weightedTimes]
  | cons parent rest ih =>
    cases rest with
    | nil => simp [lwmaSums, weightedTimes]
    | cons header rest =>
      rw [tail_cons, forall_mem_cons] at announced
      obtain ⟨decoded, low⟩ := announced.1.decoded
      rw [tail_cons, length_cons, Nat.succ_mul] at fits
      have room : targets + headerTarget header < u256Bound := by omega
      rw [lwmaSums, decoded]
      dsimp only
      rw [if_pos room, ih (weight + 1) _ _ announced.2 (by rw [tail_cons]; omega),
        weightedTimes_cons]
      rw [tail_cons, tail_cons, map_cons, sum_cons, Nat.add_assoc, ← Int.add_assoc]
      rfl

/-- No solve time counts for more than the bound, so neither does their average. -/
theorem weightedTimes_le :
    2 * weightedTimes weight recent ≤
      480 * (recent.tail.length * (2 * weight + recent.tail.length - 1) : Int) := by
  induction recent generalizing weight with
  | nil => simp [weightedTimes]
  | cons parent rest ih =>
    cases rest with
    | nil => simp [weightedTimes]
    | cons header rest =>
      have bound : solveTime parent header ≤ 480 := max_le (by decide) (min_le_left _ _)
      have first : solveTime parent header * weight ≤ 480 * weight :=
        mul_le_mul_of_nonneg_right bound (Int.natCast_nonneg weight)
      have others := ih (weight + 1)
      rw [weightedTimes_cons]
      simp only [tail_cons, length_cons] at others ⊢
      push_cast at others ⊢
      linarith

theorem averageTime_le {recent : List BlockHeader} (long : 2 ≤ recent.length) :
    averageTime recent ≤ 480 := by
  have weighted := weightedTimes_le 1 recent
  rw [averageTime, ← length_tail]
  obtain ⟨count, length⟩ : ∃ count, recent.tail.length = count + 1 :=
    ⟨recent.length - 2, by rw [length_tail]; omega⟩
  have whole : recent.length = count + 2 := by rw [length_tail] at length; omega
  have even : 2 * ((count + 1) * (count + 2) / 2) = (count + 1) * (count + 2) :=
    Nat.mul_div_cancel' (Nat.even_mul_succ_self (count + 1)).two_dvd
  have least : 1 * 2 ≤ (count + 1) * (count + 2) :=
    Nat.mul_le_mul (Nat.le_add_left 1 count) (Nat.le_add_left 2 count)
  rw [length] at weighted ⊢
  rw [whole]
  have cast : (2 : Int) * ((count + 1) * (count + 2) / 2 : Nat) =
      (count + 1 : Nat) * (2 * (1 : Nat) + (count + 1 : Nat) - 1) := by
    rw [← Nat.cast_ofNat, ← Nat.cast_mul, even]
    push_cast
    ring
  rw [← cast] at weighted
  generalize (count + 1) * (count + 2) / 2 = weights at *
  refine Int.toNat_le.mpr (max_le (Int.ediv_le_of_le_mul (by omega) (max_le ?_ ?_)) (by decide))
  · omega
  · rw [targetBlockSecs]
    omega

theorem floorTarget_eq : floorTarget = 0xffff * 2 ^ 232 := by decide +kernel

theorem targetToCompact_floor : targetToCompact floorTarget = initialBits := by decide +kernel

/-- Dividing first only changes a target that is above the floor in any case. -/
theorem mulDiv_average {average time : Nat} (low : average ≤ floorTarget) (short : time ≤ 480) :
    ∃ proposed, mulDiv average time targetBlockSecs = some proposed ∧
      (proposed = average * time / targetBlockSecs ∨
        floorTarget < proposed ∧ floorTarget < average * time / targetBlockSecs ∧
          floorTarget < average * maxTargetChange) := by
  have most : average * time ≤ average * 480 := Nat.mul_le_mul_left _ short
  rw [floorTarget_eq] at *
  rw [mulDiv, if_neg (by decide)]
  simp only [targetBlockSecs, maxTargetChange, u256Bound]
  by_cases fits : average * time < 2 ^ 256
  · exact ⟨_, if_pos fits, .inl rfl⟩
  · have parts : average * time = 120 * (average / 120 * time) + average % 120 * time := by
      rw [← Nat.mul_assoc, ← Nat.add_mul, Nat.div_add_mod]
    have rest : average % 120 * time ≤ 119 * 480 :=
      Nat.mul_le_mul (Nat.le_of_lt_succ (Nat.mod_lt _ (by decide))) short
    exact ⟨_, (if_neg fits).trans (if_pos (by omega)), .inr (by omega)⟩

end

section Window
variable {headers recent : List BlockHeader}

theorem averageTarget_le (announced : ∀ header ∈ recent, WithinFloor header) :
    averageTarget recent ≤ floorTarget := by
  have sum := targets_le fun header member => announced header (mem_of_mem_tail member)
  rw [length_tail] at sum
  exact Nat.div_le_of_le_mul sum

/-- The difficulty of a window with an interval, from the exact sums. -/
theorem nextBits_eq (announced : ∀ header ∈ headers, WithinFloor header)
    (long : 2 ≤ headers.length) :
    nextBits headers = if lwmaTarget headers = 0 ∨ floorTarget < lwmaTarget headers then
      initialBits else targetToCompact (lwmaTarget headers) := by
  have window : headers.length - min headers.length (lwmaWindow + 1) =
      headers.length - (lwmaWindow + 1) := by omega
  rw [nextBits, if_neg (by omega), window, lwmaTarget]
  have among : ∀ header ∈ headers.drop (headers.length - (lwmaWindow + 1)), WithinFloor header :=
    fun header member => announced header (mem_of_mem_drop member)
  have few : (headers.drop (headers.length - (lwmaWindow + 1))).length ≤ 91 ∧
      2 ≤ (headers.drop (headers.length - (lwmaWindow + 1))).length := by
    rw [length_drop, lwmaWindow]
    omega
  generalize headers.drop (headers.length - (lwmaWindow + 1)) = recent at *
  obtain ⟨few, some'⟩ := few
  have low := averageTarget_le among
  have short := averageTime_le some'
  obtain ⟨proposed, scaled, exact'⟩ := mulDiv_average low short
  have sums := lwmaSums_eq 1 0 0 (fun header member => among header (mem_of_mem_tail member)) (by
      have most := Nat.mul_le_mul_right floorTarget (show recent.tail.length ≤ 90 by
        rw [length_tail]; omega)
      rw [floorTarget_eq] at most ⊢
      rw [u256Bound]
      omega)
  rw [Int.zero_add, Nat.zero_add] at sums
  have weights : ¬ (((recent.length - 1) * (recent.length - 1 + 1) / 2 : Nat) : Int) = 0 := by
    have least : 1 * 2 ≤ (recent.length - 1) * (recent.length - 1 + 1) :=
      Nat.mul_le_mul (by omega) (by omega)
    omega
  have count : recent.length - 1 + 1 = recent.length := by omega
  have ceiling : averageTarget recent * maxTargetChange < u256Bound := by
    rw [floorTarget_eq] at low
    rw [maxTargetChange, u256Bound]
    omega
  dsimp only
  rw [sums]
  dsimp only
  rw [if_neg weights, count]
  have proposes : mulDiv ((recent.tail.map headerTarget).sum / (recent.length - 1))
      (max (max (weightedTimes 1 recent) _ / _) 1).toNat targetBlockSecs = some proposed := scaled
  rw [proposes]
  dsimp only
  rw [show (recent.tail.map headerTarget).sum / (recent.length - 1) = averageTarget recent from rfl,
    if_pos ceiling]
  rcases exact' with rfl | ⟨high, higher, raised⟩
  · rw [ite_or]
  · have above : floorTarget < max (min proposed (averageTarget recent * maxTargetChange))
        (averageTarget recent / maxTargetChange) := lt_max_of_lt_left (lt_min high raised)
    rw [if_neg (Nat.ne_zero_of_lt above), if_pos above,
      if_pos (.inr (lt_max_of_lt_left (lt_min higher raised)))]

theorem lwmaTarget_short (short : headers.length < 2) : lwmaTarget headers = 0 := by
  have none' : headers.tail = [] := by
    rw [← length_eq_zero_iff, length_tail]
    omega
  have whole : headers.length - (lwmaWindow + 1) = 0 := by
    rw [lwmaWindow]
    omega
  simp [lwmaTarget, averageTarget, whole, none']

/-- The difficulty is the exact average, cut at the floor; an average of zero gives way to the
floor.  It always decodes to a target. -/
theorem nextBits_is_lwma (announced : ∀ header ∈ headers, WithinFloor header) :
    (lwmaTarget headers ≠ 0 →
      nextBits headers = targetToCompact (min (lwmaTarget headers) floorTarget)) ∧
    (lwmaTarget headers = 0 → nextBits headers = targetToCompact floorTarget) ∧
    ∃ target ≤ floorTarget, target ≠ 0 ∧ targetFromCompact (nextBits headers) = .ok target := by
  have exact' : nextBits headers = if lwmaTarget headers = 0 ∨ floorTarget < lwmaTarget headers then
      initialBits else targetToCompact (lwmaTarget headers) := by
    rcases Nat.lt_or_ge headers.length 2 with short | long
    · rw [nextBits, if_pos short, if_pos (.inl (lwmaTarget_short short))]
    · exact nextBits_eq announced long
  have encoded : ∀ target, target ≤ floorTarget → target ≠ 0 → nextBits headers =
      targetToCompact target → ∃ target ≤ floorTarget, target ≠ 0 ∧
        targetFromCompact (nextBits headers) = .ok target := by
    intro target low nonzero same
    have small : target < 2 ^ 256 := low.trans_lt (by decide +kernel)
    refine ⟨kept target, (kept_le target).trans low, kept_ne_zero nonzero, ?_⟩
    rw [same, targetFromCompact_targetToCompact nonzero small]
  rw [← targetToCompact_floor] at exact'
  by_cases floored : lwmaTarget headers = 0 ∨ floorTarget < lwmaTarget headers
  · rw [if_pos floored] at exact'
    refine ⟨fun nonzero => ?_, fun _ => exact', encoded _ le_rfl (by decide +kernel) exact'⟩
    rw [min_eq_right (floored.resolve_left nonzero).le, exact']
  · rw [if_neg floored] at exact'
    rw [not_or, not_lt] at floored
    refine ⟨fun _ => ?_, fun zero => absurd zero floored.1, encoded _ floored.2 floored.1 exact'⟩
    rw [min_eq_left floored.2, exact']

end Window

/-- Two headers at one target, some seconds apart. -/
def twoHeaders (bits : UInt32) (seconds : UInt64) : List BlockHeader :=
  [⟨1, .zero, .zero, .zero, .zero, 0, bits, 0, 0⟩, ⟨1, .zero, .zero, .zero, .zero, seconds, bits, 1, 0⟩]

theorem twoHeaders_within {bits : UInt32} {target : Nat} (seconds : UInt64)
    (decoded : targetFromCompact bits = .ok target) (low : target ≤ floorTarget) :
    ∀ header ∈ twoHeaders bits seconds, WithinFloor header := by
  intro header member
  rcases List.mem_pair.mp member with rfl | rfl
  · exact ⟨target, low, decoded⟩
  · exact ⟨target, low, decoded⟩

/-- A block that took the expected time leaves the difficulty as it was. -/
theorem nextBits_is_lwma_steady : (∀ header ∈ twoHeaders 0x1f00ffff 120, WithinFloor header) ∧
      nextBits (twoHeaders 0x1f00ffff 120) = 0x1f00ffff := by
  have decoded : targetFromCompact 0x1f00ffff = .ok (0xffff * 256 ^ 28) := by decide +kernel
  have within : ∀ header ∈ twoHeaders 0x1f00ffff 120, WithinFloor header :=
    twoHeaders_within 120 decoded (by decide +kernel)
  have steady : targetToCompact (min (lwmaTarget (twoHeaders 0x1f00ffff 120)) floorTarget) =
      0x1f00ffff := by decide +kernel
  exact ⟨within, ((nextBits_is_lwma within).1 (by decide +kernel)).trans steady⟩

/-- At the hardest target an average that rounds to zero is replaced by the easiest one. -/
theorem hardest_not_average : (∀ header ∈ twoHeaders 0x01010000 0, WithinFloor header) ∧
      lwmaTarget (twoHeaders 0x01010000 0) = 0 ∧
      nextBits (twoHeaders 0x01010000 0) = initialBits ∧
      nextBits (twoHeaders 0x01010000 0) ≠
        targetToCompact (min (lwmaTarget (twoHeaders 0x01010000 0)) floorTarget) :=
  ⟨twoHeaders_within 0 rfl (by decide +kernel), by decide +kernel⟩

end Q21Formal.Ledger

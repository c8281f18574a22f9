import Q21Formal.Ledger.Transaction

/-!
# The emission schedule, and amounts as text

The emission as the code computes it, from a table of epoch starts built until the cap is reached,
in saturating arithmetic: the sum of rewards cut at the cap.  `parse_amount` leaves the digits on
both sides of the point to the integer parser of the standard library, which also takes a plus sign.
-/

namespace Q21Formal.Ledger
open Library.Refusal List

section
variable (epoch : Nat) (height : Nat)

def initialReward : Nat := 1_382_743_055
def decayEpochBlocks : Nat := 4_320
def decayNum : Nat := 99_715_550
def decayDen : Nat := 100_000_000
def slowStartBlocks : Nat := 20_000
def tailReward : Nat := 1_000_000

/-- `u64::saturating_add`. -/
def saturatingAdd (first second : Nat) : Nat := min (first + second) (u64Bound - 1)

/-- `u64::saturating_mul`. -/
def saturatingMul (first second : Nat) : Nat := min (first * second) (u64Bound - 1)

def applySlowStart (base height : Nat) : Nat :=
  if slowStartBlocks ≤ height then base else base * height / slowStartBlocks

def nextBase (base : Nat) : Nat := base * decayNum / decayDen

/-- The loop of `epoch_base_reward`, which returns as soon as the reward is zero. -/
def epochBaseRewardFrom : Nat → Nat → Nat
  | 0, reward => reward
  | epochs + 1, reward =>
    if nextBase reward = 0 then 0 else epochBaseRewardFrom epochs (nextBase reward)

def epochBaseReward : Nat := epochBaseRewardFrom epoch initialReward

/-- Adds what the blocks `start` to `last` of one epoch emit to `total`. -/
def addEpoch (total base start last : Nat) : Nat :=
  let paid := max base tailReward
  if start < slowStartBlocks then
    (range' start (last + 1 - start)).foldl
      (fun sum height => saturatingAdd sum (applySlowStart paid height)) total
  else
    saturatingAdd total (saturatingMul paid (last - start + 1))

/-- The loop of `epoch_starts`: one entry an epoch, ending with the first at or above the cap. -/
def epochStartsFrom : Nat → Nat → Nat → Nat → List (Nat × Nat)
  | 0, _, _, _ => []
  | fuel + 1, total, base, epoch =>
    (total, base) ::
      if emissionCap ≤ total then []
      else
        let start := epoch * decayEpochBlocks
        epochStartsFrom fuel (addEpoch total base start (start + decayEpochBlocks - 1))
          (nextBase base) (epoch + 1)

/-- More epochs than it takes to reach the cap at the tail reward. -/
def epochFuel : Nat := 500_000

def epochStarts : List (Nat × Nat) := epochStartsFrom epochFuel 0 initialReward 0

def cumulativeEmission : Nat :=
  let epoch := height / decayEpochBlocks
  match epochStarts[epoch]? with
  | none => emissionCap
  | some (total, base) =>
    if emissionCap ≤ total then emissionCap
    else min (addEpoch total base (epoch * decayEpochBlocks) height) emissionCap

def blockSubsidy : Nat :=
  if height = 0 then 0 else cumulativeEmission height - cumulativeEmission (height - 1)

/-- The search of `emission_end_height` for the first height at the cap, between two heights. -/
def firstCapped : Nat → Nat → Nat → Nat
  | 0, low, _ => low
  | fuel + 1, low, high =>
    if low < high then
      let middle := low + (high - low) / 2
      if emissionCap ≤ cumulativeEmission middle then firstCapped fuel low middle
      else firstCapped fuel (middle + 1) high
    else low

/-- A height by which the cap is reached even at the tail reward. -/
def safeHigh : Nat := emissionCap / tailReward + slowStartBlocks + decayEpochBlocks

def emissionEndHeight : Nat := firstCapped safeHigh 0 safeHigh + 1

/-- The reward the schedule names for one height. -/
def scheduledReward : Nat :=
  applySlowStart (max (epochBaseReward (height / decayEpochBlocks)) tailReward) height

/-- The rewards of all the heights below this one, in unbounded integers. -/
def emittedBelow : Nat := ∑ place ∈ Finset.range height, scheduledReward place

theorem epochBaseRewardFrom_eq (epochs reward : Nat) :
    epochBaseRewardFrom epochs reward = nextBase^[epochs] reward := by
  induction epochs generalizing reward with
  | zero => rfl
  | succ epochs ih =>
    rw [epochBaseRewardFrom, Function.iterate_succ_apply]
    split
    · rename_i spent
      rw [spent, Function.iterate_fixed rfl]
    · exact ih _

theorem epochBaseReward_succ : epochBaseReward (epoch + 1) = nextBase (epochBaseReward epoch) := by
  rw [epochBaseReward, epochBaseReward, epochBaseRewardFrom_eq, epochBaseRewardFrom_eq,
    Function.iterate_succ_apply']

theorem emittedBelow_succ :
    emittedBelow (height + 1) = emittedBelow height + scheduledReward height :=
  Finset.sum_range_succ scheduledReward height

theorem emittedBelow_mono : Monotone emittedBelow := by
  refine monotone_nat_of_le_succ fun height => ?_
  rw [emittedBelow_succ]
  exact Nat.le_add_right _ _

/-- After the slow start every block emits at least the tail reward. -/
theorem tail_le_emittedBelow (count : Nat) :
    count * tailReward ≤ emittedBelow (slowStartBlocks + count) := by
  induction count with
  | zero => simp
  | succ count ih =>
    rw [← Nat.add_assoc, emittedBelow_succ, Nat.succ_mul, scheduledReward, applySlowStart,
      if_pos (Nat.le_add_right _ _)]
    exact Nat.add_le_add ih (le_max_right _ _)

theorem emissionCap_le_emittedBelow : emissionCap ≤ emittedBelow safeHigh := by
  have enough : emissionCap ≤ (emissionCap / tailReward + decayEpochBlocks) * tailReward := by
    decide
  refine enough.trans ((tail_le_emittedBelow _).trans (emittedBelow_mono ?_))
  rw [safeHigh]
  omega

/-- A sum that stops at the largest `u64`. -/
def saturated (amount : Nat) : Nat := min amount (u64Bound - 1)

theorem saturatingAdd_saturated (first second : Nat) :
    saturatingAdd (saturated first) second = saturated (first + second) := by
  unfold saturatingAdd saturated
  omega

theorem saturatingAdd_saturatingMul (total paid count : Nat) :
    saturatingAdd (saturated total) (saturatingMul paid count) =
      saturated (total + paid * count) := by
  unfold saturatingAdd saturatingMul saturated
  omega

end

section Epoch
variable {epoch count : Nat}

/-- Within an epoch the base reward is the one of the epoch. -/
theorem scheduledReward_epoch (inside : count < decayEpochBlocks) :
    scheduledReward (epoch * decayEpochBlocks + count) =
      applySlowStart (max (epochBaseReward epoch) tailReward)
        (epoch * decayEpochBlocks + count) := by
  rw [scheduledReward, Nat.mul_comm epoch, Nat.mul_add_div (by decide), Nat.div_eq_of_lt inside,
    Nat.add_zero]

theorem foldl_emittedBelow (inside : count ≤ decayEpochBlocks) :
    (range' (epoch * decayEpochBlocks) count).foldl (fun sum height => saturatingAdd sum
          (applySlowStart (max (epochBaseReward epoch) tailReward) height))
        (saturated (emittedBelow (epoch * decayEpochBlocks))) =
      saturated (emittedBelow (epoch * decayEpochBlocks + count)) := by
  induction count with
  | zero => simp
  | succ count ih =>
    rw [range'_1_concat, List.foldl_append, ih (Nat.le_of_succ_le inside), foldl_cons,
      foldl_nil, saturatingAdd_saturated, ← scheduledReward_epoch inside,
      ← emittedBelow_succ, Nat.add_assoc]

theorem emittedBelow_epoch (past : slowStartBlocks ≤ epoch * decayEpochBlocks)
    (inside : count ≤ decayEpochBlocks) :
    emittedBelow (epoch * decayEpochBlocks + count) = emittedBelow (epoch * decayEpochBlocks) +
        max (epochBaseReward epoch) tailReward * count := by
  induction count with
  | zero => simp
  | succ count ih =>
    rw [← Nat.add_assoc, emittedBelow_succ, ih (Nat.le_of_succ_le inside),
      scheduledReward_epoch inside, applySlowStart, if_pos (past.trans (Nat.le_add_right _ _)),
      Nat.mul_succ, Nat.add_assoc]

theorem addEpoch_emittedBelow (epoch : Nat) (inside : count < decayEpochBlocks) :
    addEpoch (saturated (emittedBelow (epoch * decayEpochBlocks))) (epochBaseReward epoch)
        (epoch * decayEpochBlocks) (epoch * decayEpochBlocks + count) =
      saturated (emittedBelow (epoch * decayEpochBlocks + (count + 1))) := by
  rw [addEpoch]
  split
  · rw [Nat.add_assoc, Nat.add_sub_cancel_left]
    exact foldl_emittedBelow inside
  · rename_i past
    rw [Nat.add_sub_cancel_left, saturatingAdd_saturatingMul,
      emittedBelow_epoch (Nat.le_of_not_lt past) inside]

end Epoch

/-! ## The table -/

/-- What the table holds for an epoch. -/
def epochStart (epoch : Nat) : Nat × Nat :=
  (saturated (emittedBelow (epoch * decayEpochBlocks)), epochBaseReward epoch)

theorem epochStart_succ (epoch : Nat) : epochStart (epoch + 1) =
      (addEpoch (epochStart epoch).1 (epochStart epoch).2 (epoch * decayEpochBlocks)
        (epoch * decayEpochBlocks + decayEpochBlocks - 1), nextBase (epochStart epoch).2) := by
  have last : decayEpochBlocks - 1 < decayEpochBlocks := by decide
  rw [epochStart, epochStart, epochBaseReward_succ, Nat.succ_mul,
    Nat.add_sub_assoc (by decide), addEpoch_emittedBelow epoch last]
  rfl

theorem emissionCap_le_saturated {amount : Nat} :
    emissionCap ≤ saturated amount ↔ emissionCap ≤ amount := by
  have room : emissionCap ≤ u64Bound - 1 := by decide
  exact ⟨fun reached => reached.trans (min_le_left _ _), fun reached => le_min reached room⟩

theorem epochStartsFrom_get (epoch : Nat) {fuel offset : Nat} {entry : Nat × Nat}
    (found : (epochStartsFrom fuel (epochStart epoch).1 (epochStart epoch).2 epoch)[offset]? =
      some entry) : entry = epochStart (epoch + offset) := by
  induction fuel generalizing epoch offset with
  | zero => simp [epochStartsFrom] at found
  | succ fuel ih =>
    rw [epochStartsFrom] at found
    cases offset with
    | zero => simpa using found.symm
    | succ offset =>
      split at found
      · simp at found
      · rw [show epoch + (offset + 1) = (epoch + 1) + offset by omega]
        refine ih (epoch + 1) ?_
        rwa [epochStart_succ]

/-- With fuel up to an epoch at the cap, the table ends with an entry at the cap. -/
theorem epochStartsFrom_last (epoch : Nat) {fuel offset : Nat} (inFuel : offset < fuel)
    (reached : emissionCap ≤ (epochStart (epoch + offset)).1) :
    ∃ entry, (epochStartsFrom fuel (epochStart epoch).1 (epochStart epoch).2 epoch).getLast? =
      some entry ∧ emissionCap ≤ entry.1 := by
  induction fuel generalizing epoch offset with
  | zero => omega
  | succ fuel ih =>
    rw [epochStartsFrom]
    split
    · exact ⟨_, rfl, ‹_›⟩
    · rename_i below
      cases offset with
      | zero => exact absurd reached below
      | succ offset =>
        obtain ⟨entry, last, full⟩ := ih (epoch + 1) (Nat.lt_of_succ_lt_succ inFuel)
          (by rwa [Nat.add_right_comm])
        rw [epochStart_succ] at last
        exact ⟨entry, by rw [getLast?_cons, last]; rfl, full⟩

theorem epochStarts_last :
    ∃ entry, epochStarts.getLast? = some entry ∧ emissionCap ≤ entry.1 := by
  refine epochStartsFrom_last 0 (Nat.lt_succ_self 499_999) (emissionCap_le_saturated.mpr ?_)
  exact emissionCap_le_emittedBelow.trans (emittedBelow_mono (by decide))

/-- The schedule the code computes is the sum of the rewards, cut at the cap. -/
theorem cumulativeEmission_eq (height : Nat) :
    cumulativeEmission height = min (emittedBelow (height + 1)) emissionCap := by
  have capped : ∀ epoch, epoch ≤ height / decayEpochBlocks → emissionCap ≤ (epochStart epoch).1 →
      emissionCap = min (emittedBelow (height + 1)) emissionCap := by
    intro epoch below reached
    have started : epoch * decayEpochBlocks ≤ height + 1 :=
      ((Nat.le_div_iff_mul_le (by decide)).mp below).trans (Nat.le_succ height)
    exact (min_eq_right ((emissionCap_le_saturated.mp reached).trans
      (emittedBelow_mono started))).symm
  unfold cumulativeEmission
  dsimp only
  split
  · rename_i missing
    obtain ⟨entry, last, full⟩ := epochStarts_last
    rw [getLast?_eq_getElem?] at last
    have entryEq := epochStartsFrom_get 0 last
    rw [Nat.zero_add] at entryEq
    refine capped _ ?_ (entryEq ▸ full)
    exact (Nat.sub_le _ _).trans (List.getElem?_eq_none_iff.mp missing)
  · rename_i total base found
    have entry := epochStartsFrom_get 0 found
    rw [Nat.zero_add] at entry
    split
    · rename_i reached
      exact capped _ le_rfl (by rw [← entry]; exact reached)
    · have inside : height % decayEpochBlocks < decayEpochBlocks := Nat.mod_lt _ (by decide)
      have whole := Nat.div_add_mod' height decayEpochBlocks
      have emitted := addEpoch_emittedBelow (height / decayEpochBlocks) inside
      cases entry
      rw [← Nat.add_assoc, whole] at emitted
      rw [emitted, saturated, min_assoc]
      rfl

theorem cumulativeEmission_mono : Monotone cumulativeEmission := by
  intro first second ordered
  rw [cumulativeEmission_eq, cumulativeEmission_eq]
  exact min_le_min_right emissionCap (emittedBelow_mono (Nat.succ_le_succ ordered))

theorem cumulativeEmission_le_cap (height : Nat) : cumulativeEmission height ≤ emissionCap := by
  rw [cumulativeEmission_eq]
  exact min_le_right _ _

theorem premint_add_cumulativeEmission_le (height : Nat) :
    genesisPremint + cumulativeEmission height ≤ maxSupply := by
  have cap := cumulativeEmission_le_cap height
  have split : genesisPremint + emissionCap = maxSupply := by decide
  omega

/-- The subsidy of a block is exactly what its height adds to the schedule. -/
theorem cumulativeEmission_succ (height : Nat) :
    cumulativeEmission (height + 1) = cumulativeEmission height + blockSubsidy (height + 1) := by
  have ordered : cumulativeEmission height ≤ cumulativeEmission (height + 1) :=
    cumulativeEmission_mono (Nat.le_succ height)
  simp only [blockSubsidy, Nat.succ_ne_zero, if_false, Nat.add_sub_cancel]
  omega

theorem cumulativeEmission_safeHigh : emissionCap ≤ cumulativeEmission safeHigh := by
  rw [cumulativeEmission_eq]
  exact le_min (emissionCap_le_emittedBelow.trans (emittedBelow_mono (Nat.le_succ _))) le_rfl

/-- The search keeps the first height at the cap between its bounds, and closes in on it. -/
theorem firstCapped_spec {fuel low high : Nat} (enough : high - low ≤ fuel) (ordered : low ≤ high)
    (below : ∀ height < low, cumulativeEmission height < emissionCap)
    (reached : emissionCap ≤ cumulativeEmission high) :
    emissionCap ≤ cumulativeEmission (firstCapped fuel low high) ∧
      ∀ height < firstCapped fuel low high, cumulativeEmission height < emissionCap := by
  induction fuel generalizing low high with
  | zero =>
    obtain rfl : low = high := by omega
    exact ⟨reached, below⟩
  | succ fuel ih =>
    rw [firstCapped]
    split
    · dsimp only
      split
      · exact ih (by omega) (by omega) below ‹_›
      · refine ih (by omega) (by omega) (fun height before => ?_) reached
        have most := cumulativeEmission_mono (Nat.le_of_lt_succ before)
        omega
    · obtain rfl : low = high := by omega
      exact ⟨reached, below⟩

/-- The emission is the sum of rewards cut at the cap, never decreasing, from a table that ends by
reaching the cap; the cap is first met one height before the end of the emission. -/
theorem emission_is_schedule : (∀ height, cumulativeEmission height =
      min emissionCap (∑ place ∈ Finset.range (height + 1), scheduledReward place)) ∧
    Monotone cumulativeEmission ∧
    (∀ height, cumulativeEmission height + blockSubsidy (height + 1) =
      cumulativeEmission (height + 1)) ∧
    (∃ entry, epochStarts.getLast? = some entry ∧ emissionCap ≤ entry.1) ∧
    (∀ height, emissionEndHeight - 1 ≤ height → cumulativeEmission height = emissionCap) ∧
    ∀ height < emissionEndHeight - 1, cumulativeEmission height < emissionCap := by
  obtain ⟨reached, below⟩ := firstCapped_spec (Nat.sub_le safeHigh 0) (Nat.zero_le _)
    (fun _ before => absurd before (Nat.not_lt_zero _)) cumulativeEmission_safeHigh
  have ended : emissionEndHeight - 1 = firstCapped safeHigh 0 safeHigh := by
    rw [emissionEndHeight, Nat.add_sub_cancel]
  rw [← ended] at reached below
  refine ⟨fun height => ?_, cumulativeEmission_mono,
    fun height => (cumulativeEmission_succ height).symm, epochStarts_last, fun height late => ?_,
    below⟩
  · rw [cumulativeEmission_eq, min_comm]
    rfl
  · exact le_antisymm (cumulativeEmission_le_cap height)
      (reached.trans (cumulativeEmission_mono late))

def decimals : Nat := 8

def checkedMul (first second : Nat) : Option Nat :=
  if first * second < u64Bound then some (first * second) else none

def readDigit (value : Nat) (char : Char) : Option Nat :=
  if char.isDigit then
    (checkedMul value 10).bind fun shifted => checkedAdd shifted (char.toNat - '0'.toNat)
  else none

/-- `str::parse` for `u64`. -/
def parseU64 : List Char → Option Nat
  | [] => none
  | ['+'] => none
  | '+' :: digits => digits.foldlM readDigit 0
  | digits => digits.foldlM readDigit 0

/-- `split_once('.')`; without a point the second half is empty. -/
def splitPoint (text : List Char) : List Char × List Char :=
  (text.takeWhile (· != '.'), (text.dropWhile (· != '.')).tail)

/-- The bytes of a text. -/
def utf8Len (text : List Char) : Nat := (text.map Char.utf8Size).sum

/-- The second half of `parse_amount`, scaled to units. -/
def parseFraction (fraction : List Char) : Except String Nat :=
  if fraction = [] then pure 0
  else do
    let read ← orRefuse (parseU64 fraction) ("invalid decimal part: " ++ String.ofList fraction)
    pure (read * 10 ^ (decimals - utf8Len fraction))

def parseAmount (text : List Char) : Except String Nat := do
  let (whole, fraction) := splitPoint text
  require (utf8Len fraction ≤ decimals) "at most 8 decimals"
  let coins ← orRefuse (parseU64 whole) ("invalid amount: " ++ String.ofList text)
  let part ← parseFraction fraction
  orRefuse ((checkedMul coins unitsPerCoin).bind fun units => checkedAdd units part)
    "amount out of range"

/-- `Display`: the fraction is padded with zeros. -/
def displayAmount (units : Nat) : List Char :=
  let fraction := Nat.toDigits 10 (units % unitsPerCoin)
  Nat.toDigits 10 (units / unitsPerCoin) ++
    '.' :: (replicate (decimals - fraction.length) '0' ++ fraction)

abbrev Digits (text : List Char) : Prop := ∀ char ∈ text, char.isDigit = true

def number (digits : List Char) : Nat := Nat.ofDigitChars 10 digits 0

/-- Digits, then perhaps a point and at most `decimals` digits, for this number of units. -/
structure Denotes (text : List Char) (units : Nat) (whole fraction : List Char) : Prop where
  shape : text = whole ∧ fraction = [] ∨ text = whole ++ '.' :: fraction
  nonempty : whole ≠ []
  wholeDigits : Digits whole
  fractionDigits : Digits fraction
  few : fraction.length ≤ decimals
  exact : units * 10 ^ fraction.length = number (whole ++ fraction) * unitsPerCoin

/-- Neither half begins with a sign. -/
abbrev Unsigned (text : List Char) : Prop :=
  (splitPoint text).1.head? ≠ some '+' ∧ (splitPoint text).2.head? ≠ some '+'

/-- A half as the integer parser takes it. -/
def dropSign (half : List Char) : List Char := if half.head? = some '+' then half.tail else half

/-- Digits in both halves, each after a sign or none; the sign takes the place of a decimal. -/
structure Tolerated (text : List Char) (units : Nat) : Prop where
  nonempty : dropSign (splitPoint text).1 ≠ []
  wholeDigits : Digits (dropSign (splitPoint text).1)
  fractionEmpty : dropSign (splitPoint text).2 = [] → (splitPoint text).2 = []
  fractionDigits : Digits (dropSign (splitPoint text).2)
  few : (splitPoint text).2.length ≤ decimals
  exact : units = number (dropSign (splitPoint text).1) * unitsPerCoin +
    number (dropSign (splitPoint text).2) * 10 ^ (decimals - (splitPoint text).2.length)
  fits : units < u64Bound

variable {text whole fraction : List Char} {units value start : Nat}

theorem utf8Len_signed (digits : Digits (dropSign text)) : utf8Len text = text.length := by
  have single : ∀ char ∈ text, char.utf8Size = 1 := by
    intro char member
    by_cases sign : char = '+'
    · rw [sign]
      rfl
    · have digit : char.isDigit = true := by
        refine digits char ?_
        unfold dropSign
        split
        · rename_i signed
          rw [← cons_head?_tail signed] at member
          exact (mem_cons.mp member).resolve_left sign
        · exact member
      simp only [Char.isDigit, Bool.and_eq_true, decide_eq_true_eq] at digit
      rw [Char.utf8Size, if_pos (UInt32.le_trans digit.2 (by decide))]
  rw [utf8Len, map_congr_left single, map_const', sum_replicate, smul_eq_mul, mul_one]

theorem checked_eq {first second third : Nat} :
    ((checkedMul first second).bind fun product => checkedAdd product third) = some value ↔
      value = first * second + third ∧ value < u64Bound := by
  unfold checkedMul
  split
  · rw [Option.bind_some, checkedAdd_eq_some]
    constructor
    · rintro ⟨fits, rfl⟩
      exact ⟨rfl, fits⟩
    · rintro ⟨rfl, fits⟩
      exact ⟨fits, rfl⟩
  · rename_i large
    constructor
    · intro none
      cases none
    · rintro ⟨rfl, fits⟩
      exact absurd (lt_of_le_of_lt (Nat.le_add_right _ _) fits) large

theorem readDigit_eq {char : Char} : readDigit start char = some value ↔
    char.isDigit = true ∧ value = 10 * start + (char.toNat - '0'.toNat) ∧ value < u64Bound := by
  unfold readDigit
  split
  · rw [checked_eq, Nat.mul_comm]
    exact (and_iff_right ‹_›).symm
  · simp_all

theorem le_ofDigitChars : start ≤ Nat.ofDigitChars 10 text start := by
  rw [Nat.ofDigitChars_eq_ofDigitChars_zero]
  have := Nat.le_mul_of_pos_left start (Nat.pow_pos (n := text.length) (show 0 < 10 by decide))
  omega

theorem foldlM_readDigit (small : start < u64Bound) : text.foldlM readDigit start = some value ↔
    Digits text ∧ value = Nat.ofDigitChars 10 text start ∧ value < u64Bound := by
  induction text generalizing start with
  | nil =>
    constructor
    · intro read
      cases read
      exact ⟨forall_mem_nil _, rfl, small⟩
    · rintro ⟨_, rfl, _⟩
      rfl
  | cons char rest ih =>
    rw [foldlM_cons, Option.bind_eq_bind, Option.bind_eq_some_iff, Nat.ofDigitChars_cons, Digits,
      forall_mem_cons]
    constructor
    · rintro ⟨next, read, onward⟩
      obtain ⟨digit, rfl, fits⟩ := readDigit_eq.mp read
      obtain ⟨digits, rfl, bounded⟩ := (ih fits).mp onward
      exact ⟨⟨digit, digits⟩, rfl, bounded⟩
    · rintro ⟨⟨digit, digits⟩, rfl, bounded⟩
      have fits := lt_of_le_of_lt le_ofDigitChars bounded
      exact ⟨_, readDigit_eq.mpr ⟨digit, rfl, fits⟩, (ih fits).mpr ⟨digits, rfl, bounded⟩⟩

theorem parseU64_eq : parseU64 text = some value ↔ dropSign text ≠ [] ∧
    Digits (dropSign text) ∧ value = number (dropSign text) ∧ value < u64Bound := by
  unfold parseU64 dropSign
  split
  · simp
  · simp
  · rename_i digits some_
    rw [foldlM_readDigit (by decide), head?_cons, if_pos rfl, tail_cons]
    exact (and_iff_right fun empty => some_ (by rw [empty])).symm
  · rename_i nonempty _ unsigned
    have plain : text.head? ≠ some '+' := fun sign => unsigned _ (cons_head?_tail sign).symm
    rw [foldlM_readDigit (by decide), if_neg plain]
    exact (and_iff_right fun empty => nonempty empty).symm

theorem parseFraction_eq : parseFraction text = .ok value ↔ (dropSign text = [] → text = []) ∧
    Digits (dropSign text) ∧ value = number (dropSign text) * 10 ^ (decimals - utf8Len text) ∧
      number (dropSign text) < u64Bound := by
  unfold parseFraction
  split
  · rename_i empty
    subst empty
    rw [pure_eq_ok, dropSign, head?_nil, if_neg (by simp), number, Nat.ofDigitChars_nil, zero_mul]
    exact ⟨fun zero => ⟨id, forall_mem_nil _, zero.symm, by decide⟩, fun read => read.2.2.1.symm⟩
  · rename_i nonempty
    simp only [bind_eq_ok, orRefuse_eq_ok, parseU64_eq, pure_eq_ok]
    constructor
    · rintro ⟨_, ⟨digit, digits, rfl, fits⟩, rfl⟩
      exact ⟨fun empty => absurd empty digit, digits, rfl, fits⟩
    · rintro ⟨digit, digits, rfl, fits⟩
      exact ⟨_, ⟨fun empty => nonempty (digit empty), digits, rfl, fits⟩, rfl⟩

/-! ## The two halves -/

theorem splitPoint_shape (text : List Char) :
    text = (splitPoint text).1 ∧ (splitPoint text).2 = [] ∨
      text = (splitPoint text).1 ++ '.' :: (splitPoint text).2 := by
  have whole := @takeWhile_append_dropWhile _ (· != '.') text
  unfold splitPoint
  cases rest : text.dropWhile (· != '.') with
  | nil => exact .inl ⟨by simpa [rest] using whole.symm, rfl⟩
  | cons point fraction =>
    have stops := head?_dropWhile_not (· != '.') text
    rw [rest] at stops whole
    obtain rfl : point = '.' := by simpa using stops
    exact .inr whole.symm

theorem Denotes.split (denotes : Denotes text units whole fraction) :
    splitPoint text = (whole, fraction) := by
  have pointless : ∀ char ∈ whole, (char != '.') = true := by
    intro char member
    have digit := denotes.wholeDigits char member
    rw [bne_iff_ne]
    rintro rfl
    cases digit
  obtain ⟨tail, rfl, stops, after⟩ : ∃ tail, text = whole ++ tail ∧
      tail.takeWhile (· != '.') = [] ∧ (tail.dropWhile (· != '.')).tail = fraction := by
    rcases denotes.shape with ⟨rfl, rfl⟩ | rfl
    · exact ⟨[], (append_nil _).symm, rfl, rfl⟩
    · exact ⟨'.' :: fraction, rfl, rfl, rfl⟩
  rw [splitPoint, takeWhile_append_of_pos pointless, dropWhile_append_of_pos pointless, stops,
    after, append_nil]

/-- The fraction counts for what is left of the decimals. -/
theorem exact_iff (few : fraction.length ≤ decimals) :
    units * 10 ^ fraction.length = number (whole ++ fraction) * unitsPerCoin ↔
      units = number whole * unitsPerCoin +
        number fraction * 10 ^ (decimals - fraction.length) := by
  have coin : unitsPerCoin = 10 ^ (decimals - fraction.length) * 10 ^ fraction.length := by
    rw [← pow_add, Nat.sub_add_cancel few]
    rfl
  have together : number (whole ++ fraction) * unitsPerCoin =
      (number whole * unitsPerCoin +
        number fraction * 10 ^ (decimals - fraction.length)) *
          10 ^ fraction.length := by
    rw [number, Nat.ofDigitChars_append, Nat.ofDigitChars_eq_ofDigitChars_zero, coin]
    change (_ * number whole + number fraction) * _ = _
    ring
  rw [together]
  exact Nat.mul_left_inj (by positivity)

/-- What `parse_amount` accepts. -/
theorem parseAmount_eq : parseAmount text = .ok units ↔ Tolerated text units := by
  simp only [parseAmount, bind_eq_ok, require_eq_ok, orRefuse_eq_ok, checked_eq, exists_const,
    parseU64_eq, parseFraction_eq]
  constructor
  · rintro ⟨few, _, ⟨nonempty, whole, rfl, _⟩, _, ⟨empty, fraction, rfl, _⟩, exact, fits⟩
    rw [utf8Len_signed fraction] at few exact
    exact ⟨nonempty, whole, empty, fraction, few, exact, fits⟩
  · rintro ⟨nonempty, whole, empty, fraction, few, exact, fits⟩
    have scaled := Nat.le_mul_of_pos_right (number (dropSign (splitPoint text).2))
      (Nat.pow_pos (n := decimals - (splitPoint text).2.length) (show 0 < 10 by decide))
    have coins := Nat.le_mul_of_pos_right (number (dropSign (splitPoint text).1))
      (show 0 < unitsPerCoin by decide)
    rw [utf8Len_signed fraction]
    exact ⟨few, _, ⟨nonempty, whole, rfl, by omega⟩, _, ⟨empty, fraction, rfl, by omega⟩, exact,
      fits⟩

theorem dropSign_plain (plain : text.head? ≠ some '+') : dropSign text = text := if_neg plain

theorem Digits.plain (digits : Digits text) : text.head? ≠ some '+' := by
  intro sign
  cases digits '+' (mem_of_mem_head? sign)

/-- A text of the form is one that is accepted and has no sign. -/
theorem denotes_iff : ((∃ whole fraction, Denotes text units whole fraction) ∧ units < u64Bound) ↔
    Unsigned text ∧ Tolerated text units := by
  constructor
  · rintro ⟨⟨whole, fraction, denotes⟩, fits⟩
    have split := denotes.split
    have wholePlain := denotes.wholeDigits.plain
    have fractionPlain := denotes.fractionDigits.plain
    have exact := (exact_iff denotes.few).mp denotes.exact
    constructor
    · rw [Unsigned, split]
      exact ⟨wholePlain, fractionPlain⟩
    · refine ⟨?_, ?_, ?_, ?_, ?_, ?_, fits⟩ <;>
        simp only [split, dropSign_plain wholePlain, dropSign_plain fractionPlain]
      · exact denotes.nonempty
      · exact denotes.wholeDigits
      · exact id
      · exact denotes.fractionDigits
      · exact denotes.few
      · exact exact
  · rintro ⟨⟨wholePlain, fractionPlain⟩, read⟩
    have wholeDigits := read.wholeDigits
    have fractionDigits := read.fractionDigits
    have nonempty := read.nonempty
    have exact := read.exact
    rw [dropSign_plain wholePlain] at wholeDigits nonempty exact
    rw [dropSign_plain fractionPlain] at fractionDigits exact
    exact ⟨⟨_, _, splitPoint_shape text, nonempty, wholeDigits, fractionDigits, read.few,
      (exact_iff read.few).mpr exact⟩, read.fits⟩

theorem displayAmount_denotes (units : Nat) :
    ∃ whole fraction, Denotes (displayAmount units) units whole fraction := by
  have small : units % unitsPerCoin < 10 ^ decimals := Nat.mod_lt _ (by decide)
  have short := (Nat.length_toDigits_le_iff (by decide) (by decide)).mpr small
  refine ⟨_, _, .inr rfl, Nat.toDigits_ne_nil, ?_, ?_, ?_, (exact_iff ?_).mpr ?_⟩
  · exact fun _ => Nat.isDigit_of_mem_toDigits (by decide) (by decide)
  · intro char member
    rcases mem_append.mp member with zero | digit
    · rw [(mem_replicate.mp zero).2]
      rfl
    · exact Nat.isDigit_of_mem_toDigits (by decide) (by decide) digit
  all_goals rw [length_append, length_replicate, Nat.sub_add_cancel short]
  rw [Nat.sub_self, pow_zero, mul_one, number, number, Nat.ofDigitChars_append,
    Nat.ofDigitChars_replicate_zero, mul_zero, Nat.ofDigitChars_ten_toDigits,
    Nat.ofDigitChars_ten_toDigits, Nat.mul_comm, Nat.div_add_mod]

/-- An amount is read as it is written exactly where no half has a sign or the text is refused with
it, and every amount shown is read back. -/
theorem amount_read_exactly (text : List Char) :
    ((∀ units, parseAmount text = .ok units ↔
        (∃ whole fraction, Denotes text units whole fraction) ∧ units < u64Bound) ↔
      (Unsigned text ∨ ∀ units, ¬ Tolerated text units)) ∧
    ∀ units < u64Bound, parseAmount (displayAmount units) = .ok units := by
  constructor
  · simp only [parseAmount_eq, denotes_iff]
    constructor
    · intro exact
      by_cases unsigned : Unsigned text
      · exact .inl unsigned
      · exact .inr fun units read => unsigned ((exact units).mp read).1
    · rintro (unsigned | refused) units
      · exact (and_iff_right unsigned).symm
      · exact iff_of_false (refused units) fun read => refused units read.2
  · intro units fits
    exact parseAmount_eq.mpr (denotes_iff.mp ⟨displayAmount_denotes units, fits⟩).2

theorem coin_and_a_half_read : parseAmount (displayAmount 150000000) = .ok 150000000 ∧
    ∃ whole fraction, Denotes "1.5".toList 150000000 whole fraction := by
  obtain ⟨reads, shown⟩ := amount_read_exactly "1.5".toList
  exact ⟨shown _ (by decide), ((reads.mpr (.inl (by decide)) _).mp (by decide)).1⟩

/-- The sign counts as a digit: five tenths become five hundredths. -/
theorem sign_after_point_read : parseAmount "1.+5".toList = .ok 105000000 ∧
    ¬ ∃ units whole fraction, Denotes "1.+5".toList units whole fraction := by
  refine ⟨by decide, ?_⟩
  rintro ⟨units, whole, fraction, denotes⟩
  have halves : splitPoint "1.+5".toList = (['1'], ['+', '5']) := by decide
  rw [denotes.split] at halves
  cases halves
  cases denotes.fractionDigits '+' (.head _)

end Q21Formal.Ledger

import LodeChain.LongTermWeights
import Mathlib.Data.Nat.Digits.Lemmas

/-!
# Rounded amounts and fees

The estimate and the check divide the reward by the square of the same long-term median.
-/

namespace LodeChain

open List WrappedArithmetic

def bumpDigits : List Nat → List Nat
  | [] => [1]
  | digit :: rest => if digit = 9 then 0 :: bumpDigits rest else (digit + 1) :: rest

/-- All but the significant digits are cleared, with a carry when one of them was not zero. -/
def roundDigits (buf : List Nat) (significantDigits : Nat) : List Nat :=
  let cleared := buf.length - significantDigits
  List.replicate cleared 0 ++ if (buf.take cleared).any fun digit => decide (digit ≠ 0) then
      bumpDigits (buf.drop cleared)
    else buf.drop cleared

/-- `round_money_up`, which throws without significant digits and beyond 64 bits. -/
def roundMoneyUp (amount significantDigits : Nat) : Option Nat :=
  let buf := Nat.digits 10 amount
  let rounded := if significantDigits < buf.length then roundDigits buf significantDigits
    else buf
  let ull := Nat.ofDigits 10 rounded
  if significantDigits ≠ 0 ∧ ull < 2 ^ 64 ∧ (ull ≠ 0 ∨ amount = 0) then some ull
  else none

def roundingUnit (amount significantDigits : Nat) : Nat :=
  10 ^ ((Nat.digits 10 amount).length - significantDigits)

def roundedUp (amount significantDigits : Nat) : Nat :=
  roundingUnit amount significantDigits * (amount ⌈/⌉ roundingUnit amount significantDigits)

theorem ofDigits_bumpDigits (digits : List Nat) :
    Nat.ofDigits 10 (bumpDigits digits) = Nat.ofDigits 10 digits + 1 := by
  induction digits with
  | nil => rfl
  | cons digit rest ih =>
    rw [bumpDigits]
    split_ifs with nine
    · rw [Nat.ofDigits_cons, Nat.ofDigits_cons]
      omega
    · rw [Nat.ofDigits_cons, Nat.ofDigits_cons]
      omega

theorem any_ne_zero_iff (digits : List Nat) :
    (digits.any fun digit => decide (digit ≠ 0)) = true ↔ Nat.ofDigits 10 digits ≠ 0 := by
  induction digits with
  | nil => simp
  | cons digit rest ih =>
    rw [any_cons, Bool.or_eq_true, decide_eq_true_eq, ih, Nat.ofDigits_cons]
    omega

section

variable {amount left right significantDigits : Nat}

theorem roundingUnit_pos (amount significantDigits : Nat) :
    0 < roundingUnit amount significantDigits :=
  Nat.pow_pos (by decide)

theorem le_roundedUp : amount ≤ roundedUp amount significantDigits :=
  le_smul_ceilDiv (roundingUnit_pos _ _)

theorem roundedUp_le {count : Nat}
    (reached : amount ≤ roundingUnit amount significantDigits * count) :
    roundedUp amount significantDigits ≤ roundingUnit amount significantDigits * count :=
  Nat.mul_le_mul_left _ ((ceilDiv_le_iff_le_mul (roundingUnit_pos _ _)).mpr reached)

theorem ceilDiv_add_mul {unit low high : Nat} (small : low < unit) :
    (low + unit * high) ⌈/⌉ unit = if low = 0 then high else high + 1 := by
  have pos : 0 < unit := by omega
  have reached : low + unit * high ≤ unit * ((low + unit * high) ⌈/⌉ unit) :=
    le_smul_ceilDiv pos
  apply le_antisymm
  · rw [ceilDiv_le_iff_le_mul pos]
    split_ifs with exact
    · omega
    · rw [Nat.mul_succ]
      omega
  · split_ifs with exact
    · exact le_of_mul_le_mul_left (by omega) pos
    · apply Nat.lt_of_mul_lt_mul_left (a := unit)
      omega

theorem ofDigits_roundDigits (amount significantDigits : Nat) :
    Nat.ofDigits 10 (roundDigits (Nat.digits 10 amount) significantDigits) =
      roundedUp amount significantDigits := by
  have unitEq : roundingUnit amount significantDigits =
      10 ^ ((Nat.digits 10 amount).length - significantDigits) := rfl
  have value := Nat.ofDigits_digits 10 amount
  have digit_lt : ∀ digit ∈ Nat.digits 10 amount, digit < 10 :=
    fun digit mem => Nat.digits_lt_base (by decide) mem
  unfold roundDigits roundedUp
  generalize Nat.digits 10 amount = buf at *
  generalize clearedEq : buf.length - significantDigits = cleared at *
  have low := Nat.ofDigits_lt_base_pow_length (b := 10) (l := buf.take cleared)
    (by decide) fun digit mem => digit_lt digit (mem_of_mem_take mem)
  have length : (buf.take cleared).length = cleared := by
    rw [List.length_take]
    omega
  rw [← take_append_drop cleared buf, Nat.ofDigits_append, length] at value
  rw [length] at low
  rw [unitEq, ← value, ceilDiv_add_mul low, Nat.ofDigits_append,
    length_replicate, Nat.ofDigits_replicate_zero, zero_add]
  congr 1
  by_cases zero : Nat.ofDigits 10 (buf.take cleared) = 0
  · rw [if_pos zero, if_neg (by rw [any_ne_zero_iff]; omega)]
  · rw [if_neg zero, if_pos ((any_ne_zero_iff _).mpr zero), ofDigits_bumpDigits]

theorem roundMoneyUp_eq_ite (some : significantDigits ≠ 0) :
    roundMoneyUp amount significantDigits = if roundedUp amount significantDigits < 2 ^ 64 then
        Option.some (roundedUp amount significantDigits)
      else none := by
  have rounds : Nat.ofDigits 10 (if significantDigits < (Nat.digits 10 amount).length then
        roundDigits (Nat.digits 10 amount) significantDigits
      else Nat.digits 10 amount) = roundedUp amount significantDigits := by
    split_ifs with more
    · exact ofDigits_roundDigits amount significantDigits
    · rw [Nat.ofDigits_digits, roundedUp, roundingUnit,
        Nat.sub_eq_zero_of_le (not_lt.mp more), pow_zero, one_mul,
        ceilDiv_one]
  have above : amount ≤ roundedUp amount significantDigits := le_roundedUp
  unfold roundMoneyUp
  dsimp only
  rw [rounds]
  split_ifs <;> first | rfl | omega

theorem roundMoneyUp_eq (some : significantDigits ≠ 0)
    (fits : roundedUp amount significantDigits < 2 ^ 64) :
    roundMoneyUp amount significantDigits = Option.some (roundedUp amount significantDigits) := by
  rw [roundMoneyUp_eq_ite some, if_pos fits]

theorem roundedUp_mono (le : left ≤ right) :
    roundedUp left significantDigits ≤ roundedUp right significantDigits := by
  have reached : right ≤ roundedUp right significantDigits := le_roundedUp
  rcases (Nat.le_length_digits_le 10 left right le).eq_or_lt with same | shorter
  · have unit : roundingUnit right significantDigits = roundingUnit left significantDigits := by
      rw [roundingUnit, roundingUnit, same]
    refine (roundedUp_le (le.trans ?_)).trans_eq (congrArg (· * _) unit.symm)
    exact reached.trans_eq (congrArg (· * _) unit)
  · have power : roundingUnit left significantDigits * 10 ^ ((Nat.digits 10 left).length -
          ((Nat.digits 10 left).length - significantDigits)) =
        10 ^ (Nat.digits 10 left).length := by
      rw [roundingUnit, ← pow_add]
      congr 1
      omega
    have below : left < 10 ^ (Nat.digits 10 left).length :=
      Nat.lt_base_pow_length_digits (by decide)
    calc roundedUp left significantDigits ≤ 10 ^ (Nat.digits 10 left).length := by
          rw [← power] at below ⊢
          exact roundedUp_le below.le
      _ ≤ right := (Nat.lt_digits_length_iff (by decide) right).mp shorter
      _ ≤ roundedUp right significantDigits := reached

theorem roundedUp_le_two_mul (some : 0 < significantDigits) :
    roundedUp amount significantDigits ≤ 2 * amount := by
  rcases eq_zero_or_pos amount with rfl | pos
  · simp [roundedUp]
  have digits : 0 < (Nat.digits 10 amount).length :=
    length_pos_iff.mpr (Nat.digits_ne_nil_iff_ne_zero.mpr (by omega))
  have unit : roundingUnit amount significantDigits ≤ amount :=
    (Nat.lt_digits_length_iff (by decide) amount).mp (by omega)
  have below := Nat.lt_mul_div_succ amount (roundingUnit_pos amount significantDigits)
  have whole := Nat.mul_div_le amount (roundingUnit amount significantDigits)
  have rounded := roundedUp_le below.le
  rw [Nat.mul_succ] at rounded
  omega

def HasSignificantDigits (significantDigits number : Nat) : Prop :=
  ∃ leading zeros, leading < 10 ^ significantDigits ∧ number = leading * 10 ^ zeros

theorem roundedUp_hasSignificantDigits (some : 1 ≤ significantDigits) :
    HasSignificantDigits significantDigits (roundedUp amount significantDigits) := by
  have below : amount < 10 ^ (Nat.digits 10 amount).length :=
    Nat.lt_base_pow_length_digits (by decide)
  have one : 1 < 10 ^ significantDigits := Nat.one_lt_pow (by omega) (by decide)
  rw [roundedUp]
  by_cases more : significantDigits < (Nat.digits 10 amount).length
  · have power : roundingUnit amount significantDigits * 10 ^ significantDigits =
        10 ^ (Nat.digits 10 amount).length := by
      rw [roundingUnit, ← pow_add, Nat.sub_add_cancel more.le]
    have count : amount ⌈/⌉ roundingUnit amount significantDigits ≤ 10 ^ significantDigits := by
      rw [ceilDiv_le_iff_le_mul (roundingUnit_pos _ _), power]
      exact below.le
    rcases count.eq_or_lt with carried | short
    · rw [carried, power]
      exact ⟨1, _, one, (one_mul _).symm⟩
    · exact ⟨_, _, short, mul_comm _ _⟩
  · rw [roundingUnit, Nat.sub_eq_zero_of_le (not_lt.mp more), pow_zero, ceilDiv_one]
    exact ⟨amount, 0, below.trans_le (Nat.pow_le_pow_right (by decide) (not_lt.mp more)),
      by omega⟩

theorem roundedUp_le_of_hasSignificantDigits {number : Nat} (reached : amount ≤ number)
    (short : HasSignificantDigits significantDigits number) :
    roundedUp amount significantDigits ≤ number := by
  obtain ⟨leading, zeros, small, rfl⟩ := short
  by_cases enough : (Nat.digits 10 amount).length - significantDigits ≤ zeros
  · have multiple : leading * 10 ^ zeros = roundingUnit amount significantDigits *
        (leading * 10 ^ (zeros - ((Nat.digits 10 amount).length - significantDigits))) := by
      rw [roundingUnit, mul_left_comm, ← pow_add, Nat.add_sub_cancel' enough]
    rw [multiple] at reached ⊢
    exact roundedUp_le reached
  · have digits : 10 ^ (significantDigits + zeros) ≤ amount :=
      (Nat.lt_digits_length_iff (by decide) amount).mp (by omega)
    have smaller : leading * 10 ^ zeros < 10 ^ (significantDigits + zeros) := by
      rw [pow_add]
      exact mul_lt_mul_of_pos_right small (Nat.pow_pos (by decide))
    omega

/-- The least number from the amount on with at most the wanted digits; throws exactly when it has
more than 64 bits. -/
theorem roundMoneyUp_isLeast (amount : Nat) (some : 1 ≤ significantDigits) :
    ∃ least, IsLeast {number | amount ≤ number ∧
        HasSignificantDigits significantDigits number} least ∧
      roundMoneyUp amount significantDigits =
        if least < 2 ^ 64 then Option.some least else none := by
  refine ⟨roundedUp amount significantDigits, ⟨⟨le_roundedUp, ?_⟩, ?_⟩, ?_⟩
  · exact roundedUp_hasSignificantDigits some
  · rintro number ⟨reached, short⟩
    exact roundedUp_le_of_hasSignificantDigits reached short
  · exact roundMoneyUp_eq_ite (by omega)

theorem roundMoneyUp_isLeast_two :
    ∃ least, IsLeast {number | 9951 ≤ number ∧ HasSignificantDigits 2 number} least ∧
      roundMoneyUp 9951 2 = if least < 2 ^ 64 then some least else none :=
  roundMoneyUp_isLeast 9951 (by decide)

end

/-! ## Amounts digit by digit

`decompose_amount_into_digits` hands an amount over digit by digit, with its lowest digits together
as long as they stay below a threshold; here with the calls of its two handlers apart. -/

/-- What the two handlers are called with. -/
structure Decomposition where
  chunks : List Nat
  dusts : List Nat

namespace Decomposition

def reportDust (dust : Nat) (isDustHandled : Bool) : List Nat :=
  if !isDustHandled && dust != 0 then [dust] else []

def decomposeFrom (dustThreshold amount order dust : Nat) (isDustHandled : Bool) : Decomposition :=
  if amount = 0 then ⟨[], reportDust dust isDustHandled⟩
  else
    let chunk := mulMod 64 (amount % 10) order
    let order := mulMod 64 order 10
    if addMod 64 dust chunk ≤ dustThreshold then
      decomposeFrom dustThreshold (amount / 10) order (addMod 64 dust chunk) isDustHandled
    else
      let later := decomposeFrom dustThreshold (amount / 10) order dust
        (isDustHandled || dust != 0)
      ⟨(if chunk = 0 then [] else [chunk]) ++ later.chunks,
        reportDust dust isDustHandled ++ later.dusts⟩
termination_by amount

def decomposeAmountIntoDigits (amount dustThreshold : Nat) : Decomposition :=
  decomposeFrom dustThreshold amount 1 0 false

/-- Non-zero digits, at places that rise. -/
def DigitsFrom (place : Nat) (chunks : List Nat) : Prop :=
  ∃ digits : List (Nat × Nat), chunks = digits.map (fun digit => digit.1 * 10 ^ digit.2) ∧
    (∀ digit ∈ digits, 1 ≤ digit.1 ∧ digit.1 ≤ 9 ∧ place ≤ digit.2) ∧
    (digits.map Prod.snd).Pairwise (· < ·)

/-- What is reported of `amount * 10 ^ place` and of the dust. -/
structure Reports (reported : Decomposition) (dustThreshold amount place dust : Nat)
    (isDustHandled : Bool) : Prop where
  total : reported.chunks.sum + reported.dusts.sum =
    amount * 10 ^ place + if isDustHandled then 0 else dust
  once : reported.dusts.length ≤ if isDustHandled then 0 else 1
  small : ∀ dust ∈ reported.dusts, dust ≤ dustThreshold
  digits : DigitsFrom place reported.chunks

variable {dustThreshold amount order dust place : Nat} {isDustHandled : Bool}

theorem sum_reportDust :
    (reportDust dust isDustHandled).sum = if isDustHandled then 0 else dust := by
  cases isDustHandled <;> by_cases zero : dust = 0 <;> simp [reportDust, zero]

theorem length_reportDust :
    (reportDust dust isDustHandled).length + (if isDustHandled || dust != 0 then 0 else 1) =
      if isDustHandled then 0 else 1 := by
  cases isDustHandled <;> by_cases zero : dust = 0 <;> simp [reportDust, zero]

theorem eq_of_mem_reportDust {value : Nat} (mem : value ∈ reportDust dust isDustHandled) :
    value = dust := by
  rw [reportDust] at mem
  split_ifs at mem
  · exact mem_singleton.mp mem
  · cases mem

theorem DigitsFrom.lower {chunks : List Nat} (digits : DigitsFrom (place + 1) chunks) :
    DigitsFrom place chunks := by
  obtain ⟨digits, chunks, each, rising⟩ := digits
  exact ⟨digits, chunks, fun digit mem => (each digit mem).imp_right
    (And.imp_right (Nat.le_of_succ_le ·)), rising⟩

theorem DigitsFrom.cons {chunks : List Nat} {digit : Nat} (digits : DigitsFrom (place + 1) chunks)
    (pos : 1 ≤ digit) (decimal : digit ≤ 9) : DigitsFrom place (digit * 10 ^ place :: chunks) := by
  obtain ⟨digits, rfl, each, rising⟩ := digits
  refine ⟨(digit, place) :: digits, rfl, ?_, ?_⟩
  · rw [forall_mem_cons]
    exact ⟨⟨pos, decimal, le_rfl⟩, fun digit mem => (each digit mem).imp_right
      (And.imp_right (Nat.le_of_succ_le ·))⟩
  · rw [map_cons, pairwise_cons, forall_mem_map]
    exact ⟨fun digit mem => (each digit mem).2.2, rising⟩

theorem mul_pow_eq (amount place : Nat) :
    amount * 10 ^ place = amount % 10 * 10 ^ place + amount / 10 * 10 ^ (place + 1) := by
  rw [pow_succ', ← mul_assoc, ← add_mul]
  congr 1
  omega

theorem Reports.refused {later : Decomposition}
    (reports : later.Reports dustThreshold (amount / 10) (place + 1) dust
      (isDustHandled || dust != 0)) (low : dust ≤ dustThreshold) :
    Reports ⟨(if amount % 10 * 10 ^ place = 0 then [] else [amount % 10 * 10 ^ place]) ++
      later.chunks, reportDust dust isDustHandled ++ later.dusts⟩
      dustThreshold amount place dust isDustHandled := by
  obtain ⟨total, once, small, digits⟩ := reports
  refine ⟨?_, ?_, ?_, ?_⟩
  · have chunk : (if amount % 10 * 10 ^ place = 0 then []
        else [amount % 10 * 10 ^ place]).sum = amount % 10 * 10 ^ place := by
      split_ifs with zero <;> simp [zero]
    have reported : (if isDustHandled || dust != 0 then 0 else dust) = 0 := by
      by_cases zero : dust = 0 <;> simp [zero]
    have value := mul_pow_eq amount place
    rw [reported] at total
    rw [sum_append, sum_append, chunk, sum_reportDust]
    omega
  · rw [length_append, ← length_reportDust]
    exact Nat.add_le_add_left once _
  · intro value mem
    rcases mem_append.mp mem with now | later
    · exact (eq_of_mem_reportDust now).trans_le low
    · exact small value later
  · split_ifs with zero
    · exact digits.lower
    · exact digits.cons (pos_of_ne_zero (left_ne_zero_of_mul zero)) (by omega)

/-- Once the dust has been reported, every further digit is above the threshold. -/
theorem decomposeFrom_reports (short : dust + amount * 10 ^ place < 2 ^ 64)
    (here : amount ≠ 0 → order = 10 ^ place) (low : dust ≤ dustThreshold)
    (closed : isDustHandled → dustThreshold < dust + 10 ^ place) :
    (decomposeFrom dustThreshold amount order dust isDustHandled).Reports dustThreshold amount place
      dust isDustHandled := by
  induction amount using Nat.strongRecOn generalizing order dust place isDustHandled with
  | ind amount ih =>
    rw [decomposeFrom]
    by_cases none : amount = 0
    · rw [if_pos none, none]
      refine ⟨by simp [sum_reportDust], length_reportDust ▸ Nat.le_add_right _ _,
        fun value mem => (eq_of_mem_reportDust mem).trans_le low, [], by simp⟩
    obtain rfl := here none
    have power : 10 ^ (place + 1) = 10 * 10 ^ place := pow_succ' _ _
    have value := mul_pow_eq amount place
    have next : amount / 10 ≠ 0 → mulMod 64 (10 ^ place) 10 = 10 ^ (place + 1) := by
      intro more
      have := Nat.le_mul_of_pos_left (10 ^ (place + 1)) (pos_of_ne_zero more)
      rw [mulMod_of_lt (by omega), pow_succ]
    rw [if_neg none, mulMod_of_lt (by omega)]
    dsimp only
    rw [addMod_of_lt (by omega)]
    by_cases taken : dust + amount % 10 * 10 ^ place ≤ dustThreshold
    · rw [if_pos taken]
      have skipped : isDustHandled → amount % 10 * 10 ^ place = 0 := by
        intro handled
        have above := closed handled
        by_contra digit
        have := Nat.le_mul_of_pos_left (10 ^ place) (pos_of_ne_zero (left_ne_zero_of_mul digit))
        omega
      obtain ⟨total, once, small, digits⟩ :=
        ih (amount / 10) (by omega) (by omega) next taken (fun handled => by
          have := closed handled
          omega)
      refine ⟨?_, once, small, digits.lower⟩
      rw [total]
      split_ifs with handled
      · rw [value, skipped handled, Nat.zero_add]
      · omega
    · rw [if_neg taken]
      have digit : amount % 10 * 10 ^ place ≤ 9 * 10 ^ place := Nat.mul_le_mul_right _ (by omega)
      exact (ih (amount / 10) (by omega) (by omega) next low (by omega)).refused low

/-- The parts reported add up to the amount: at most one of dust, below the threshold, and the
others a digit each at rising places. -/
theorem decomposeAmountIntoDigits_total (word : amount < 2 ^ 64) (dustThreshold : Nat) :
    let reported := decomposeAmountIntoDigits amount dustThreshold
    reported.chunks.sum + reported.dusts.sum = amount ∧ reported.dusts.length ≤ 1 ∧
      (∀ dust ∈ reported.dusts, dust ≤ dustThreshold) ∧ DigitsFrom 0 reported.chunks := by
  obtain ⟨total, once, small, digits⟩ :=
    @decomposeFrom_reports dustThreshold amount 1 0 0 false (by simpa using word) (fun _ => rfl)
      (Nat.zero_le _) (by simp)
  exact ⟨by simpa [decomposeAmountIntoDigits] using total, once, small, digits⟩

theorem decomposeAmountIntoDigits_total_dust :
    (decomposeAmountIntoDigits 1030 35).chunks.sum +
      (decomposeAmountIntoDigits 1030 35).dusts.sum = 1030 :=
  (decomposeAmountIntoDigits_total (by decide) 35).1

end Decomposition

/-! ## Estimated and accepted fees -/

def feePerKb : Nat :=
  2000000000

def dynamicFeePerKbBaseFee : Nat :=
  2000000000

def dynamicFeePerKbBaseFeeV5 : Nat :=
  2000000000 * fullRewardZoneV2 / fullRewardZoneV5

def dynamicFeePerKbBaseBlockReward : Nat :=
  10000000000000

def dynamicFeeReferenceTransactionWeight : Nat :=
  3000

def blockRewardOverestimate : Nat :=
  10 * 1000000000000

def scaling2021FeeRoundingPlaces : Nat :=
  2

def hfVersionDynamicFee : Nat :=
  4

def displayDecimalPoint : Nat :=
  8

def perKbFeeQuantizationDecimals : Nat :=
  8

def getFeeQuantizationMask : Nat :=
  10 ^ (displayDecimalPoint - perKbFeeQuantizationDecimals)

def quantizeFee (fee : Nat) : Nat :=
  mulMod 64 (subMod 64 (addMod 64 fee getFeeQuantizationMask) 1 /
    getFeeQuantizationMask) getFeeQuantizationMask

/-- `get_dynamic_base_fee`: the fee of a byte, or of a kilobyte in the versions
before. -/
def getDynamicBaseFee (blockReward medianBlockWeight version : Nat) : Nat :=
  let minBlockWeight := getMinBlockWeight version
  let median := max medianBlockWeight minBlockWeight
  if hfVersionPerByteFee ≤ version then
    let scaled := blockReward * dynamicFeeReferenceTransactionWeight / median
    if hfVersion2021Scaling ≤ version then
      let lo := scaled / median % 2 ^ 64
      let fee := lo - lo / 20
      if fee = 0 then 1 else fee
    else scaled / minBlockWeight % 2 ^ 64 / 5
  else
    let feeBase := if 5 ≤ version then dynamicFeePerKbBaseFeeV5 else dynamicFeePerKbBaseFee
    let unscaledFeeBase := mulMod 64 feeBase minBlockWeight / median
    quantizeFee (unscaledFeeBase * blockReward / dynamicFeePerKbBaseBlockReward % 2 ^ 64)

/-- None when an estimate divides by zero or cannot be rounded. -/
def scalingFees (baseReward mnw mlw : Nat) : Option (List Nat) :=
  let mfw := min mnw mlw
  let weighted := fun factor => mulMod 64 (mulMod 64 factor baseReward)
    dynamicFeeReferenceTransactionWeight
  let squared := mulMod 64 mfw mfw
  let zone := mulMod 64 fullRewardZoneV5 mfw
  let surge := mulMod 64 (32 * dynamicFeeReferenceTransactionWeight) mnw / fullRewardZoneV5
  let fl := weighted 1 / squared
  let fn := weighted 4 / squared
  let fm := weighted 16 / zone
  let fh := max (mulMod 64 4 fm) (mulMod 64 (mulMod 64 4 fm) mfw / surge)
  if squared = 0 ∨ zone = 0 ∨ surge = 0 then none
  else [fl, fn, fm, fh].mapM fun fee => roundMoneyUp fee scaling2021FeeRoundingPlaces

namespace Blockchain

variable (chain : Blockchain)

def nextBaseReward : Option Nat :=
  getBlockReward (chain.currentBlockCumulWeightLimit / 2) 1
    chain.topGeneratedCoins chain.getCurrentHardForkVersion chain.db.height

def neededFee (baseReward txWeight : Nat) : Nat :=
  let version := chain.getCurrentHardForkVersion
  let median := chain.currentBlockCumulWeightLimit / 2
  if hfVersionPerByteFee ≤ version then
    let feeMedian := if hfVersionLongTermBlockWeight ≤ version then
        min median chain.longTermEffectiveMedianBlockWeight
      else median
    quantizeFee (mulMod 64 txWeight (getDynamicBaseFee baseReward feeMedian version))
  else
    let feePerKb := if version < hfVersionDynamicFee then feePerKb
      else getDynamicBaseFee baseReward median version
    mulMod 64 (txWeight / 1024 + if txWeight % 1024 = 0 then 0 else 1) feePerKb

/-- `check_fee`, which leaves out two percent of the needed fee. -/
def checkFee (txWeight fee : Nat) : Bool :=
  let baseReward := if hfVersionDynamicFee ≤ chain.getCurrentHardForkVersion then
      chain.nextBaseReward
    else some 0
  match baseReward with
  | none => false
  | some baseReward =>
    let needed := chain.neededFee baseReward txWeight
    decide (needed - needed / 50 ≤ fee)

/-- `get_dynamic_base_fee_estimate_2021_scaling`; none when it throws. -/
def getDynamicBaseFeeEstimate2021Scaling (cache : LongTermCache) (graceBlocks : Nat) :
    Option (List Nat) :=
  if rewardBlocksWindow < graceBlocks then none
  else
    let grace := List.replicate graceBlocks 0
    let rm := grace.foldl RollingMedian.insert cache.rollingMedian
    let mlw := max (rm.median getMid) fullRewardZoneV5
    let weights := chain.getLastNBlocksWeights (rewardBlocksWindow - graceBlocks) ++ grace
    let msw := max (median weights) mlw
    let mnw := min msw (mulMod 64 shortTermBlockWeightSurgeFactor mlw)
    scalingFees (chain.nextBaseReward.getD blockRewardOverestimate) mnw mlw

end Blockchain

theorem quantizeFee_of_lt {fee : Nat} (word : fee < 2 ^ 64) : quantizeFee fee = fee := by
  have mask : getFeeQuantizationMask = 1 := rfl
  rw [quantizeFee, mask, Nat.div_one, subMod_addMod word (by decide), mulMod,
    mul_one, Nat.mod_eq_of_lt word]

section Scaling

variable {baseReward mnw mlw : Nat}

def referenceFee (baseReward median : Nat) : Nat :=
  dynamicFeeReferenceTransactionWeight * baseReward / (median * median)

theorem referenceFee_pos_iff {median : Nat} (pos : 0 < median) :
    0 < referenceFee baseReward median ↔
      median * median ≤ dynamicFeeReferenceTransactionWeight * baseReward :=
  Nat.div_pos_iff.trans ⟨And.right, fun le => ⟨Nat.mul_pos pos pos, le⟩⟩

def mediumFee (baseReward median : Nat) : Nat :=
  16 * dynamicFeeReferenceTransactionWeight * baseReward / (fullRewardZoneV5 * median)

def highFee (baseReward mnw median : Nat) : Nat :=
  max (4 * mediumFee baseReward median) (4 * mediumFee baseReward median * median /
      (32 * dynamicFeeReferenceTransactionWeight * mnw / fullRewardZoneV5))

theorem mediumFee_le (low : fullRewardZoneV5 ≤ mlw) (reward : baseReward ≤ initialReward) :
    mediumFee baseReward mlw ≤ 5334 := by
  unfold mediumFee dynamicFeeReferenceTransactionWeight fullRewardZoneV5 initialReward at *
  refine Nat.div_le_of_le_mul ?_
  omega

theorem roundMoneyUp_of_lt {amount : Nat} (fits : amount < 2 ^ 63) :
    roundMoneyUp amount scaling2021FeeRoundingPlaces =
      some (roundedUp amount scaling2021FeeRoundingPlaces) := by
  have twice := @roundedUp_le_two_mul amount scaling2021FeeRoundingPlaces (by decide)
  exact roundMoneyUp_eq (by decide) (by omega)

theorem referenceFee_lt {median : Nat} (reward : baseReward ≤ 4 * initialReward) :
    referenceFee baseReward median < 2 ^ 63 := by
  have quotient := Nat.div_le_self
    (dynamicFeeReferenceTransactionWeight * baseReward) (median * median)
  rw [dynamicFeeReferenceTransactionWeight] at quotient
  rw [initialReward] at reward
  rw [referenceFee, dynamicFeeReferenceTransactionWeight]
  omega

theorem weighted_eq {factor : Nat} (small : factor ≤ 16) (reward : baseReward ≤ initialReward) :
    mulMod 64 (mulMod 64 factor baseReward) dynamicFeeReferenceTransactionWeight =
      factor * baseReward * dynamicFeeReferenceTransactionWeight := by
  have bound := Nat.mul_le_mul small reward
  rw [initialReward] at bound
  rw [mulMod_of_lt (show factor * baseReward < 2 ^ 64 by omega),
    mulMod_of_lt (by rw [dynamicFeeReferenceTransactionWeight]; omega)]

section Bounds

variable (low : fullRewardZoneV5 ≤ mlw) (high : mlw < 2 ^ 32) (reward : baseReward ≤ initialReward)

include low high reward

theorem mediumFee_mul_lt : 4 * mediumFee baseReward mlw * mlw < 2 ^ 47 := by
  have medium := mediumFee_le low reward
  calc 4 * mediumFee baseReward mlw * mlw ≤ 21336 * 2 ^ 32 := Nat.mul_le_mul (by omega) high.le
    _ < 2 ^ 47 := by decide

theorem highFee_lt (mnw : Nat) : highFee baseReward mnw mlw < 2 ^ 63 := by
  have medium := mediumFee_le low reward
  have product := mediumFee_mul_lt low high reward
  have quotient := Nat.div_le_self (4 * mediumFee baseReward mlw * mlw)
    (32 * dynamicFeeReferenceTransactionWeight * mnw / fullRewardZoneV5)
  rw [highFee]
  omega

theorem scalingFees_eq (above : mlw ≤ mnw) (surge : mnw ≤ 50 * mlw) :
    scalingFees baseReward mnw mlw =
      some ([referenceFee baseReward mlw, referenceFee (4 * baseReward) mlw,
        mediumFee baseReward mlw, highFee baseReward mnw mlw].map
          (roundedUp · scaling2021FeeRoundingPlaces)) := by
  have product := mediumFee_mul_lt low high reward
  have medium := mediumFee_le low reward
  have last := highFee_lt low high reward mnw
  have first : referenceFee baseReward mlw < 2 ^ 63 := referenceFee_lt (by omega)
  have second : referenceFee (4 * baseReward) mlw < 2 ^ 63 := referenceFee_lt (by omega)
  have squared : mulMod 64 mlw mlw = mlw * mlw :=
    mulMod_of_lt ((Nat.mul_lt_mul'' high high).trans_eq (by decide))
  have mfw : min mnw mlw = mlw := min_eq_right above
  have zone : mulMod 64 fullRewardZoneV5 mlw = fullRewardZoneV5 * mlw :=
    mulMod_of_lt (by rw [fullRewardZoneV5]; omega)
  have divisor : mulMod 64 (32 * dynamicFeeReferenceTransactionWeight) mnw =
      32 * dynamicFeeReferenceTransactionWeight * mnw :=
    mulMod_of_lt (by rw [dynamicFeeReferenceTransactionWeight]; omega)
  have fl : 1 * baseReward * dynamicFeeReferenceTransactionWeight / (mlw * mlw) =
      referenceFee baseReward mlw := by
    rw [referenceFee, one_mul, mul_comm]
  have fn : 4 * baseReward * dynamicFeeReferenceTransactionWeight / (mlw * mlw) =
      referenceFee (4 * baseReward) mlw := by
    rw [referenceFee, mul_comm]
  have fm : 16 * baseReward * dynamicFeeReferenceTransactionWeight /
      (fullRewardZoneV5 * mlw) = mediumFee baseReward mlw := by
    rw [mediumFee, mul_right_comm]
  have four : mulMod 64 4 (mediumFee baseReward mlw) =
      4 * mediumFee baseReward mlw := mulMod_of_lt (by omega)
  have surged : mulMod 64 (4 * mediumFee baseReward mlw) mlw =
      4 * mediumFee baseReward mlw * mlw := mulMod_of_lt (by omega)
  have defined : ¬(mlw * mlw = 0 ∨ fullRewardZoneV5 * mlw = 0 ∨
      32 * dynamicFeeReferenceTransactionWeight * mnw / fullRewardZoneV5 = 0) := by
    rw [fullRewardZoneV5] at *
    rw [dynamicFeeReferenceTransactionWeight, mul_eq_zero]
    omega
  unfold scalingFees
  dsimp only
  rw [mfw, squared, zone, divisor, weighted_eq (by decide) reward,
    weighted_eq (by decide) reward, weighted_eq (by decide) reward, fl, fn, fm, four, surged,
    if_neg defined, ← highFee]
  simp only [mapM_cons, mapM_nil, roundMoneyUp_of_lt first,
    roundMoneyUp_of_lt second, roundMoneyUp_of_lt last,
    roundMoneyUp_of_lt (show mediumFee baseReward mlw < 2 ^ 63 by omega)]
  rfl

end Bounds

theorem referenceFee_le_mediumFee (low : fullRewardZoneV5 ≤ mlw) :
    referenceFee (4 * baseReward) mlw ≤ mediumFee baseReward mlw := by
  have wider : fullRewardZoneV5 * mlw ≤ 4 * (mlw * mlw) :=
    (Nat.mul_le_mul_right mlw low).trans (Nat.le_mul_of_pos_left _ (by decide))
  have pos : 0 < fullRewardZoneV5 * mlw := by
    rw [fullRewardZoneV5] at *
    omega
  have numerator : 4 * (dynamicFeeReferenceTransactionWeight * (4 * baseReward)) =
      16 * dynamicFeeReferenceTransactionWeight * baseReward := by
    rw [dynamicFeeReferenceTransactionWeight]
    omega
  calc referenceFee (4 * baseReward) mlw
      = 4 * (dynamicFeeReferenceTransactionWeight * (4 * baseReward)) /
          (4 * (mlw * mlw)) := (Nat.mul_div_mul_left _ _ (by decide)).symm
    _ ≤ mediumFee baseReward mlw := by
        rw [numerator]
        exact Nat.div_le_div_left wider pos

theorem fees_pairwise (low : fullRewardZoneV5 ≤ mlw) :
    ([referenceFee baseReward mlw, referenceFee (4 * baseReward) mlw,
      mediumFee baseReward mlw, highFee baseReward mnw mlw].map
        (roundedUp · scaling2021FeeRoundingPlaces)).Pairwise (· ≤ ·) := by
  have second : referenceFee baseReward mlw ≤ referenceFee (4 * baseReward) mlw :=
    Nat.div_le_div_right (Nat.mul_le_mul_left _ (by omega))
  have third := @referenceFee_le_mediumFee baseReward mlw low
  have fourth : mediumFee baseReward mlw ≤ highFee baseReward mnw mlw := by
    rw [highFee]
    omega
  rw [pairwise_map]
  refine List.Pairwise.imp (R := (· ≤ ·)) (fun le => roundedUp_mono le) ?_
  simp
  omega

theorem getDynamicBaseFee_eq (low : fullRewardZoneV5 ≤ mlw) (reward : baseReward ≤ initialReward) :
    getDynamicBaseFee baseReward mlw 16 =
      max 1 (referenceFee baseReward mlw - referenceFee baseReward mlw / 20) := by
  have small : referenceFee baseReward mlw < 2 ^ 63 := referenceFee_lt (by omega)
  have median : max mlw (getMinBlockWeight 16) = mlw := max_eq_left low
  unfold getDynamicBaseFee
  dsimp only
  rw [if_pos (by decide), if_pos (by decide), median, Nat.div_div_eq_div_mul,
    mul_comm, ← referenceFee, Nat.mod_eq_of_lt (by omega)]
  split_ifs <;> omega

end Scaling

theorem LongTermCache.median_of_called {cache after : LongTermCache} {env : Env}
    {db : BlockchainDB} {start count result : Nat}
    (called : cache.getLongTermBlockWeightMedian env db start count = some (result, after)) :
    after.rollingMedian.median getMid = result := by
  unfold getLongTermBlockWeightMedian at called
  dsimp only at called
  split_ifs at called
  all_goals
    obtain ⟨rfl, rfl⟩ := called
    rfl

namespace Blockchain

variable {chain : Blockchain} {cache : LongTermCache} {baseReward txWeight : Nat}

/-- The limits follow from the stored chain, and the cache holds the median they start from. -/
structure UpToDate (chain : Blockchain) (cache : LongTermCache) : Prop where
  limits : chain.updateNextCumulativeWeightLimit = chain
  cached : cache.rollingMedian.median getMid =
    chain.getLongTermBlockWeightMedian (chain.db.height - chain.longTermCount) chain.longTermCount

theorem updateNextCumulativeWeightLimit_idem (chain : Blockchain) :
    chain.updateNextCumulativeWeightLimit.updateNextCumulativeWeightLimit =
      chain.updateNextCumulativeWeightLimit := by
  unfold updateNextCumulativeWeightLimit
  dsimp only
  congr 1
  by_cases before : chain.getCurrentHardForkVersion < hfVersionLongTermBlockWeight
  · exact if_pos before
  · exact (if_neg before).trans (if_neg before).symm

/-- From every state of a run, the next call for the median leaves the limits and the cache as the
chain asks for. -/
theorem MedianRun.upToDate {env : Env} {traffic : Traffic} {start : Blockchain}
    (started : StartsByHeight start)
    (committed : CommittedWeights env traffic start.blocksHashCheck)
    (distinct : Set.InjOn env.getBlockHash {block | traffic.block block})
    (notNull : ∀ block, traffic.block block → env.getBlockHash block ≠ nullHash)
    (pos : 0 < start.longTermBlockWeightsWindow)
    (run : MedianRun env traffic start chain cache) (ne : chain.db.blocks ≠ []) :
    ∃ result after, cache.getLongTermBlockWeightMedian env chain.db
        (chain.db.height - chain.longTermCount) chain.longTermCount = some (result, after) ∧
      chain.updateNextCumulativeWeightLimit.UpToDate after := by
  have weighted := Run.weightedChain committed started run.run
  have coherent := run.coherent started committed distinct notNull pos
  obtain ⟨after, answered, -⟩ :=
    coherent.getLongTermBlockWeightMedian_spec weighted distinct notNull pos (length_pos_iff.mpr ne)
  have window := (Run.sameConfig run.run).longTermBlockWeightsWindow
  refine ⟨median (chain.db.longTermWeights.rtake start.longTermBlockWeightsWindow), after, ?_,
    chain.updateNextCumulativeWeightLimit_idem, ?_⟩
  · rw [longTermCount, window]
    exact answered
  · rw [LongTermCache.median_of_called answered]
    refine Eq.trans ?_ (getLongTermBlockWeightMedian_window _).symm
    change _ = median (chain.db.longTermWeights.rtake chain.longTermBlockWeightsWindow)
    rw [window]
    rfl

theorem narrowChain_upToDate : ∃ cache result after,
    MedianRun uncheckedEnv narrowTraffic narrowStart narrowChain cache ∧
    cache.getLongTermBlockWeightMedian uncheckedEnv narrowChain.db
        (narrowChain.db.height - narrowChain.longTermCount) narrowChain.longTermCount =
      some (result, after) ∧ narrowChain.updateNextCumulativeWeightLimit.UpToDate after := by
  obtain ⟨cache, run⟩ := narrowChain_run
  obtain ⟨result, after, answered, upToDate⟩ := run.upToDate narrowStart_startsByHeight
    narrowTraffic_committed narrowTraffic_distinct narrowTraffic_notNull (by decide) (by decide)
  exact ⟨cache, result, after, run, answered, upToDate⟩

section Sixteen

variable (upToDate : chain.UpToDate cache) (version : chain.getCurrentHardForkVersion = 16)

include upToDate version

theorem UpToDate.effective :
    chain.longTermEffectiveMedianBlockWeight = chain.longTermEffectiveMedian := by
  have same := congrArg longTermEffectiveMedianBlockWeight upToDate.limits
  rw [← same, updateNextCumulativeWeightLimit]
  rw [version, if_neg (by decide)]

theorem UpToDate.low : fullRewardZoneV5 ≤ chain.longTermEffectiveMedianBlockWeight := by
  rw [upToDate.effective version]
  exact le_max_left _ _

variable (high : chain.longTermEffectiveMedianBlockWeight < 2 ^ 32)

include high

theorem UpToDate.le_median : chain.longTermEffectiveMedianBlockWeight ≤
    chain.currentBlockCumulWeightLimit / 2 := by
  have limit := congrArg currentBlockCumulWeightLimit upToDate.limits
  have effective := upToDate.effective version
  rw [← limit, updateNextCumulativeWeightLimit, nextBlockWeightMedian, version, ← effective]
  dsimp only
  rw [if_neg (by decide), if_pos (by decide), show getMinBlockWeight 16 = fullRewardZoneV5 from rfl,
    mulMod_of_lt (show shortTermBlockWeightSurgeFactor *
      chain.longTermEffectiveMedianBlockWeight < 2 ^ 64 by
        rw [shortTermBlockWeightSurgeFactor]; omega)]
  rw [fullRewardZoneV5, shortTermBlockWeightSurgeFactor] at *
  rw [mulMod_of_lt (by omega)]
  omega

variable (rewarded : chain.nextBaseReward = some baseReward)

include rewarded

omit upToDate version high in
theorem baseReward_le : baseReward ≤ initialReward :=
  (getBlockReward_le rewarded).trans (getBaseReward_le_initialReward _ _)

theorem UpToDate.neededFee_eq (txWeight : Nat) :
    chain.neededFee baseReward txWeight = mulMod 64 txWeight (max 1
        (referenceFee baseReward chain.longTermEffectiveMedianBlockWeight -
          referenceFee baseReward chain.longTermEffectiveMedianBlockWeight / 20)) := by
  have median := upToDate.le_median version high
  unfold neededFee
  dsimp only
  rw [version, if_pos (by decide), if_pos (by decide), min_eq_right median,
    getDynamicBaseFee_eq (upToDate.low version) (baseReward_le rewarded)]
  exact quantizeFee_of_lt (Nat.mod_lt _ (by decide))

omit upToDate high in
theorem checkFee_iff (txWeight fee : Nat) : chain.checkFee txWeight fee = true ↔
      chain.neededFee baseReward txWeight - chain.neededFee baseReward txWeight / 50 ≤ fee := by
  unfold checkFee
  rw [version, rewarded]
  exact decide_eq_true_iff

theorem UpToDate.estimate_eq : ∃ mnw, chain.getDynamicBaseFeeEstimate2021Scaling cache 0 =
      some ([referenceFee baseReward chain.longTermEffectiveMedianBlockWeight,
        referenceFee (4 * baseReward) chain.longTermEffectiveMedianBlockWeight,
        mediumFee baseReward chain.longTermEffectiveMedianBlockWeight,
        highFee baseReward mnw chain.longTermEffectiveMedianBlockWeight].map
          (roundedUp · scaling2021FeeRoundingPlaces)) := by
  have low := upToDate.low version
  have cached : max (cache.rollingMedian.median getMid) fullRewardZoneV5 =
      chain.longTermEffectiveMedianBlockWeight := by
    rw [upToDate.effective version, upToDate.cached, max_comm]
    rfl
  have surge : mulMod 64 shortTermBlockWeightSurgeFactor chain.longTermEffectiveMedianBlockWeight =
        50 * chain.longTermEffectiveMedianBlockWeight :=
    mulMod_of_lt (by rw [shortTermBlockWeightSurgeFactor]; omega)
  unfold getDynamicBaseFeeEstimate2021Scaling
  dsimp only
  rw [if_neg (by decide), replicate_zero, foldl_nil, cached, surge, rewarded]
  refine ⟨_, scalingFees_eq low high (baseReward_le rewarded) ?_ (min_le_right _ _)⟩
  omega

theorem UpToDate.accepted_iff (pos : 0 < txWeight) (word : txWeight < 2 ^ 64) :
    chain.checkFee txWeight (txWeight * roundedUp
        (referenceFee baseReward chain.longTermEffectiveMedianBlockWeight)
        scaling2021FeeRoundingPlaces) = true ↔
      0 < referenceFee baseReward chain.longTermEffectiveMedianBlockWeight := by
  rw [checkFee_iff version rewarded, upToDate.neededFee_eq version high rewarded]
  set reference := referenceFee baseReward chain.longTermEffectiveMedianBlockWeight
  rcases eq_zero_or_pos reference with zero | some
  · have none : roundedUp 0 scaling2021FeeRoundingPlaces = 0 := by simp [roundedUp]
    rw [zero, none, max_eq_left (by decide),
      mulMod_of_lt (by omega)]
    omega
  · refine iff_of_true ?_ some
    have above : reference ≤ roundedUp reference scaling2021FeeRoundingPlaces := le_roundedUp
    calc mulMod 64 txWeight (max 1 (reference - reference / 20)) -
          mulMod 64 txWeight (max 1 (reference - reference / 20)) / 50
        ≤ mulMod 64 txWeight (max 1 (reference - reference / 20)) := Nat.sub_le _ _
      _ ≤ txWeight * max 1 (reference - reference / 20) := Nat.mod_le _ _
      _ ≤ txWeight * roundedUp reference scaling2021FeeRoundingPlaces :=
          Nat.mul_le_mul_left _ (by omega)

end Sixteen

/-- The estimates rise, and a transaction that pays the lowest one is accepted. -/
def EstimateServes (chain : Blockchain) (cache : LongTermCache) (txWeight : Nat) : Prop :=
  ∃ lowest others, chain.getDynamicBaseFeeEstimate2021Scaling cache 0 = some (lowest :: others) ∧
      others.length = 3 ∧ (lowest :: others).Pairwise (· ≤ ·) ∧
      chain.checkFee txWeight (txWeight * lowest) = true

theorem UpToDate.estimateServes_iff (upToDate : chain.UpToDate cache)
    (version : chain.getCurrentHardForkVersion = 16)
    (high : chain.longTermEffectiveMedianBlockWeight < 2 ^ 32)
    (rewarded : chain.nextBaseReward = some baseReward)
    (pos : 0 < txWeight) (word : txWeight < 2 ^ 64) : chain.EstimateServes cache txWeight ↔
      0 < referenceFee baseReward chain.longTermEffectiveMedianBlockWeight := by
  obtain ⟨mnw, estimated⟩ := upToDate.estimate_eq version high rewarded
  have accepted := upToDate.accepted_iff version high rewarded pos word
  constructor
  · rintro ⟨lowest, others, found, -, -, paid⟩
    rw [estimated, map_cons, Option.some.injEq, List.cons.injEq] at found
    rw [← found.1] at paid
    exact accepted.mp paid
  · intro some
    exact ⟨_, _, estimated, rfl, fees_pairwise (upToDate.low version), accepted.mpr some⟩

/-- Where the reward is at least the square of the median over 3000, the estimate serves for every
weight; below medians of four gigabytes it does only there. -/
theorem UpToDate.estimateServes_of_reward (upToDate : chain.UpToDate cache)
    (version : chain.getCurrentHardForkVersion = 16)
    (rewarded : chain.nextBaseReward = some baseReward)
    (positive : 0 < txWeight) (word : txWeight < 2 ^ 64) :
    (chain.longTermEffectiveMedianBlockWeight *
          chain.longTermEffectiveMedianBlockWeight ≤ 3000 * baseReward →
        chain.EstimateServes cache txWeight) ∧
      (chain.longTermEffectiveMedianBlockWeight < 2 ^ 32 → chain.EstimateServes cache txWeight →
        chain.longTermEffectiveMedianBlockWeight *
          chain.longTermEffectiveMedianBlockWeight ≤ 3000 * baseReward) := by
  have low := upToDate.low version
  have reward := baseReward_le rewarded
  rw [fullRewardZoneV5] at low
  rw [initialReward] at reward
  have reference := @referenceFee_pos_iff baseReward
    chain.longTermEffectiveMedianBlockWeight (by omega)
  constructor
  · intro enough
    have high : chain.longTermEffectiveMedianBlockWeight < 2 ^ 32 := by
      by_contra large
      have square := mul_le_mul (not_lt.mp large) (not_lt.mp large)
      omega
    exact (upToDate.estimateServes_iff version high rewarded positive word).mpr
      (reference.mpr enough)
  · intro high serves
    exact reference.mp ((upToDate.estimateServes_iff version high rewarded positive word).mp serves)

/-! ## Two chains -/

def evenChain (longTermBlockWeight : Nat) : Blockchain :=
  { Blockchain.empty with
    hardfork := ⟨1, 1, 10080, mainnetHardForks, [], 1⟩
    db := ⟨[{ BlockEntry.bare 1 0 0 1 with
        longTermBlockWeight := longTermBlockWeight },
      { BlockEntry.bare 1 120 0 2 with
        longTermBlockWeight := longTermBlockWeight }], ∅, ∅⟩
    }.updateNextCumulativeWeightLimit

def evenCache (longTermBlockWeight : Nat) : LongTermCache :=
  (LongTermCache.new 100 fun _ => 0).refill nullHash [longTermBlockWeight, longTermBlockWeight]

theorem evenChain_version (longTermBlockWeight : Nat) :
    (evenChain longTermBlockWeight).getCurrentHardForkVersion = 16 :=
  rfl

theorem lightChain_serves : (evenChain 300).EstimateServes (evenCache 300) 2000 := by
  have upToDate : (evenChain 300).UpToDate (evenCache 300) :=
    ⟨updateNextCumulativeWeightLimit_idem _, by decide +kernel⟩
  have rewarded : (evenChain 300).nextBaseReward = some 10000000000 := by decide +kernel
  exact (upToDate.estimateServes_of_reward (evenChain_version _) rewarded
    (by decide) (by decide)).1 (by decide +kernel)

/-- With a median of six megabytes the estimate is zero, and nothing is accepted
for it. -/
theorem heavyChain_not_serves : (evenChain 6000000).UpToDate (evenCache 6000000) ∧
      (evenChain 6000000).getCurrentHardForkVersion = 16 ∧
      (evenChain 6000000).nextBaseReward = some 10000000000 ∧
      ¬(evenChain 6000000).EstimateServes (evenCache 6000000) 2000 := by
  have upToDate : (evenChain 6000000).UpToDate (evenCache 6000000) :=
    ⟨updateNextCumulativeWeightLimit_idem _, by decide +kernel⟩
  have rewarded : (evenChain 6000000).nextBaseReward = some 10000000000 := by decide +kernel
  have median : (evenChain 6000000).longTermEffectiveMedianBlockWeight = 6000000 := by
    decide +kernel
  refine ⟨upToDate, evenChain_version _, rewarded, ?_⟩
  rw [upToDate.estimateServes_iff (evenChain_version _) (by rw [median]; decide)
    rewarded (by decide) (by decide), median]
  decide

end Blockchain

end LodeChain

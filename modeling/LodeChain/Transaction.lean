import LodeChain.IntUtil
import Mathlib.Algebra.BigOperators.Intervals
import Mathlib.Data.Nat.Log
import Mathlib.Tactic.Linarith

/-!
# Transactions, blocks and rewards

`cryptonote_basic.h`, and the helpers of `cryptonote_format_utils.cpp` that chain and pool call.
-/

namespace LodeChain

def moneySupply : Nat := 10000000000000000

def initialReward : Nat := 10000000000

def halvingInterval : Nat := 500000

def minedMoneyUnlockWindow : Nat := 60

def blockFutureTimeLimit : Nat := 60 * 60 * 2

def timestampCheckWindow : Nat := 60

def rewardBlocksWindow : Nat := 100

def fullRewardZoneV1 : Nat := 20000

def fullRewardZoneV2 : Nat := 60000

def fullRewardZoneV5 : Nat := 300000

def longTermBlockWeightWindowSize : Nat := 100000

def shortTermBlockWeightSurgeFactor : Nat := 50

def coinbaseBlobReservedSize : Nat := 600

def maxTxExtraSize : Nat := 1060

def mempoolTxLivetime : Nat := 86400 * 3

def mempoolTxFromAltBlockLivetime : Nat := 604800

def difficultyTargetV1 : Nat := 60

def difficultyTargetV2 : Nat := 120

def difficultyWindow : Nat := 720

def difficultyLag : Nat := 15

def difficultyCut : Nat := 60

def difficultyBlocksCount : Nat := difficultyWindow + difficultyLag

def defaultDustThreshold : Nat := 2000000000

def baseRewardClampThreshold : Nat := 100000000

def bulletproofMaxOutputs : Nat := 16

def hfVersionLongTermBlockWeight : Nat := 10

def hfVersionMinV2CoinbaseTx : Nat := 12

def hfVersionRejectSigsInCoinbase : Nat := 12

def hfVersionEffectiveShortTermMedianInPenalty : Nat := 12

def hfVersionExactCoinbase : Nat := 13

def hfVersionViewTags : Nat := 15

def hfVersion2021Scaling : Nat := 15

def hfVersionPerByteFee : Nat := 8

def hfVersionMinMixin4 : Nat := 6

def hfVersionMinMixin6 : Nat := 7

def hfVersionMinMixin10 : Nat := 8

def hfVersionMinMixin15 : Nat := 15

def hfVersionEnforceRct : Nat := 6

def hfVersionMin2Outputs : Nat := 12

def hfVersionSameMixin : Nat := 12

def hfVersionEnforceMinAge : Nat := 12

def defaultTxSpendableAge : Nat := 10

def maxBlockNumber : Nat := 500000000

def lockedTxAllowedDeltaBlocks : Nat := 1

def rxBlockVersion : Nat := 12

/-! ## Transactions and blocks -/

open WrappedArithmetic

abbrev Hash := Nat

def nullHash : Hash := 0

abbrev KeyImage := Nat

abbrev PublicKey := Nat

inductive TxIn where
  | gen (height : Nat)
  | toScript (prev : Hash) (prevout : Nat) (sigset : List UInt8)
  | toScriptHash (prev : Hash) (prevout : Nat) (keys : List PublicKey) (script sigset : List UInt8)
  | toKey (amount : UInt64) (keyOffsets : List Nat) (keyImage : KeyImage)
  deriving DecidableEq, Repr

inductive TxOutTarget where
  | toScript (keys : List PublicKey) (script : List UInt8)
  | toScriptHash (hash : Hash)
  | toKey (key : PublicKey)
  | toTaggedKey (key : PublicKey) (viewTag : UInt8)
  deriving DecidableEq, Repr

structure TxOut where
  amount : UInt64
  target : TxOutTarget
  deriving DecidableEq, Repr

inductive RctType where
  | null
  | full
  | simple
  | bulletproof
  | bulletproof2
  | clsag
  | bulletproofPlus
  deriving DecidableEq, Repr

structure RctSig where
  type : RctType
  txnFee : UInt64
  paddedOutputs : Nat
  bodySize : Nat
  deriving DecidableEq, Repr

def RctSig.empty : RctSig :=
  ⟨.null, 0, 0, 0⟩

structure Transaction where
  version : Nat
  unlockTime : Nat
  vin : List TxIn
  vout : List TxOut
  extra : List UInt8
  signaturesSize : Nat
  rctSignatures : RctSig
  pruned : Bool
  deriving DecidableEq, Repr

def Transaction.setNull : Transaction where
  version := 1
  unlockTime := 0
  vin := []
  vout := []
  extra := []
  signaturesSize := 0
  rctSignatures := RctSig.empty
  pruned := false

structure Block where
  majorVersion : Nat
  minorVersion : Nat
  timestamp : Nat
  prevId : Hash
  nonce : Nat
  minerTx : Transaction
  txHashes : List Hash
  deriving DecidableEq, Repr

def varintSize (value : Nat) : Nat :=
  value.log2 / 7 + 1

def toScriptSize (keys : List PublicKey) (script : List UInt8) : Nat :=
  varintSize keys.length + 32 * keys.length + varintSize script.length + script.length

def TxIn.blobSize : TxIn → Nat
  | gen height => 1 + varintSize height
  | toScript _ prevout sigset =>
    1 + 32 + varintSize prevout + varintSize sigset.length + sigset.length
  | toScriptHash _ prevout keys script sigset =>
    1 + 32 + varintSize prevout + toScriptSize keys script + varintSize sigset.length +
      sigset.length
  | toKey amount keyOffsets _ =>
    1 + varintSize amount.toNat + varintSize keyOffsets.length +
      (keyOffsets.map varintSize).sum + 32

def TxOutTarget.blobSize : TxOutTarget → Nat
  | toScript keys script => 1 + toScriptSize keys script
  | toScriptHash _ => 1 + 32
  | toKey _ => 1 + 32
  | toTaggedKey _ _ => 1 + 32 + 1

def TxOut.blobSize (out : TxOut) : Nat :=
  varintSize out.amount.toNat + out.target.blobSize

def Transaction.signatureBlobSize (tx : Transaction) : Nat :=
  if tx.version = 1 then tx.signaturesSize
  else if tx.vin = [] then 0
  else if tx.rctSignatures.type = .null then 1
  else 1 + varintSize tx.rctSignatures.txnFee.toNat + tx.rctSignatures.bodySize

def Transaction.blobSize (tx : Transaction) : Nat :=
  varintSize tx.version + varintSize tx.unlockTime +
    (varintSize tx.vin.length + (tx.vin.map TxIn.blobSize).sum) +
    (varintSize tx.vout.length + (tx.vout.map TxOut.blobSize).sum) +
    (varintSize tx.extra.length + tx.extra.length) +
    tx.signatureBlobSize

def isRctBulletproof : RctType → Bool
  | .bulletproof | .bulletproof2 | .clsag => true
  | _ => false

def isRctBulletproofPlus : RctType → Bool
  | .bulletproofPlus => true
  | _ => false

/-- `get_transaction_weight_clawback`; `none` is a thrown exception. -/
def getTransactionWeightClawback (tx : Transaction) (paddedOutputs : Nat) : Option Nat :=
  let terms := if isRctBulletproofPlus tx.rctSignatures.type then 6 else 9
  let bpBase := 32 * (terms + 7 * 2) / 2
  if paddedOutputs ≤ 2 then some 0
  else
    let bpSize := 32 * (terms + 2 * (Nat.clog 2 paddedOutputs + 6))
    if tx.vout.length ≤ bulletproofMaxOutputs ∧ bpSize ≤ bpBase * paddedOutputs then
      some ((bpBase * paddedOutputs - bpSize) * 4 / 5)
    else none

/-- A pruned transaction reports the largest 64-bit word. -/
def getTransactionWeight (tx : Transaction) : Option Nat :=
  if tx.pruned then some (2 ^ 64 - 1)
  else if tx.version < 2 then some tx.blobSize
  else if isRctBulletproof tx.rctSignatures.type ∨ isRctBulletproofPlus tx.rctSignatures.type then
    (getTransactionWeightClawback tx tx.rctSignatures.paddedOutputs).map (tx.blobSize + ·)
  else some tx.blobSize

def getOutsMoneyAmount (tx : Transaction) : Nat :=
  sumMod 64 (tx.vout.map fun out => out.amount.toNat)

def checkOutsOverflowFrom (money : Nat) : List TxOut → Bool
  | [] => true
  | out :: rest =>
    if addMod 64 out.amount.toNat money < money then false
    else checkOutsOverflowFrom (addMod 64 money out.amount.toNat) rest

def checkOutsOverflow (tx : Transaction) : Bool :=
  checkOutsOverflowFrom 0 tx.vout

def TxIn.isToKey : TxIn → Bool
  | toKey _ _ _ => true
  | _ => false

def TxIn.isStorable : TxIn → Bool
  | gen _ | toKey _ _ _ => true
  | _ => false

def TxIn.amount : TxIn → Nat
  | toKey amount _ _ => amount.toNat
  | _ => 0

def checkInputsTypesSupported (tx : Transaction) : Bool :=
  tx.vin.all TxIn.isToKey

def getInputsMoneyAmount (tx : Transaction) : Option Nat :=
  if checkInputsTypesSupported tx then some (sumMod 64 (tx.vin.map TxIn.amount))
  else none

def getTxFee (tx : Transaction) : Nat :=
  if 1 < tx.version then tx.rctSignatures.txnFee.toNat
  else
    match getInputsMoneyAmount tx with
    | none => 0
    | some amountIn =>
      if getOutsMoneyAmount tx ≤ amountIn then amountIn - getOutsMoneyAmount tx
      else 0

def getBlockHeight (block : Block) : Nat :=
  match block.minerTx.vin with
  | [.gen height] => height
  | _ => 0

def TxOutTarget.isToKey : TxOutTarget → Bool
  | toKey _ => true
  | _ => false

def TxOutTarget.isToTaggedKey : TxOutTarget → Bool
  | toTaggedKey _ _ => true
  | _ => false

/-- View tags are forbidden before their hard fork, required after it and uniform during it. -/
def checkOutputTypes (tx : Transaction) (hfVersion : Nat) : Bool :=
  tx.vout.all fun out => if hfVersionViewTags < hfVersion then out.target.isToTaggedKey
    else if hfVersion < hfVersionViewTags then out.target.isToKey
    else
      (out.target.isToKey || out.target.isToTaggedKey) && tx.vout.head?.all fun first =>
          out.target.isToKey == first.target.isToKey

def Transaction.keyImages (tx : Transaction) : List KeyImage :=
  tx.vin.filterMap fun
    | .toKey _ _ keyImage => some keyImage
    | _ => none

/-! ## Block rewards and the emission schedule -/

def getMinBlockWeight (version : Nat) : Nat :=
  if version < 2 then fullRewardZoneV1
  else if version < 5 then fullRewardZoneV2
  else fullRewardZoneV5

def scheduledReward (height : Nat) : Nat :=
  if height = 0 then 0
  else if 63 ≤ height / halvingInterval then 0
  else initialReward >>> (height / halvingInterval)

def getBaseReward (alreadyGeneratedCoins height : Nat) : Nat :=
  if height = 0 then 0
  else if moneySupply ≤ alreadyGeneratedCoins then 0
  else if moneySupply < alreadyGeneratedCoins + scheduledReward height then
    moneySupply - alreadyGeneratedCoins
  else scheduledReward height

/-- The weight penalty of `get_block_reward`; a 128-bit product is divided. -/
def penalizedReward (medianWeight currentBlockWeight version baseReward : Nat) : Option Nat :=
  let median := max medianWeight (getMinBlockWeight version)
  let doubled := mulMod 64 2 median
  if currentBlockWeight ≤ median then some baseReward
  else if doubled < currentBlockWeight then none
  else
    let multiplicand := mulMod 64 (doubled - currentBlockWeight) currentBlockWeight
    some (baseReward * multiplicand / median / median % 2 ^ 64)

def getBlockReward (medianWeight currentBlockWeight alreadyGeneratedCoins
    version height : Nat) : Option Nat :=
  penalizedReward medianWeight currentBlockWeight version
    (getBaseReward alreadyGeneratedCoins height)

/-- `get_block_reward` without its two supply-cap branches. -/
def getBlockRewardUncapped (medianWeight currentBlockWeight version height : Nat) : Option Nat :=
  penalizedReward medianWeight currentBlockWeight version (scheduledReward height)

variable {median weight medianWeight currentBlockWeight version reward : Nat}

theorem remaining_mul_le_square (bounded : weight ≤ 2 * median) :
    (2 * median - weight) * weight ≤ median * median := by
  obtain ⟨rest, total⟩ := Nat.exists_eq_add_of_le bounded
  have remaining : 2 * median - weight = rest := by omega
  nlinarith [sq_nonneg ((rest : Int) - weight)]

private theorem multiplicand_le_square (bounded : weight ≤ mulMod 64 2 median) :
    mulMod 64 (mulMod 64 2 median - weight) weight ≤ median * median := by
  have wrapped : mulMod 64 2 median ≤ 2 * median := Nat.mod_le _ _
  calc mulMod 64 (mulMod 64 2 median - weight) weight
      ≤ (mulMod 64 2 median - weight) * weight := Nat.mod_le _ _
    _ ≤ (2 * median - weight) * weight := Nat.mul_le_mul_right _ (Nat.sub_le_sub_right wrapped _)
    _ ≤ median * median := remaining_mul_le_square (bounded.trans wrapped)

theorem penalizedReward_le {baseReward : Nat}
    (rewarded : penalizedReward medianWeight currentBlockWeight version baseReward = some reward) :
    reward ≤ baseReward := by
  unfold penalizedReward at rewarded
  set median := max medianWeight (getMinBlockWeight version) with medianEq
  simp only at rewarded
  split_ifs at rewarded with light heavy
  · exact (Option.some.inj rewarded).symm.le
  · have multiplicandLe := multiplicand_le_square (not_lt.mp heavy)
    rw [← Option.some.inj rewarded, Nat.div_div_eq_div_mul]
    refine (Nat.mod_le _ _).trans (Nat.div_le_of_le_mul ?_)
    rw [mul_comm _ baseReward]
    exact Nat.mul_le_mul_left _ multiplicandLe

theorem getBaseReward_le_scheduledReward (alreadyGeneratedCoins height : Nat) :
    getBaseReward alreadyGeneratedCoins height ≤ scheduledReward height := by
  unfold getBaseReward
  split_ifs <;> omega

variable {alreadyGeneratedCoins height : Nat}

theorem add_getBaseReward_le_moneySupply
    (height : Nat) (bounded : alreadyGeneratedCoins ≤ moneySupply) :
    alreadyGeneratedCoins + getBaseReward alreadyGeneratedCoins height ≤ moneySupply := by
  unfold getBaseReward
  split_ifs <;> omega

theorem getBlockReward_le (rewarded : getBlockReward medianWeight currentBlockWeight
      alreadyGeneratedCoins version height = some reward) :
    reward ≤ getBaseReward alreadyGeneratedCoins height :=
  penalizedReward_le rewarded

theorem getBlockReward_eq_uncapped (medianWeight currentBlockWeight version : Nat)
    (room : alreadyGeneratedCoins + scheduledReward height ≤ moneySupply)
    (unfinished : alreadyGeneratedCoins < moneySupply) :
    getBlockReward medianWeight currentBlockWeight alreadyGeneratedCoins version height =
      getBlockRewardUncapped medianWeight currentBlockWeight version height := by
  have base : getBaseReward alreadyGeneratedCoins height = scheduledReward height := by
    unfold getBaseReward
    split_ifs with genesis exhausted cut
    · simp [scheduledReward, genesis]
    · omega
    · omega
    · rfl
  rw [getBlockReward, base, getBlockRewardUncapped]

def eraReward (era : Nat) : Nat :=
  initialReward / 2 ^ era

theorem scheduledReward_eq_eraReward (pos : 0 < height) :
    scheduledReward height = eraReward (height / halvingInterval) := by
  unfold scheduledReward eraReward
  split_ifs with genesis shiftedAway
  · omega
  · have large : 2 ^ 63 ≤ 2 ^ (height / halvingInterval) :=
      Nat.pow_le_pow_right (by decide) shiftedAway
    exact (Nat.div_eq_of_lt (lt_of_lt_of_le (by decide) large)).symm
  · exact Nat.shiftRight_eq_div_pow _ _

theorem scheduledReward_le_eraReward (height : Nat) :
    scheduledReward height ≤ eraReward (height / halvingInterval) := by
  rcases eq_zero_or_pos height with genesis | pos
  · simp [scheduledReward, genesis]
  · exact (scheduledReward_eq_eraReward pos).le

theorem scheduledReward_le_initialReward (height : Nat) : scheduledReward height ≤ initialReward :=
  (scheduledReward_le_eraReward height).trans (Nat.div_le_self _ _)

theorem getBaseReward_le_initialReward (alreadyGeneratedCoins height : Nat) :
    getBaseReward alreadyGeneratedCoins height ≤ initialReward :=
  (getBaseReward_le_scheduledReward _ _).trans (scheduledReward_le_initialReward _)

theorem getBaseReward_lt (alreadyGeneratedCoins height : Nat) :
    getBaseReward alreadyGeneratedCoins height < 2 ^ 64 :=
  lt_of_le_of_lt (getBaseReward_le_initialReward _ _) (by decide)

theorem two_mul_eraReward_succ_le (era : Nat) : 2 * eraReward (era + 1) ≤ eraReward era := by
  unfold eraReward
  rw [pow_succ, ← Nat.div_div_eq_div_mul]
  exact Nat.mul_div_le _ _

def scheduledEmission (height : Nat) : Nat :=
  ∑ i ∈ Finset.Icc 1 height, initialReward / 2 ^ (i / halvingInterval)

theorem scheduledEmission_succ (height : Nat) :
    scheduledEmission (height + 1) = scheduledEmission height +
      eraReward ((height + 1) / halvingInterval) :=
  Finset.sum_Icc_succ_top (by omega) _

private theorem scheduledEmission_add_remaining_le (height : Nat) :
    scheduledEmission height + (halvingInterval - 1 - height % halvingInterval) *
          eraReward (height / halvingInterval) +
        halvingInterval * eraReward (height / halvingInterval) ≤ moneySupply - initialReward := by
  induction height with
  | zero => decide
  | succ height ih =>
    rw [scheduledEmission_succ]
    have intervalPos : 0 < halvingInterval := by decide
    by_cases sameEra : height % halvingInterval + 1 < halvingInterval
    · have era : (height + 1) / halvingInterval = height / halvingInterval := by
        simp only [halvingInterval] at *
        omega
      have next : halvingInterval - 1 - height % halvingInterval =
          halvingInterval - 1 - (height + 1) % halvingInterval + 1 := by
        simp only [halvingInterval] at *
        omega
      rw [next, Nat.add_mul, Nat.one_mul] at ih
      rw [era]
      omega
    · have era : (height + 1) / halvingInterval = height / halvingInterval + 1 := by
        simp only [halvingInterval] at *
        omega
      have first : (height + 1) % halvingInterval = 0 := by
        simp only [halvingInterval] at *
        omega
      have halved := Nat.mul_le_mul_left halvingInterval
        (two_mul_eraReward_succ_le (height / halvingInterval))
      rw [era, first]
      simp only [halvingInterval] at *
      omega

theorem scheduledEmission_lt_moneySupply (height : Nat) :
    scheduledEmission height < moneySupply := by
  have bounded := scheduledEmission_add_remaining_le height
  have room : moneySupply - initialReward < moneySupply := by decide
  omega

/-! ## Rewards of heavy blocks, in words -/

def rewardWords (medianWeight currentBlockWeight baseReward : Nat) : WideWord :=
  let multiplicand := mulMod 64
    (subMod 64 (mulMod 64 2 medianWeight) currentBlockWeight) currentBlockWeight
  let product := mul128 baseReward multiplicand
  div128By64 (div128By64 product medianWeight) medianWeight

inductive RewardResult
  | tooBig
  | rewarded (reward : Nat)
  | assertionFailed
  deriving DecidableEq, Repr

def getBlockRewardAsserted (medianWeight currentBlockWeight
    alreadyGeneratedCoins version height : Nat) : RewardResult :=
  let baseReward := getBaseReward alreadyGeneratedCoins height
  let median := max medianWeight (getMinBlockWeight version)
  if currentBlockWeight ≤ median then .rewarded baseReward
  else if mulMod 64 2 median < currentBlockWeight then .tooBig
  else
    let reward := rewardWords median currentBlockWeight baseReward
    if reward.high = 0 ∧ reward.low < baseReward then .rewarded reward.low
    else .assertionFailed

/-- `get_block_reward` as it runs when assertions are compiled out. -/
def getBlockRewardWords (medianWeight currentBlockWeight
    alreadyGeneratedCoins version height : Nat) : Option Nat :=
  let baseReward := getBaseReward alreadyGeneratedCoins height
  let median := max medianWeight (getMinBlockWeight version)
  if currentBlockWeight ≤ median then some baseReward
  else if mulMod 64 2 median < currentBlockWeight then none
  else some (rewardWords median currentBlockWeight baseReward).low

def PenaltyZone (medianWeight currentBlockWeight version : Nat) : Prop :=
  max medianWeight (getMinBlockWeight version) < currentBlockWeight ∧
    currentBlockWeight ≤ 2 * max medianWeight (getMinBlockWeight version)

instance (medianWeight currentBlockWeight version : Nat) :
    Decidable (PenaltyZone medianWeight currentBlockWeight version) :=
  inferInstanceAs (Decidable (_ ∧ _))

def penalty (median weight baseReward : Nat) : Nat :=
  baseReward * ((2 * median - weight) * weight) / median / median

section Penalty

variable {baseReward : Nat}

theorem penalty_eq (median weight baseReward : Nat) : penalty median weight baseReward =
      baseReward * ((2 * median - weight) * weight) / (median * median) :=
  Nat.div_div_eq_div_mul _ _ _

theorem penalty_le (bounded : weight ≤ 2 * median) :
    penalty median weight baseReward ≤ baseReward := by
  rw [penalty_eq]
  apply Nat.div_le_of_le_mul
  rw [mul_comm _ baseReward]
  exact Nat.mul_le_mul_left _ (remaining_mul_le_square bounded)

theorem remaining_mul_lt_square (heavy : median < weight) (bounded : weight ≤ 2 * median) :
    (2 * median - weight) * weight < median * median := by
  obtain ⟨excess, rfl⟩ := Nat.exists_eq_add_of_lt heavy
  obtain ⟨rest, total⟩ := Nat.exists_eq_add_of_le bounded
  have remaining : 2 * median - (median + excess + 1) = rest := by omega
  nlinarith

theorem penalty_lt_iff (heavy : median < weight) (bounded : weight ≤ 2 * median) :
    penalty median weight baseReward < baseReward ↔ 0 < baseReward := by
  refine ⟨fun below => by omega, fun pos => ?_⟩
  have medianPos : 0 < median := by omega
  rw [penalty_eq, Nat.div_lt_iff_lt_mul (mul_pos medianPos medianPos)]
  exact mul_lt_mul_of_pos_left (remaining_mul_lt_square heavy bounded) pos

theorem penalty_antitone {heavier : Nat} (heavy : median ≤ weight)
    (ordered : weight ≤ heavier) (bounded : heavier ≤ 2 * median) :
    penalty median heavier baseReward ≤ penalty median weight baseReward := by
  rw [penalty_eq, penalty_eq]
  apply Nat.div_le_div_right
  apply Nat.mul_le_mul_left
  obtain ⟨step, rfl⟩ := Nat.exists_eq_add_of_le ordered
  obtain ⟨rest, total⟩ := Nat.exists_eq_add_of_le bounded
  have after : 2 * median - (weight + step) = rest := by omega
  have before : 2 * median - weight = rest + step := by omega
  nlinarith

theorem rewardWords_eq_ofNat (base : baseReward < 2 ^ 64) (bounded : weight ≤ mulMod 64 2 median) :
    rewardWords median weight baseReward =
      .ofNat (baseReward * mulMod 64 (mulMod 64 2 median - weight) weight / median / median) := by
  have doubled : mulMod 64 2 median < 2 ^ 64 := Nat.mod_lt _ (by decide)
  unfold rewardWords
  dsimp only
  rw [subMod_of_le doubled bounded]
  have factor : mulMod 64 (mulMod 64 2 median - weight) weight < 2 ^ 64 := Nat.mod_lt _ (by decide)
  generalize mulMod 64 (mulMod 64 2 median - weight) weight = multiplicand at factor ⊢
  have product : baseReward * multiplicand < 2 ^ 128 :=
    calc baseReward * multiplicand < 2 ^ 64 * 2 ^ 64 := Nat.mul_lt_mul'' base factor
      _ = 2 ^ 128 := by decide
  rw [mul128_eq base factor, div128By64_ofNat product,
    div128By64_ofNat (lt_of_le_of_lt (Nat.div_le_self _ _) product)]

theorem rewardWords_eq_penalty (base : baseReward < 2 ^ 64)
    (small : median < 2 ^ 32) (bounded : weight ≤ 2 * median) :
    rewardWords median weight baseReward = .ofNat (penalty median weight baseReward) := by
  have square : median * median ≤ (2 ^ 32 - 1) * (2 ^ 32 - 1) :=
    Nat.mul_le_mul (by omega) (by omega)
  have factor := remaining_mul_le_square bounded
  have doubled : mulMod 64 2 median = 2 * median := mulMod_of_lt (by omega)
  rw [rewardWords_eq_ofNat base (by rwa [doubled]), doubled, mulMod_of_lt (by omega), penalty]

end Penalty

theorem getMinBlockWeight_lt (version : Nat) : getMinBlockWeight version < 2 ^ 32 := by
  unfold getMinBlockWeight
  split_ifs <;> decide

theorem getBaseReward_pos_iff (alreadyGeneratedCoins height : Nat) :
    0 < getBaseReward alreadyGeneratedCoins height ↔
      0 < height ∧ alreadyGeneratedCoins < moneySupply ∧ height < 34 * halvingInterval := by
  rcases eq_zero_or_pos height with rfl | pos
  · simp [getBaseReward]
  have scheduled : 0 < scheduledReward height ↔ height < 34 * halvingInterval := by
    have intervalPos : 0 < halvingInterval := by decide
    rw [scheduledReward_eq_eraReward pos, eraReward, Nat.div_pos_iff,
      ← Nat.div_lt_iff_lt_mul intervalPos]
    generalize height / halvingInterval = era
    constructor
    · rintro ⟨-, reached⟩
      by_contra late
      have large : 2 ^ 34 ≤ 2 ^ era := Nat.pow_le_pow_right (by decide) (by omega)
      have tooSmall : initialReward < 2 ^ 34 := by decide
      omega
    · intro early
      have small : 2 ^ era ≤ 2 ^ 33 := Nat.pow_le_pow_right (by decide) (by omega)
      have enough : 2 ^ 33 ≤ initialReward := by decide
      exact ⟨Nat.two_pow_pos era, small.trans enough⟩
  unfold getBaseReward
  split_ifs <;> omega

section Weights

variable (alreadyGeneratedCoins version height : Nat)

theorem getBlockRewardWords_eq_getBlockReward :
    getBlockRewardWords medianWeight currentBlockWeight alreadyGeneratedCoins version height =
      getBlockReward medianWeight currentBlockWeight alreadyGeneratedCoins version height := by
  unfold getBlockRewardWords getBlockReward penalizedReward
  dsimp only
  split_ifs with light heavy
  · rfl
  · rfl
  · rw [rewardWords_eq_ofNat (getBaseReward_lt _ _) (not_lt.mp heavy), WideWord.ofNat]

theorem max_getMinBlockWeight_lt (small : medianWeight < 2 ^ 32) :
    max medianWeight (getMinBlockWeight version) < 2 ^ 32 :=
  max_lt small (getMinBlockWeight_lt version)

theorem getBlockRewardWords_eq (small : medianWeight < 2 ^ 32) :
    getBlockRewardWords medianWeight currentBlockWeight alreadyGeneratedCoins version height =
      if currentBlockWeight ≤ 2 * max medianWeight (getMinBlockWeight version) then
        some (if currentBlockWeight ≤ max medianWeight (getMinBlockWeight version) then
          getBaseReward alreadyGeneratedCoins height
        else
          penalty (max medianWeight (getMinBlockWeight version))
            currentBlockWeight (getBaseReward alreadyGeneratedCoins height))
      else
        none := by
  have medianSmall := max_getMinBlockWeight_lt version small
  unfold getBlockRewardWords
  dsimp only
  generalize max medianWeight (getMinBlockWeight version) = median at medianSmall ⊢
  rw [mulMod_of_lt (by omega : 2 * median < 2 ^ 64)]
  have base := getBaseReward_lt alreadyGeneratedCoins height
  generalize getBaseReward alreadyGeneratedCoins height = baseReward at base ⊢
  by_cases light : currentBlockWeight ≤ median
  · rw [if_pos light, if_pos (by omega), if_pos light]
  · rw [if_neg light]
    by_cases bounded : currentBlockWeight ≤ 2 * median
    · have reward : penalty median currentBlockWeight baseReward < 2 ^ 64 :=
        lt_of_le_of_lt (penalty_le bounded) base
      rw [if_neg (not_lt.mpr bounded), if_pos bounded, if_neg light,
        rewardWords_eq_penalty base medianSmall bounded,
        WideWord.ofNat_of_lt reward]
    · rw [if_pos (not_le.mp bounded), if_neg bounded]

theorem getBlockRewardWords_antitone (small : medianWeight < 2 ^ 32)
    {heavier paid paidHeavier : Nat} (ordered : currentBlockWeight ≤ heavier)
    (rewarded : getBlockRewardWords medianWeight currentBlockWeight
      alreadyGeneratedCoins version height = some paid)
    (rewardedHeavier : getBlockRewardWords medianWeight heavier
      alreadyGeneratedCoins version height = some paidHeavier) : paidHeavier ≤ paid := by
  rw [getBlockRewardWords_eq _ _ _ small] at rewarded rewardedHeavier
  generalize max medianWeight (getMinBlockWeight version) = median at rewarded rewardedHeavier
  rw [Option.ite_none_right_eq_some] at rewarded rewardedHeavier
  obtain ⟨-, ⟨⟩⟩ := rewarded
  obtain ⟨bounded, ⟨⟩⟩ := rewardedHeavier
  by_cases lightHeavier : heavier ≤ median
  · rw [if_pos lightHeavier, if_pos (ordered.trans lightHeavier)]
  · rw [if_neg lightHeavier]
    by_cases light : currentBlockWeight ≤ median
    · rw [if_pos light]
      exact penalty_le bounded
    · rw [if_neg light]
      exact penalty_antitone (not_le.mp light).le ordered bounded

/-- `get_block_reward` pays exactly the blocks up to twice the median, by the two rounded quotients
past it, at most the base reward and never more for a heavier block. -/
theorem getBlockRewardWords_spec (small : medianWeight < 2 ^ 32) (weight : Nat) :
    ((getBlockRewardWords medianWeight weight alreadyGeneratedCoins version height).isSome ↔
      weight ≤ 2 * max medianWeight (getMinBlockWeight version)) ∧
    let m := max medianWeight (getMinBlockWeight version)
    let base := getBaseReward alreadyGeneratedCoins height
    let reward := fun weight => getBlockRewardWords medianWeight weight
      alreadyGeneratedCoins version height
    (weight ≤ 2 * m → reward weight = some (if weight ≤ m then base
        else base * (2 * m - weight) * weight / m / m)) ∧
    ∀ paid, reward weight = some paid → paid ≤ base ∧ ∀ heavier paidHeavier, weight ≤ heavier →
          reward heavier = some paidHeavier → paidHeavier ≤ paid := by
  have paidBy := @getBlockRewardWords_eq medianWeight weight
    alreadyGeneratedCoins version height small
  constructor
  · rw [paidBy]
    by_cases bounded : weight ≤ 2 * max medianWeight (getMinBlockWeight version)
    · simp [bounded]
    · simp [bounded]
  · intro m base reward
    constructor
    · intro bounded
      dsimp only [reward]
      rw [paidBy, if_pos bounded, penalty, mul_assoc]
    · intro paid rewarded
      refine ⟨?_, fun heavier paidHeavier ordered rewardedHeavier =>
        getBlockRewardWords_antitone alreadyGeneratedCoins version height small
          ordered rewarded rewardedHeavier⟩
      dsimp only [reward] at rewarded
      rw [getBlockRewardWords_eq_getBlockReward] at rewarded
      exact getBlockReward_le rewarded

theorem thirdHeavier_rewarded : (getBlockRewardWords 0 400000 0 16 1).isSome ∧
      (getBlockRewardWords 0 400000 0 16 1) = some 8888888888 := by
  have paid := getBlockRewardWords_spec 0 16 1 (by decide : 0 < 2 ^ 32) 400000
  exact ⟨paid.1.mpr (by decide), (paid.2.1 (by decide)).trans (by decide)⟩

end Weights

/-- Both assertions hold exactly when the block is outside the penalty zone or some base reward is
left. -/
theorem getBlockRewardAsserted_ne_failed_iff {currentBlockWeight : Nat}
    (medianWeight alreadyGeneratedCoins version height : Nat)
    (light : currentBlockWeight < 2 ^ 32) :
    getBlockRewardAsserted medianWeight currentBlockWeight alreadyGeneratedCoins
        version height ≠ .assertionFailed ↔ (PenaltyZone medianWeight currentBlockWeight version →
        0 < height ∧ alreadyGeneratedCoins < moneySupply ∧ height < 34 * halvingInterval) := by
  rw [← getBaseReward_pos_iff]
  unfold getBlockRewardAsserted PenaltyZone
  generalize max medianWeight (getMinBlockWeight version) = median
  have base := getBaseReward_lt alreadyGeneratedCoins height
  generalize getBaseReward alreadyGeneratedCoins height = baseReward at base ⊢
  by_cases heavy : median < currentBlockWeight
  · have doubled : mulMod 64 2 median = 2 * median := mulMod_of_lt (by omega)
    rw [if_neg (not_le.mpr heavy), doubled]
    by_cases bounded : currentBlockWeight ≤ 2 * median
    · have reward : penalty median currentBlockWeight baseReward < 2 ^ 64 :=
        lt_of_le_of_lt (penalty_le bounded) base
      rw [if_neg (not_lt.mpr bounded), rewardWords_eq_penalty base (by omega) bounded,
        WideWord.ofNat_of_lt reward]
      simp only [true_and, penalty_lt_iff heavy bounded]
      split_ifs with positive
      · simp [positive]
      · simp [positive, heavy, bounded]
    · rw [if_pos (not_le.mp bounded)]
      simp [bounded]
  · rw [if_pos (not_lt.mp heavy)]
    simp [heavy]

theorem growingSupply_passes : getBlockRewardAsserted 300000 300001 0 16 1 ≠ .assertionFailed :=
  (getBlockRewardAsserted_ne_failed_iff 300000 0 16 1 (by decide)).mpr fun _ => by decide

/-- Once all coins are out, a block just above the median fails the second
assertion. -/
theorem exhaustedSupply_assertionFailed :
    getBlockRewardAsserted 300000 300001 moneySupply 16 2000000 = .assertionFailed := by
  decide +kernel

end LodeChain

import LodeChain.BlockTemplate
import LodeChain.ExpectedDifficulty

/-!
# Templates pass the checks on miner transactions

Template and validator read the same median and the same fees.
-/

namespace LodeChain

open WrappedArithmetic List Nat Transaction

theorem sum_decomposeFrom_le (dustThreshold fuel amount order dust : Nat) (handled : Bool) :
    (decomposeFrom dustThreshold fuel amount order dust handled).sum ≤
      amount * order + (if handled then 0 else dust) := by
  induction fuel generalizing amount order dust handled with
  | zero => simp [decomposeFrom]
  | succ fuel ih =>
    have digits : amount * order = amount / 10 * (order * 10) + amount % 10 * order := by
      calc amount * order = (10 * (amount / 10) + amount % 10) * order := by
            rw [div_add_mod]
        _ = amount / 10 * (order * 10) + amount % 10 * order := by ring
    rw [decomposeFrom]
    by_cases spent : amount = 0
    · rw [if_pos spent]
      cases handled <;> by_cases owed : dust = 0 <;> simp [owed]
    rw [if_neg spent, digits]
    generalize amount % 10 * order = chunk
    have emitted : (if chunk ≠ 0 then [chunk] else []).sum = chunk := by
      by_cases empty : chunk = 0 <;> simp [empty]
    by_cases small : dust + chunk ≤ dustThreshold
    · rw [if_pos small]
      have later := ih (amount / 10) (order * 10) (dust + chunk) handled
      cases handled <;> simp at * <;> omega
    · rw [if_neg small, List.sum_append, List.sum_append]
      cases handled with
      | true =>
        have later := ih (amount / 10) (order * 10) dust true
        simp at *
        omega
      | false =>
        by_cases owed : dust = 0
        · have later := ih (amount / 10) (order * 10) 0 false
          simp only [owed] at *
          simp at *
          omega
        · have later := ih (amount / 10) (order * 10) dust true
          simp [owed] at *
          omega

theorem sum_decomposeAmountIntoDigits_le (amount dustThreshold : Nat) :
    (decomposeAmountIntoDigits amount dustThreshold).sum ≤ amount := by
  apply (sum_decomposeFrom_le dustThreshold 21 amount 1 0 false).trans
  simp

theorem length_mergeOutAmountsFrom_one (first : Nat) (rest : List Nat) :
    (mergeOutAmountsFrom 1 first rest).length = 1 := by
  induction rest generalizing first with
  | nil => rfl
  | cons second rest ih => exact ih _

theorem length_mergeOutAmounts_one (amounts : List Nat) :
    (mergeOutAmounts 1 amounts).length ≤ 1 := by
  cases amounts with
  | nil => exact zero_le 1
  | cons first rest => exact (length_mergeOutAmountsFrom_one first rest).le

variable {keys : MinerTxKeys} {height maxOuts version reward medianWeight coins weight fee : Nat}
  {tx built : Transaction} {extraNonce : List UInt8}

variable {amounts : List Nat} {outs : List TxOut}

theorem minerOutputs_spec {useViewTags : Bool} {index : Nat}
    (made : minerOutputs keys useViewTags index amounts = some outs) :
    outs.map (fun out => out.amount.toNat) = amounts.map (· % 2 ^ 64) ∧
      ∀ out ∈ outs, out.target.isToTaggedKey = useViewTags ∧ out.target.isToKey = !useViewTags := by
  induction amounts generalizing index outs with
  | nil =>
    obtain rfl := Option.some.inj made
    simp
  | cons amount rest ih =>
    rw [minerOutputs] at made
    cases drawn : keys.outputKey index with
    | none => simp [drawn] at made
    | some pair =>
      cases later : minerOutputs keys useViewTags (index + 1) rest with
      | none => simp [drawn, later] at made
      | some restOuts =>
        simp [drawn, later] at made
        subst made
        obtain ⟨amountsEq, targets⟩ := ih later
        constructor
        · simp [setTxOut, amountsEq]
        · intro out mem
          rcases mem_cons.mp mem with rfl | older
          · cases useViewTags <;>
              simp [setTxOut, TxOutTarget.isToTaggedKey, TxOutTarget.isToKey]
          · exact targets out older

theorem checkOutsOverflowFrom_of_sum_lt {money : Nat}
    (fits : money + (outs.map fun out => out.amount.toNat).sum < 2 ^ 64) :
    checkOutsOverflowFrom money outs = true := by
  induction outs generalizing money with
  | nil => rfl
  | cons out rest ih =>
    rw [map_cons, sum_cons] at fits
    have left : addMod 64 out.amount.toNat money =
        out.amount.toNat + money := addMod_of_lt (by omega)
    have right : addMod 64 money out.amount.toNat =
        money + out.amount.toNat := addMod_of_lt (by omega)
    rw [checkOutsOverflowFrom, if_neg (by omega)]
    apply ih
    omega

theorem sumMod_map_mod (amounts : List Nat) :
    sumMod 64 (amounts.map (· % 2 ^ 64)) = sumMod 64 amounts := by
  rw [sumMod_eq, sumMod_eq]
  induction amounts with
  | nil => rfl
  | cons amount rest ih =>
    simp only [map_cons, sum_cons]
    rw [add_mod, ih, mod_mod, ← add_mod]

theorem sum_minerOutAmounts_lt (pos : 0 < height)
    (bounded : reward < 2 ^ 64) (single : 4 ≤ version → maxOuts = 1)
    (split : minerOutAmounts height maxOuts version reward = some amounts) :
    (amounts.map (· % 2 ^ 64)).sum < 2 ^ 64 := by
  unfold minerOutAmounts at split
  have small := sum_decomposeAmountIntoDigits_le reward
    (if 2 ≤ version then 0 else defaultDustThreshold)
  generalize decomposeAmountIntoDigits reward _ = digits at split small
  dsimp only at split
  split_ifs at split with noOuts merged few
  · obtain rfl := Option.some.inj split
    rw [single (merged.resolve_left pos.ne')]
    have short := length_mergeOutAmounts_one digits
    generalize mergeOutAmounts 1 digits = paid at short
    rcases paid with _ | ⟨amount, _ | ⟨second, rest⟩⟩
    · exact Nat.two_pow_pos 64
    · simpa using mod_lt amount (by decide)
    · rw [length_cons, length_cons] at short
      omega
  · obtain rfl := Option.some.inj split
    calc (digits.map (· % 2 ^ 64)).sum ≤ (digits.map id).sum :=
          sum_le_sum fun amount _ => mod_le _ _
      _ = digits.sum := by rw [map_id]
      _ ≤ reward := small
      _ < 2 ^ 64 := bounded

structure PaysMiner (height version reward : Nat) (tx : Transaction) : Prop where
  vin : tx.vin = [.gen height]
  unlockTime : tx.unlockTime = height + minedMoneyUnlockWindow
  txVersion : tx.version = if 4 ≤ version then 2 else 1
  unsigned : tx.rctSignatures.type = .null
  paid : getOutsMoneyAmount tx = reward
  outsFit : checkOutsOverflow tx = true
  outputTypes : checkOutputTypes tx version = true

theorem PaysMiner.withExtra (pays : PaysMiner height version reward tx) (extra : List UInt8) :
    PaysMiner height version reward { tx with extra := extra } :=
  ⟨pays.vin, pays.unlockTime, pays.txVersion, pays.unsigned, pays.paid,
    pays.outsFit, pays.outputTypes⟩

theorem checkOutputTypes_of_targets
    (targets : ∀ out ∈ tx.vout, out.target.isToTaggedKey = decide (hfVersionViewTags ≤ version) ∧
      out.target.isToKey = !decide (hfVersionViewTags ≤ version)) :
    checkOutputTypes tx version = true := by
  unfold checkOutputTypes
  rw [all_eq_true]
  intro out mem
  obtain ⟨tagged, plain⟩ := targets out mem
  have uniform : tx.vout.head?.all (fun first =>
      out.target.isToKey == first.target.isToKey) = true := by
    rw [Option.all_eq_true]
    intro first isFirst
    rw [plain, (targets first (mem_of_head? isFirst)).2, beq_self_eq_true]
  split_ifs with after before
  · rw [tagged]
    exact decide_eq_true after.le
  · rw [plain, decide_eq_false (not_le.mpr before)]
    rfl
  · rw [uniform, tagged, plain]
    cases decide (hfVersionViewTags ≤ version) <;> rfl

theorem minerBlockReward_lt (baseReward fee version : Nat) :
    minerBlockReward baseReward fee version < 2 ^ 64 := by
  have bounded := @addMod_lt 64 baseReward fee
  unfold minerBlockReward
  dsimp only
  split_ifs <;> omega

section

variable {sortTxExtra : List UInt8 → Option (List UInt8)}
  (constructed : constructMinerTx keys sortTxExtra height medianWeight coins weight fee tx
    extraNonce maxOuts version = some built)

include constructed

theorem constructMinerTx_cases :
    ∃ baseReward amounts extra vout, getBlockReward medianWeight weight coins version height =
        some baseReward ∧ minerOutAmounts height maxOuts version
        (minerBlockReward baseReward fee version) = some amounts ∧
      minerOutputs keys (decide (hfVersionViewTags ≤ version)) 0 amounts = some vout ∧
      sumMod 64 amounts = minerBlockReward baseReward fee version ∧ built =
        { tx with
          version := if 4 ≤ version then 2 else 1
          unlockTime := height + minedMoneyUnlockWindow
          vin := [.gen height]
          vout := vout
          extra := extra } := by
  obtain ⟨extra, -, constructed⟩ := Option.bind_eq_some_iff.mp constructed
  obtain ⟨baseReward, rewarded, constructed⟩ := Option.bind_eq_some_iff.mp constructed
  obtain ⟨amounts, split, constructed⟩ := Option.bind_eq_some_iff.mp constructed
  obtain ⟨vout, made, constructed⟩ := Option.bind_eq_some_iff.mp constructed
  rw [Option.ite_none_right_eq_some] at constructed
  obtain ⟨summed, ⟨⟩⟩ := constructed
  exact ⟨baseReward, amounts, extra, vout, rewarded, split, made, summed, rfl⟩

theorem constructMinerTx_claims :
    ∃ baseReward, getBlockReward medianWeight weight coins version height = some baseReward ∧
      getOutsMoneyAmount built = minerBlockReward baseReward fee version := by
  obtain ⟨baseReward, amounts, extra, vout, rewarded, -, made, summed, rfl⟩ :=
    constructMinerTx_cases constructed
  refine ⟨baseReward, rewarded, ?_⟩
  rw [getOutsMoneyAmount, (minerOutputs_spec made).1, sumMod_map_mod, summed]

end

theorem constructMinerTx_spec {sortTxExtra : List UInt8 → Option (List UInt8)}
    (pos : 0 < height) (single : 4 ≤ version → maxOuts = 1)
    (unsigned : tx.rctSignatures.type = .null)
    (constructed : constructMinerTx keys sortTxExtra height medianWeight coins
      weight fee tx extraNonce maxOuts version = some built) :
    ∃ baseReward, getBlockReward medianWeight weight coins version height = some baseReward ∧
      PaysMiner height version (minerBlockReward baseReward fee version) built := by
  obtain ⟨baseReward, amounts, extra, vout, rewarded, split, made, summed, rfl⟩ :=
    constructMinerTx_cases constructed
  obtain ⟨amountsEq, targets⟩ := minerOutputs_spec made
  refine ⟨baseReward, rewarded, rfl, rfl, rfl, unsigned, ?_, ?_, ?_⟩
  · rw [getOutsMoneyAmount, amountsEq, sumMod_map_mod, summed]
  · apply checkOutsOverflowFrom_of_sum_lt
    rw [amountsEq, zero_add]
    exact sum_minerOutAmounts_lt pos (minerBlockReward_lt _ _ _) single split
  · exact checkOutputTypes_of_targets targets

theorem PaysMiner.prevalidates {block : Block}
    (pays : PaysMiner height version reward block.minerTx) :
    prevalidateMinerTransaction block height version = true := by
  have recent : 1 < block.minerTx.version ∨ version < hfVersionMinV2CoinbaseTx := by
    rw [pays.txVersion]
    by_cases modern : 4 ≤ version
    · simp [modern]
    · exact Or.inr (by simp [hfVersionMinV2CoinbaseTx]; omega)
  unfold prevalidateMinerTransaction
  rw [pays.vin]
  simp [pays.unsigned, pays.unlockTime, pays.outsFit]
  exact ⟨recent, pays.outputTypes⟩

/-! ## What a constructed miner transaction claims -/

open Option

/-- The amount checks of `validate_miner_transaction` pass, and the claim without fees is at most
the base reward. -/
def PassesAmountChecks (medianWeight weight fee coins version height : Nat)
    (tx : Transaction) : Prop :=
  ∃ baseReward, getBlockReward medianWeight weight coins version height = some baseReward ∧
    (settleReward version baseReward fee (getOutsMoneyAmount tx)).isSome ∧
    fee ≤ getOutsMoneyAmount tx ∧
    getOutsMoneyAmount tx ≤ baseReward + fee

/-- The sum takes 64 bits, and the digits cut off are no more than the base reward. -/
def FeesStayPaid (version baseReward fee : Nat) : Prop :=
  baseReward + fee < 2 ^ 64 ∧ (2 ≤ version ∧ version < 4 →
      (baseReward + fee) % baseRewardClampThreshold ≤ baseReward)

instance (version baseReward fee : Nat) : Decidable (FeesStayPaid version baseReward fee) :=
  inferInstanceAs (Decidable (_ ∧ (_ → _)))

section Claims

variable {baseReward : Nat}

theorem minerBlockReward_le (baseReward fee version : Nat) :
    minerBlockReward baseReward fee version ≤ addMod 64 baseReward fee := by
  unfold minerBlockReward
  dsimp only
  split_ifs <;> omega

theorem le_minerBlockReward_iff (base : baseReward < 2 ^ 64) (word : fee < 2 ^ 64) :
    fee ≤ minerBlockReward baseReward fee version ↔ FeesStayPaid version baseReward fee := by
  rcases lt_or_ge (baseReward + fee) (2 ^ 64) with fits | wraps
  · unfold minerBlockReward FeesStayPaid
    dsimp only
    rw [addMod_of_lt fits, and_iff_right fits]
    have small := mod_le (baseReward + fee) baseRewardClampThreshold
    split_ifs with clamped
    · rw [forall_prop_of_true clamped]
      omega
    · exact iff_of_true (by omega) (absurd · clamped)
  · have short := minerBlockReward_le baseReward fee version
    rw [addMod_of_le base word wraps] at short
    exact iff_of_false (by omega) fun paid => by
      have := paid.1
      omega

theorem settleReward_of_feesStayPaid (base : baseReward < 2 ^ 64)
    (word : fee < 2 ^ 64) (paid : FeesStayPaid version baseReward fee) :
    (settleReward version baseReward fee (minerBlockReward baseReward fee version)).isSome := by
  have covered := (le_minerBlockReward_iff base word).mpr paid
  have bounded := minerBlockReward_le baseReward fee version
  have claimBound := minerBlockReward_lt baseReward fee version
  have fits := addMod_of_lt paid.1
  unfold settleReward
  rw [if_neg (not_lt.mpr bounded)]
  by_cases exactly : version < 2 ∨ hfVersionExactCoinbase ≤ version
  · have whole : minerBlockReward baseReward fee version = addMod 64 baseReward fee := by
      simp [hfVersionExactCoinbase] at exactly
      exact if_neg (by omega)
    rw [if_pos exactly, whole, if_neg (not_not.mpr rfl), isSome_some]
  · rw [if_neg exactly, subMod_of_le claimBound covered, if_pos (by omega), isSome_some]

/-- A constructed miner transaction passes the amount checks exactly when the base reward pays for
the digits cut off and the sum with the fees takes 64 bits. -/
theorem constructMinerTx_passes_iff {keys : MinerTxKeys}
    {sortTxExtra : List UInt8 → Option (List UInt8)}
    {height medianWeight coins weight maxOuts : Nat} {tx built : Transaction}
    {extraNonce : List UInt8} (word : fee < 2 ^ 64)
    (constructed : constructMinerTx keys sortTxExtra height medianWeight coins
      weight fee tx extraNonce maxOuts version = some built) :
    PassesAmountChecks medianWeight weight fee coins version height built ↔ ∀ baseReward,
        getBlockReward medianWeight weight coins version height = some baseReward →
        FeesStayPaid version baseReward fee := by
  obtain ⟨baseReward, rewarded, claimed⟩ := constructMinerTx_claims constructed
  have base : baseReward < 2 ^ 64 :=
    lt_of_le_of_lt (getBlockReward_le rewarded) (getBaseReward_lt _ _)
  unfold PassesAmountChecks
  simp [rewarded, claimed]
  rw [le_minerBlockReward_iff base word]
  constructor
  · exact fun checks => checks.2.1
  · intro paid
    refine ⟨settleReward_of_feesStayPaid base word paid, paid, ?_⟩
    rw [← addMod_of_lt paid.1]
    exact minerBlockReward_le baseReward fee version

end Claims

def plainMinerKeys : MinerTxKeys :=
  ⟨[], fun _ => some (0, 0)⟩

theorem firstEraMinerTx_passes : ∃ built, constructMinerTx plainMinerKeys some 1 0 0 1000 150000000
        setNull [] 16 2 = some built ∧
      PassesAmountChecks 0 1000 150000000 0 2 1 built := by
  obtain ⟨built, constructed⟩ := isSome_iff_exists.mp
    (by decide +kernel : (constructMinerTx plainMinerKeys some 1 0 0 1000
      150000000 setNull [] 16 2).isSome)
  refine ⟨built, constructed, (constructMinerTx_passes_iff (by decide) constructed).mpr ?_⟩
  intro baseReward rewarded
  have reward : getBlockReward 0 1000 0 2 1 = some 10000000000 := by decide +kernel
  obtain rfl := Option.some.inj (reward.symm.trans rewarded)
  decide

/-- In the ninth halving era the digits cut off are more than the base reward. -/
theorem ninthEraMinerTx_fails :
    ∃ built, constructMinerTx plainMinerKeys some 4000000 0 0 1000 150000000
        setNull [] 16 2 = some built ∧ getOutsMoneyAmount built = 100000000 ∧
      ¬ PassesAmountChecks 0 1000 150000000 0 2 4000000 built := by
  obtain ⟨built, constructed, claimed⟩ := map_eq_some_iff.mp
    (by decide +kernel : (constructMinerTx plainMinerKeys some 4000000 0 0 1000
      150000000 setNull [] 16 2).map getOutsMoneyAmount = some 100000000)
  refine ⟨built, constructed, claimed, ?_⟩
  rintro ⟨baseReward, -, -, covered, -⟩
  rw [claimed] at covered
  omega

/-! ## Templates pass the checks on miner transactions -/

theorem getBlockReward_max (median weight coins version height : Nat) :
    getBlockReward (max median (getMinBlockWeight version)) weight coins version height =
      getBlockReward median weight coins version height := by
  simp [getBlockReward, penalizedReward]

theorem settleReward_exact {version : Nat} (base fee : Nat)
    (exact : version < 2 ∨ hfVersionExactCoinbase ≤ version) :
    settleReward version base fee (addMod 64 base fee) = some ⟨base, false⟩ := by
  unfold settleReward
  rw [if_neg (lt_irrefl _), if_pos exact, if_neg (not_not_intro rfl)]

/-- Only the extra field is changed, and a settled transaction has the weight it was built for. -/
def MinerTxAttempt.From (txsWeight cumulativeWeight : Nat) (tx : Transaction) :
    MinerTxAttempt → Prop
  | .settled final => (∃ extra, final = { tx with extra := extra }) ∧
      weightWith txsWeight final = some cumulativeWeight
  | .retry _ last => ∃ extra, last = { tx with extra := extra }
  | .failed => True

theorem settleAttempt_from {tx : Transaction} (txsWeight cumulativeWeight : Nat)
    (extra : List UInt8) :
    (settleAttempt txsWeight cumulativeWeight { tx with extra := extra }).From
      txsWeight cumulativeWeight tx := by
  unfold settleAttempt
  split_ifs with agrees
  · exact ⟨⟨extra, rfl⟩, agrees⟩
  · trivial

theorem attemptMinerTx_from (txsWeight cumulativeWeight : Nat) (tx : Transaction) :
    (attemptMinerTx txsWeight cumulativeWeight tx).From txsWeight cumulativeWeight tx := by
  unfold attemptMinerTx padAttempt
  cases getTransactionWeight tx with
  | none => trivial
  | some coinbaseWeight =>
    dsimp only
    split_ifs
    · exact ⟨tx.extra, rfl⟩
    · exact settleAttempt_from _ _ _
    · exact settleAttempt_from _ _ _
    · exact ⟨_, rfl⟩
    · trivial
    · exact settleAttempt_from _ _ tx.extra

theorem minerTxLoop_spec {construct : Nat → Nat → Transaction → Option Transaction}
    {txsWeight : Nat}
    (unsignedKept : ∀ call weight previous built, previous.rctSignatures.type = .null →
        construct call weight previous = some built → built.rctSignatures.type = .null)
    {tries call weight : Nat} {tx final : Transaction} (unsigned : tx.rctSignatures.type = .null)
    (settled : minerTxLoop construct txsWeight tries call weight tx = some final) :
    ∃ call weight previous built extra, previous.rctSignatures.type = .null ∧
      construct call weight previous = some built ∧ final = { built with extra := extra } ∧
      weightWith txsWeight final = some weight := by
  induction tries generalizing call weight tx with
  | zero => cases settled
  | succ tries ih =>
    rw [minerTxLoop] at settled
    cases constructed : construct call weight tx with
    | none => simp [constructed] at settled
    | some built =>
      have attempted := attemptMinerTx_from txsWeight weight built
      simp [constructed] at settled
      cases outcome : attemptMinerTx txsWeight weight built with
      | settled last =>
        rw [outcome] at settled attempted
        obtain rfl := Option.some.inj settled
        obtain ⟨⟨extra, same⟩, weighed⟩ := attempted
        exact ⟨call, weight, tx, built, extra, unsigned, constructed, same, weighed⟩
      | failed =>
        rw [outcome] at settled
        cases settled
      | retry next last =>
        rw [outcome] at settled attempted
        obtain ⟨extra, same⟩ := attempted
        apply ih _ settled
        rw [same]
        exact unsignedKept call weight tx built unsigned constructed

theorem templateMinerTx_spec {tenv : TemplateEnv} {address : AccountPublicAddress}
    {nonce : List UInt8} {start : TemplateStart} {txsWeight fee : Nat} {minerTx : Transaction}
    (pos : 0 < start.height) (unsigned : start.block.minerTx.rctSignatures.type = .null)
    (built : templateMinerTx tenv address nonce start txsWeight fee = some minerTx) :
    ∃ weight base, weightWith txsWeight minerTx = some weight ∧
      getBlockReward start.medianWeight weight start.alreadyGeneratedCoins
        start.block.majorVersion start.height = some base ∧
      PaysMiner start.height start.block.majorVersion
        (minerBlockReward base fee start.block.majorVersion) minerTx := by
  obtain ⟨first, firstBuilt, built⟩ := bind_eq_some_iff.mp built
  obtain ⟨cumulativeWeight, -, looped⟩ := bind_eq_some_iff.mp built
  have single : 4 ≤ start.block.majorVersion →
      (if 4 ≤ start.block.majorVersion then 1 else 11) = 1 :=
    fun modern => if_pos modern
  obtain ⟨_, -, firstPays⟩ := constructMinerTx_spec pos single unsigned firstBuilt
  obtain ⟨call, weight, previous, last, extra, previousUnsigned, lastBuilt,
      rfl, weighed⟩ := minerTxLoop_spec
    (fun _ _ _ _ unsigned constructed => (constructMinerTx_spec pos single unsigned
        constructed).choose_spec.2.unsigned)
    firstPays.unsigned looped
  obtain ⟨base, rewarded, pays⟩ :=
    constructMinerTx_spec pos single previousUnsigned lastBuilt
  exact ⟨weight, base, weighed, rewarded, pays.withExtra extra⟩

namespace TxMemoryPool

def worth (pool : TxMemoryPool) (txid : Hash) : Option (Nat × Nat) :=
  (pool.txpool.lookup txid).map fun poolEntry => (poolEntry.txMeta.weight, poolEntry.txMeta.fee)

/-- The totals of a template are those of the transactions it has chosen. -/
structure Tallied (pool : TxMemoryPool) (fill : TemplateFill) : Prop where
  worth : ∀ txid, fill.pool.worth txid = pool.worth txid
  chosen : ∃ poolEntries, List.Forall₂ (fun txid poolEntry =>
      pool.txpool.lookup txid = some poolEntry) fill.txHashes poolEntries ∧ fill.totalWeight =
      sumMod 64 (poolEntries.map fun poolEntry => poolEntry.txMeta.weight) ∧ fill.fee =
      sumMod 64 (poolEntries.map fun poolEntry => poolEntry.txMeta.fee)

variable {view : ChainView} {tenv : TemplateEnv} {params : FillParams}

theorem isTransactionReadyToGo_worth (txMeta : TxpoolTxMeta) (tx : Transaction) :
    (isTransactionReadyToGo view tenv txMeta tx).2.weight = txMeta.weight ∧
      (isTransactionReadyToGo view tenv txMeta tx).2.fee = txMeta.fee := by
  unfold isTransactionReadyToGo
  generalize (if txMeta.maxUsedBlockId = nullHash then _ else _) = broken
  cases broken with
  | true => exact ⟨rfl, rfl⟩
  | false =>
    cases view.checkTxInputs tx false with
    | none => exact ⟨rfl, rfl⟩
    | some maxUsed => split_ifs <;> exact ⟨rfl, rfl⟩

variable {pool : TxMemoryPool} {txid : Hash} {poolEntry : PoolEntry} {fill : TemplateFill}

theorem worth_insert {updated : PoolEntry} (found : pool.txpool.lookup txid = some poolEntry)
    (weight : updated.txMeta.weight = poolEntry.txMeta.weight)
    (fee : updated.txMeta.fee = poolEntry.txMeta.fee) (id : Hash) :
    worth { pool with txpool := pool.txpool.insert txid updated } id =
      pool.worth id := by
  unfold worth
  by_cases same : id = txid
  · subst same
    rw [AList.lookup_insert, found, map_some, map_some, weight, fee]
  · rw [AList.lookup_insert_ne same]

theorem Tallied.original (tallied : Tallied pool fill)
    (found : fill.pool.txpool.lookup txid = some poolEntry) :
    ∃ original, pool.txpool.lookup txid = some original ∧
      original.txMeta.weight = poolEntry.txMeta.weight ∧
      original.txMeta.fee = poolEntry.txMeta.fee := by
  have same := (tallied.worth txid).symm
  rw [TxMemoryPool.worth, TxMemoryPool.worth, found, map_some, map_eq_some_iff] at same
  obtain ⟨original, stored, agrees⟩ := same
  exact ⟨original, stored, Prod.mk.inj agrees⟩

theorem Tallied.includeCandidate {coinbase : Nat} (tallied : Tallied pool fill)
    (found : fill.pool.txpool.lookup txid = some poolEntry) :
    Tallied pool (includeCandidate view tenv fill txid poolEntry coinbase) := by
  unfold TxMemoryPool.includeCandidate
  obtain ⟨weight, fee⟩ := isTransactionReadyToGo_worth _ _
  generalize isTransactionReadyToGo view tenv poolEntry.txMeta poolEntry.tx = checked at weight fee
  obtain ⟨ready, txMeta⟩ := checked
  dsimp only at weight fee ⊢
  have updatedWorth : ∀ id, (if txMeta = poolEntry.txMeta then fill else
      { fill with
        pool := { fill.pool with
            txpool := fill.pool.txpool.insert txid
              { poolEntry with txMeta := txMeta } } }).pool.worth id =
        pool.worth id := by
    intro id
    split_ifs with unchanged
    · exact tallied.worth id
    · exact (worth_insert found weight fee id).trans (tallied.worth id)
  generalize updatedEq : (if txMeta = poolEntry.txMeta then fill else _) = updated at updatedWorth ⊢
  obtain ⟨entries, chosen, totalWeight, totalFee⟩ := tallied.chosen
  have kept : Tallied pool updated := by
    refine ⟨updatedWorth, entries, ?_⟩
    rw [← updatedEq]
    split_ifs <;> exact ⟨chosen, totalWeight, totalFee⟩
  split_ifs
  · exact kept
  · exact kept
  · obtain ⟨original, stored, sameWeight, sameFee⟩ := tallied.original found
    refine ⟨updatedWorth, entries ++ [original], ?_, ?_, ?_⟩
    · exact rel_append chosen (List.Forall₂.cons stored List.Forall₂.nil)
    · rw [map_append, map_singleton, sumMod_append_singleton, ← totalWeight, sameWeight]
    · rw [map_append, map_singleton, sumMod_append_singleton, ← totalFee, sameFee]

theorem Tallied.fillFrom (elements : List FeeOrderEntry) (tallied : Tallied pool fill) :
    Tallied pool (fillFrom view tenv params elements fill) := by
  induction elements generalizing fill with
  | nil => exact tallied
  | cons element rest ih =>
    rw [TxMemoryPool.fillFrom]
    cases found : fill.pool.txpool.lookup element.txid with
    | none => exact ih tallied
    | some poolEntry =>
      dsimp only
      generalize consider view params fill poolEntry.txMeta = considered
      obtain ⟨asked, decision⟩ := considered
      have noted : Tallied pool { fill with queries := fill.queries ++ asked } :=
        ⟨tallied.worth, tallied.chosen⟩
      cases decision with
      | skipped => exact ih noted
      | stopped => exact noted
      | candidate coinbase => exact ih (noted.includeCandidate found)

theorem fillBlockTemplate_tallied (pool : TxMemoryPool) :
    Tallied pool (pool.fillBlockTemplate view tenv params).1 := by
  have start : ∀ bestCoinbase queries, Tallied pool ⟨pool, [], 0, 0, bestCoinbase, [], queries⟩ :=
    fun _ _ => ⟨fun _ => rfl, [], List.Forall₂.nil, rfl, rfl⟩
  unfold fillBlockTemplate
  cases reward : (templateReward view params 0).reward with
  | none =>
    simp [reward]
    exact start _ _
  | some bestCoinbase => exact (start _ _).fillFrom _

end TxMemoryPool

namespace Blockchain

structure WeightLimitsCurrent (chain : Blockchain) : Prop where
  median : chain.currentBlockCumulWeightMedian = max chain.nextBlockWeightMedian
      (getMinBlockWeight chain.getCurrentHardForkVersion)
  limit : chain.currentBlockCumulWeightLimit = mulMod 64 chain.currentBlockCumulWeightMedian 2

theorem updateNextCumulativeWeightLimit_current (chain : Blockchain) :
    chain.updateNextCumulativeWeightLimit.WeightLimitsCurrent :=
  ⟨rfl, rfl⟩

def StoredWeightsFit (chain : Blockchain) : Prop :=
  ∀ entry ∈ chain.db.blocks, entry.blockWeight < 2 ^ 63 ∧ entry.longTermBlockWeight < 2 ^ 63

variable {chain : Blockchain} {env : Env}

theorem nextBlockWeightMedian_lt (fit : chain.StoredWeightsFit) :
    chain.nextBlockWeightMedian < 2 ^ 63 := by
  have inRange : ∀ start stop, ∀ entry ∈ chain.db.blockRange start stop,
      entry ∈ chain.db.blocks := by
    intro start stop entry mem
    exact mem_of_mem_take (mem_of_mem_drop mem)
  have short : median (chain.getLastNBlocksWeights rewardBlocksWindow) < 2 ^ 63 := by
    apply median_lt (Nat.two_pow_pos 63)
    simp only [getLastNBlocksWeights, List.mem_map]
    rintro value ⟨entry, mem, rfl⟩
    exact (fit entry (inRange _ _ entry mem)).1
  have long : chain.longTermEffectiveMedian < 2 ^ 63 := by
    apply max_lt (by decide)
    apply median_lt (Nat.two_pow_pos 63)
    simp only [List.mem_map]
    rintro value ⟨entry, mem, rfl⟩
    exact (fit entry (inRange _ _ entry mem)).2
  unfold nextBlockWeightMedian
  dsimp only
  split_ifs
  · exact short
  · exact lt_of_le_of_lt (min_le_left _ _) (max_lt long short)
  · exact lt_of_le_of_lt (min_le_left _ _) (max_lt (by decide) short)

theorem WeightLimitsCurrent.half_limit
    (limits : chain.WeightLimitsCurrent) (fit : chain.StoredWeightsFit) :
    chain.currentBlockCumulWeightLimit / 2 = chain.currentBlockCumulWeightMedian := by
  have zone : getMinBlockWeight chain.getCurrentHardForkVersion < 2 ^ 63 := by
    unfold getMinBlockWeight
    split_ifs <;> decide
  have bounded : chain.currentBlockCumulWeightMedian < 2 ^ 63 := by
    rw [limits.median]
    exact max_lt (nextBlockWeightMedian_lt fit) zone
  rw [limits.limit, mulMod_of_lt (by omega)]
  omega

variable {now : Nat} {tenv : TemplateEnv} {address : AccountPublicAddress}
  {template : BlockTemplate} {start : TemplateStart}

theorem WeightLimitsCurrent.getBlockReward_eq (limits : chain.WeightLimitsCurrent)
    (fit : chain.StoredWeightsFit) (inForce : chain.getCurrentHardForkVersion = version)
    (agrees : version < hfVersionLongTermBlockWeight ∨
      hfVersionEffectiveShortTermMedianInPenalty ≤ version) (weight coins height : Nat) :
    getBlockReward (chain.currentBlockCumulWeightLimit / 2) weight coins version height =
      getBlockReward (chain.rewardMedian version) weight coins version height := by
  rw [limits.half_limit fit]
  unfold rewardMedian
  split_ifs with effective
  · rfl
  · have early := agrees.resolve_right effective
    rw [limits.median, inForce, getBlockReward_max]
    unfold nextBlockWeightMedian
    rw [inForce, if_pos early]

theorem createBlockTemplate_uncached {cache : TemplateCache} {after : Blockchain × TemplateCache}
    (uncached : chain.cacheAnswers env cache address extraNonce = false)
    (created : chain.createBlockTemplate env tenv now cache none address
      extraNonce = (some template, after)) :
    ∃ start cached, ({ chain with btcValid := false }.startFromTip env) =
        (some start, cached) ∧
      (cached.completeTemplate env tenv now address extraNonce start).1 = some template := by
  unfold createBlockTemplate at created
  simp [uncached] at created
  rcases started : { chain with btcValid := false }.startFromTip env with
    ⟨_ | start, cached⟩
  · rw [started] at created
    cases created
  · rw [started] at created
    dsimp only at created
    refine ⟨start, cached, started, ?_⟩
    rcases completed : cached.completeTemplate env tenv now address extraNonce
      start with ⟨_ | result, final⟩
    · rw [completed] at created
      cases created
    · rw [completed] at created
      exact congrArg Prod.fst created

theorem templateFill_tallied (chain : Blockchain) (env : Env)
    (tenv : TemplateEnv) (now : Nat) (start : TemplateStart) :
    TxMemoryPool.Tallied chain.txPool (chain.templateFill env tenv now start).1 :=
  TxMemoryPool.fillBlockTemplate_tallied chain.txPool

theorem completeTemplate_some
    (completed : (chain.completeTemplate env tenv now address extraNonce start).1 = some template) :
    template.block.txHashes = (chain.templateFill env tenv now start).1.txHashes ∧
      templateMinerTx tenv address extraNonce start
        (chain.templateFill env tenv now start).1.totalWeight
        (chain.templateFill env tenv now start).1.fee = some template.block.minerTx := by
  unfold completeTemplate at completed
  generalize chain.templateFill env tenv now start = filled at completed ⊢
  dsimp only at completed ⊢
  split_ifs at completed
  obtain ⟨minerTx, built, rfl⟩ := Option.map_eq_some_iff.mp completed
  exact ⟨rfl, built⟩

theorem startFromTip_spec {cached : Blockchain}
    (started : chain.startFromTip env = (some start, cached)) :
    0 < chain.db.height ∧ start.height = chain.db.height ∧
      start.medianWeight = chain.currentBlockCumulWeightLimit / 2 ∧
      start.alreadyGeneratedCoins = chain.topGeneratedCoins ∧
      start.block.majorVersion = chain.getCurrentHardForkVersion ∧
      start.block.minerTx = Transaction.setNull ∧ cached.txPool = chain.txPool := by
  obtain ⟨cache, same⟩ := chain.getDifficultyForNextBlock_snd env
  unfold startFromTip at started
  rcases eq : chain.getDifficultyForNextBlock env with ⟨difficulty, after⟩
  dsimp only at started same
  split_ifs at started with empty
  · cases (Prod.mk.inj started).1
  all_goals
    obtain ⟨startEq, cachedEq⟩ := Prod.mk.inj started
    rw [← Option.some.inj startEq, ← cachedEq, same, topGeneratedCoins, if_neg empty]
    exact ⟨pos_of_ne_zero empty, rfl, rfl, rfl, rfl, rfl, rfl⟩

theorem validateMinerTransaction_of_paysMiner {block : Block} {weight fee coins height base : Nat}
    (exact : version < 2 ∨ hfVersionExactCoinbase ≤ version)
    (rewarded : getBlockReward (chain.rewardMedian version) weight coins version height = some base)
    (pays : PaysMiner height version (minerBlockReward base fee version) block.minerTx) :
    chain.validateMinerTransaction block weight fee coins version = some ⟨base, false⟩ := by
  have atHeight : LodeChain.getBlockHeight block = height := by
    rw [LodeChain.getBlockHeight, pays.vin]
  have unclamped : minerBlockReward base fee version = addMod 64 base fee := by
    unfold minerBlockReward
    rw [if_neg]
    simp [hfVersionExactCoinbase] at exact
    omega
  unfold validateMinerTransaction
  rw [if_neg, atHeight, rewarded]
  · dsimp only
    rw [pays.paid, unclamped]
    exact settleReward_exact base fee exact
  · simp [hfVersionExactCoinbase] at exact
    omega

/-- A template for the tip passes both checks on its miner transaction, with its weight and fees. -/
theorem createBlockTemplate_validates (chain : Blockchain) (env : Env) (tenv : TemplateEnv)
    (now : Nat) (cache : TemplateCache) (address : AccountPublicAddress) (extraNonce : List UInt8)
    (template : BlockTemplate) (after : Blockchain × TemplateCache)
    (version : chain.getCurrentHardForkVersion = 1 ∨ chain.getCurrentHardForkVersion = 16)
    (limits : chain.WeightLimitsCurrent) (fit : chain.StoredWeightsFit)
    (uncached : chain.cacheAnswers env cache address extraNonce = false)
    (created : chain.createBlockTemplate env tenv now cache none address
      extraNonce = (some template, after)) :
    prevalidateMinerTransaction template.block chain.db.height
        chain.getCurrentHardForkVersion = true ∧ ∃ poolEntries minerTxWeight,
        List.Forall₂ (fun txid poolEntry => chain.txPool.txpool.lookup txid = some poolEntry)
          template.block.txHashes poolEntries ∧
        getTransactionWeight template.block.minerTx = some minerTxWeight ∧
        (chain.validateMinerTransaction template.block
          (addMod 64 minerTxWeight (sumMod 64 (poolEntries.map
            fun poolEntry => poolEntry.txMeta.weight)))
          (sumMod 64 (poolEntries.map fun poolEntry => poolEntry.txMeta.fee))
          chain.topGeneratedCoins chain.getCurrentHardForkVersion).isSome = true := by
  obtain ⟨start, cached, started, completed⟩ := createBlockTemplate_uncached uncached created
  obtain ⟨heightPos, height, median, coins, major, fresh, pool⟩ := startFromTip_spec started
  obtain ⟨txHashes, built⟩ := completeTemplate_some completed
  obtain ⟨-, poolEntries, chosen, totalWeight, fee⟩ :=
    cached.templateFill_tallied env tenv now start
  obtain ⟨weight, baseReward, weighed, rewarded, pays⟩ :=
    templateMinerTx_spec (by rw [height]; exact heightPos) (by rw [fresh]; rfl) built
  obtain ⟨minerTxWeight, minerTxWeighed, summed⟩ := Option.map_eq_some_iff.mp weighed
  rw [height, major] at pays
  rw [median, coins, height, major] at rewarded
  refine ⟨pays.prevalidates, poolEntries, minerTxWeight, ?_, minerTxWeighed, ?_⟩
  · rw [txHashes, ← pool]
    exact chosen
  have blockWeight : addMod 64 minerTxWeight (sumMod 64 (poolEntries.map
      fun poolEntry => poolEntry.txMeta.weight)) = weight := by
    rw [← totalWeight, addMod, add_comm]
    exact summed
  have agrees := limits.getBlockReward_eq fit rfl
    (by rcases version with v | v <;> rw [v] <;> decide) weight
    chain.topGeneratedCoins chain.db.height
  rw [blockWeight, ← fee, validateMinerTransaction_of_paysMiner
    (by rcases version with v | v <;> rw [v] <;> decide)
    (agrees.symm.trans rewarded) pays]
  rfl

def minableEntry : PoolEntry where
  txMeta :=
    { maxUsedBlockId := nullHash
      lastFailedId := nullHash
      weight := 3000
      fee := 60000
      maxUsedBlockHeight := 0
      lastFailedHeight := 0
      receiveTime := 0
      lastRelayedTime := 0
      relayMethod := .fluff
      relayed := true
      doubleSpendSeen := false
      pruned := false }
  tx := { Transaction.setNull with version := 2, vin := [.toKey 0 [0] 5] }

def minableChain : Blockchain :=
  updateNextCumulativeWeightLimit { firstEraChain 3 with
      hardfork := { Blockchain.empty.hardfork with currentForkIndex := 1 }
      txPool := { TxMemoryPool.empty with
          txpool := AList.insert 9 minableEntry ∅
          txsByFeeAndReceiveTime := [⟨20, 0, 9⟩] } }

def unusedTemplateCache : TemplateCache :=
  ⟨⟨templateHeader 0 0 nullHash, 0, 0, 0, none, nullHash⟩, ⟨0, 0⟩, [], 0⟩

theorem minableChain_validates :
    ∃ template after, minableChain.createBlockTemplate heightEnv plainTemplateEnv 1000
        unusedTemplateCache none ⟨1, 2⟩ [] = (some template, after) ∧
      template.block.txHashes = [9] ∧ prevalidateMinerTransaction template.block 3 16 = true ∧
      (minableChain.validateMinerTransaction template.block 3080 60000
        minableChain.topGeneratedCoins 16).isSome = true := by
  have version : minableChain.getCurrentHardForkVersion = 16 := by decide
  have made : (minableChain.createBlockTemplate heightEnv plainTemplateEnv 1000
      unusedTemplateCache none ⟨1, 2⟩ []).1.map (fun template =>
        (template.block.txHashes, getTransactionWeight template.block.minerTx)) =
      some ([9], some 80) := by
    decide +kernel
  rcases created : minableChain.createBlockTemplate heightEnv plainTemplateEnv
    1000 unusedTemplateCache none ⟨1, 2⟩ [] with ⟨_ | template, after⟩
  · rw [created] at made
    cases made
  · rw [created] at made
    obtain ⟨txHashes, weighed⟩ := Prod.mk.inj (Option.some.inj made)
    obtain ⟨prevalidated, poolEntries, weight, chosen, sameWeight, validated⟩ :=
      createBlockTemplate_validates minableChain heightEnv plainTemplateEnv 1000
        unusedTemplateCache ⟨1, 2⟩ [] template after (Or.inr version)
        (updateNextCumulativeWeightLimit_current _)
        (by unfold StoredWeightsFit; decide) rfl created
    refine ⟨template, after, rfl, txHashes, ?_, ?_⟩
    · exact prevalidated
    · rw [txHashes] at chosen
      obtain ⟨poolEntry, rest, found, none, rfl⟩ := forall₂_cons_left_iff.mp chosen
      obtain rfl := forall₂_nil_left_iff.mp none
      obtain rfl : minableEntry = poolEntry := Option.some.inj found
      obtain rfl := Option.some.inj (sameWeight.symm.trans weighed)
      exact validated

end Blockchain

end LodeChain

import LodeChain.AlternativeChain

/-!
# Block templates

`create_block_template` picks a parent, has `fill_block_template` fill the block and adjusts the
miner transaction to its weight.
-/

namespace LodeChain

open WrappedArithmetic

/-- The conversion of a 64-bit word to single precision: 24 significant bits,
ties to even. -/
def roundToSingle (amount : Nat) : Nat :=
  if amount < 2 ^ 24 then amount
  else
    let shift := amount.log2 - 23
    let kept := amount / 2 ^ shift
    let lost := amount % 2 ^ shift
    let half := 2 ^ (shift - 1)
    if half < lost ∨ (lost = half ∧ kept % 2 = 1) then (kept + 1) * 2 ^ shift
    else kept * 2 ^ shift

/-- `template_accept_threshold`, whose factor is the float `1.0f`. -/
def templateAcceptThreshold (amount : Nat) : Nat :=
  roundToSingle amount

structure AccountPublicAddress where
  spendPublicKey : PublicKey
  viewPublicKey : PublicKey
  deriving DecidableEq, Repr

structure TemplateEnv where
  drawKeys : AccountPublicAddress → Nat → MinerTxKeys
  sortTxExtra : List UInt8 → Option (List UInt8)
  failedInputsHeight : Transaction → Nat

/-- A call of `get_block_reward`: the arguments that vary, and the answer. -/
structure RewardQuery where
  currentBlockWeight : Nat
  height : Nat
  reward : Option Nat
  deriving DecidableEq, Repr

structure FillParams where
  medianWeight : Nat
  alreadyGeneratedCoins : Nat
  version : Nat
  deriving DecidableEq, Repr

/-- The local variables of `fill_block_template`, and its calls of `get_block_reward`. -/
structure TemplateFill where
  pool : TxMemoryPool
  txHashes : List Hash
  totalWeight : Nat
  fee : Nat
  bestCoinbase : Nat
  keyImages : List KeyImage
  queries : List RewardQuery

/-- To go on with the next one, to end the loop, or to try a transaction. -/
inductive Consideration where
  | skipped
  | stopped
  | candidate (coinbase : Nat)
  deriving DecidableEq, Repr

namespace TxMemoryPool

variable (view : ChainView)

/-- `is_transaction_ready_to_go` on an unpruned entry, with its new metadata. -/
def isTransactionReadyToGo (tenv : TemplateEnv)
    (txMeta : TxpoolTxMeta) (tx : Transaction) : Bool × TxpoolTxMeta :=
  let knownBroken := if txMeta.maxUsedBlockId = nullHash then
      decide (txMeta.lastFailedId ≠ nullHash) && decide (txMeta.lastFailedHeight < view.height) &&
        decide (txMeta.lastFailedId = view.getBlockIdByHeight txMeta.lastFailedHeight)
    else
      decide (view.height ≤ txMeta.maxUsedBlockHeight) || decide (txMeta.lastFailedId =
          view.getBlockIdByHeight txMeta.lastFailedHeight)
  if knownBroken then (false, txMeta)
  else
    match view.checkTxInputs tx false with
    | none =>
      (false, { txMeta with
          maxUsedBlockHeight := tenv.failedInputsHeight tx
          lastFailedHeight := view.height - 1
          lastFailedId := view.getBlockIdByHeight (view.height - 1) })
    | some (maxUsedBlockHeight, maxUsedBlockId) =>
      let checked := { txMeta with
          maxUsedBlockHeight := maxUsedBlockHeight
          maxUsedBlockId := maxUsedBlockId }
      if view.haveTxKeyimgesAsSpent tx then (false, { checked with doubleSpendSeen := true })
      else (true, checked)

def haveKeyImages (keyImages : List KeyImage) : List TxIn → Bool
  | .toKey _ _ keyImage :: rest =>
    if keyImage ∈ keyImages then true else haveKeyImages keyImages rest
  | _ => false

def appendKeyImages (keyImages : List KeyImage) : List TxIn → List KeyImage
  | .toKey _ _ keyImage :: rest =>
    if keyImage ∈ keyImages then keyImages
    else appendKeyImages (keyImage :: keyImages) rest
  | _ => keyImages

/-- The reward as `fill_block_template` asks for it: at the height of the main chain. -/
def templateReward (params : FillParams) (weight : Nat) : RewardQuery where
  currentBlockWeight := weight
  height := view.height
  reward := getBlockReward params.medianWeight weight
    params.alreadyGeneratedCoins params.version view.height

def maxTotalWeight (params : FillParams) : Nat :=
  if 5 ≤ params.version then subMod 64 (mulMod 64 2 params.medianWeight) coinbaseBlobReservedSize
  else subMod 64 (mulMod 64 130 params.medianWeight / 100) coinbaseBlobReservedSize

/-- The tests of an iteration on a transaction, with the rewards they ask for. -/
def consider (params : FillParams) (fill : TemplateFill)
    (txMeta : TxpoolTxMeta) : List RewardQuery × Consideration :=
  let weight := addMod 64 fill.totalWeight txMeta.weight
  if !txMeta.relayMethod.matchesLegacy &&
      !(fill.pool.mineStemTxes && decide (txMeta.relayMethod = .stem)) then
    ([], .skipped)
  else if txMeta.pruned then ([], .skipped)
  else if maxTotalWeight params < weight then ([], .skipped)
  else if 5 ≤ params.version then
    let query := templateReward view params weight
    match query.reward with
    | none => ([query], .skipped)
    | some blockReward =>
      let coinbase := addMod 64 (addMod 64 blockReward fill.fee) txMeta.fee
      if coinbase < templateAcceptThreshold fill.bestCoinbase then ([query], .skipped)
      else ([query], .candidate coinbase)
  else if params.medianWeight < fill.totalWeight then ([], .stopped)
  else ([], .candidate 0)

def includeCandidate (tenv : TemplateEnv)
    (fill : TemplateFill) (txid : Hash) (poolEntry : PoolEntry) (coinbase : Nat) : TemplateFill :=
  let (ready, txMeta) := isTransactionReadyToGo view tenv poolEntry.txMeta poolEntry.tx
  let updated := if txMeta = poolEntry.txMeta then fill
    else
      { fill with
        pool := { fill.pool with
            txpool := fill.pool.txpool.insert txid { poolEntry with txMeta := txMeta } } }
  if !ready then updated
  else if haveKeyImages fill.keyImages poolEntry.tx.vin then updated
  else
    { updated with
      txHashes := fill.txHashes ++ [txid]
      totalWeight := addMod 64 fill.totalWeight poolEntry.txMeta.weight
      fee := addMod 64 fill.fee poolEntry.txMeta.fee
      bestCoinbase := coinbase
      keyImages := appendKeyImages fill.keyImages poolEntry.tx.vin }

def fillFrom (view : ChainView) (tenv : TemplateEnv) (params : FillParams) :
    List FeeOrderEntry → TemplateFill → TemplateFill
  | [], fill => fill
  | element :: rest, fill =>
    match fill.pool.txpool.lookup element.txid with
    | none => fillFrom view tenv params rest fill
    | some poolEntry =>
      let (asked, decision) := consider view params fill poolEntry.txMeta
      let noted := { fill with queries := fill.queries ++ asked }
      match decision with
      | .skipped => fillFrom view tenv params rest noted
      | .stopped => noted
      | .candidate coinbase =>
        fillFrom view tenv params rest (includeCandidate view tenv noted element.txid poolEntry
            coinbase)

def fillBlockTemplate (pool : TxMemoryPool) (view : ChainView)
    (tenv : TemplateEnv) (params : FillParams) : TemplateFill × Bool :=
  let baseline := templateReward view params 0
  let start : TemplateFill := ⟨pool, [], 0, 0, 0, [], [baseline]⟩
  match baseline.reward with
  | none => (start, false)
  | some bestCoinbase =>
    (fillFrom view tenv params pool.txsByFeeAndReceiveTime
      { start with bestCoinbase := bestCoinbase }, true)

end TxMemoryPool

/-- What `create_block_template` starts from; `seedHeight` is `none` where the caller's value stays.
-/
structure TemplateStart where
  block : Block
  height : Nat
  medianWeight : Nat
  alreadyGeneratedCoins : Nat
  difficulty : Nat
  seedHeight : Option Nat
  seedHash : Hash
  deriving DecidableEq, Repr

def TemplateStart.fillParams (start : TemplateStart) : FillParams :=
  ⟨start.medianWeight, start.alreadyGeneratedCoins, start.block.majorVersion⟩

structure BlockTemplate where
  block : Block
  difficulty : Nat
  height : Nat
  expectedReward : Nat
  seedHeight : Option Nat
  seedHash : Hash
  deriving DecidableEq, Repr

structure TemplateCache where
  template : BlockTemplate
  address : AccountPublicAddress
  nonce : List UInt8
  poolCookie : Nat
  deriving DecidableEq, Repr

/-- `HardFork::get_ideal_version()`, the version of the last row. -/
def HardFork.lastVersion (hardfork : HardFork) : Nat :=
  (hardfork.heights.getLast?.map HardForkEntry.version).getD 0

def templateHeader (majorVersion minorVersion : Nat) (prevId : Hash) : Block :=
  ⟨majorVersion, minorVersion, 0, prevId, 0, Transaction.setNull, []⟩

namespace BlockchainDB

def getBlock (db : BlockchainDB) (env : Env) (id : Hash) : Option Block :=
  (db.blocks.find? fun entry => env.getBlockHash entry.bl == id).map BlockEntry.bl

end BlockchainDB

namespace Blockchain

variable (chain : Blockchain)

def startOnMain (env : Env) (fromBlock : Hash)
    (altChain : List BlockExtendedInfo) : Option TemplateStart := do
  let prevBlock ← chain.db.getBlock env fromBlock
  let height := LodeChain.getBlockHeight prevBlock + 1
  let parent ← chain.db.blocks[height - 1]?
  let seeded := rxBlockVersion ≤ chain.getCurrentHardForkVersion
  let beiHeight := match altChain, chain.db.altBlocks.lookup fromBlock with
    | _ :: _, some prevData => prevData.height + 1
    | _, _ => chain.db.getBlockHeight env fromBlock + 1
  some
    { block := templateHeader (chain.hardfork.getIdealVersion height)
        chain.hardfork.lastVersion fromBlock
      height := height
      medianWeight := parent.blockWeight
      alreadyGeneratedCoins := parent.alreadyGeneratedCoins
      difficulty := chain.getNextDifficultyForAlternativeChain altChain beiHeight
      seedHeight := if seeded then some (rxSeedheight height) else none
      seedHash := if seeded then chain.db.getBlockIdByHeight env (rxSeedheight height)
        else nullHash }

/-- For a parent among the alternative blocks only; the median is nineteen twentieths of its
weight. -/
def startOnAlternative (env : Env) (fromBlock : Hash)
    (prevData : BlockExtendedInfo) (altChain : List BlockExtendedInfo) : Option TemplateStart := do
  let back ← altChain.getLast?
  let height := back.height + 1
  let seedheight := rxSeedheight height
  some
    { block := templateHeader (chain.hardfork.getIdealVersion height)
        chain.hardfork.lastVersion fromBlock
      height := height
      medianWeight := prevData.blockCumulativeWeight - prevData.blockCumulativeWeight / 20
      alreadyGeneratedCoins := back.alreadyGeneratedCoins
      difficulty := chain.getNextDifficultyForAlternativeChain altChain (prevData.height + 1)
      seedHeight := some seedheight
      seedHash := if altChain.head?.any fun front => front.height ≤ seedheight then
          match altChain.find? fun bei => bei.height == seedheight + 1 with
          | some bei => bei.bl.prevId
          | none => nullHash
        else chain.db.getBlockIdByHeight env seedheight }

def startFromBlock (env : Env) (fromBlock : Hash) : Option TemplateStart :=
  match chain.db.altBlocks.lookup fromBlock, chain.db.blockExists env fromBlock with
  | none, false => none
  | prevData?, parentInMain =>
    match chain.db.buildAltChain env fromBlock with
    | none => none
    | some (altChain, _) =>
      if parentInMain then chain.startOnMain env fromBlock altChain
      else prevData?.bind fun prevData => chain.startOnAlternative env fromBlock prevData altChain

def startFromTip (env : Env) : Option TemplateStart × Blockchain :=
  let height := chain.db.height
  let (difficulty, cached) := chain.getDifficultyForNextBlock env
  let seeded := rxBlockVersion ≤ chain.getCurrentHardForkVersion
  if height = 0 then (none, cached)
  else
    (some
      { block := templateHeader chain.getCurrentHardForkVersion
          chain.hardfork.lastVersion (chain.db.topBlockHash env)
        height := height
        medianWeight := chain.currentBlockCumulWeightLimit / 2
        alreadyGeneratedCoins := chain.db.alreadyGeneratedCoinsAt (height - 1)
        difficulty := difficulty
        seedHeight := if seeded then some (rxSeedheight height) else none
        seedHash := if seeded then chain.db.getBlockIdByHeight env (rxSeedheight height)
          else nullHash }, cached)

def templateTimestamp (now : Nat) (block : Block) : Nat :=
  if chain.checkBlockTimestamp now { block with timestamp := now } then now
  else
    median ((chain.db.blockRange (chain.db.height - timestampCheckWindow)
      chain.db.height).map fun entry => entry.bl.timestamp)

end Blockchain

inductive MinerTxAttempt where
  | settled (tx : Transaction)
  | retry (cumulativeWeight : Nat) (tx : Transaction)
  | failed
  deriving DecidableEq, Repr

def weightWith (txsWeight : Nat) (tx : Transaction) : Option Nat :=
  (getTransactionWeight tx).map (addMod 64 txsWeight)

def settleAttempt (txsWeight cumulativeWeight : Nat) (tx : Transaction) : MinerTxAttempt :=
  if weightWith txsWeight tx = some cumulativeWeight then .settled tx
  else .failed

/-- Pads a miner transaction; the varint length of the extra field may make it a byte too long. -/
def padAttempt (txsWeight cumulativeWeight delta : Nat) (tx : Transaction) : MinerTxAttempt :=
  let padded := { tx with extra := tx.extra ++ List.replicate delta 0 }
  if weightWith txsWeight padded = some cumulativeWeight then
    settleAttempt txsWeight cumulativeWeight padded
  else if weightWith txsWeight padded = some (addMod 64 cumulativeWeight 1) then
    let shortened := { padded with extra := padded.extra.dropLast }
    if weightWith txsWeight shortened = some cumulativeWeight then
      settleAttempt txsWeight cumulativeWeight shortened
    else .retry (addMod 64 cumulativeWeight (subMod 64 delta 1)) shortened
  else .failed

def attemptMinerTx (txsWeight cumulativeWeight : Nat) (tx : Transaction) : MinerTxAttempt :=
  match getTransactionWeight tx with
  | none => .failed
  | some coinbaseWeight =>
    let room := subMod 64 cumulativeWeight txsWeight
    if room < coinbaseWeight then .retry (addMod 64 txsWeight coinbaseWeight) tx
    else if coinbaseWeight < room then
      padAttempt txsWeight cumulativeWeight (subMod 64 room coinbaseWeight) tx
    else settleAttempt txsWeight cumulativeWeight tx

/-- The loop of `create_block_template`. `construct` overwrites the miner transaction for a weight;
its first argument counts calls. -/
def minerTxLoop (construct : Nat → Nat → Transaction → Option Transaction)
    (txsWeight : Nat) : Nat → Nat → Nat → Transaction → Option Transaction
  | 0, _, _, _ => none
  | tries + 1, call, cumulativeWeight, tx =>
    match construct call cumulativeWeight tx with
    | none => none
    | some built =>
      match attemptMinerTx txsWeight cumulativeWeight built with
      | .settled final => some final
      | .failed => none
      | .retry weight last => minerTxLoop construct txsWeight tries (call + 1) weight last

def templateMinerTx (tenv : TemplateEnv) (address : AccountPublicAddress)
    (extraNonce : List UInt8) (start : TemplateStart) (txsWeight fee : Nat) : Option Transaction :=
  let version := start.block.majorVersion
  let construct := fun call weight tx =>
    constructMinerTx (tenv.drawKeys address call) tenv.sortTxExtra
      start.height start.medianWeight start.alreadyGeneratedCoins weight fee tx
      extraNonce (if 4 ≤ version then 1 else 11) version
  (construct 0 txsWeight start.block.minerTx).bind fun first =>
    (weightWith txsWeight first).bind fun cumulativeWeight =>
      minerTxLoop construct txsWeight 10 1 cumulativeWeight first

namespace Blockchain

variable (chain : Blockchain)

def templateFill (env : Env) (tenv : TemplateEnv)
    (now : Nat) (start : TemplateStart) : TemplateFill × Bool :=
  chain.txPool.fillBlockTemplate (chain.view env now) tenv start.fillParams

def completeTemplate (env : Env) (tenv : TemplateEnv)
    (now : Nat) (address : AccountPublicAddress) (extraNonce : List UInt8)
    (start : TemplateStart) : Option BlockTemplate × Blockchain :=
  let stamped := { start.block with timestamp := chain.templateTimestamp now start.block }
  if start.difficulty = 0 then (none, chain)
  else
    let (fill, filled) := chain.templateFill env tenv now start
    let after := { chain with txPool := fill.pool }
    if !filled then (none, after)
    else
      ((templateMinerTx tenv address extraNonce start fill.totalWeight fill.fee).map fun minerTx =>
          { block := { stamped with minerTx := minerTx, txHashes := fill.txHashes }
            difficulty := start.difficulty
            height := start.height
            expectedReward := fill.bestCoinbase
            seedHeight := start.seedHeight
            seedHash := start.seedHash }, after)

def cacheAnswers (env : Env) (cache : TemplateCache)
    (address : AccountPublicAddress) (extraNonce : List UInt8) : Bool :=
  chain.btcValid && decide (address = cache.address) && decide (cache.nonce = extraNonce) &&
    decide (cache.poolCookie = chain.txPool.cookie) &&
    decide (cache.template.block.prevId = chain.db.topBlockHash env)

/-- `create_block_template` into a default-constructed block, as every caller has it. -/
def createBlockTemplate (env : Env) (tenv : TemplateEnv)
    (now : Nat) (cache : TemplateCache) (fromBlock : Option Hash)
    (address : AccountPublicAddress) (extraNonce : List UInt8) :
    Option BlockTemplate × Blockchain × TemplateCache :=
  match fromBlock with
  | some id =>
    match chain.startFromBlock env id with
    | none => (none, chain, cache)
    | some start =>
      let (template, after) := chain.completeTemplate env tenv now address extraNonce start
      (template, after, cache)
  | none =>
    if chain.cacheAnswers env cache address extraNonce then
      let block := cache.template.block
      let refreshed := { cache.template with
          block := { block with timestamp := max block.timestamp now } }
      (some refreshed, chain, { cache with template := refreshed })
    else
      match { chain with btcValid := false }.startFromTip env with
      | (none, cached) => (none, cached, cache)
      | (some start, cached) =>
        match cached.completeTemplate env tenv now address extraNonce start with
        | (none, after) => (none, after, cache)
        | (some template, after) =>
          (some template, { after with btcValid := true },
            ⟨template, address, extraNonce, after.txPool.cookie⟩)

end Blockchain

/-! ## The rewards a template is filled by -/

open List Option BlockchainDB TxMemoryPool

def RewardQuery.PaidAt (params : FillParams) (height : Nat) (query : RewardQuery) : Prop :=
  query.reward = getBlockReward params.medianWeight
    query.currentBlockWeight params.alreadyGeneratedCoins params.version height

structure RewardQuery.OfEra (params : FillParams) (height : Nat) (query : RewardQuery) : Prop where
  era : query.height / halvingInterval = height / halvingInterval
  reward : query.PaidAt params height

theorem getBaseReward_of_era {left right : Nat} (coins : Nat) (leftPos : 0 < left)
    (rightPos : 0 < right) (era : left / halvingInterval = right / halvingInterval) :
    getBaseReward coins left = getBaseReward coins right := by
  have scheduled : scheduledReward left = scheduledReward right := by
    rw [scheduledReward_eq_eraReward leftPos, scheduledReward_eq_eraReward rightPos, era]
  simp only [getBaseReward, scheduled, leftPos.ne', rightPos.ne', if_false]

variable {query : RewardQuery} {id : Hash}

namespace TxMemoryPool

variable {view : ChainView} {tenv : TemplateEnv} {params : FillParams}

theorem consider_queries {fill : TemplateFill} {txMeta : TxpoolTxMeta}
    (asked : query ∈ (consider view params fill txMeta).1) :
    ∃ weight, query = templateReward view params weight := by
  refine ⟨addMod 64 fill.totalWeight txMeta.weight, ?_⟩
  unfold consider at asked
  cases reward : (templateReward view params (addMod 64 fill.totalWeight txMeta.weight)).reward with
  | none =>
    simp [reward] at asked
    split_ifs at asked
    all_goals first
      | exact mem_singleton.mp asked
      | exact absurd asked not_mem_nil
  | some blockReward =>
    simp [reward] at asked
    split_ifs at asked
    all_goals first
      | exact mem_singleton.mp asked
      | exact absurd asked not_mem_nil

@[simp]
theorem includeCandidate_queries (fill : TemplateFill) (txid : Hash)
    (poolEntry : PoolEntry) (coinbase : Nat) :
    (includeCandidate view tenv fill txid poolEntry coinbase).queries = fill.queries := by
  unfold includeCandidate
  generalize isTransactionReadyToGo view tenv poolEntry.txMeta poolEntry.tx = checked
  dsimp only
  split_ifs <;> rfl

def AsksBetween (view : ChainView) (params : FillParams) (fill next : TemplateFill) : Prop :=
  ∃ asked, next.queries = fill.queries ++ asked ∧
    ∀ query ∈ asked, ∃ weight, query = templateReward view params weight

theorem AsksBetween.refl (fill : TemplateFill) : AsksBetween view params fill fill :=
  ⟨[], (append_nil _).symm, by simp⟩

theorem AsksBetween.trans {first second third : TemplateFill}
    (prev : AsksBetween view params first second)
    (later : AsksBetween view params second third) : AsksBetween view params first third := by
  obtain ⟨asked, middle, askedHere⟩ := prev
  obtain ⟨others, last, askedLater⟩ := later
  refine ⟨asked ++ others, ?_, ?_⟩
  · rw [last, middle, append_assoc]
  · intro query mem
    rcases mem_append.mp mem with before | after
    · exact askedHere query before
    · exact askedLater query after

theorem fillFrom_asksBetween (elements : List FeeOrderEntry) (fill : TemplateFill) :
    AsksBetween view params fill (fillFrom view tenv params elements fill) := by
  induction elements generalizing fill with
  | nil => exact AsksBetween.refl fill
  | cons element rest ih =>
    rw [fillFrom]
    cases fill.pool.txpool.lookup element.txid with
    | none => exact ih fill
    | some entry =>
      dsimp only
      rcases considered : consider view params fill entry.txMeta with
        ⟨asked, decision⟩
      have noted : ∀ next : TemplateFill, next.queries = fill.queries ++ asked →
            AsksBetween view params fill next := by
        intro next same
        refine ⟨asked, same, ?_⟩
        intro query mem
        apply consider_queries
        rw [considered]
        exact mem
      cases decision with
      | skipped => exact (noted _ rfl).trans (ih _)
      | stopped => exact noted _ rfl
      | candidate coinbase => exact (noted _ (by simp)).trans (ih _)

theorem baseline_mem_queries (pool : TxMemoryPool) :
    templateReward view params 0 ∈ (pool.fillBlockTemplate view tenv params).1.queries := by
  unfold fillBlockTemplate
  cases reward : (templateReward view params 0).reward with
  | none => simp [reward]
  | some bestCoinbase =>
    simp [reward]
    obtain ⟨asked, recorded, _⟩ := fillFrom_asksBetween _ _
    rw [recorded]
    simp

theorem mem_queries {pool : TxMemoryPool}
    (asked : query ∈ (pool.fillBlockTemplate view tenv params).1.queries) :
    ∃ weight, query = templateReward view params weight := by
  unfold fillBlockTemplate at asked
  cases reward : (templateReward view params 0).reward with
  | none =>
    simp [reward] at asked
    exact ⟨0, asked⟩
  | some bestCoinbase =>
    simp [reward] at asked
    obtain ⟨others, recorded, askedLater⟩ := fillFrom_asksBetween _ _
    rw [recorded] at asked
    rcases mem_append.mp asked with first | later
    · exact ⟨0, mem_singleton.mp first⟩
    · exact askedLater query later

theorem templateReward_paidAt {height : Nat} (weight : Nat)
    (same : getBaseReward params.alreadyGeneratedCoins view.height =
      getBaseReward params.alreadyGeneratedCoins height) :
    (templateReward view params weight).PaidAt params height := by
  simp [RewardQuery.PaidAt, templateReward, getBlockReward, same]

end TxMemoryPool

namespace Blockchain

variable {env : Env}

@[simp]
theorem view_height (chain : Blockchain) (env : Env) (now : Nat) :
    (chain.view env now).height = chain.db.height :=
  rfl

variable {altChain : List BlockExtendedInfo} {chain : Blockchain} {start : TemplateStart}

theorem buildAltChain_height_pos {db : BlockchainDB} {times : List Nat}
    (built : db.buildAltChain env id = some (altChain, times)) : 0 < db.height := by
  unfold buildAltChain at built
  cases branch : db.altChainTo id with
  | nil =>
    rw [branch] at built
    split at built
    · simp at built
    · rename_i known
      apply length_pos_of_ne_nil
      intro empty
      simp [blockExists, blockHashes, empty] at known
  | cons front later =>
    rw [branch] at built
    dsimp only at built
    split at built
    · simp at built
    · omega

theorem startOnMain_spec (started : chain.startOnMain env id altChain = some start) :
    ∃ prevBlock parent, chain.db.getBlock env id = some prevBlock ∧
      chain.db.blocks[getBlockHeight prevBlock]? = some parent ∧
      start.height = getBlockHeight prevBlock + 1 ∧ start.medianWeight = parent.blockWeight ∧
      start.alreadyGeneratedCoins = parent.alreadyGeneratedCoins ∧ start.block.majorVersion =
        chain.hardfork.getIdealVersion (getBlockHeight prevBlock + 1) := by
  obtain ⟨prevBlock, found, started⟩ := bind_eq_some_iff.mp started
  obtain ⟨parent, parentAt, started⟩ := bind_eq_some_iff.mp started
  refine ⟨prevBlock, parent, found, parentAt, ?_⟩
  rw [← some.inj started]
  exact ⟨rfl, rfl, rfl, rfl⟩

theorem startOnAlternative_height {prevData : BlockExtendedInfo}
    (started : chain.startOnAlternative env id prevData altChain = some start) :
    ∃ back, altChain.getLast? = some back ∧ start.height = back.height + 1 := by
  obtain ⟨back, last, started⟩ := bind_eq_some_iff.mp started
  refine ⟨back, last, ?_⟩
  rw [← some.inj started]

theorem startFromBlock_pos (started : chain.startFromBlock env id = some start) :
    0 < chain.db.height ∧ 0 < start.height := by
  unfold startFromBlock at started
  split at started
  · cases started
  · split at started
    · cases started
    · rename_i altChain times built
      apply And.intro (buildAltChain_height_pos built)
      split at started
      · obtain ⟨prevBlock, parent, -, -, height, -⟩ := startOnMain_spec started
        omega
      · obtain ⟨prevData, -, onBranch⟩ := bind_eq_some_iff.mp started
        obtain ⟨back, -, height⟩ := startOnAlternative_height onBranch
        omega

/-- The rewards that fill a template are those of its own era exactly when the main chain is in that
era, and have the same values exactly when the base rewards at the two heights do. -/
theorem templateFill_ofEra_iff (chain : Blockchain) (env : Env)
    (tenv : TemplateEnv) (now : Nat) (fromBlock : Hash) (start : TemplateStart)
    (started : chain.startFromBlock env fromBlock = some start) :
    ((∀ query ∈ (chain.templateFill env tenv now start).1.queries,
        query.OfEra start.fillParams start.height) ↔
      chain.db.height / halvingInterval = start.height / halvingInterval) ∧
    ((∀ query ∈ (chain.templateFill env tenv now start).1.queries,
        query.PaidAt start.fillParams start.height) ↔
      getBaseReward start.alreadyGeneratedCoins chain.db.height =
        getBaseReward start.alreadyGeneratedCoins start.height) := by
  obtain ⟨chainPos, startPos⟩ := startFromBlock_pos started
  refine ⟨⟨?_, ?_⟩, ?_, ?_⟩
  · intro ofEra
    exact (ofEra _ (baseline_mem_queries _)).era
  · intro era query asked
    obtain ⟨weight, rfl⟩ := mem_queries asked
    exact ⟨era, templateReward_paidAt weight (getBaseReward_of_era _ chainPos startPos era)⟩
  · intro paid
    have baseline := paid _ (baseline_mem_queries _)
    simpa [RewardQuery.PaidAt, templateReward, getBlockReward, penalizedReward,
      TemplateStart.fillParams] using baseline
  · intro same query asked
    obtain ⟨weight, rfl⟩ := mem_queries asked
    exact templateReward_paidAt weight same

def firstEraEntry (height : Nat) : BlockEntry where
  bl :=
    { majorVersion := if height < 2 then 1 else 16
      minorVersion := 16
      timestamp := 120 * height
      prevId := height
      nonce := 0
      minerTx := { Transaction.setNull with vin := [.gen height] }
      txHashes := [] }
  blockWeight := 100
  longTermBlockWeight := 100
  cumulativeDifficulty := height + 1
  alreadyGeneratedCoins := initialReward * height
  txs := []

def firstEraChain (height : Nat) : Blockchain :=
  { Blockchain.empty with
    db := ⟨(List.range height).map firstEraEntry, ∅, ∅⟩
    fixedDifficulty := 1 }

def heightEnv : Env :=
  Env.accepting (fun block => getBlockHeight block + 1) (fun _ => 0)

def plainTemplateEnv : TemplateEnv where
  drawKeys := fun _ _ => ⟨List.replicate 32 0, fun index => some (index, 0)⟩
  sortTxExtra := some
  failedInputsHeight := fun _ => 0

@[simp]
theorem firstEraChain_height (height : Nat) : (firstEraChain height).db.height = height := by
  simp [firstEraChain, BlockchainDB.height]

section

variable {height parent : Nat} (below : parent < height)

include below

theorem firstEraChain_getBlock :
    (firstEraChain height).db.getBlock heightEnv (parent + 1) = some (firstEraEntry parent).bl := by
  have found : (List.range height).find? (fun index =>
      heightEnv.getBlockHash (firstEraEntry index).bl == parent + 1) = some parent := by
    rw [find?_range_eq_some]
    refine ⟨?_, mem_range.mpr below, ?_⟩
    · simp [heightEnv, Env.accepting, firstEraEntry, getBlockHeight]
    · intro index smaller
      simp [heightEnv, Env.accepting, firstEraEntry, getBlockHeight]
      omega
  simp only [getBlock, firstEraChain, find?_map,
    Function.comp_def, found, map_some]

theorem firstEraChain_blockExists :
    (firstEraChain height).db.blockExists heightEnv (parent + 1) = true := by
  simp [blockExists, blockHashes, firstEraChain]
  exact ⟨parent, below, rfl⟩

theorem firstEraChain_startFromBlock :
    ∃ start, (firstEraChain height).startFromBlock heightEnv (parent + 1) = some start ∧
      start.height = parent + 1 ∧ start.medianWeight = 100 ∧
      start.alreadyGeneratedCoins = initialReward * parent ∧ start.block.majorVersion =
        (firstEraChain height).hardfork.getIdealVersion (parent + 1) := by
  have parentAt : (firstEraChain height).db.blocks[parent]? = some (firstEraEntry parent) := by
    simp [firstEraChain, below]
  have genHeight : getBlockHeight (firstEraEntry parent).bl = parent := rfl
  have known := firstEraChain_blockExists below
  have onMain : (firstEraChain height).startFromBlock heightEnv (parent + 1) =
      (firstEraChain height).startOnMain heightEnv (parent + 1) [] := by
    have noAlternative : (firstEraChain height).db.altBlocks.lookup (parent + 1) = none := rfl
    have noBranch : (firstEraChain height).db.altChainTo (parent + 1) = [] := rfl
    simp [startFromBlock, buildAltChain, noAlternative, noBranch, known]
  have started : ∃ start, (firstEraChain height).startOnMain heightEnv
      (parent + 1) [] = some start := by
    unfold startOnMain
    rw [firstEraChain_getBlock below]
    dsimp only [bind_eq_bind, bind_some]
    rw [genHeight, Nat.add_sub_cancel, parentAt]
    exact ⟨_, rfl⟩
  obtain ⟨start, started⟩ := started
  obtain ⟨prevBlock, entry, found, entryAt, height, median, coins, version⟩ :=
    startOnMain_spec started
  rw [firstEraChain_getBlock below] at found
  obtain rfl := some.inj found
  obtain rfl := some.inj (parentAt.symm.trans entryAt)
  exact ⟨start, onMain.trans started, height, median, coins, version⟩

end

/-- On the last block but one of the first era the empty block is priced with the reward of the
second. -/
theorem firstEraChain_prices_next_era :
    ∃ start, (firstEraChain 500000).startFromBlock heightEnv 499999 = some start ∧
      start.height / halvingInterval = 0 ∧
      getBlockReward start.medianWeight 0 start.alreadyGeneratedCoins
        start.block.majorVersion start.height = some 10000000000 ∧
      ⟨0, 500000, some 5000000000⟩ ∈ ((firstEraChain 500000).templateFill
        heightEnv plainTemplateEnv 60000000 start).1.queries := by
  obtain ⟨start, started, height, median, coins, version⟩ :=
    @firstEraChain_startFromBlock 500000 499998 (by decide)
  refine ⟨start, started, by rw [height]; decide, ?_, ?_⟩
  · rw [height, median, coins, version]
    decide
  · have asked := @TxMemoryPool.baseline_mem_queries
      ((firstEraChain 500000).view heightEnv 60000000) plainTemplateEnv start.fillParams
      (firstEraChain 500000).txPool
    have priced : templateReward ((firstEraChain 500000).view heightEnv 60000000)
        start.fillParams 0 = ⟨0, 500000, some 5000000000⟩ := by
      simp [templateReward, TemplateStart.fillParams, view_height, firstEraChain_height, median,
        coins, version]
      decide
    rwa [priced] at asked

theorem firstEraChain_prices_own_era :
    ∃ start, (firstEraChain 499999).startFromBlock heightEnv 499998 = some start ∧
      ∀ query ∈ ((firstEraChain 499999).templateFill heightEnv plainTemplateEnv
        60000000 start).1.queries, query.OfEra start.fillParams start.height := by
  obtain ⟨start, started, height, -⟩ := @firstEraChain_startFromBlock 499999 499997 (by decide)
  refine ⟨start, started, (templateFill_ofEra_iff _
    heightEnv plainTemplateEnv 60000000 499998 start started).1.mpr ?_⟩
  rw [firstEraChain_height, height]
  decide

end Blockchain

end LodeChain

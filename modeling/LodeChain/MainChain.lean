import LodeChain.Difficulty
import LodeChain.HardForkReplay
import LodeChain.TransactionPool

/-!
# Adding and removing main-chain blocks

`handle_block_to_main_chain` in three stages: header, transactions, validation and storage.
-/

namespace LodeChain

/-- A main-chain block with its `mdb_block_info` record and its
transactions. -/
structure BlockEntry where
  bl : Block
  blockWeight : Nat
  longTermBlockWeight : Nat
  cumulativeDifficulty : Nat
  alreadyGeneratedCoins : Nat
  txs : List Transaction
  deriving DecidableEq, Repr

/-- `block_extended_info`, also what the table of alternative blocks stores. -/
structure BlockExtendedInfo where
  bl : Block
  height : Nat
  blockCumulativeWeight : Nat
  cumulativeDifficulty : Nat
  alreadyGeneratedCoins : Nat
  deriving DecidableEq, Repr

def BlockEntry.bare (version timestamp : Nat) (prevId : Hash)
    (cumulativeDifficulty : Nat) : BlockEntry where
  bl := ⟨version, version, timestamp, prevId, 0, Transaction.setNull, []⟩
  blockWeight := 0
  longTermBlockWeight := 0
  cumulativeDifficulty := cumulativeDifficulty
  alreadyGeneratedCoins := 0
  txs := []

structure BlockchainDB where
  blocks : List BlockEntry
  altBlocks : AList fun _ : Hash => BlockExtendedInfo
  hfVersions : HfVersions

structure DifficultyCache where
  timestamps : List Nat
  difficulties : List Nat
  timestampsAndDifficultiesHeight : Nat
  resetTimestampsAndDifficultiesHeight : Bool
  difficultyForNextBlockTopHash : Hash
  difficultyForNextBlock : Nat
  deriving DecidableEq, Repr

structure Blockchain where
  db : BlockchainDB
  txPool : TxMemoryPool
  hardfork : HardFork
  checkpoints : List (Nat × Hash)
  invalidBlocks : List Hash
  fixedDifficulty : Nat
  difficultyCache : DifficultyCache
  longTermBlockWeightsWindow : Nat
  currentBlockCumulWeightLimit : Nat
  currentBlockCumulWeightMedian : Nat
  longTermEffectiveMedianBlockWeight : Nat
  blocksHashCheck : List (Hash × Nat)
  blocksTxsCheck : List Hash
  blocksLonghashTable : List (Hash × Hash)
  batchSuccess : Bool
  btcValid : Bool

/-- A main-network node with an empty database, before `init`. -/
def Blockchain.empty : Blockchain where
  db := ⟨[], ∅, ∅⟩
  txPool := TxMemoryPool.empty
  hardfork := ⟨1, 1, 10080, mainnetHardForks, [], 0⟩
  checkpoints := []
  invalidBlocks := []
  fixedDifficulty := 0
  difficultyCache := ⟨[], [], 0, true, nullHash, 1⟩
  longTermBlockWeightsWindow := longTermBlockWeightWindowSize
  currentBlockCumulWeightLimit := 0
  currentBlockCumulWeightMedian := 0
  longTermEffectiveMedianBlockWeight := 0
  blocksHashCheck := []
  blocksTxsCheck := []
  blocksLonghashTable := []
  batchSuccess := true
  btcValid := false

structure Env where
  getBlockHash : Block → Hash
  getTransactionHash : Transaction → Hash
  rxSlowHash : Hash → Block → Hash
  cnSlowHash : Block → Nat → Nat → Hash
  checkTxInputs : Blockchain → Nat → Transaction → Option Nat
  checkTxOutputs : Blockchain → Transaction → Bool
  checkFee : Blockchain → Nat → Nat → Bool
  prunedTransactionWeight : Transaction → Option Nat
  dbWriteError : Blockchain → Block → Bool
  feePerByte : Nat → Nat → Nat
  forwardTime : Nat → Nat

/-- Every check passes and every proof-of-work hash is zero. -/
def Env.accepting (getBlockHash : Block → Hash)
    (getTransactionHash : Transaction → Hash) : Env where
  getBlockHash := getBlockHash
  getTransactionHash := getTransactionHash
  rxSlowHash := fun _ _ => 0
  cnSlowHash := fun _ _ _ => 0
  checkTxInputs := fun _ _ _ => some 0
  checkTxOutputs := fun _ _ => true
  checkFee := fun _ _ _ => true
  prunedTransactionWeight := fun _ => none
  dbWriteError := fun _ _ => false
  feePerByte := fun fee weight => fee / weight
  forwardTime := fun _ => 0

structure BlockVerificationContext where
  addedToMainChain : Bool
  verifivationFailed : Bool
  markedAsOrphaned : Bool
  alreadyExists : Bool
  partialBlockReward : Bool
  badPow : Bool
  deriving DecidableEq, Repr

def BlockVerificationContext.init : BlockVerificationContext :=
  ⟨false, false, false, false, false, false⟩

namespace BlockchainDB

variable (db : BlockchainDB)

def height : Nat :=
  db.blocks.length

variable (env : Env)

def topBlockHash : Hash :=
  match db.blocks.getLast? with
  | none => nullHash
  | some entry => env.getBlockHash entry.bl

def blockHashes : List Hash :=
  db.blocks.map fun entry => env.getBlockHash entry.bl

def blockExists (id : Hash) : Bool :=
  (db.blockHashes env).contains id

def getBlockHeight (id : Hash) : Nat :=
  (db.blockHashes env).idxOf id

def getBlockIdByHeight (height : Nat) : Hash :=
  (db.blockHashes env).getD height nullHash

def cumulativeDifficultyAt (height : Nat) : Nat :=
  (db.blocks.map BlockEntry.cumulativeDifficulty).getD height 0

def alreadyGeneratedCoinsAt (height : Nat) : Nat :=
  (db.blocks.map BlockEntry.alreadyGeneratedCoins).getD height 0

def blockRange (start stop : Nat) : List BlockEntry :=
  (db.blocks.take stop).drop start

def txIds (entry : BlockEntry) : List Hash :=
  env.getTransactionHash entry.bl.minerTx :: entry.bl.txHashes

def txExists (txid : Hash) : Bool :=
  db.blocks.any fun entry => (txIds env entry).contains txid

def getTx (txid : Hash) : Option Transaction :=
  db.blocks.findSome? fun entry =>
    ((txIds env entry).zip (entry.bl.minerTx :: entry.txs)).lookup txid

def hasKeyImage (keyImage : KeyImage) : Bool :=
  db.blocks.any fun entry => entry.txs.any fun tx => tx.keyImages.contains keyImage

def addBlockThrows (block : Block) (txs : List Transaction) : Bool :=
  let newIds := env.getTransactionHash block.minerTx :: block.txHashes
  let newImages := txs.flatMap Transaction.keyImages
  decide (block.txHashes.length ≠ txs.length) ||
    !decide newIds.Nodup || newIds.any (db.txExists env) ||
    !decide newImages.Nodup || newImages.any db.hasKeyImage ||
    !(block.minerTx :: txs).all (fun tx => tx.vin.all TxIn.isStorable) ||
    db.blockExists env (env.getBlockHash block) ||
    (decide (db.height = 0) && decide (4 ≤ block.majorVersion)) ||
    (decide (0 < db.height) && decide (block.prevId ≠ db.topBlockHash env))

end BlockchainDB

namespace Blockchain

variable (chain : Blockchain)

def getCurrentHardForkVersion : Nat :=
  chain.hardfork.getCurrentVersion

def haveBlock (env : Env) (id : Hash) : Bool :=
  chain.db.blockExists env id || (chain.db.altBlocks.lookup id).isSome ||
    chain.invalidBlocks.contains id

def isInCheckpointZone (height : Nat) : Bool :=
  chain.checkpoints.any fun point => height ≤ point.1

def checkCheckpoint (height : Nat) (id : Hash) : Bool :=
  (chain.checkpoints.lookup height).all fun expected => expected == id

def isACheckpoint (height : Nat) : Bool :=
  (chain.checkpoints.lookup height).isSome

/-- `is_alternative_block_allowed`: above every checkpoint the chain has reached. -/
def isAlternativeBlockAllowed (blockHeight : Nat) : Bool :=
  decide (blockHeight ≠ 0) && chain.checkpoints.all fun point =>
      decide (chain.db.height < point.1) || decide (point.1 < blockHeight)

def view (env : Env) (now : Nat) : ChainView where
  now := now
  forwardTime := env.forwardTime now
  height := chain.db.height
  checkFee := env.checkFee chain
  checkTxOutputs := env.checkTxOutputs chain
  checkTxInputs := fun tx keptByBlock =>
    if chain.db.height < chain.blocksHashCheck.length ∧ keptByBlock then some (0, nullHash)
    else
      (env.checkTxInputs chain now tx).bind fun maxUsedBlockHeight =>
        if maxUsedBlockHeight < chain.db.height then
          some (maxUsedBlockHeight, chain.db.getBlockIdByHeight env maxUsedBlockHeight)
        else none
  haveTxKeyimgesAsSpent := fun tx => tx.vin.any fun
    | .toKey _ _ keyImage => chain.db.hasKeyImage keyImage
    | _ => true
  getBlockIdByHeight := chain.db.getBlockIdByHeight env
  feePerByte := env.feePerByte

end Blockchain

/-- `rx_seedheight` with its default epoch of 2048 blocks and lag of 64. -/
def rxSeedheight (height : Nat) : Nat :=
  if height ≤ 2048 + 64 then 0
  else (height - 64 - 1) / 2048 * 2048

/-- `get_block_longhash`, the fixed hash at height 202612 included. -/
def getBlockLonghash (env : Env) (db : BlockchainDB) (block : Block) (height : Nat) : Hash :=
  if height = 202612 then 0x000000034f25c3aef4fe195ac96385e5866492f1beefc97a83515d476647f684
  else if rxBlockVersion ≤ block.majorVersion then
    env.rxSlowHash (db.getBlockIdByHeight env (rxSeedheight height)) block
  else env.cnSlowHash block (if 7 ≤ block.majorVersion then block.majorVersion - 6 else 0) height

/-! ## Medians, difficulty and timestamps -/

open WrappedArithmetic BlockEntry

namespace Blockchain

variable (chain : Blockchain)

def getLastNBlocksWeights (count : Nat) : List Nat :=
  (chain.db.blockRange (chain.db.height - min chain.db.height count)
    chain.db.height).map blockWeight

def getLongTermBlockWeightMedian (startHeight count : Nat) : Nat :=
  median ((chain.db.blockRange startHeight (startHeight + count)).map longTermBlockWeight)

def longTermEffectiveMedian : Nat :=
  let nblocks := min chain.longTermBlockWeightsWindow chain.db.height
  max fullRewardZoneV5 (chain.getLongTermBlockWeightMedian (chain.db.height - nblocks) nblocks)

def getNextLongTermBlockWeight (blockWeight : Nat) : Nat :=
  let hfVersion := chain.getCurrentHardForkVersion
  if hfVersion < hfVersionLongTermBlockWeight then blockWeight
  else
    let effective := chain.longTermEffectiveMedian
    if hfVersion2021Scaling ≤ hfVersion then
      min (max blockWeight (mulMod 64 effective 10 / 17))
        (addMod 64 effective (mulMod 64 effective 7 / 10))
    else min blockWeight (addMod 64 effective (mulMod 64 effective 2 / 5))

def nextBlockWeightMedian : Nat :=
  let hfVersion := chain.getCurrentHardForkVersion
  let shortTermMedian := median (chain.getLastNBlocksWeights rewardBlocksWindow)
  if hfVersion < hfVersionLongTermBlockWeight then shortTermMedian
  else
    let effective := chain.longTermEffectiveMedian
    let surge := mulMod 64 shortTermBlockWeightSurgeFactor effective
    if hfVersion2021Scaling ≤ hfVersion then min (max effective shortTermMedian) surge
    else min (max fullRewardZoneV5 shortTermMedian) surge

def updateNextCumulativeWeightLimit : Blockchain :=
  let hfVersion := chain.getCurrentHardForkVersion
  let nextMedian := max chain.nextBlockWeightMedian (getMinBlockWeight hfVersion)
  { chain with
    longTermEffectiveMedianBlockWeight := if hfVersion < hfVersionLongTermBlockWeight then
        chain.longTermEffectiveMedianBlockWeight
      else chain.longTermEffectiveMedian
    currentBlockCumulWeightMedian := nextMedian
    currentBlockCumulWeightLimit := mulMod 64 nextMedian 2 }

def resetDifficultyCache : Blockchain :=
  { chain with
    difficultyCache := { chain.difficultyCache with
        timestampsAndDifficultiesHeight := 0
        resetTimestampsAndDifficultiesHeight := true } }

def getDifficultyTarget : Nat :=
  if chain.getCurrentHardForkVersion < 2 then difficultyTargetV1
  else difficultyTargetV2

def difficultyBlocks : List BlockEntry :=
  let height := chain.db.height
  let offset := height - min height difficultyBlocksCount
  chain.db.blockRange (if offset = 0 then 1 else offset) height

def incrementalWindow : Option (List Nat × List Nat) :=
  let cache := chain.difficultyCache
  let cachedHeight := if cache.resetTimestampsAndDifficultiesHeight then 0
    else cache.timestampsAndDifficultiesHeight
  if cachedHeight ≠ 0 ∧ chain.db.height = cachedHeight + 1 ∧
      difficultyBlocksCount ≤ cache.timestamps.length then
    let newest := chain.db.blockRange (chain.db.height - 1) chain.db.height
    some ((cache.timestamps ++ newest.map fun entry => entry.bl.timestamp).rtake
          difficultyBlocksCount,
        (cache.difficulties ++ newest.map cumulativeDifficulty).rtake difficultyBlocksCount)
  else none

/-- The difficulty, the chain with its caches, whether the log is dumped and whether the cached
value differed. -/
structure DifficultyPass where
  difficulty : Nat
  chain : Blockchain
  print : Bool
  mismatch : Bool

/-- One pass from the label `start`. What is cached is only compared. -/
def difficultyPass (env : Env) : DifficultyPass :=
  let topHash := chain.db.topBlockHash env
  let cached := if topHash = chain.difficultyCache.difficultyForNextBlockTopHash then
      chain.difficultyCache.difficultyForNextBlock
    else 0
  let timestamps := chain.difficultyBlocks.map fun entry => entry.bl.timestamp
  let difficulties := chain.difficultyBlocks.map cumulativeDifficulty
  let inconsistent := chain.incrementalWindow.any fun kept => kept != (timestamps, difficulties)
  let difficulty := nextDifficulty timestamps difficulties chain.getDifficultyTarget
  let mismatch := decide (cached ≠ 0 ∧ cached ≠ difficulty)
  { difficulty := difficulty
    chain := { chain with
        difficultyCache := { chain.difficultyCache with
            timestamps := timestamps
            difficulties := difficulties
            timestampsAndDifficultiesHeight := chain.db.height
            difficultyForNextBlockTopHash := topHash
            difficultyForNextBlock := difficulty } }
    print := inconsistent || mismatch
    mismatch := mismatch }

/-- `get_difficulty_for_next_block`, which runs a second pass after a
mismatch. -/
def getDifficultyForNextBlock (env : Env) : Nat × Blockchain :=
  if chain.fixedDifficulty ≠ 0 then
    (if chain.db.height = 0 then 1 else chain.fixedDifficulty, chain)
  else
    let first := chain.difficultyPass env
    if first.mismatch then
      let second := first.chain.difficultyPass env
      (second.difficulty, second.chain)
    else (first.difficulty, first.chain)

def checkCollectedTimestamps (timestamps : List Nat) (block : Block) : Bool :=
  decide (median timestamps ≤ block.timestamp)

def checkMedianTimestamp (block : Block) : Bool :=
  if chain.db.height < timestampCheckWindow then true
  else
    checkCollectedTimestamps ((chain.db.blockRange (chain.db.height - timestampCheckWindow)
        chain.db.height).map fun entry => entry.bl.timestamp) block

def checkBlockTimestamp (now : Nat) (block : Block) : Bool :=
  decide (block.timestamp ≤ now + blockFutureTimeLimit) && chain.checkMedianTimestamp block

end Blockchain

/-! ## Miner transactions -/

def prevalidateMinerTransaction (block : Block) (height hfVersion : Nat) : Bool :=
  match block.minerTx.vin with
  | [.gen genHeight] =>
    (decide (1 < block.minerTx.version) || decide (hfVersion < hfVersionMinV2CoinbaseTx)) &&
    !(decide (hfVersionRejectSigsInCoinbase ≤ hfVersion) && decide (2 ≤ block.minerTx.version) &&
      decide (block.minerTx.rctSignatures.type ≠ .null)) &&
    decide (genHeight = height) &&
    decide (block.minerTx.unlockTime = height + minedMoneyUnlockWindow) &&
    checkOutsOverflow block.minerTx &&
    checkOutputTypes block.minerTx hfVersion
  | _ => false

def validDecomposedOutputs : List Nat :=
  ((List.range 19).flatMap fun exponent =>
    (List.range 9).map fun digit => (digit + 1) * 10 ^ exponent) ++ [10 ^ 19]

def isValidDecomposedAmount (amount : Nat) : Bool :=
  validDecomposedOutputs.contains amount

structure MinerReward where
  baseReward : Nat
  partialBlockReward : Bool
  deriving DecidableEq, Repr

/-- Exact at version 1 and from version 13, at most the reward in between. -/
def settleReward (version baseReward fee moneyInUse : Nat) : Option MinerReward :=
  let allowed := addMod 64 baseReward fee
  if allowed < moneyInUse then none
  else if version < 2 ∨ hfVersionExactCoinbase ≤ version then
    if allowed ≠ moneyInUse then none
    else some ⟨baseReward, false⟩
  else if subMod 64 moneyInUse fee ≤ baseReward then
    some ⟨subMod 64 moneyInUse fee, decide (allowed ≠ moneyInUse)⟩
  else none

namespace Blockchain

def rewardMedian (chain : Blockchain) (version : Nat) : Nat :=
  if hfVersionEffectiveShortTermMedianInPenalty ≤ version then chain.currentBlockCumulWeightMedian
  else median (chain.getLastNBlocksWeights rewardBlocksWindow)

def validateMinerTransaction (chain : Blockchain) (block : Block)
    (cumulativeBlockWeight fee alreadyGeneratedCoins version : Nat) : Option MinerReward :=
  if version = 3 ∧ ¬ block.minerTx.vout.all (fun out =>
      isValidDecomposedAmount out.amount.toNat) then
    none
  else
    match getBlockReward (chain.rewardMedian version) cumulativeBlockWeight
        alreadyGeneratedCoins version (getBlockHeight block) with
    | none => none
    | some baseReward => settleReward version baseReward fee (getOutsMoneyAmount block.minerTx)

end Blockchain

def decomposeFrom (dustThreshold : Nat) : Nat → Nat → Nat → Nat → Bool → List Nat
  | 0, _, _, _, _ => []
  | fuel + 1, amount, order, dust, handled =>
    if amount = 0 then if !handled && decide (dust ≠ 0) then [dust] else []
    else
      let chunk := amount % 10 * order
      if dust + chunk ≤ dustThreshold then
        decomposeFrom dustThreshold fuel (amount / 10) (order * 10) (dust + chunk) handled
      else
        let flush := !handled && decide (dust ≠ 0)
        (if flush then [dust] else []) ++ (if chunk ≠ 0 then [chunk] else []) ++
          decomposeFrom dustThreshold fuel (amount / 10) (order * 10) dust (handled || flush)

def decomposeAmountIntoDigits (amount dustThreshold : Nat) : List Nat :=
  decomposeFrom dustThreshold 21 amount 1 0 false

def mergeOutAmountsFrom (maxOuts first : Nat) : List Nat → List Nat
  | [] => [first]
  | second :: rest =>
    if maxOuts < rest.length + 2 then mergeOutAmountsFrom maxOuts (addMod 64 second first) rest
    else first :: second :: rest

def mergeOutAmounts (maxOuts : Nat) : List Nat → List Nat
  | [] => []
  | first :: rest => mergeOutAmountsFrom maxOuts first rest

structure MinerTxKeys where
  pubKey : List UInt8
  outputKey : Nat → Option (PublicKey × UInt8)

def setTxOut (amount : Nat) (key : PublicKey) (useViewTags : Bool) (viewTag : UInt8) : TxOut where
  amount := UInt64.ofNat amount
  target := if useViewTags then .toTaggedKey key viewTag else .toKey key

def minerOutputs (keys : MinerTxKeys) (useViewTags : Bool) : Nat → List Nat → Option (List TxOut)
  | _, [] => some []
  | index, amount :: rest =>
    match keys.outputKey index, minerOutputs keys useViewTags (index + 1) rest with
    | some (key, viewTag), some outs => some (setTxOut amount key useViewTags viewTag :: outs)
    | _, _ => none

def minerTxExtra (keys : MinerTxKeys) (extraNonce : List UInt8) : Option (List UInt8) :=
  let withKey := 1 :: keys.pubKey
  if extraNonce = [] then some withKey
  else if extraNonce.length ≤ 255 then
    some (withKey ++ 2 :: UInt8.ofNat extraNonce.length :: extraNonce)
  else none

def minerOutAmounts (height maxOuts hardForkVersion blockReward : Nat) : Option (List Nat) :=
  let amounts := decomposeAmountIntoDigits blockReward
    (if 2 ≤ hardForkVersion then 0 else defaultDustThreshold)
  if maxOuts < 1 then none
  else if height = 0 ∨ 4 ≤ hardForkVersion then some (mergeOutAmounts maxOuts amounts)
  else if amounts.length ≤ maxOuts then some amounts
  else none

def minerBlockReward (baseReward fee hardForkVersion : Nat) : Nat :=
  let blockReward := addMod 64 baseReward fee
  if 2 ≤ hardForkVersion ∧ hardForkVersion < 4 then
    blockReward - blockReward % baseRewardClampThreshold
  else blockReward

/-- `construct_miner_tx`, writing into `tx`; its signatures are left as they
are. -/
def constructMinerTx (keys : MinerTxKeys) (sortTxExtra : List UInt8 → Option (List UInt8))
    (height medianWeight alreadyGeneratedCoins currentBlockWeight fee : Nat)
    (tx : Transaction) (extraNonce : List UInt8)
    (maxOuts hardForkVersion : Nat) : Option Transaction := do
  let extra ← (minerTxExtra keys extraNonce).bind sortTxExtra
  let baseReward ← getBlockReward medianWeight currentBlockWeight
    alreadyGeneratedCoins hardForkVersion height
  let blockReward := minerBlockReward baseReward fee hardForkVersion
  let amounts ← minerOutAmounts height maxOuts hardForkVersion blockReward
  let vout ← minerOutputs keys (decide (hfVersionViewTags ≤ hardForkVersion)) 0 amounts
  if sumMod 64 amounts = blockReward then
    some { tx with
        version := if 4 ≤ hardForkVersion then 2 else 1
        unlockTime := height + minedMoneyUnlockWindow
        vin := [.gen height]
        vout := vout
        extra := extra }
  else none

/-! ## Adding and removing main-chain blocks -/

inductive CallResult where
  | returned (ok : Bool)
  | threw
  deriving DecidableEq, Repr

structure BlockResult where
  chain : Blockchain
  bvc : BlockVerificationContext
  result : CallResult
  removed : List Transaction
  handedBack : List Transaction

/-- `difficultyOverhead` is the exit that does not set the failure flag. -/
inductive HeaderVerdict where
  | rejected (badPow : Bool)
  | difficultyOverhead
  | accepted (difficulty : Nat) (fastCheck : Bool)
  deriving DecidableEq, Repr

namespace Blockchain

variable (chain : Blockchain)

def expectedHash : Option Hash :=
  match chain.blocksHashCheck[chain.db.height]? with
  | some (expected, _) => if expected = nullHash then none else some expected
  | none => none

def proofOfWork (env : Env) (block : Block) (id : Hash) : Hash :=
  (chain.blocksLonghashTable.lookup id).getD (getBlockLonghash env chain.db block chain.db.height)

def checkWork (env : Env) (block : Block) (id : Hash) (difficulty : Nat) : HeaderVerdict :=
  let height := chain.db.height
  let fastCheck := chain.expectedHash.isSome
  if chain.expectedHash.any fun expected => expected != id then .rejected false
  else if !fastCheck && !checkHash (chain.proofOfWork env block id) difficulty then .rejected true
  else if chain.isInCheckpointZone height && !chain.checkCheckpoint height id then .rejected false
  else if !prevalidateMinerTransaction block height chain.getCurrentHardForkVersion then
    .rejected false
  else .accepted difficulty fastCheck

def checkHeader (env : Env) (now : Nat) (block : Block) (id : Hash) : Blockchain × HeaderVerdict :=
  if block.prevId ≠ chain.db.topBlockHash env then (chain, .rejected false)
  else if !chain.hardfork.check block then (chain, .rejected false)
  else if !chain.checkBlockTimestamp now block then (chain, .rejected false)
  else
    let (difficulty, updated) := chain.getDifficultyForNextBlock env
    if difficulty = 0 then (updated, .difficultyOverhead)
    else (updated, updated.checkWork env block id difficulty)

end Blockchain

structure TakenTxs where
  pool : TxMemoryPool
  txs : List Transaction
  feeSummary : Nat
  cumulativeBlockWeight : Nat
  prunedCount : Nat

def TakenTxs.keep (taken : TakenTxs) (poolEntry : PoolEntry) (pool : TxMemoryPool) : TakenTxs :=
  { taken with
    pool := pool
    txs := taken.txs ++ [poolEntry.tx]
    prunedCount := taken.prunedCount + if poolEntry.txMeta.pruned then 1 else 0 }

def TakenTxs.tally (taken : TakenTxs) (poolEntry : PoolEntry) : TakenTxs :=
  { taken with
    feeSummary := addMod 64 taken.feeSummary poolEntry.txMeta.fee
    cumulativeBlockWeight := addMod 64 taken.cumulativeBlockWeight poolEntry.txMeta.weight }

/-- How the transaction loop ends; `failed true` also lists the block as
invalid. -/
inductive TakeVerdict where
  | finished
  | failed (markInvalid : Bool)
  deriving DecidableEq, Repr

namespace Blockchain

variable (chain : Blockchain) (env : Env)

/-- The input check, or the comparison with the announced ids when the block hash is precomputed.
-/
def checkTakenTx (now : Nat)
    (fastCheck : Bool) (index : Nat) (txid : Hash) (tx : Transaction) : Bool :=
  if fastCheck then chain.blocksTxsCheck[index]? == some txid
  else (env.checkTxInputs chain now tx).isSome

def takeBlockTxs (chain : Blockchain) (env : Env) (now : Nat)
    (fastCheck : Bool) : List Hash → Nat → TakenTxs → TakenTxs × TakeVerdict
  | [], _, taken => (taken, .finished)
  | txid :: rest, index, taken =>
    if chain.db.txExists env txid then (taken, .failed false)
    else
      match taken.pool.takeTx (chain.view env now) txid with
      | none => (taken, .failed false)
      | some (poolEntry, pool) =>
        let kept := taken.keep poolEntry pool
        if chain.checkTakenTx env now fastCheck index txid poolEntry.tx then
          takeBlockTxs chain env now fastCheck rest (index + 1) (kept.tally poolEntry)
        else (kept, .failed true)

def returnTxsFrom (chain : Blockchain) (env : Env) (now : Nat) :
    List Transaction → TxMemoryPool → TxMemoryPool × Bool
  | [], pool => (pool, true)
  | tx :: rest, pool =>
    match getTransactionWeight tx with
    | none => (pool, false)
    | some weight =>
      let (added, _) := pool.addTx (chain.view env now) tx
        (env.getTransactionHash tx) weight .block true
        chain.getCurrentHardForkVersion
      returnTxsFrom chain env now rest added

def returnTxToPool (now : Nat) (txs : List Transaction) : Blockchain × Bool :=
  let (pool, ok) := chain.returnTxsFrom env now txs chain.txPool
  ({ chain with txPool := pool }, ok)

def failReturning (now : Nat)
    (bvc : BlockVerificationContext) (txs : List Transaction) : BlockResult :=
  let (returned, ok) := chain.returnTxToPool env now txs
  { chain := returned
    bvc := { bvc with verifivationFailed := true }
    result := if ok then .returned false else .threw
    removed := txs
    handedBack := txs }

def addBlockAsInvalid (id : Hash) : Blockchain :=
  { chain with
    invalidBlocks := if id ∈ chain.invalidBlocks then chain.invalidBlocks
      else id :: chain.invalidBlocks }

/-- The weight used for blocks with pruned transactions; zero when there is none. -/
def tableWeight : Nat :=
  match chain.blocksHashCheck[chain.db.height]? with
  | some (_, weight) => weight
  | none => 0

def topGeneratedCoins : Nat :=
  if chain.db.height = 0 then 0
  else chain.db.alreadyGeneratedCoinsAt (chain.db.height - 1)

def addGeneratedCoins (alreadyGeneratedCoins amount : Nat) : Nat :=
  if amount < subMod 64 moneySupply alreadyGeneratedCoins then
    addMod 64 alreadyGeneratedCoins amount
  else moneySupply

def nextCumulativeDifficulty (difficulty : Nat) : Nat :=
  if chain.db.height = 0 then difficulty
  else addMod 128 difficulty (chain.db.cumulativeDifficultyAt (chain.db.height - 1))

def nextEntry (block : Block)
    (blockWeight difficulty baseReward : Nat) (txs : List Transaction) : BlockEntry where
  bl := block
  blockWeight := blockWeight
  longTermBlockWeight := chain.getNextLongTermBlockWeight blockWeight
  cumulativeDifficulty := chain.nextCumulativeDifficulty difficulty
  alreadyGeneratedCoins := addGeneratedCoins chain.topGeneratedCoins baseReward
  txs := txs

def storeBlock (entry : BlockEntry) : Blockchain :=
  let (hardfork, hfVersions) := chain.hardfork.add chain.db.hfVersions entry.bl chain.db.height
  { chain with
    db := { chain.db with
        blocks := chain.db.blocks ++ [entry]
        hfVersions := hfVersions }
    hardfork := hardfork }

def finishAddedBlock (now : Nat) (previousVersion : Nat) : Blockchain :=
  let (_, cached) := chain.updateNextCumulativeWeightLimit.getDifficultyForNextBlock env
  let invalidated := { cached with btcValid := false }
  if invalidated.getCurrentHardForkVersion ≠ previousVersion ∧ invalidated.db.height ≠ 1 then
    { invalidated with
      txPool := invalidated.txPool.validate (invalidated.view env now)
        invalidated.getCurrentHardForkVersion }
  else invalidated

def finishBlock (now : Nat) (block : Block)
    (bvc : BlockVerificationContext) (difficulty : Nat) (taken : TakenTxs) : BlockResult :=
  let held := { chain with txPool := taken.pool }
  if 0 < taken.prunedCount ∧ chain.tableWeight = 0 then ⟨held, bvc, .returned false, taken.txs, []⟩
  else
    let blockWeight := if 0 < taken.prunedCount then chain.tableWeight
      else taken.cumulativeBlockWeight
    let cleared := { held with blocksTxsCheck := [] }
    let version := cleared.getCurrentHardForkVersion
    match cleared.validateMinerTransaction block blockWeight taken.feeSummary
        cleared.topGeneratedCoins version with
    | none => cleared.failReturning env now { bvc with partialBlockReward := false } taken.txs
    | some reward =>
      let bvc := { bvc with partialBlockReward := reward.partialBlockReward }
      let added : BlockVerificationContext := { bvc with addedToMainChain := true }
      if bvc.verifivationFailed then
        ⟨cleared.finishAddedBlock env now version, added, .returned true, taken.txs, []⟩
      else if env.dbWriteError cleared block || cleared.db.addBlockThrows env block taken.txs then
        failReturning { cleared with batchSuccess := false } env now bvc taken.txs
      else
        let entry := cleared.nextEntry block blockWeight difficulty reward.baseReward taken.txs
        ⟨(cleared.storeBlock entry).finishAddedBlock env now version, added,
          .returned true, taken.txs, []⟩

def handleCheckedBlock (now : Nat)
    (block : Block) (bvc : BlockVerificationContext) (difficulty : Nat)
    (fastCheck : Bool) : BlockResult :=
  match getTransactionWeight block.minerTx with
  | none => ⟨chain, bvc, .threw, [], []⟩
  | some coinbaseWeight =>
    let start : TakenTxs := ⟨chain.txPool, [], 0, coinbaseWeight, 0⟩
    match chain.takeBlockTxs env now fastCheck block.txHashes 0 start with
    | (taken, .failed markInvalid) =>
      let held := { chain with txPool := taken.pool }
      let listed := if markInvalid then held.addBlockAsInvalid (env.getBlockHash block)
        else held
      listed.failReturning env now bvc taken.txs
    | (taken, .finished) => chain.finishBlock env now block bvc difficulty taken

def handleBlockToMainChain (now : Nat)
    (block : Block) (bvc : BlockVerificationContext) : BlockResult :=
  match chain.checkHeader env now block (env.getBlockHash block) with
  | (checked, .rejected badPow) =>
    ⟨checked, { bvc with
        verifivationFailed := true
        badPow := bvc.badPow || badPow },
      .returned false, [], []⟩
  | (checked, .difficultyOverhead) => ⟨checked, bvc, .returned false, [], []⟩
  | (checked, .accepted difficulty fastCheck) =>
    checked.handleCheckedBlock env now block bvc difficulty fastCheck

def isCoinbase (tx : Transaction) : Bool :=
  match tx.vin with
  | [.gen _] => true
  | _ => false

def returnPoppedTxs (chain : Blockchain) (env : Env) (now : Nat) :
    List Transaction → TxMemoryPool → TxMemoryPool × Bool
  | [], pool => (pool, true)
  | tx :: rest, pool =>
    if tx.pruned || isCoinbase tx then returnPoppedTxs chain env now rest pool
    else
      match getTransactionWeight tx with
      | none => (pool, false)
      | some weight =>
        let (added, _) := pool.addTx (chain.view env now) tx
          (env.getTransactionHash tx) weight .block true
          (chain.hardfork.getIdealVersion chain.db.height)
        returnPoppedTxs chain env now rest added

def unstoreBlock : Blockchain :=
  let blocks := chain.db.blocks.dropLast
  { chain with
    db := { chain.db with blocks := blocks }
    hardfork := chain.hardfork.onBlockPopped chain.db.hfVersions blocks.length 1 }

/-- `pop_block_from_blockchain`; `none` is a thrown exception. -/
def popBlockFromBlockchain (now : Nat) : Option Block × Blockchain :=
  let reset := chain.resetDifficultyCache
  match reset.db.blocks.getLast? with
  | none => (none, reset)
  | some top =>
    if reset.db.height ≤ 1 then (none, reset)
    else
      let unstored := reset.unstoreBlock
      let (pool, ok) := unstored.returnPoppedTxs env now top.txs.reverse unstored.txPool
      let restored := { unstored with txPool := pool }
      if !ok then (none, restored)
      else
        let cleared := { restored with
            blocksLonghashTable := []
            blocksTxsCheck := []
            btcValid := false }
        let version := cleared.getCurrentHardForkVersion
        if version ≠ chain.getCurrentHardForkVersion then
          (some top.bl, { cleared with
              txPool := cleared.txPool.validate (cleared.view env now) version })
        else (some top.bl, cleared)

end Blockchain

end LodeChain

import LodeChain.AlternativeCoins

/-!
# A switch that is rolled back

When a block of the branch is rejected, the attached part is popped and the displaced blocks are
added again.
-/

namespace LodeChain

open WrappedArithmetic List BlockchainDB BlockEntry Blockchain

def BlockEntry.ledger (entry : BlockEntry) : Block × Nat × Nat × Nat :=
  (entry.bl, entry.cumulativeDifficulty, entry.alreadyGeneratedCoins, entry.blockWeight)

/-- Same id: same fee and, unless one is pruned, same weight. -/
def TxidsIdentify (env : Env) (received : Transaction → Prop) : Prop :=
  ∀ left right, received left → received right →
    env.getTransactionHash left = env.getTransactionHash right → getTxFee left = getTxFee right ∧
        (left.pruned = false → right.pruned = false →
          transactionWeight left = transactionWeight right)

structure RecordedEntries (env : Env) (rule : WorkRule) (entries : List BlockEntry) : Prop where
  sound : ListFacts.EachAfter (SoundEntry env) entries
  mined : ListFacts.EachAfter MinedEntry entries
  worked : ListFacts.EachAfter (WorkEntry rule) entries

section Records

variable {env : Env} {rule : WorkRule}

section

variable {left right : List BlockEntry} (same : left.map ledger = right.map ledger)

include same

theorem lastGeneratedCoins_eq_of_ledger : lastGeneratedCoins left = lastGeneratedCoins right := by
  have last := congrArg (fun entries => (entries.getLast?.map fun entry => entry.2.2.1).getD 0) same
  simpa [getLast?_map, Option.map_map, Function.comp_def,
    ledger, lastGeneratedCoins] using last

theorem map_work_eq_of_ledger : left.map work = right.map work := by
  have mapped := congrArg (List.map fun entry => (entry.1.timestamp, entry.2.1)) same
  rw [map_map, map_map] at mapped
  exact mapped

end

/-- Transactions of the same id in two entries carry the same and are not pruned. -/
def SameTxs (env : Env) (left right : BlockEntry) : Prop :=
  ∀ tx ∈ left.txs, ∀ other ∈ right.txs,
    env.getTransactionHash tx = env.getTransactionHash other →
      getTxFee tx = getTxFee other ∧ tx.pruned = false ∧ other.pruned = false ∧
        transactionWeight tx = transactionWeight other

theorem ledger_eq {leftEarlier rightEarlier : List BlockEntry} {left right : BlockEntry}
    (leftSound : SoundEntry env leftEarlier left) (rightSound : SoundEntry env rightEarlier right)
    (leftMined : MinedEntry leftEarlier left) (rightMined : MinedEntry rightEarlier right)
    (leftWorked : WorkEntry rule leftEarlier left) (rightWorked : WorkEntry rule rightEarlier right)
    (prev : leftEarlier.map ledger = rightEarlier.map ledger)
    (block : left.bl = right.bl) (txs : SameTxs env left right) :
    left.ledger = right.ledger := by
  have txids : left.txs.map env.getTransactionHash = right.txs.map env.getTransactionHash := by
    rw [leftSound.txids, rightSound.txids, block]
  have fees : left.txs.map getTxFee = right.txs.map getTxFee :=
    ListFacts.map_eq_of_map_eq txids fun tx mem other otherMember same =>
      (txs tx mem other otherMember same).1
  have weights : left.txs.map transactionWeight = right.txs.map transactionWeight :=
    ListFacts.map_eq_of_map_eq txids fun tx mem other otherMember same =>
      (txs tx mem other otherMember same).2.2.2
  have leftUnpruned : ∀ tx ∈ left.txs, tx.pruned = false := by
    intro tx mem
    have hashed := mem_map_of_mem (f := env.getTransactionHash) mem
    rw [txids] at hashed
    obtain ⟨other, otherMember, same⟩ := mem_map.mp hashed
    exact (txs tx mem other otherMember same.symm).2.1
  have rightUnpruned : ∀ tx ∈ right.txs, tx.pruned = false := by
    intro tx mem
    have hashed := mem_map_of_mem (f := env.getTransactionHash) mem
    rw [← txids] at hashed
    obtain ⟨other, otherMember, same⟩ := mem_map.mp hashed
    exact (txs other otherMember tx mem same).2.2.1
  have coins : left.alreadyGeneratedCoins = right.alreadyGeneratedCoins := by
    rw [leftSound.coins_settled.1, rightSound.coins_settled.1, block, fees,
      lastGeneratedCoins_eq_of_ledger prev]
  have work : left.cumulativeDifficulty = right.cumulativeDifficulty := by
    rw [leftWorked, rightWorked, map_work_eq_of_ledger prev]
  have weight : left.blockWeight = right.blockWeight := by
    obtain ⟨leftCoinbase, leftWeighed, leftWeight⟩ := leftMined.weight leftUnpruned
    obtain ⟨rightCoinbase, rightWeighed, rightWeight⟩ := rightMined.weight rightUnpruned
    rw [block, rightWeighed, Option.some.injEq] at leftWeighed
    rw [leftWeight, rightWeight, weights, leftWeighed]
  rw [ledger, ledger, block, coins, work, weight]

theorem map_ledger_eq {base left right : List BlockEntry}
    (leftRecorded : RecordedEntries env rule (base ++ left))
    (rightRecorded : RecordedEntries env rule (base ++ right))
    (blocks : left.map bl = right.map bl)
    (txs : ∀ entry ∈ left, ∀ replaced ∈ right, SameTxs env entry replaced) :
    left.map ledger = right.map ledger := by
  induction left using List.reverseRecOn generalizing right with
  | nil => rw [map_eq_nil_iff.mp blocks.symm]
  | append_singleton before entry ih =>
    rcases eq_nil_or_concat' right with rfl | ⟨others, last, rfl⟩
    · simp at blocks
    · rw [map_append, map_append] at blocks
      obtain ⟨blocksBefore, sameBlock⟩ := append_inj' blocks rfl
      rw [← append_assoc] at leftRecorded rightRecorded
      obtain ⟨leftSound, leftMined, leftWorked⟩ := leftRecorded
      obtain ⟨rightSound, rightMined, rightWorked⟩ := rightRecorded
      have prev := ih ⟨leftSound.of_append, leftMined.of_append, leftWorked.of_append⟩
        ⟨rightSound.of_append, rightMined.of_append, rightWorked.of_append⟩
        blocksBefore
        (fun one mem other otherMember => txs one (mem_append_left _ mem) other
          (mem_append_left _ otherMember))
      have bases : (base ++ before).map ledger =
          (base ++ others).map ledger := by
        rw [map_append, map_append, prev]
      have step := ledger_eq (leftSound _ _ [] rfl) (rightSound _ _ [] rfl)
        (leftMined _ _ [] rfl) (rightMined _ _ [] rfl)
        (leftWorked _ _ [] rfl) (rightWorked _ _ [] rfl) bases
        (singleton_inj.mp sameBlock)
        (txs entry (mem_append_right _ mem_cons_self) last (mem_append_right _ mem_cons_self))
      rw [map_append, map_append, prev, map_singleton, map_singleton, step]

end Records

/-! ## The rollback -/

namespace Blockchain

variable {env : Env} {traffic : Traffic} {rule : WorkRule} {now : Nat} {chain after : Blockchain}

theorem MinedChain.tx_unique (mined : MinedChain env traffic chain) {left right : BlockEntry}
    (leftMember : left ∈ chain.db.blocks) (rightMember : right ∈ chain.db.blocks)
    {tx other : Transaction} (inLeft : tx ∈ left.txs) (inRight : other ∈ right.txs)
    (same : env.getTransactionHash tx = env.getTransactionHash other) : tx = other := by
  have leftListed := mined.txid_mem leftMember inLeft
  have rightListed := mined.txid_mem rightMember inRight
  obtain ⟨prev, later, split⟩ := append_of_mem leftMember
  have leftMined := mined.mined prev left later split
  have leftSound := mined.entries prev left later split
  rw [split] at rightMember
  rcases mem_append.mp rightMember with before | fromLeft
  · rw [same] at leftListed
    exact absurd leftListed (leftMined.fresh right before _ rightListed)
  · rcases mem_cons.mp fromLeft with rfl | behind
    · have nodup := leftMined.nodup
      rw [← leftSound.txids] at nodup
      exact inj_on_of_nodup_map nodup inLeft inRight same
    · have each := mined.mined
      rw [split, append_cons] at each
      obtain ⟨below, lt, rightMined⟩ := each.of_mem_append behind
      have inBelow := lt left (mem_append_right _ mem_cons_self)
      rw [← same] at rightListed
      exact absurd rightListed (rightMined.fresh left inBelow _ leftListed)

def displacedTraffic (env : Env) (traffic : Traffic) (dropped : List BlockEntry) : Traffic where
  block := fun _ => True
  alternative := fun _ => True
  transaction tx := traffic.transaction tx ∧ ∀ entry ∈ dropped, ∀ other ∈ entry.txs,
      env.getTransactionHash other = env.getTransactionHash tx →
        other.pruned = false ∧ tx.pruned = false

variable {dropped : List BlockEntry} {restored : Blockchain} {unattached : List Block}

theorem MinedChain.displaced (mined : MinedChain env traffic chain)
    (popped : PoppedTo env chain dropped after) :
    SoundChain env (displacedTraffic env traffic dropped) after := by
  have inChain : ∀ entry ∈ dropped, entry ∈ chain.db.blocks := by
    intro entry mem
    rw [popped.blocks]
    exact mem_append_right _ mem
  refine ⟨?_, ?_, fun _ _ => trivial, ?_⟩
  · have stable : TxMemoryPool.Stable
        (PoolFact env (displacedTraffic env traffic dropped).transaction) :=
      (poolFact_returnable env _).toStable
    refine popped.pool _ stable ?_ ?_
    · intro entry mem tx txMember unpruned weight poolEntry weighed isFresh
      refine .of_fresh ⟨mined.txs entry (inChain entry mem) tx txMember, ?_⟩
        isFresh (fun _ => weighed)
      intro displaced displacedMember other otherMember same
      have eq := mined.tx_unique (inChain displaced displacedMember)
        (inChain entry mem) otherMember txMember same
      exact ⟨eq ▸ unpruned, unpruned⟩
    · intro txid poolEntry found
      have fact := mined.pool txid poolEntry found
      refine ⟨⟨fact.permitted, ?_⟩, fact.hash, fact.fee, fact.pruned, fact.weight⟩
      intro displaced displacedMember other otherMember same
      have listed := mined.txid_mem (inChain displaced displacedMember) otherMember
      rw [same, fact.hash] at listed
      exact absurd listed (mined.unmined txid poolEntry found displaced
        (inChain displaced displacedMember))
  · have entries := mined.entries
    rw [popped.blocks] at entries
    exact entries.of_append
  · intro entry mem tx txMember
    have stays : entry ∈ chain.db.blocks := by
      rw [popped.blocks]
      exact mem_append_left _ mem
    refine ⟨mined.txs entry stays tx txMember, ?_⟩
    intro displaced displacedMember other otherMember same
    have each := mined.mined
    rw [popped.blocks] at each
    obtain ⟨prev, lt, displacedMined⟩ := each.of_mem_append displacedMember
    have listed := mined.txid_mem (inChain displaced displacedMember) otherMember
    rw [same] at listed
    exact absurd listed (displacedMined.fresh entry (lt entry mem) _
      (mined.txid_mem stays txMember))

theorem rollbackBlockchainSwitching_restores {originalChain : List Block}
    {rollbackHeight : Nat} (pos : 0 < rollbackHeight)
    (reached : rollbackHeight ≤ chain.db.height) (mined : MinedChain env traffic chain)
    (permitted : ∀ block ∈ originalChain, traffic.block block)
    (readded : (attachAll env now originalChain ((chain.resetDifficultyCache.popToHeight env now
        rollbackHeight).2.updateNextCumulativeWeightLimit.reorganizeHardFork
          rollbackHeight)).2.1 = []) :
    ∃ entries restored, chain.rollbackBlockchainSwitching env now originalChain rollbackHeight =
        (restored, .returned true, []) ∧
      restored.db.blocks = chain.db.blocks.take rollbackHeight ++ entries ∧
      entries.map bl = originalChain ∧ restored.db.altBlocks = chain.db.altBlocks ∧
      Run env traffic chain restored := by
  obtain ⟨result, remaining, popTo, popped, remainingBlocks⟩ :=
    @popToHeight_eq env now chain mined.weighed rollbackHeight pos reached
  rw [popTo] at readded
  have run : Run env traffic chain (remaining.updateNextCumulativeWeightLimit.reorganizeHardFork
        rollbackHeight) := by
    have popRun := @popToHeight_run env now traffic chain rollbackHeight
    rw [popTo] at popRun
    exact (popRun.trans (updateNextCumulativeWeightLimit_run remaining)).trans
      (reorganizeHardFork_run _ rollbackHeight)
  obtain ⟨entries, split, appended, altBlocks, -, -⟩ := attachAll_cases originalChain _
  have attachRun := run.trans (@attachAll_run env now traffic originalChain permitted _)
  rcases attachEq : attachAll env now originalChain
      (remaining.updateNextCumulativeWeightLimit.reorganizeHardFork
        rollbackHeight) with ⟨attached, left, threw⟩
  rw [attachEq] at readded split appended altBlocks attachRun
  subst readded
  refine ⟨entries, attached.reorganizeHardFork rollbackHeight, ?_, ?_, ?_, ?_,
    attachRun.trans (reorganizeHardFork_run _ _)⟩
  · unfold rollbackBlockchainSwitching
    rw [if_neg (by omega), popTo]
    dsimp only
    rw [attachEq]
  · exact appended.trans (congrArg (· ++ entries) remainingBlocks)
  · rw [split, append_nil]
  · exact altBlocks.trans popped.altBlocks

variable {entries : List BlockEntry} {disconnected : List Block} {remaining attached : Blockchain}

theorem MinedChain.ledger_restored
    (mined : MinedChain env traffic chain) (synced : SyncedChain rule chain)
    (identify : TxidsIdentify env traffic.transaction) (popped : PoppedTo env chain dropped after)
    (minedRestored : MinedChain env (displacedTraffic env traffic dropped) restored)
    (syncedRestored : SyncedChain rule restored)
    (blocks : restored.db.blocks = after.db.blocks ++ entries)
    (readded : entries.map bl = dropped.map bl) :
    restored.db.blocks.map ledger = chain.db.blocks.map ledger := by
  have ledgers : entries.map ledger = dropped.map ledger := by
    refine @map_ledger_eq env rule after.db.blocks _ _ ?_ ?_ readded ?_
    · rw [← blocks]
      exact ⟨minedRestored.entries, minedRestored.mined, syncedRestored.worked⟩
    · rw [← popped.blocks]
      exact ⟨mined.entries, mined.mined, synced.worked⟩
    · intro entry mem replaced replacedMember tx txMember other otherMember same
      have readdedTx := minedRestored.txs entry
        (by rw [blocks]; exact mem_append_right _ mem) tx txMember
      have recv : traffic.transaction other := mined.txs replaced
        (by rw [popped.blocks]; exact mem_append_right _ replacedMember)
        other otherMember
      obtain ⟨otherUnpruned, unpruned⟩ :=
        readdedTx.2 replaced replacedMember other otherMember same.symm
      obtain ⟨fee, weight⟩ := identify tx other readdedTx.1 recv same
      exact ⟨fee, unpruned, otherUnpruned, weight unpruned otherUnpruned⟩
  rw [blocks, popped.blocks, map_append, map_append, ledgers]

theorem MinedChain.attach {blocks : List Block} {id : Hash} {threw : Bool}
    (mined : MinedChain env traffic chain) (synced : SyncedChain rule chain)
    (popped : chain.resetDifficultyCache.popToBlock env now id = (some disconnected, remaining))
    (poppedTo : PoppedTo env chain dropped remaining)
    (attach : attachAll env now blocks remaining.updateNextCumulativeWeightLimit =
        (attached, unattached, threw)) :
    ∃ entries : List BlockEntry, blocks = entries.map bl ++ unattached ∧
      attached.db.blocks = remaining.db.blocks ++ entries ∧
      attached.db.altBlocks = chain.db.altBlocks ∧
      MinedChain env (displacedTraffic env traffic dropped) attached ∧
      SyncedChain rule attached := by
  have popRun := @popToBlock_run env now traffic chain id
  rw [popped] at popRun
  have minedPopped : MinedChain env traffic remaining :=
    popRun.preserves (fun step => step.minedChain) mined
  have attachRun := (@updateNextCumulativeWeightLimit_run env
    (displacedTraffic env traffic dropped) remaining).trans
    (@attachAll_run env now _ blocks (fun _ _ => trivial) _)
  obtain ⟨entries, split, appended, altBlocks, -, -⟩ := attachAll_cases blocks _
  rw [attach] at attachRun split appended altBlocks
  exact ⟨entries, split, appended, altBlocks.trans poppedTo.altBlocks,
    attachRun.preserves (fun step => step.minedChain)
      ⟨mined.displaced poppedTo, minedPopped.mined, minedPopped.unmined⟩,
    attachRun.preserves (fun step => step.syncedChain)
      (popRun.preserves (fun step => step.syncedChain) synced)⟩

theorem discardBranch_unattached {branch : List BlockExtendedInfo}
    (stored : ∀ bei ∈ branch, (chain.db.altBlocks.lookup (env.getBlockHash bei.bl)).isSome = true)
    (distinct : ((branch.map BlockExtendedInfo.bl).map env.getBlockHash).Nodup)
    (split : branch.map BlockExtendedInfo.bl = entries.map bl ++ unattached)
    (kept : restored.db.altBlocks = chain.db.altBlocks) :
    (discardBranch (unattached.map env.getBlockHash) restored).1.db.blocks = restored.db.blocks ∧
      (discardBranch (unattached.map env.getBlockHash) restored).2 = true := by
  have discarded := @discardBranch_stored (unattached.map env.getBlockHash) ?_ restored ?_
  · exact ⟨discarded.1, discarded.2.1⟩
  · rw [split, map_append] at distinct
    exact distinct.of_append_right
  · intro id mem
    obtain ⟨block, blockMember, rfl⟩ := mem_map.mp mem
    have inBranch : block ∈ branch.map BlockExtendedInfo.bl := by
      rw [split]
      exact mem_append_right _ blockMember
    obtain ⟨bei, beiMember, rfl⟩ := mem_map.mp inBranch
    rw [kept]
    exact stored bei beiMember

theorem switchToAlternativeBlockchain_rejected {front : BlockExtendedInfo}
    {rest : List BlockExtendedInfo} {failed : Block}
    (attaches : chain.db.blockExists env front.bl.prevId = true)
    (popped : chain.resetDifficultyCache.popToBlock env now front.bl.prevId =
      (some disconnected, remaining))
    (rejected : attachAll env now ((front :: rest).map BlockExtendedInfo.bl)
      remaining.updateNextCumulativeWeightLimit = (attached, failed :: unattached, false))
    (rolledBack : attached.rollbackBlockchainSwitching env now disconnected
      remaining.db.height = (restored, .returned true, []))
    (handle : Blockchain → Block → ChainResult) (discard : Bool) :
    switchToAlternativeBlockchain handle chain env now (front :: rest) discard =
      let discarded := discardBranch
        ((failed :: unattached).map env.getBlockHash) restored
      (discarded.1, if discarded.2 then .returned false else .threw,
        [env.getBlockHash failed]) := by
  have onMain : chain.resetDifficultyCache.db.blockExists env front.bl.prevId = true := attaches
  unfold switchToAlternativeBlockchain
  dsimp only
  rw [if_neg (by simp [onMain]), popped]
  dsimp only
  rw [rejected]
  dsimp only
  rw [show attached.rollbackBlockchainSwitching env now disconnected
    remaining.updateNextCumulativeWeightLimit.db.height = _ from rolledBack]

/-- A switch with a rejected block returns false and leaves blocks, cumulative difficulties,
generated coins and weights as they were, if the displaced blocks are accepted again. -/
theorem switchToAlternativeBlockchain_restores {start : Blockchain} (started : StartsByHeight start)
    (run : Run env traffic start chain) (identify : TxidsIdentify env traffic.transaction)
    {front : BlockExtendedInfo} {rest : List BlockExtendedInfo}
    (attaches : chain.db.blockExists env front.bl.prevId = true)
    (stored : ∀ bei ∈ front :: rest,
      (chain.db.altBlocks.lookup (env.getBlockHash bei.bl)).isSome = true)
    (distinct : (((front :: rest).map BlockExtendedInfo.bl).map env.getBlockHash).Nodup)
    {disconnected unattached : List Block} {failed : Block} {remaining attached : Blockchain}
    (popped : chain.resetDifficultyCache.popToBlock env now front.bl.prevId =
      (some disconnected, remaining))
    (rejected : attachAll env now ((front :: rest).map BlockExtendedInfo.bl)
      remaining.updateNextCumulativeWeightLimit = (attached, failed :: unattached, false))
    (readded : (attachAll env now disconnected ((attached.resetDifficultyCache.popToHeight env now
        remaining.db.height).2.updateNextCumulativeWeightLimit.reorganizeHardFork
          remaining.db.height)).2.1 = []) (handleAlternative : Blockchain → Block → ChainResult)
    (discardDisconnected : Bool) :
    let done := switchToAlternativeBlockchain handleAlternative chain env now
      (front :: rest) discardDisconnected
    done.2.1 = .returned false ∧ done.1.db.blocks.map ledger =
        chain.db.blocks.map ledger := by
  have mined := Reachable.minedChain ⟨start, started.toIsInitial, run⟩
  have synced := run.syncedChain started
  obtain ⟨dropped, poppedTo, rfl, -⟩ := popToBlock_some popped
  have positive : 0 < remaining.db.height := by
    refine length_pos_iff.mpr (poppedTo.nonempty ?_)
    intro empty
    simp [blockExists, blockHashes, empty] at attaches
  obtain ⟨attachedEntries, split, attachedBlocks, attachedAlt, minedAttached,
    syncedAttached⟩ := mined.attach synced popped poppedTo rejected
  obtain ⟨entries, restored, rolledBack, restoredBlocks, readdedBlocks,
    restoredAlt, rollbackRun⟩ := rollbackBlockchainSwitching_restores positive (by
        rw [height, height, attachedBlocks, length_append]
        omega)
      minedAttached (fun _ _ => trivial) readded
  rw [attachedBlocks, height, take_left] at restoredBlocks
  have ledgers := mined.ledger_restored synced identify poppedTo
    (rollbackRun.preserves (fun step => step.minedChain) minedAttached)
    (rollbackRun.preserves (fun step => step.syncedChain) syncedAttached)
    restoredBlocks readdedBlocks
  obtain ⟨discardedBlocks, found⟩ := discardBranch_unattached stored distinct
    split (restoredAlt.trans attachedAlt)
  rw [switchToAlternativeBlockchain_rejected attaches popped rejected rolledBack]
  dsimp only
  rw [found, discardedBlocks, ledgers]
  exact ⟨rfl, rfl⟩

def genesisChain : Blockchain :=
  (empty.handleBlockToMainChain checkedEnv 0 (claimingBlock 0 0 0 []) .init).chain

def paidPoolChain : Blockchain :=
  { genesisChain with
    txPool := (genesisChain.txPool.addTx (genesisChain.view checkedEnv 60)
      payingTx (checkedEnv.getTransactionHash payingTx) 242 .block true
      genesisChain.getCurrentHardForkVersion).1 }

def paidChain : Blockchain :=
  (paidPoolChain.handleBlockToMainChain checkedEnv 120
    (claimingBlock 1 1 10000001000 [12]) .init).chain

def greedyChild : Block :=
  { rivalChild with
    minerTx := { rivalChild.minerTx with
        vout := List.replicate 2 ⟨6000000000, .toTaggedKey 5 1⟩ } }

def greedyInfo : BlockExtendedInfo where
  bl := greedyChild
  height := 2
  blockCumulativeWeight := 86
  cumulativeDifficulty := 3
  alreadyGeneratedCoins := 22000000000

def contestedChain : Blockchain :=
  (paidChain.storeAlternative 122 rivalInfo).storeAlternative 241 greedyInfo

def payingTraffic : Traffic where
  block := fun _ => True
  alternative := fun _ => True
  transaction tx := tx = payingTx

theorem contestedChain_run : Run checkedEnv payingTraffic empty contestedChain := by
  have genesis : ChainStep checkedEnv payingTraffic empty
      genesisChain :=
    .mainBlock _ 0 _ .init rfl trivial
  have recv : ChainStep checkedEnv payingTraffic genesisChain
      paidPoolChain :=
    .incomingTx _ 60 payingTx 242 .block true (by decide) (by decide) rfl
  have paid : ChainStep checkedEnv payingTraffic paidPoolChain paidChain :=
    .mainBlock _ 120 _ .init rfl trivial
  have rival : ChainStep checkedEnv payingTraffic paidChain
      (paidChain.storeAlternative 122 rivalInfo) :=
    .storeAlternative _ (rivalBlock 10000000000 []) [] rivalInfo ⟨trivial, trivial⟩ (by decide)
  have child : ChainStep checkedEnv payingTraffic
      (paidChain.storeAlternative 122 rivalInfo) contestedChain :=
    .storeAlternative _ greedyChild [rivalInfo] greedyInfo ⟨trivial, trivial⟩ (by decide)
  exact ((((Relation.ReflTransGen.single genesis).tail recv).tail paid).tail rival).tail child

theorem contestedChain_restored :
    let done := switchToAlternativeBlockchain
      (fun current _ => ⟨current, .init, .returned true, []⟩) contestedChain
      checkedEnv 240 [rivalInfo, greedyInfo] false
    done.2.1 = .returned false ∧ done.1.db.blocks.map ledger =
        contestedChain.db.blocks.map ledger := by
  have started : StartsByHeight empty :=
    ⟨⟨rfl, rfl, rfl⟩, HardFork.mainnetHardForks_byHeight rfl rfl, rfl⟩
  have identify : TxidsIdentify checkedEnv payingTraffic.transaction := by
    rintro left right rfl rfl -
    exact ⟨rfl, fun _ _ => rfl⟩
  exact @switchToAlternativeBlockchain_restores checkedEnv payingTraffic 240
    contestedChain _ started contestedChain_run identify rivalInfo [greedyInfo]
    (by decide) (by decide) (by decide) [claimingBlock 1 1 10000001000 [12]] []
    greedyChild _ _ (Prod.ext (by decide) rfl) (Prod.ext rfl (by decide))
    (by decide) _ false

/-- Runs that lead to the same blocks have recorded the same difficulties, coins and weights. -/
theorem Run.ledger_unique {start : Blockchain} (started : StartsByHeight start)
    (identify : TxidsIdentify env traffic.transaction)
    (unpruned : ∀ tx, traffic.transaction tx → tx.pruned = false)
    (run : Run env traffic start chain) (other : Run env traffic start after)
    (blocks : chain.db.blocks.map bl = after.db.blocks.map bl) :
    chain.db.blocks.map ledger = after.db.blocks.map ledger := by
  have mined := Reachable.minedChain ⟨start, started.toIsInitial, run⟩
  have minedAfter := Reachable.minedChain ⟨start, started.toIsInitial, other⟩
  apply @map_ledger_eq env start.workRule []
    _ _ ⟨mined.entries, mined.mined, (run.syncedChain started).worked⟩
    ⟨minedAfter.entries, minedAfter.mined, (other.syncedChain started).worked⟩ blocks
  intro entry mem replaced inAfter tx listed copy copied same
  have full := mined.txs entry mem tx listed
  have again := minedAfter.txs replaced inAfter copy copied
  obtain ⟨fee, weight⟩ := identify tx copy full again same
  exact ⟨fee, unpruned tx full, unpruned copy again,
    weight (unpruned tx full) (unpruned copy again)⟩

theorem contestedChain_ledger : contestedChain.db.blocks.map ledger =
    ((contestedChain.popBlockFromBlockchain checkedEnv 130).2.handleBlockToMainChain checkedEnv 140
      (claimingBlock 1 1 10000001000 [12]) .init).chain.db.blocks.map ledger := by
  refine Run.ledger_unique ?_ ?_ ?_ contestedChain_run
    ((contestedChain_run.tail (.pop _ 130)).tail (.mainBlock _ 140 _ .init rfl trivial)) (by decide)
  · exact ⟨⟨rfl, rfl, rfl⟩, HardFork.mainnetHardForks_byHeight rfl rfl, rfl⟩
  · rintro left right rfl rfl -
    exact ⟨rfl, fun _ _ => rfl⟩
  · rintro tx rfl
    rfl

end Blockchain

end LodeChain

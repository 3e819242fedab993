import LodeChain.ExpectedDifficulty

/-!
# What adding a block can do

`handle_block_to_main_chain` appends one record, fixed by the chain below it and the pool entries it
took, or leaves the stored chain alone.
-/

namespace LodeChain

open WrappedArithmetic List

namespace Blockchain

/-- It took the first of the block's ids and kept count of their entries. -/
structure LoopTrace (chain : Blockchain) (env : Env) (txids : List Hash)
    (before after : TakenTxs) (entries : List PoolEntry) : Prop where
  takes : before.pool.Takes txids entries after.pool
  txs : after.txs = before.txs ++ entries.map PoolEntry.tx
  absent : ∀ txid ∈ txids, chain.db.txExists env txid = false

variable {chain : Blockchain} {env : Env} {txids : List Hash} {before after : TakenTxs}

theorem LoopTrace.cons {txid : Hash} {entry : PoolEntry}
    {pool : TxMemoryPool} {entries : List PoolEntry} {view : ChainView}
    (trace : LoopTrace chain env txids ((before.keep entry pool).tally entry) after entries)
    (taken : before.pool.takeTx view txid = some (entry, pool))
    (unknown : chain.db.txExists env txid = false) :
    LoopTrace chain env (txid :: txids) before after (entry :: entries) := by
  refine ⟨.cons taken trace.takes, ?_, ?_⟩
  · rw [trace.txs]
    simp [TakenTxs.keep, TakenTxs.tally]
  · intro id mem
    rcases mem_cons.mp mem with rfl | later
    · exact unknown
    · exact trace.absent id later

theorem takeBlockTxs_trace (chain : Blockchain) (env : Env) (now : Nat)
    (fastCheck : Bool) (txids : List Hash) (index : Nat) (before : TakenTxs) :
    ∃ taken entries, taken <+: txids ∧ LoopTrace chain env taken before
        (chain.takeBlockTxs env now fastCheck txids index before).1 entries := by
  induction txids generalizing index before with
  | nil => exact ⟨[], [], List.prefix_rfl, .nil _, by simp [takeBlockTxs], by simp⟩
  | cons txid rest ih =>
    have stopped : ∃ taken entries, taken <+: txid :: rest ∧
        LoopTrace chain env taken before before entries :=
      ⟨[], [], List.nil_prefix, .nil _, by simp, by simp⟩
    simp only [takeBlockTxs]
    split
    · exact stopped
    · rename_i known
      split
      · exact stopped
      · rename_i entry pool takeEq
        split
        · obtain ⟨taken, entries, isPrefix, trace⟩ :=
            ih _ _
          exact ⟨txid :: taken, entry :: entries, List.cons_prefix_cons.mpr ⟨rfl, isPrefix⟩,
            trace.cons takeEq (by simpa using known)⟩
        · refine ⟨[txid], [entry], ?_, .cons takeEq (.nil _), by simp [TakenTxs.keep], ?_⟩
          · exact List.cons_prefix_cons.mpr ⟨rfl, List.nil_prefix⟩
          · intro id mem
            rw [mem_singleton.mp mem]
            simpa using known

theorem takeBlockTxs_finished {now : Nat} {fastCheck : Bool} {index : Nat}
    (finished : chain.takeBlockTxs env now fastCheck txids index before = (after, .finished)) :
    ∃ entries, LoopTrace chain env txids before after entries ∧ after.feeSummary = entries.foldl
        (fun total entry => addMod 64 total entry.txMeta.fee) before.feeSummary ∧
      after.cumulativeBlockWeight = entries.foldl
        (fun total entry => addMod 64 total entry.txMeta.weight)
        before.cumulativeBlockWeight ∧ after.prunedCount = before.prunedCount +
        entries.countP fun entry => entry.txMeta.pruned := by
  induction txids generalizing index before with
  | nil =>
    simp [takeBlockTxs] at finished
    subst finished
    exact ⟨[], ⟨.nil _, by simp, by simp⟩, by simp, by simp, by simp⟩
  | cons txid rest ih =>
    simp [takeBlockTxs] at finished
    split at finished
    · simp at finished
    · rename_i known
      split at finished
      · simp at finished
      · rename_i entry pool takeEq
        split at finished
        · obtain ⟨entries, trace, fees, weights, pruned⟩ := ih finished
          refine ⟨entry :: entries, trace.cons takeEq (by simpa using known), fees, weights, ?_⟩
          rw [pruned, countP_cons]
          simp [TakenTxs.keep, TakenTxs.tally]
          omega
        · simp at finished

/-! ## Accepted and refused blocks -/

structure SameConfig (left right : Blockchain) : Prop where
  checkpoints : left.checkpoints = right.checkpoints
  fixedDifficulty : left.fixedDifficulty = right.fixedDifficulty
  blocksHashCheck : left.blocksHashCheck = right.blocksHashCheck
  longTermBlockWeightsWindow : left.longTermBlockWeightsWindow = right.longTermBlockWeightsWindow

theorem SameConfig.trans {first second third : Blockchain}
    (left : first.SameConfig second) (right : second.SameConfig third) : first.SameConfig third :=
  ⟨left.checkpoints.trans right.checkpoints, left.fixedDifficulty.trans right.fixedDifficulty,
    left.blocksHashCheck.trans right.blocksHashCheck,
    left.longTermBlockWeightsWindow.trans right.longTermBlockWeightsWindow⟩

/-- The same chain, hard-fork object and settings; pool and caches may differ. -/
structure SameLedger (left right : Blockchain) : Prop extends SameConfig left right where
  db : left.db = right.db
  hardfork : left.hardfork = right.hardfork

theorem SameLedger.refl (chain : Blockchain) : chain.SameLedger chain :=
  ⟨⟨rfl, rfl, rfl, rfl⟩, rfl, rfl⟩

theorem SameLedger.trans {first second third : Blockchain}
    (left : first.SameLedger second) (right : second.SameLedger third) : first.SameLedger third :=
  ⟨left.toSameConfig.trans right.toSameConfig, left.db.trans right.db,
    left.hardfork.trans right.hardfork⟩

end Blockchain

/-- A property of pool entries that also survives giving a transaction back. -/
structure Returnable (env : Env) (property : Hash → PoolEntry → Prop) : Prop
    extends TxMemoryPool.Stable property where
  returned : ∀ {txid poolEntry original weight}, getTransactionWeight original.tx = some weight →
      poolEntry.IsFresh original.tx weight → property txid original →
        property (env.getTransactionHash original.tx) poolEntry

namespace Blockchain

variable {property : Hash → PoolEntry → Prop} {env : Env}

theorem returnTxsFrom_holds (returnable : Returnable env property)
    (chain : Blockchain) (now : Nat) (entries : List (Hash × PoolEntry)) (pool : TxMemoryPool)
    (taken : ∀ entry ∈ entries, property entry.1 entry.2)
    (holds : TxMemoryPool.Holds property pool) : TxMemoryPool.Holds property
      (chain.returnTxsFrom env now (entries.map fun entry => entry.2.tx) pool).1 := by
  induction entries generalizing pool with
  | nil => exact holds
  | cons entry rest ih =>
    have first := taken entry mem_cons_self
    have later : ∀ other ∈ rest, property other.1 other.2 :=
      fun other mem => taken other (mem_cons_of_mem _ mem)
    simp [returnTxsFrom]
    split
    · exact holds
    · rename_i weight computed
      refine ih _ later ?_
      exact holds.of_addedTo returnable.toStable
        (fun _ fresh => returnable.returned computed fresh first)
        (TxMemoryPool.addTx_addedTo _ _ _ _ _ _ _ _)

theorem failReturning_spec (chain : Blockchain) (now : Nat)
    (bvc : BlockVerificationContext) (txs : List Transaction) :
    (chain.failReturning env now bvc txs).chain.SameLedger chain ∧
      (chain.failReturning env now bvc txs).chain.txPool =
        (chain.returnTxsFrom env now txs chain.txPool).1 ∧
      (chain.failReturning env now bvc txs).bvc.verifivationFailed = true ∧
      (chain.failReturning env now bvc txs).result ≠ .returned true := by
  unfold failReturning returnTxToPool
  dsimp only
  refine ⟨⟨⟨rfl, rfl, rfl, rfl⟩, rfl, rfl⟩, rfl, rfl, ?_⟩
  split <;> simp

structure CheckedHeader (env : Env) (now : Nat) (chain : Blockchain)
    (block : Block) (difficulty : Nat) : Prop where
  linked : block.prevId = chain.db.topBlockHash env
  versionChecked : chain.hardfork.check block = true
  timestampChecked : chain.checkBlockTimestamp now block = true
  difficultyPos : difficulty ≠ 0
  checkpointed : chain.isInCheckpointZone chain.db.height = true →
    chain.checkCheckpoint chain.db.height (env.getBlockHash block) = true
  prevalidated : prevalidateMinerTransaction block chain.db.height
    chain.getCurrentHardForkVersion = true

variable {chain : Blockchain} {block : Block}

theorem checkWork_accepted {id : Hash} {difficulty computed : Nat} {fastCheck : Bool}
    (accepted : chain.checkWork env block id difficulty = .accepted computed fastCheck) :
    computed = difficulty ∧ (chain.isInCheckpointZone chain.db.height = true →
        chain.checkCheckpoint chain.db.height id = true) ∧
      prevalidateMinerTransaction block chain.db.height chain.getCurrentHardForkVersion = true := by
  unfold checkWork at accepted
  dsimp only at accepted
  split at accepted
  · simp at accepted
  · split at accepted
    · simp at accepted
    · split at accepted
      · simp at accepted
      · rename_i checkpointed
        split at accepted
        · simp at accepted
        · rename_i prevalidated
          simp at accepted
          refine ⟨accepted.1.symm, ?_, by simpa using prevalidated⟩
          intro inZone
          simpa [inZone] using checkpointed

theorem checkHeader_spec (chain : Blockchain) (now : Nat) (block : Block) :
    ∃ cache, (chain.checkHeader env now block (env.getBlockHash block)).1 =
        { chain with difficultyCache := cache } ∧
      ∀ difficulty fastCheck, (chain.checkHeader env now block (env.getBlockHash block)).2 =
          .accepted difficulty fastCheck →
        difficulty = chain.expectedDifficulty ∧ CheckedHeader env now chain block difficulty := by
  unfold checkHeader
  split
  · exact ⟨_, rfl, by simp⟩
  · rename_i linked
    split
    · exact ⟨_, rfl, by simp⟩
    · rename_i versionChecked
      split
      · exact ⟨_, rfl, by simp⟩
      · rename_i timestampChecked
        obtain ⟨cache, updated⟩ := chain.getDifficultyForNextBlock_snd env
        have computed := chain.getDifficultyForNextBlock_fst env
        dsimp only
        rw [computed, updated]
        refine ⟨cache, ?_, ?_⟩
        · split <;> rfl
        · intro difficulty fastCheck accepted
          split at accepted
          · simp at accepted
          · rename_i difficultyPos
            obtain ⟨eq, checkpointed, prevalidated⟩ := checkWork_accepted accepted
            exact ⟨eq, not_not.mp linked, by simpa using versionChecked,
              by simpa using timestampChecked, eq ▸ difficultyPos,
              checkpointed, prevalidated⟩

/-- What `handle_block_to_main_chain` has checked, taken and stored when it
accepts a block. -/
structure AcceptedBlock (env : Env) (now : Nat) (chain : Blockchain)
    (block : Block) (poolEntries : List PoolEntry) (entry : BlockEntry)
    (after : Blockchain) : Prop extends
    CheckedHeader env now chain block chain.expectedDifficulty where
  known : ∀ txid ∈ block.txHashes, chain.db.txExists env txid = false
  found : List.Forall₂ (fun txid poolEntry =>
    chain.txPool.txpool.lookup txid = some poolEntry) block.txHashes poolEntries
  stores : chain.db.addBlockThrows env block entry.txs = false
  bl : entry.bl = block
  txs : entry.txs = poolEntries.map PoolEntry.tx
  blockWeight : ∃ coinbaseWeight,
    getTransactionWeight block.minerTx = some coinbaseWeight ∧
    entry.blockWeight =
      if 0 < poolEntries.countP (fun poolEntry => poolEntry.txMeta.pruned) then chain.tableWeight
      else
        poolEntries.foldl (fun total poolEntry => addMod 64 total poolEntry.txMeta.weight)
          coinbaseWeight
  longTermBlockWeight : entry.longTermBlockWeight =
    chain.getNextLongTermBlockWeight entry.blockWeight
  cumulativeDifficulty : entry.cumulativeDifficulty =
    chain.nextCumulativeDifficulty chain.expectedDifficulty
  alreadyGeneratedCoins : ∃ reward, chain.validateMinerTransaction block entry.blockWeight
      (sumMod 64 (poolEntries.map fun poolEntry => poolEntry.txMeta.fee))
      chain.topGeneratedCoins chain.getCurrentHardForkVersion = some reward ∧
    entry.alreadyGeneratedCoins = addGeneratedCoins chain.topGeneratedCoins reward.baseReward
  db : after.db = (chain.storeBlock entry).db
  hardfork : after.hardfork = (chain.storeBlock entry).hardfork
  config : after.SameConfig chain
  invalidBlocks : after.invalidBlocks = chain.invalidBlocks
  pool : ∀ property : Hash → PoolEntry → Prop, TxMemoryPool.Stable property →
    (∀ txid poolEntry, txid ∉ block.txHashes → chain.txPool.txpool.lookup txid = some poolEntry →
        property txid poolEntry) → TxMemoryPool.Holds property after.txPool

theorem AcceptedBlock.blocks {now : Nat} {after : Blockchain} {entries : List PoolEntry}
    {entry : BlockEntry} (accepted : AcceptedBlock env now chain block entries entry after) :
    after.db.blocks = chain.db.blocks ++ [entry] := by
  rw [accepted.db]
  rfl

structure RefusedBlock (env : Env) (chain after : Blockchain) : Prop where
  ledger : after.SameLedger chain
  pool : ∀ property : Hash → PoolEntry → Prop, Returnable env property →
    TxMemoryPool.Holds property chain.txPool → TxMemoryPool.Holds property after.txPool

theorem finishAddedBlock_spec (chain : Blockchain) (now previousVersion : Nat) :
    (chain.finishAddedBlock env now previousVersion).SameLedger chain ∧
      (chain.finishAddedBlock env now previousVersion).invalidBlocks = chain.invalidBlocks ∧
      ∀ property : Hash → PoolEntry → Prop, TxMemoryPool.Stable property →
        TxMemoryPool.Holds property chain.txPool → TxMemoryPool.Holds property
            (chain.finishAddedBlock env now previousVersion).txPool := by
  obtain ⟨cache, updated⟩ := chain.updateNextCumulativeWeightLimit.getDifficultyForNextBlock_snd env
  unfold finishAddedBlock
  dsimp only
  rw [updated]
  split
  · refine ⟨⟨⟨rfl, rfl, rfl, rfl⟩, rfl, rfl⟩, rfl, ?_⟩
    intro property stable holds
    exact TxMemoryPool.validate_holds stable holds _ _
  · exact ⟨⟨⟨rfl, rfl, rfl, rfl⟩, rfl, rfl⟩, rfl, fun _ _ holds => holds⟩

theorem returnTaken_holds (returnable : Returnable env property) (chain : Blockchain) (now : Nat)
    {pool remaining : TxMemoryPool} {txids : List Hash} {entries : List PoolEntry}
    (takes : pool.Takes txids entries remaining) (holds : TxMemoryPool.Holds property pool) :
    TxMemoryPool.Holds property
      (chain.returnTxsFrom env now (entries.map PoolEntry.tx) remaining).1 := by
  have lengths : txids.length = entries.length := takes.found.length_eq
  have unzipped : entries.map PoolEntry.tx = (txids.zip entries).map fun entry => entry.2.tx := by
    conv_lhs => rw [← map_snd_zip lengths.ge, map_map]
    rfl
  rw [unzipped]
  exact returnTxsFrom_holds returnable chain now _ remaining
    (takes.zip_holds holds) (holds.of_within returnable.toStable takes.within)

theorem failReturning_refused {chain held : Blockchain} {now : Nat} {bvc : BlockVerificationContext}
    {txids : List Hash} {entries : List PoolEntry} (same : held.SameLedger chain)
    (takes : chain.txPool.Takes txids entries held.txPool) :
    RefusedBlock env chain (held.failReturning env now bvc (entries.map PoolEntry.tx)).chain := by
  obtain ⟨ledger, pool, -, -⟩ := held.failReturning_spec now bvc (entries.map PoolEntry.tx)
  refine ⟨ledger.trans same, ?_⟩
  intro property returnable holds
  exact returnTaken_holds returnable held now takes holds

theorem finishBlock_cases {now coinbase : Nat} {bvc : BlockVerificationContext}
    {taken : TakenTxs} {entries : List PoolEntry} (fresh : bvc.verifivationFailed = false)
    (header : CheckedHeader env now chain block chain.expectedDifficulty)
    (weighed : getTransactionWeight block.minerTx = some coinbase)
    (trace : LoopTrace chain env block.txHashes ⟨chain.txPool, [], 0, coinbase, 0⟩ taken entries)
    (fees : taken.feeSummary = entries.foldl
      (fun total poolEntry => addMod 64 total poolEntry.txMeta.fee) 0)
    (weights : taken.cumulativeBlockWeight = entries.foldl
      (fun total poolEntry => addMod 64 total poolEntry.txMeta.weight) coinbase)
    (pruned : taken.prunedCount = entries.countP fun poolEntry => poolEntry.txMeta.pruned) :
    let done := chain.finishBlock env now block bvc chain.expectedDifficulty
      taken
    (∃ entry, AcceptedBlock env now chain block entries entry done.chain ∧
        done.result = .returned true ∧ done.bvc.addedToMainChain = true) ∨
      (RefusedBlock env chain done.chain ∧ done.result ≠ .returned true) := by
  have takes : chain.txPool.Takes block.txHashes entries taken.pool := trace.takes
  have txs : taken.txs = entries.map PoolEntry.tx := by simpa using trace.txs
  have summed : taken.feeSummary =
      sumMod 64 (entries.map fun poolEntry => poolEntry.txMeta.fee) := by
    rw [fees, sumMod, foldl_map]
  unfold finishBlock
  dsimp only
  split
  · right
    refine ⟨⟨⟨⟨rfl, rfl, rfl, rfl⟩, rfl, rfl⟩, ?_⟩, by simp⟩
    intro property returnable holds
    exact holds.of_within returnable.toStable takes.within
  · split
    · right
      rw [txs]
      exact ⟨failReturning_refused ⟨⟨rfl, rfl, rfl, rfl⟩, rfl, rfl⟩ takes,
        (failReturning_spec _ _ _ _).2.2.2⟩
    · rename_i reward validated
      rw [if_neg (by simp [fresh])]
      split
      · right
        rw [txs]
        exact ⟨failReturning_refused ⟨⟨rfl, rfl, rfl, rfl⟩, rfl, rfl⟩ takes,
          (failReturning_spec _ _ _ _).2.2.2⟩
      · rename_i stored
        left
        obtain ⟨ledger, invalidBlocks, pool⟩ := finishAddedBlock_spec
            (storeBlock { chain with txPool := taken.pool, blocksTxsCheck := [] }
              (nextEntry { chain with txPool := taken.pool, blocksTxsCheck := [] } block
                (if 0 < taken.prunedCount then chain.tableWeight
                  else taken.cumulativeBlockWeight)
                _ _ _)) now _
        refine ⟨_, ⟨header, trace.absent, takes.found, ?_, rfl, txs,
          ⟨coinbase, weighed, ?_⟩, rfl, rfl, ⟨reward, ?_, rfl⟩, ledger.db,
          ledger.hardfork, ledger.toSameConfig.trans ⟨rfl, rfl, rfl, rfl⟩,
          invalidBlocks, ?_⟩, rfl, rfl⟩
        · simp at stored
          exact stored.2
        · rw [← pruned, ← weights]
          rfl
        · rw [← summed]
          exact validated
        · intro property stable holds
          refine pool property stable ?_
          intro txid poolEntry found
          have remaining : taken.pool.txpool.lookup txid = some poolEntry := found
          rw [takes.rest] at remaining
          split_ifs at remaining with mem
          exact holds txid poolEntry mem remaining

theorem handleCheckedBlock_cases {chain : Blockchain} {now : Nat} {block : Block}
    {bvc : BlockVerificationContext} (fastCheck : Bool) (fresh : bvc.verifivationFailed = false)
    (header : CheckedHeader env now chain block chain.expectedDifficulty) :
    let done := chain.handleCheckedBlock env now block bvc
      chain.expectedDifficulty fastCheck
    (∃ entries entry, AcceptedBlock env now chain block entries entry
        done.chain ∧ done.result = .returned true ∧ done.bvc.addedToMainChain = true) ∨
      (RefusedBlock env chain done.chain ∧ done.result ≠ .returned true) := by
  unfold handleCheckedBlock
  split
  · exact .inr ⟨⟨.refl _, fun _ _ holds => holds⟩, by simp⟩
  · rename_i coinbase weighed
    dsimp only
    split
    · rename_i taken markInvalid takeEq
      right
      obtain ⟨txids, entries, -, trace⟩ :=
        takeBlockTxs_trace chain env now fastCheck _ 0 ⟨chain.txPool, [], 0, coinbase, 0⟩
      rw [takeEq] at trace
      have txs : taken.txs = entries.map PoolEntry.tx := by simpa using trace.txs
      rw [txs]
      refine ⟨@failReturning_refused env chain _ _ _ txids _ ?_ ?_,
        (failReturning_spec _ _ _ _).2.2.2⟩
      · split <;> exact ⟨⟨rfl, rfl, rfl, rfl⟩, rfl, rfl⟩
      · split <;> exact trace.takes
    · rename_i taken takeEq
      obtain ⟨entries, trace, fees, weights, pruned⟩ := takeBlockTxs_finished takeEq
      rcases finishBlock_cases fresh header weighed trace fees weights (by simpa using pruned) with
        ⟨entry, accepted, result⟩ | refused
      · exact .inl ⟨entries, entry, accepted, result⟩
      · exact .inr refused

theorem handleBlockToMainChain_cases (chain : Blockchain) (now : Nat)
    (block : Block) (bvc : BlockVerificationContext) (fresh : bvc.verifivationFailed = false) :
    let done := chain.handleBlockToMainChain env now block bvc
    (∃ entries entry, AcceptedBlock env now chain block entries entry
        done.chain ∧ done.result = .returned true ∧ done.bvc.addedToMainChain = true) ∨
      (RefusedBlock env chain done.chain ∧ done.result ≠ .returned true) := by
  obtain ⟨cache, updated, accepted⟩ := checkHeader_spec chain now block
  have kept : RefusedBlock env chain { chain with difficultyCache := cache } :=
    ⟨⟨⟨rfl, rfl, rfl, rfl⟩, rfl, rfl⟩, fun _ _ holds => holds⟩
  unfold handleBlockToMainChain
  rcases checkEq : chain.checkHeader env now block (env.getBlockHash block) with
    ⟨checked, verdict⟩
  rw [checkEq] at updated accepted
  subst updated
  cases verdict with
  | rejected badPow => exact .inr ⟨kept, by simp⟩
  | difficultyOverhead => exact .inr ⟨kept, by simp⟩
  | accepted difficulty fastCheck =>
    obtain ⟨computed, header⟩ := accepted difficulty fastCheck rfl
    subst computed
    rcases @handleCheckedBlock_cases env
        { chain with difficultyCache := cache } now block bvc fastCheck fresh
        ⟨header.1, header.2, header.3, header.4, header.5, header.6⟩ with
      ⟨entries, entry, stored, result⟩ | ⟨refused, result⟩
    · left
      exact ⟨entries, entry, ⟨header, stored.known, stored.found,
        stored.stores, stored.bl, stored.txs, stored.blockWeight,
        stored.longTermBlockWeight, stored.cumulativeDifficulty,
        stored.alreadyGeneratedCoins, stored.db,
        stored.hardfork, stored.config.trans ⟨rfl, rfl, rfl, rfl⟩,
        stored.invalidBlocks, stored.pool⟩, result⟩
    · right
      exact ⟨⟨refused.ledger.trans ⟨⟨rfl, rfl, rfl, rfl⟩, rfl, rfl⟩, refused.pool⟩, result⟩

/-! ## The failing exits of a main-chain block -/

structure CleanFailure (env : Env) (now : Nat) (chain : Blockchain)
    (block : Block) (done : BlockResult) : Prop where
  db : done.chain.db = chain.db
  handedBack : done.handedBack = done.removed
  flagged : done.bvc.verifivationFailed = true
  pool : ∃ (txids : List Hash) (entries : List PoolEntry) (held : Blockchain),
    txids <+: block.txHashes ∧ chain.txPool.Takes txids entries held.txPool ∧
    done.removed = entries.map PoolEntry.tx ∧ done.chain.txPool =
      (held.returnTxsFrom env now done.handedBack held.txPool).1

variable {now : Nat} {bvc : BlockVerificationContext} {entries : List PoolEntry}

theorem CleanFailure.congr {other : Blockchain} {done : BlockResult} (db : chain.db = other.db)
    (pool : chain.txPool = other.txPool) (clean : CleanFailure env now chain block done) :
    CleanFailure env now other block done :=
  ⟨clean.db.trans db, clean.handedBack, clean.flagged, pool ▸ clean.pool⟩

def DifficultyRunsOut (env : Env) (now : Nat) (chain : Blockchain) (block : Block) : Prop :=
  block.prevId = chain.db.topBlockHash env ∧ chain.hardfork.check block = true ∧
    chain.checkBlockTimestamp now block = true ∧
    chain.expectedDifficulty = 0

/-- All checks pass, a transaction is stored pruned, and the block has no precomputed weight. -/
def LacksPrunedWeight (env : Env) (now : Nat) (chain : Blockchain) (block : Block) : Prop :=
  ∃ checked difficulty fastCheck coinbaseWeight taken,
    chain.checkHeader env now block (env.getBlockHash block) =
      (checked, .accepted difficulty fastCheck) ∧
    getTransactionWeight block.minerTx = some coinbaseWeight ∧
    checked.takeBlockTxs env now fastCheck block.txHashes 0
        ⟨checked.txPool, [], 0, coinbaseWeight, 0⟩ = (taken, .finished) ∧
    (∃ txid ∈ block.txHashes, ∃ poolEntry, chain.txPool.txpool.lookup txid = some poolEntry ∧
        poolEntry.txMeta.pruned = true) ∧
    chain.tableWeight = 0

theorem checkHeader_difficultyOverhead_iff (chain : Blockchain) (now : Nat)
    (block : Block) (id : Hash) : (chain.checkHeader env now block id).2 = .difficultyOverhead ↔
      DifficultyRunsOut env now chain block := by
  have noOverhead : ∀ (updated : Blockchain) (difficulty : Nat),
      updated.checkWork env block id difficulty ≠ .difficultyOverhead := by
    intro updated difficulty
    unfold checkWork
    dsimp only
    split_ifs <;> simp
  unfold checkHeader DifficultyRunsOut
  rw [← getDifficultyForNextBlock_fst chain env]
  split
  · rename_i unlinked
    simp [unlinked]
  · rename_i linked
    split
    · rename_i unchecked
      simp_all
    · rename_i versionChecked
      split
      · rename_i early
        simp_all
      · rename_i timestampChecked
        dsimp only
        split
        · rename_i zero
          simp_all
        · rename_i pos
          simp_all

variable {txids : List Hash} {difficulty : Nat} {taken : TakenTxs}

theorem failReturning_clean {held : Blockchain} (same : held.db = chain.db)
    (isPrefix : txids <+: block.txHashes) (takes : chain.txPool.Takes txids entries held.txPool) :
    CleanFailure env now chain block
      (held.failReturning env now bvc (entries.map PoolEntry.tx)) := by
  obtain ⟨ledger, pool, flagged, -⟩ :=
    failReturning_spec held now bvc (entries.map PoolEntry.tx)
  exact ⟨ledger.db.trans same, rfl, flagged, ⟨txids, entries, held, isPrefix, takes, rfl, pool⟩⟩

theorem finishBlock_failure (takes : chain.txPool.Takes block.txHashes entries taken.pool)
    (txs : taken.txs = entries.map PoolEntry.tx)
    (weighed : ¬ (0 < taken.prunedCount ∧ chain.tableWeight = 0))
    (failed : (chain.finishBlock env now block bvc difficulty taken).result = .returned false) :
    CleanFailure env now chain block (chain.finishBlock env now block bvc difficulty taken) := by
  unfold finishBlock at failed ⊢
  dsimp only at failed ⊢
  rw [if_neg weighed] at failed ⊢
  split
  · rw [txs]
    exact failReturning_clean rfl List.prefix_rfl takes
  · rename_i reward validated
    rw [validated] at failed
    dsimp only at failed
    split at failed
    · simp at failed
    · rename_i unfailed
      rw [if_neg unfailed]
      split at failed
      · rename_i throws
        rw [if_pos throws, txs]
        exact failReturning_clean rfl List.prefix_rfl takes
      · simp at failed

theorem countP_pruned_pos_iff {pool : TxMemoryPool} (found : List.Forall₂ (fun txid entry =>
      pool.txpool.lookup txid = some entry) txids entries) :
    0 < entries.countP (fun entry => entry.txMeta.pruned) ↔
      ∃ txid ∈ txids, ∃ entry, pool.txpool.lookup txid = some entry ∧
        entry.txMeta.pruned = true := by
  rw [countP_pos_iff]
  constructor
  · rintro ⟨entry, mem, pruned⟩
    obtain ⟨txid, txidMember, lookup⟩ := ListFacts.exists_of_mem_left found.flip mem
    exact ⟨txid, txidMember, entry, lookup, pruned⟩
  · rintro ⟨txid, txidMember, entry, lookup, pruned⟩
    obtain ⟨stored, mem, storedLookup⟩ := ListFacts.exists_of_mem_left found txidMember
    rw [lookup, Option.some.injEq] at storedLookup
    exact ⟨stored, mem, storedLookup ▸ pruned⟩

private theorem finishBlock_lacking
    (ne : taken.txs ≠ []) (lacking : 0 < taken.prunedCount ∧ chain.tableWeight = 0) :
    ¬ ((chain.finishBlock env now block bvc difficulty taken).result = .returned false →
      CleanFailure env now chain block (chain.finishBlock env now block bvc difficulty taken)) := by
  have exits : chain.finishBlock env now block bvc difficulty taken =
      ⟨{ chain with txPool := taken.pool }, bvc, .returned false, taken.txs, []⟩ := by
    unfold finishBlock
    exact if_pos lacking
  rw [exits]
  intro clean
  exact ne (clean rfl).handedBack.symm

theorem handleCheckedBlock_clean_iff (chain : Blockchain) (now : Nat)
    (block : Block) (bvc : BlockVerificationContext) (difficulty : Nat) (fastCheck : Bool) :
    ((chain.handleCheckedBlock env now block bvc difficulty fastCheck).result = .returned false →
      CleanFailure env now chain block
        (chain.handleCheckedBlock env now block bvc difficulty fastCheck)) ↔
      ¬ ∃ coinbase taken, getTransactionWeight block.minerTx = some coinbase ∧
        chain.takeBlockTxs env now fastCheck block.txHashes 0
          ⟨chain.txPool, [], 0, coinbase, 0⟩ = (taken, .finished) ∧
        (∃ txid ∈ block.txHashes, ∃ poolEntry, chain.txPool.txpool.lookup txid = some poolEntry ∧
            poolEntry.txMeta.pruned = true) ∧ chain.tableWeight = 0 := by
  unfold handleCheckedBlock
  split
  · rename_i unweighed
    simp [unweighed]
  · rename_i coinbase weighed
    dsimp only
    split
    · rename_i taken markInvalid takeEq
      obtain ⟨txids, entries, isPrefix, trace⟩ :=
        takeBlockTxs_trace chain env now fastCheck _ 0 ⟨chain.txPool, [], 0, coinbase, 0⟩
      rw [takeEq] at trace
      have txs : taken.txs = entries.map PoolEntry.tx := by simpa using trace.txs
      refine iff_of_true (fun _ => ?_) ?_
      · rw [txs]
        refine failReturning_clean ?_ isPrefix ?_
        · split <;> rfl
        · split <;> exact trace.takes
      · simp [weighed, takeEq]
    · rename_i taken takeEq
      obtain ⟨entries, trace, -, -, pruned⟩ := takeBlockTxs_finished takeEq
      have txs : taken.txs = entries.map PoolEntry.tx := by simpa using trace.txs
      have prunedIff := countP_pruned_pos_iff trace.takes.found
      rw [zero_add] at pruned
      rw [← pruned] at prunedIff
      by_cases lacking : 0 < taken.prunedCount ∧ chain.tableWeight = 0
      · refine iff_of_false ?_ ?_
        · have ne : taken.txs ≠ [] := by
            intro none
            rw [txs, map_eq_nil_iff] at none
            rw [none, countP_nil] at pruned
            omega
          exact finishBlock_lacking ne lacking
        · intro unlacking
          exact unlacking ⟨coinbase, taken, weighed, takeEq,
            prunedIff.mp lacking.1, lacking.2⟩
      · refine iff_of_true (finishBlock_failure trace.takes txs lacking) ?_
        rintro ⟨otherWeight, other, otherWeighed, otherEq, found, table⟩
        rw [weighed] at otherWeighed
        exact lacking ⟨prunedIff.mpr found, table⟩

/-- A call that returns false does so cleanly unless it is the zero-difficulty exit with the flag
unset or the exit for a pruned block without a weight. -/
theorem handleBlockToMainChain_clean_iff (env : Env) (now : Nat)
    (chain : Blockchain) (block : Block) (bvc : BlockVerificationContext) :
    ((chain.handleBlockToMainChain env now block bvc).result = .returned false →
      CleanFailure env now chain block (chain.handleBlockToMainChain env now block bvc)) ↔
      ¬ (DifficultyRunsOut env now chain block ∧ bvc.verifivationFailed = false) ∧
        ¬ LacksPrunedWeight env now chain block := by
  obtain ⟨cache, updated, -⟩ := checkHeader_spec chain now block
  have overhead := @checkHeader_difficultyOverhead_iff env chain now block (env.getBlockHash block)
  have nothingTaken : ∃ (txids : List Hash) (entries : List PoolEntry)
      (held : Blockchain), txids <+: block.txHashes ∧ chain.txPool.Takes txids entries held.txPool ∧
        [] = entries.map PoolEntry.tx ∧
        chain.txPool = (held.returnTxsFrom env now [] held.txPool).1 :=
    ⟨[], [], chain, List.nil_prefix, .nil _, rfl, rfl⟩
  unfold handleBlockToMainChain LacksPrunedWeight
  rcases checkEq : chain.checkHeader env now block (env.getBlockHash block) with
    ⟨checked, verdict⟩
  rw [checkEq] at updated overhead
  subst updated
  cases verdict with
  | rejected badPow =>
    have inTime : ¬ DifficultyRunsOut env now chain block := by simp [← overhead]
    simp only [inTime, false_and, not_false_eq_true, true_and]
    refine iff_of_true (fun _ => ⟨rfl, rfl, rfl, nothingTaken⟩) ?_
    simp
  | difficultyOverhead =>
    have runsOut : DifficultyRunsOut env now chain block := overhead.mp rfl
    simp only [runsOut, true_and]
    constructor
    · intro clean
      refine ⟨?_, by simp⟩
      have flagged := (clean trivial).flagged
      simpa using flagged
    · rintro ⟨flagged, -⟩ -
      exact ⟨rfl, rfl, by simpa using flagged, nothingTaken⟩
  | accepted difficulty fastCheck =>
    have inTime : ¬ DifficultyRunsOut env now chain block := by simp [← overhead]
    simp only [inTime, false_and, not_false_eq_true, true_and]
    have checkedIff := @handleCheckedBlock_clean_iff env
      { chain with difficultyCache := cache } now block bvc difficulty
      fastCheck
    constructor
    · rintro clean ⟨checked, _, _, coinbaseWeight, taken, same, lacking⟩
      simp at same
      obtain ⟨rfl, rfl, rfl⟩ := same
      exact checkedIff.mp (fun failed => (clean failed).congr (by rfl) (by rfl))
        ⟨coinbaseWeight, taken, lacking⟩
    · intro unlacking failed
      refine (checkedIff.mpr ?_ failed).congr (by rfl) (by rfl)
      rintro ⟨coinbaseWeight, taken, lacking⟩
      exact unlacking ⟨_, _, _, coinbaseWeight, taken, rfl, lacking⟩

def timeNamedEnv : Env :=
  .accepting (fun block => block.timestamp + 1) (fun tx => tx.vout.length)

def prunedTx : Transaction where
  version := 2
  unlockTime := 0
  vin := [.toKey 0 [1] 9]
  vout := [⟨0, .toTaggedKey 4 0⟩, ⟨0, .toTaggedKey 5 0⟩]
  extra := []
  signaturesSize := 0
  rctSignatures := ⟨.bulletproofPlus, 1000, 2, 100⟩
  pruned := true

def prunedPoolChain : Blockchain :=
  let blocks : List BlockEntry := [.bare 1 0 0 1, .bare 1 60 1 2]
  let chain : Blockchain := { Blockchain.empty with
      db := { Blockchain.empty.db with blocks := blocks }
      hardfork := (HardFork.addAll (Blockchain.empty.hardfork, ∅) 0 (blocks.map BlockEntry.bl)).1 }
  { chain with
    txPool := (chain.txPool.addTx (chain.view timeNamedEnv 0) prunedTx 2 2000 .block true 16).1 }

def prunedBlock : Block where
  majorVersion := 16
  minorVersion := 16
  timestamp := 120
  prevId := 61
  nonce := 0
  minerTx := { Transaction.setNull with
      version := 2
      unlockTime := 62
      vin := [.gen 2]
      vout := [⟨10000001000, .toTaggedKey 6 0⟩] }
  txHashes := [2]

/-- The transaction is gone from the pool and not handed back, and the failure flag is not set. -/
theorem prunedBlock_loses_transaction :
    let done := prunedPoolChain.handleBlockToMainChain timeNamedEnv 120
      prunedBlock .init
    (prunedPoolChain.txPool.txpool.lookup 2).isSome ∧ done.result = .returned false ∧
      done.removed = [prunedTx] ∧ done.handedBack = [] ∧
      done.chain.txPool.txpool.lookup 2 = none ∧
      done.bvc.verifivationFailed = false := by
  decide

end Blockchain

end LodeChain

import LodeChain.ChainRuns

/-!
# What every stored block has been checked for

Records are computed from those below and from pool entries that describe their transactions
truthfully.
-/

namespace LodeChain

open WrappedArithmetic List

/-- A pool entry that is stored under the hash of its transaction and describes
it truthfully. -/
structure PoolFact (env : Env) (received : Transaction → Prop) (txid : Hash)
    (poolEntry : PoolEntry) : Prop where
  permitted : received poolEntry.tx
  hash : env.getTransactionHash poolEntry.tx = txid
  fee : poolEntry.txMeta.fee = getTxFee poolEntry.tx
  pruned : poolEntry.txMeta.pruned = poolEntry.tx.pruned
  weight : poolEntry.tx.pruned = false →
    getTransactionWeight poolEntry.tx = some poolEntry.txMeta.weight

variable {tx : Transaction} {weight version now : Nat}

theorem PoolFact.of_fresh {env : Env} {recv : Transaction → Prop} {poolEntry : PoolEntry}
    (permitted : recv tx) (isFresh : poolEntry.IsFresh tx weight)
    (weighed : tx.pruned = false → getTransactionWeight tx = some weight) :
    PoolFact env recv (env.getTransactionHash tx) poolEntry := by
  obtain ⟨sameTx, sameWeight, fee, pruned⟩ := isFresh
  subst sameTx
  exact ⟨permitted, rfl, fee, pruned, fun unpruned => sameWeight ▸ weighed unpruned⟩

theorem poolFact_returnable (env : Env) (recv : Transaction → Prop) :
    Returnable env (PoolFact env recv) where
  same := by
    rintro txid poolEntry original ⟨tx, weight, fee, pruned⟩ fact
    refine ⟨tx ▸ fact.permitted, tx ▸ fact.hash, ?_, ?_, ?_⟩
    · rw [fee, fact.fee, tx]
    · rw [pruned, fact.pruned, tx]
    · rw [tx, weight]
      exact fact.weight
  fresh := by
    rintro txid poolEntry original isFresh fact
    rw [← fact.hash]
    exact .of_fresh fact.permitted isFresh fact.weight
  returned := by
    rintro txid poolEntry original weight weighed isFresh fact
    exact .of_fresh fact.permitted isFresh (fun _ => weighed)

def lastGeneratedCoins (entries : List BlockEntry) : Nat :=
  (entries.getLast?.map BlockEntry.alreadyGeneratedCoins).getD 0

def lastBlockHash (env : Env) (entries : List BlockEntry) : Hash :=
  match entries.getLast? with
  | none => nullHash
  | some entry => env.getBlockHash entry.bl

structure SoundEntry (env : Env) (earlier : List BlockEntry) (entry : BlockEntry) : Prop where
  linked : entry.bl.prevId = lastBlockHash env earlier
  height : getBlockHeight entry.bl = earlier.length
  txids : entry.txs.map env.getTransactionHash = entry.bl.txHashes
  outsFit : checkOutsOverflow entry.bl.minerTx = true
  reward : ∃ version base reward, base ≤ getBaseReward (lastGeneratedCoins earlier) earlier.length ∧
    settleReward version base (sumMod 64 (entry.txs.map getTxFee))
      (getOutsMoneyAmount entry.bl.minerTx) = some reward ∧ entry.alreadyGeneratedCoins =
      Blockchain.addGeneratedCoins (lastGeneratedCoins earlier) reward.baseReward

theorem prevalidateMinerTransaction_spec {block : Block} {height : Nat}
    (prevalidated : prevalidateMinerTransaction block height version = true) :
    getBlockHeight block = height ∧ checkOutsOverflow block.minerTx = true := by
  unfold prevalidateMinerTransaction at prevalidated
  unfold getBlockHeight
  split at prevalidated
  · rename_i genHeight inputs
    simp at prevalidated
    exact ⟨by simpa [inputs] using prevalidated.1.1.1.2, prevalidated.1.2⟩
  · simp at prevalidated

namespace Blockchain

variable {env : Env} {traffic : Traffic}
  {chain after : Blockchain} {block : Block} {poolEntries : List PoolEntry} {entry : BlockEntry}

theorem validateMinerTransaction_spec {fee coins : Nat} {reward : MinerReward}
    (validated : chain.validateMinerTransaction block weight fee coins version = some reward) :
    ∃ base, getBlockReward (chain.rewardMedian version) weight coins version
        (getBlockHeight block) = some base ∧
      settleReward version base fee (getOutsMoneyAmount block.minerTx) = some reward := by
  unfold validateMinerTransaction at validated
  split at validated
  · simp at validated
  · split at validated
    · simp at validated
    · rename_i base rewarded
      exact ⟨base, rewarded, validated⟩

theorem topGeneratedCoins_eq (chain : Blockchain) :
    chain.topGeneratedCoins = lastGeneratedCoins chain.db.blocks := by
  unfold topGeneratedCoins lastGeneratedCoins
    BlockchainDB.alreadyGeneratedCoinsAt BlockchainDB.height
  rw [getD_eq_getElem?_getD, getElem?_map, ← getLast?_eq_getElem?]
  split
  · rename_i empty
    rw [length_eq_zero_iff.mp empty]
    rfl
  · rfl

section

variable {pool : TxMemoryPool} {txids : List Hash}
  (facts : TxMemoryPool.Holds (PoolFact env traffic.transaction) pool)
  (found : List.Forall₂ (fun txid poolEntry => pool.txpool.lookup txid = some poolEntry) txids
    poolEntries)

include facts found

theorem map_getTransactionHash_of_found :
    (poolEntries.map PoolEntry.tx).map env.getTransactionHash = txids := by
  induction found with
  | nil => rfl
  | cons first _ ih => rw [map_cons, map_cons, ih, (facts _ _ first).hash]

theorem map_fee_of_found : (poolEntries.map fun poolEntry => poolEntry.txMeta.fee) =
      (poolEntries.map PoolEntry.tx).map getTxFee := by
  induction found with
  | nil => rfl
  | cons first _ ih => rw [map_cons, map_cons, map_cons, ih, (facts _ _ first).fee]

end

theorem AcceptedBlock.soundEntry
    (accepted : AcceptedBlock env now chain block poolEntries entry after)
    (facts : TxMemoryPool.Holds (PoolFact env traffic.transaction) chain.txPool) :
    SoundEntry env chain.db.blocks entry := by
  obtain ⟨height, outsFit⟩ := prevalidateMinerTransaction_spec accepted.prevalidated
  obtain ⟨reward, validated, coins⟩ := accepted.alreadyGeneratedCoins
  obtain ⟨base, rewarded, settled⟩ := validateMinerTransaction_spec validated
  rw [topGeneratedCoins_eq, height] at rewarded
  rw [topGeneratedCoins_eq] at coins
  rw [map_fee_of_found facts accepted.found, ← accepted.txs, ← accepted.bl] at settled
  refine ⟨?_, ?_, ?_, ?_, ?_⟩
  · rw [accepted.bl]
    exact accepted.linked
  · rw [accepted.bl]
    exact height
  · rw [accepted.txs, accepted.bl, map_getTransactionHash_of_found facts accepted.found]
  · rw [accepted.bl]
    exact outsFit
  · exact ⟨_, base, reward, getBlockReward_le rewarded, settled, coins⟩

structure SoundChain (env : Env) (traffic : Traffic) (chain : Blockchain) : Prop where
  pool : TxMemoryPool.Holds (PoolFact env traffic.transaction) chain.txPool
  entries : ListFacts.EachAfter (SoundEntry env) chain.db.blocks
  blocks : ∀ entry ∈ chain.db.blocks, traffic.block entry.bl
  txs : ∀ entry ∈ chain.db.blocks, ∀ tx ∈ entry.txs, traffic.transaction tx

theorem SoundChain.txid_mem (sound : SoundChain env traffic chain)
    (mem : entry ∈ chain.db.blocks) (lt : tx ∈ entry.txs) :
    env.getTransactionHash tx ∈ entry.bl.txHashes := by
  obtain ⟨prev, later, split⟩ := append_of_mem mem
  rw [← (sound.entries prev entry later split).txids]
  exact mem_map_of_mem lt

theorem SoundChain.append (sound : SoundChain env traffic chain) (permitted : traffic.block block)
    (accepted : AcceptedBlock env now chain block poolEntries entry after)
    (pool : TxMemoryPool.Holds (PoolFact env traffic.transaction) after.txPool) :
    SoundChain env traffic after := by
  refine ⟨pool, ?_, ?_, ?_⟩
  · rw [accepted.blocks]
    exact sound.entries.append_singleton (accepted.soundEntry sound.pool)
  · rw [accepted.blocks]
    intro other mem
    rcases mem_append.mp mem with prev | last
    · exact sound.blocks other prev
    · rw [mem_singleton.mp last, accepted.bl]
      exact permitted
  · rw [accepted.blocks]
    intro other mem tx txMember
    rcases mem_append.mp mem with prev | last
    · exact sound.txs other prev tx txMember
    · rw [mem_singleton.mp last, accepted.txs] at txMember
      obtain ⟨poolEntry, taken, rfl⟩ := mem_map.mp txMember
      obtain ⟨txid, -, found⟩ := ListFacts.exists_of_mem_left accepted.found.flip taken
      exact (sound.pool txid poolEntry found).permitted

theorem ChainStep.poolFact (step : ChainStep env traffic chain after)
    (sound : SoundChain env traffic chain) :
    TxMemoryPool.Holds (PoolFact env traffic.transaction) after.txPool := by
  refine step.pool_holds (poolFact_returnable env _) ?_ sound.txs sound.pool
  intro tx weight poolEntry permitted weighed isFresh
  refine .of_fresh permitted isFresh (fun unpruned => ?_)
  rw [← weighed, incomingTxWeight, unpruned]
  rfl

theorem ChainStep.soundChain (step : ChainStep env traffic chain after)
    (sound : SoundChain env traffic chain) : SoundChain env traffic after := by
  have pool := step.poolFact sound
  rcases step.blocks_cases with
    ⟨now, block, poolEntries, entry, permitted, accepted⟩ | ⟨top, popped⟩ | same
  · exact sound.append permitted accepted pool
  · obtain ⟨-, entries, blocks, txs⟩ := sound
    rw [popped.blocks] at entries blocks txs
    exact ⟨pool, entries.of_append, fun entry mem => blocks entry (mem_append_left _ mem),
      fun entry mem => txs entry (mem_append_left _ mem)⟩
  · obtain ⟨-, entries, blocks, txs⟩ := sound
    rw [← same] at entries blocks txs
    exact ⟨pool, entries, blocks, txs⟩

theorem Reachable.soundChain (reachable : Reachable env traffic chain) :
    SoundChain env traffic chain := by
  refine reachable.induct ?_ (fun step sound => step.soundChain sound)
  intro start started
  refine ⟨?_, ?_, ?_, ?_⟩
  · intro txid poolEntry found
    rw [started.txpool] at found
    simp at found
  · rw [started.blocks]
    exact .nil
  all_goals
    rw [started.blocks]
    simp

end Blockchain

/-! ## Work along the chain -/

open BlockEntry

structure WorkRule where
  fixedDifficulty : Nat
  table : HardFork

namespace WorkRule

variable (rule : WorkRule)

def difficultyAfter (work : List (Nat × Nat)) : Nat :=
  if rule.fixedDifficulty ≠ 0 then if work.length = 0 then 1 else rule.fixedDifficulty
  else
    let window := work.rtake (min (work.length - 1) difficultyBlocksCount)
    nextDifficulty (window.map Prod.fst) (window.map Prod.snd)
      (if rule.table.versionAt work.length < 2 then difficultyTargetV1
        else difficultyTargetV2)

def lastWork (work : List (Nat × Nat)) : Nat :=
  (work.getLast?.map Prod.snd).getD 0

def workAfter (work : List (Nat × Nat)) : Nat :=
  addMod 128 (rule.difficultyAfter work) (lastWork work)

/-- The path is listed newest first, the result oldest first. -/
def pathWork (rule : WorkRule) : List Block → List (Nat × Nat)
  | [] => []
  | block :: rest => rule.pathWork rest ++ [(block.timestamp, rule.workAfter (rule.pathWork rest))]

@[simp]
theorem length_pathWork (path : List Block) : (rule.pathWork path).length = path.length := by
  induction path with
  | nil => rfl
  | cons block rest ih => simp [pathWork, ih]

@[simp]
theorem lastWork_append_singleton (work : List (Nat × Nat)) (pair : Nat × Nat) :
    lastWork (work ++ [pair]) = pair.2 := by
  simp [lastWork]

theorem difficultyAfter_nil_lt : rule.difficultyAfter [] < 2 ^ 128 := by
  unfold difficultyAfter
  split
  · simp
  · exact nextDifficulty_lt _ _ _

end WorkRule

def BlockEntry.work (entry : BlockEntry) : Nat × Nat :=
  (entry.bl.timestamp, entry.cumulativeDifficulty)

def WorkEntry (rule : WorkRule) (earlier : List BlockEntry) (entry : BlockEntry) : Prop :=
  entry.cumulativeDifficulty = rule.workAfter (earlier.map work)

theorem map_work_eq_pathWork {rule : WorkRule} {entries : List BlockEntry}
    (worked : ListFacts.EachAfter (WorkEntry rule) entries) :
    entries.map work = rule.pathWork (entries.map bl).reverse := by
  induction entries using List.reverseRecOn with
  | nil => rfl
  | append_singleton prev entry ih =>
    have before := ih worked.of_append
    have last : entry.cumulativeDifficulty =
        rule.workAfter (prev.map work) := worked _ _ [] rfl
    simp only [map_append, map_cons, map_nil, reverse_append, reverse_cons, reverse_nil,
      nil_append, singleton_append, WorkRule.pathWork]
    rw [← before, ← last]
    rfl

namespace Blockchain

/-- The hard-fork object and the recorded work belong to the stored chain. -/
structure SyncedChain (rule : WorkRule) (chain : Blockchain) : Prop where
  hardfork : chain.hardfork.Synced chain.db.hfVersions (chain.db.blocks.map bl)
  table : chain.hardfork.SameTable rule.table
  fixedDifficulty : chain.fixedDifficulty = rule.fixedDifficulty
  worked : ListFacts.EachAfter (WorkEntry rule) chain.db.blocks

variable {env : Env} {traffic : Traffic} {rule : WorkRule} {chain after : Blockchain}

section

variable (synced : SyncedChain rule chain)

include synced

theorem SyncedChain.currentVersion :
    chain.getCurrentHardForkVersion = rule.table.versionAt chain.db.blocks.length := by
  rw [getCurrentHardForkVersion, synced.hardfork.inForce.getCurrentVersion,
    synced.table.versionAt, length_map]

theorem SyncedChain.expectedDifficulty :
    chain.expectedDifficulty = rule.difficultyAfter (chain.db.blocks.map work) := by
  unfold Blockchain.expectedDifficulty WorkRule.difficultyAfter getDifficultyTarget
  rw [synced.currentVersion, synced.fixedDifficulty, difficultyBlocks_eq_rtake]
  simp only [List.rtake, length_map, ← map_drop, map_map]
  rfl

theorem SyncedChain.nextCumulativeDifficulty :
    chain.nextCumulativeDifficulty chain.expectedDifficulty =
      rule.workAfter (chain.db.blocks.map work) := by
  rw [synced.expectedDifficulty]
  unfold Blockchain.nextCumulativeDifficulty WorkRule.workAfter
    BlockchainDB.height BlockchainDB.cumulativeDifficultyAt WorkRule.lastWork
  split
  · rename_i empty
    rw [length_eq_zero_iff.mp empty]
    exact (Nat.mod_eq_of_lt rule.difficultyAfter_nil_lt).symm
  · rw [getD_eq_getElem?_getD, getElem?_map, ← getLast?_eq_getElem?, getLast?_map, Option.map_map]
    rfl

theorem SyncedChain.append {now : Nat} {block : Block} {entries : List PoolEntry}
    {entry : BlockEntry} (accepted : AcceptedBlock env now chain block entries entry after) :
    SyncedChain rule after := by
  have added := synced.hardfork.add accepted.versionChecked
  have same := HardFork.add_sameTable chain.hardfork chain.db.hfVersions block chain.db.height
  rw [length_map] at added
  have fork : after.hardfork = (chain.hardfork.add chain.db.hfVersions block
      chain.db.height).1 := by
    rw [accepted.hardfork, ← accepted.bl]
    rfl
  have hfVersions : after.db.hfVersions = (chain.hardfork.add
      chain.db.hfVersions block chain.db.height).2 := by
    rw [accepted.db, ← accepted.bl]
    rfl
  refine ⟨?_, ?_, accepted.config.fixedDifficulty.trans synced.fixedDifficulty, ?_⟩
  · rw [fork, hfVersions, accepted.blocks, map_append, map_cons, accepted.bl]
    exact added
  · rw [fork]
    exact ⟨same.1.trans synced.table.1, same.2.trans synced.table.2⟩
  · rw [accepted.blocks]
    refine synced.worked.append_singleton ?_
    exact accepted.cumulativeDifficulty.trans synced.nextCumulativeDifficulty

theorem SyncedChain.pop {top : BlockEntry} (popped : PoppedBlock env chain top after) :
    SyncedChain rule after := by
  obtain ⟨fork, table, fixedDifficulty, worked⟩ := synced
  rw [popped.blocks] at worked
  rw [popped.blocks, map_append] at fork
  have removed := fork.onBlockPopped 1
  rw [length_map, ← popped.hardfork, ← popped.hfVersions] at removed
  refine ⟨removed, ?_, popped.config.fixedDifficulty.trans fixedDifficulty, worked.of_append⟩
  rw [popped.hardfork]
  have same := HardFork.popVotes_sameTable chain.hardfork chain.db.hfVersions
    after.db.blocks.length 1
  exact ⟨same.1.trans table.1, same.2.trans table.2⟩

theorem SyncedChain.of_sameLedger (ledger : after.SameLedger chain) : SyncedChain rule after := by
  obtain ⟨fork, table, fixedDifficulty, worked⟩ := synced
  rw [← ledger.db, ← ledger.hardfork] at fork
  rw [← ledger.hardfork] at table
  rw [← ledger.db] at worked
  exact ⟨fork, table, ledger.fixedDifficulty.trans fixedDifficulty, worked⟩

theorem SyncedChain.reorganizeHardFork (height : Nat) :
    SyncedChain rule (chain.reorganizeHardFork height) := by
  have same := HardFork.reorganizeFromChainHeight_sameTable chain.hardfork
    chain.db.hfVersions (chain.db.blocks.map bl) height
  exact ⟨synced.hardfork.reorganizeFromChainHeight height,
    ⟨same.1.trans synced.table.1, same.2.trans synced.table.2⟩,
    synced.fixedDifficulty, synced.worked⟩

end

theorem ChainStep.syncedChain (step : ChainStep env traffic chain after)
    (synced : SyncedChain rule chain) : SyncedChain rule after := by
  cases step with
  | mainBlock now block bvc fresh permitted =>
    rcases handleBlockToMainChain_cases chain now block bvc fresh with
      ⟨entries, entry, accepted, -⟩ | ⟨refused, -⟩
    · exact synced.append accepted
    · exact synced.of_sameLedger refused.ledger
  | pop now =>
    rcases popBlockFromBlockchain_cases chain now with
      ⟨top, popped, -⟩ | ⟨ledger, -⟩
    · exact synced.pop popped
    · exact synced.of_sameLedger ledger
  | incomingTx | tidyPool | storeAlternative | removeAlternative =>
    exact ⟨synced.hardfork, synced.table, synced.fixedDifficulty, synced.worked⟩
  | reorganizeHardFork height => exact synced.reorganizeHardFork height
  | cache _ ledger pool => exact synced.of_sameLedger ledger

/-- A node that starts with a table of hard forks that asks for no votes. -/
structure StartsByHeight (start : Blockchain) : Prop extends IsInitial start where
  byHeight : start.hardfork.ByHeight
  inForce : start.hardfork.InForce 0

def workRule (chain : Blockchain) : WorkRule :=
  ⟨chain.fixedDifficulty, chain.hardfork⟩

theorem StartsByHeight.syncedChain {start : Blockchain} (started : StartsByHeight start) :
    SyncedChain start.workRule start := by
  refine ⟨⟨started.byHeight, ?_, ?_, ?_⟩, ⟨rfl, rfl⟩, rfl, ?_⟩
  · rw [started.blocks]
    exact started.inForce
  all_goals
    rw [started.blocks]
  · simp
  · simp
  · exact .nil

theorem Run.syncedChain {start : Blockchain} (started : StartsByHeight start)
    (run : Run env traffic start chain) : SyncedChain start.workRule chain :=
  run.preserves (fun step => step.syncedChain) started.syncedChain

end Blockchain

/-! ## Transactions in blocks and in the pool -/

def transactionWeight (tx : Transaction) : Nat :=
  (getTransactionWeight tx).getD 0

/-- What a record satisfies as to its transactions, relative to the records
before it. -/
structure MinedEntry (earlier : List BlockEntry) (entry : BlockEntry) : Prop where
  nodup : entry.bl.txHashes.Nodup
  fresh : ∀ other ∈ earlier, ∀ txid ∈ other.bl.txHashes, txid ∉ entry.bl.txHashes
  weighed : ∀ tx ∈ entry.txs, tx.pruned = false → ∃ weight, getTransactionWeight tx = some weight
  weight : (∀ tx ∈ entry.txs, tx.pruned = false) → ∃ coinbaseWeight,
    getTransactionWeight entry.bl.minerTx = some coinbaseWeight ∧ entry.blockWeight =
      (entry.txs.map transactionWeight).foldl (addMod 64) coinbaseWeight

def Unmined (entries : List BlockEntry) (txid : Hash) : Prop :=
  ∀ entry ∈ entries, txid ∉ entry.bl.txHashes

variable {txid : Hash}

theorem unmined_of_txExists {db : BlockchainDB} {env : Env}
    (unknown : db.txExists env txid = false) : Unmined db.blocks txid := by
  intro entry mem listed
  have never := any_eq_false.mp unknown entry mem
  simp [BlockchainDB.txIds, listed] at never

variable {entries : List BlockEntry} {entry : BlockEntry} {poolEntries : List PoolEntry}

theorem Unmined.of_append {later : List BlockEntry}
    (unmined : Unmined (entries ++ later) txid) : Unmined entries txid :=
  fun entry mem => unmined entry (mem_append_left _ mem)

theorem Unmined.append_singleton (unmined : Unmined entries txid)
    (unlisted : txid ∉ entry.bl.txHashes) :
    Unmined (entries ++ [entry]) txid := by
  intro other mem
  rcases mem_append.mp mem with prev | last
  · exact unmined other prev
  · rw [mem_singleton.mp last]
    exact unlisted

namespace Blockchain

variable {env : Env} {traffic : Traffic} {chain after : Blockchain}

theorem map_weight_of_found {pool : TxMemoryPool} {txids : List Hash}
    (facts : TxMemoryPool.Holds (PoolFact env traffic.transaction) pool)
    (found : List.Forall₂ (fun txid poolEntry =>
      pool.txpool.lookup txid = some poolEntry) txids poolEntries)
    (unpruned : ∀ poolEntry ∈ poolEntries, poolEntry.tx.pruned = false) :
    (poolEntries.map fun poolEntry => poolEntry.txMeta.weight) =
      (poolEntries.map PoolEntry.tx).map transactionWeight := by
  induction found with
  | nil => rfl
  | cons first _ ih =>
    rw [forall_mem_cons] at unpruned
    have weighed := (facts _ _ first).weight unpruned.1
    rw [map_cons, map_cons, map_cons, ih unpruned.2, transactionWeight, weighed]
    rfl

theorem AcceptedBlock.minedEntry {now : Nat} {block : Block}
    (accepted : AcceptedBlock env now chain block poolEntries entry after)
    (facts : TxMemoryPool.Holds (PoolFact env traffic.transaction) chain.txPool) :
    MinedEntry chain.db.blocks entry := by
  have taken : ∀ poolEntry ∈ poolEntries,
      ∃ txid, PoolFact env traffic.transaction txid poolEntry := by
    intro poolEntry mem
    obtain ⟨txid, -, found⟩ := ListFacts.exists_of_mem_left accepted.found.flip mem
    exact ⟨txid, facts txid poolEntry found⟩
  refine ⟨?_, ?_, ?_, ?_⟩
  · have stores := accepted.stores
    simp only [BlockchainDB.addBlockThrows, Bool.or_eq_false_iff,
      Bool.not_eq_false', decide_eq_true_eq] at stores
    rw [accepted.bl]
    exact (nodup_cons.mp stores.1.1.1.1.1.1.1.2).2
  · intro other mem txid listed
    rw [accepted.bl]
    intro again
    exact unmined_of_txExists (accepted.known txid again) other mem listed
  · intro tx mem unpruned
    rw [accepted.txs] at mem
    obtain ⟨poolEntry, entryMember, rfl⟩ := mem_map.mp mem
    obtain ⟨txid, fact⟩ := taken poolEntry entryMember
    exact ⟨_, fact.weight unpruned⟩
  · intro unpruned
    rw [accepted.txs, forall_mem_map] at unpruned
    obtain ⟨coinbase, weighed, weight⟩ := accepted.blockWeight
    have none : ¬ 0 < poolEntries.countP (fun poolEntry => poolEntry.txMeta.pruned) := by
      rw [countP_pos_iff]
      rintro ⟨poolEntry, mem, pruned⟩
      obtain ⟨txid, fact⟩ := taken poolEntry mem
      rw [fact.pruned, unpruned poolEntry mem] at pruned
      simp at pruned
    rw [if_neg none, ← foldl_map (f := fun poolEntry : PoolEntry =>
      poolEntry.txMeta.weight),
      map_weight_of_found facts accepted.found unpruned,
      ← accepted.txs] at weight
    exact ⟨coinbase, accepted.bl ▸ weighed, weight⟩

/-- A sound chain whose transactions are stored once and are not in the
pool. -/
structure MinedChain (env : Env) (traffic : Traffic) (chain : Blockchain) : Prop
    extends SoundChain env traffic chain where
  mined : ListFacts.EachAfter MinedEntry chain.db.blocks
  unmined : TxMemoryPool.Holds (fun txid _ => Unmined chain.db.blocks txid) chain.txPool

theorem MinedChain.weighed {env : Env} {traffic : Traffic} {chain : Blockchain}
    (mined : MinedChain env traffic chain) :
    ∀ entry ∈ chain.db.blocks, ∀ tx ∈ entry.txs, tx.pruned = false →
      ∃ weight, getTransactionWeight tx = some weight := by
  intro entry mem
  obtain ⟨prev, later, split⟩ := append_of_mem mem
  exact (mined.mined prev entry later split).weighed

theorem unmined_stable (entries : List BlockEntry) :
    TxMemoryPool.Stable fun txid _ => Unmined entries txid :=
  ⟨fun _ unmined => unmined, fun _ unmined => unmined⟩

theorem unmined_returnable (env : Env) (recv : Transaction → Prop) (entries : List BlockEntry) :
    Returnable env fun txid poolEntry =>
      PoolFact env recv txid poolEntry ∧ Unmined entries txid where
  same same holds := ⟨(poolFact_returnable env recv).same same holds.1, holds.2⟩
  fresh isFresh holds := ⟨(poolFact_returnable env recv).fresh isFresh holds.1, holds.2⟩
  returned weighed isFresh holds :=
    ⟨(poolFact_returnable env recv).returned weighed isFresh holds.1,
      holds.1.hash.symm ▸ holds.2⟩

theorem MinedChain.unmined_of_pop {top : BlockEntry} (mined : MinedChain env traffic chain)
    (popped : PoppedBlock env chain top after) :
    TxMemoryPool.Holds (fun txid _ => Unmined after.db.blocks txid) after.txPool := by
  refine popped.pool _ (unmined_stable _) ?_ ?_
  · intro tx mem _ _ _ _ _ other otherMember listed
    have topMined := mined.mined _ _ [] popped.blocks
    refine topMined.fresh other otherMember _ listed (mined.txid_mem ?_ mem)
    rw [popped.blocks]
    exact mem_append_right _ mem_cons_self
  · intro txid poolEntry found
    have unmined := mined.unmined txid poolEntry found
    rw [popped.blocks] at unmined
    exact unmined.of_append

theorem ChainStep.unmined (step : ChainStep env traffic chain after)
    (mined : MinedChain env traffic chain) :
    TxMemoryPool.Holds (fun txid _ => Unmined after.db.blocks txid) after.txPool := by
  cases step with
  | mainBlock now block bvc fresh permitted =>
    rcases handleBlockToMainChain_cases chain now block bvc fresh with
      ⟨entries, entry, accepted, -⟩ | ⟨refused, -⟩
    · rw [accepted.blocks]
      refine accepted.pool _ (unmined_stable _) ?_
      intro txid poolEntry unlisted found
      exact (mined.unmined txid poolEntry found).append_singleton (accepted.bl ▸ unlisted)
    · rw [refused.ledger.db]
      intro txid poolEntry found
      exact (refused.pool _ (unmined_returnable env _ _)
        (fun id original lookup => ⟨mined.pool id original lookup,
          mined.unmined id original lookup⟩) txid poolEntry found).2
  | pop now =>
    rcases popBlockFromBlockchain_cases chain now with
      ⟨top, popped, -⟩ | ⟨ledger, pool, -⟩
    · exact mined.unmined_of_pop popped
    · rw [ledger.db, pool]
      exact mined.unmined
  | incomingTx now tx weight txRelay relayed unknown weighed permitted =>
    exact mined.unmined.of_addedTo (unmined_stable _) (fun _ _ => unmined_of_txExists unknown)
      (TxMemoryPool.addTx_addedTo _ _ _ _ _ _ _ _)
  | tidyPool pool within => exact mined.unmined.of_within (unmined_stable _) within
  | storeAlternative | removeAlternative | reorganizeHardFork => exact mined.unmined
  | cache _ ledger pool =>
    rw [ledger.db, pool]
    exact mined.unmined

theorem ChainStep.minedChain (step : ChainStep env traffic chain after)
    (mined : MinedChain env traffic chain) : MinedChain env traffic after := by
  refine ⟨step.soundChain mined.toSoundChain, ?_, step.unmined mined⟩
  rcases step.blocks_cases with
    ⟨now, block, poolEntries, entry, -, accepted⟩ | ⟨top, popped⟩ | same
  · rw [accepted.blocks]
    exact mined.mined.append_singleton (accepted.minedEntry mined.pool)
  · have entries := mined.mined
    rw [popped.blocks] at entries
    exact entries.of_append
  · rw [same]
    exact mined.mined

theorem Reachable.minedChain (reachable : Reachable env traffic chain) :
    MinedChain env traffic chain := by
  refine reachable.induct ?_ (fun step mined => step.minedChain mined)
  intro start started
  refine ⟨Reachable.soundChain ⟨start, started, .refl⟩, ?_, ?_⟩
  · rw [started.blocks]
    exact .nil
  · intro txid poolEntry found
    rw [started.txpool] at found
    simp at found

structure StoredOnce (env : Env) (db : BlockchainDB) : Prop where
  ids : (db.blockHashes env).Nodup
  txids : (db.blocks.flatMap (BlockchainDB.txIds env)).Nodup
  keyImages : (db.blocks.flatMap fun entry => entry.txs.flatMap Transaction.keyImages).Nodup

theorem AcceptedBlock.storedOnce {now : Nat} {block : Block} {poolEntries : List PoolEntry}
    {entry : BlockEntry} (accepted : AcceptedBlock env now chain block poolEntries entry after)
    (once : StoredOnce env chain.db) : StoredOnce env after.db := by
  have stores := accepted.stores
  rw [← accepted.bl] at stores
  simp only [BlockchainDB.addBlockThrows, Bool.or_eq_false_iff, Bool.not_eq_false',
    decide_eq_true_eq, any_eq_false] at stores
  obtain ⟨⟨⟨⟨⟨⟨⟨⟨-, newIds⟩, unknown⟩, newImages⟩, unspent⟩, -⟩, isNew⟩, -⟩, -⟩ := stores
  refine ⟨?_, ?_, ?_⟩
  · rw [BlockchainDB.blockHashes, accepted.blocks, map_append, nodup_append']
    refine ⟨once.ids, nodup_singleton _, disjoint_singleton.mpr ?_⟩
    simpa [BlockchainDB.blockExists, BlockchainDB.blockHashes] using isNew
  · rw [accepted.blocks, flatMap_append, flatMap_singleton, nodup_append']
    refine ⟨once.txids, newIds, fun txid known again => unknown txid again ?_⟩
    simpa [BlockchainDB.txExists] using known
  · rw [accepted.blocks, flatMap_append, flatMap_singleton, nodup_append']
    refine ⟨once.keyImages, newImages, fun image known again => unspent image again ?_⟩
    simpa [BlockchainDB.hasKeyImage] using known

theorem ChainStep.storedOnce (step : ChainStep env traffic chain after)
    (once : StoredOnce env chain.db) : StoredOnce env after.db := by
  rcases step.blocks_cases with
    ⟨now, block, poolEntries, entry, -, accepted⟩ | ⟨top, popped⟩ | same
  · exact accepted.storedOnce once
  · obtain ⟨ids, txids, keyImages⟩ := once
    rw [BlockchainDB.blockHashes, popped.blocks, map_append] at ids
    rw [popped.blocks, flatMap_append] at txids keyImages
    exact ⟨ids.of_append_left, txids.of_append_left, keyImages.of_append_left⟩
  · obtain ⟨ids, txids, keyImages⟩ := once
    rw [BlockchainDB.blockHashes] at ids
    rw [← same] at ids txids keyImages
    exact ⟨ids, txids, keyImages⟩

end Blockchain

end LodeChain

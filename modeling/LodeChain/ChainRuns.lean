import LodeChain.AcceptedBlock

/-!
# Runs of a node

A node's chain moves by the steps below, in any order. What a step does to blocks, alternative
blocks and pool is said once here, and the phases of a switch are shown to be runs of such steps.
-/

namespace LodeChain

namespace Blockchain

/-- Pops blocks until `stop` holds; removing the genesis block throws before the fuel runs out. -/
def popUntil (env : Env) (now : Nat) (stop : Blockchain → Bool) :
    Nat → Blockchain → List Block → Option (List Block) × Blockchain
  | 0, chain, _ => (none, chain)
  | fuel + 1, chain, popped =>
    if stop chain then (some popped, chain)
    else
      match chain.popBlockFromBlockchain env now with
      | (none, remaining) => (none, remaining)
      | (some block, remaining) => popUntil env now stop fuel remaining (block :: popped)

variable (chain : Blockchain)

def popToBlock (env : Env) (now : Nat) (id : Hash) : Option (List Block) × Blockchain :=
  popUntil env now (fun current => current.db.topBlockHash env == id) (chain.db.height + 1) chain []

def popToHeight (env : Env) (now height : Nat) : Option (List Block) × Blockchain :=
  popUntil env now (fun current => current.db.height == height) (chain.db.height + 1) chain []

def reorganizeHardFork (height : Nat) : Blockchain :=
  let (hardfork, hfVersions) := chain.hardfork.reorganizeFromChainHeight chain.db.hfVersions
      (chain.db.blocks.map BlockEntry.bl) height
  { chain with
    db := { chain.db with hfVersions := hfVersions }
    hardfork := hardfork }

/-- Also what is left from the failing block on, and whether that call threw. -/
def attachAll (env : Env) (now : Nat) : List Block → Blockchain → Blockchain × List Block × Bool
  | [], chain => (chain, [], false)
  | block :: rest, chain =>
    let attached := chain.handleBlockToMainChain env now block BlockVerificationContext.init
    if attached.result = .threw then (attached.chain, block :: rest, true)
    else if attached.result = .returned true ∧ attached.bvc.addedToMainChain then
      attachAll env now rest attached.chain
    else (attached.chain, block :: rest, false)

def rollbackBlockchainSwitching (env : Env) (now : Nat)
    (originalChain : List Block) (rollbackHeight : Nat) : Blockchain × CallResult × List Hash :=
  if chain.db.height < rollbackHeight then (chain, .returned true, [])
  else
    match chain.resetDifficultyCache.popToHeight env now rollbackHeight with
    | (none, remaining) => (remaining, .threw, [])
    | (some _, remaining) =>
      let base := remaining.updateNextCumulativeWeightLimit.reorganizeHardFork rollbackHeight
      match attachAll env now originalChain base with
      | (restored, [], _) => (restored.reorganizeHardFork rollbackHeight, .returned true, [])
      | (restored, failed :: _, threw) =>
        (restored, if threw then .threw else .returned false, [env.getBlockHash failed])

/-- `remove_alt_block` for each id in turn; it throws on an id that is not
stored. -/
def removeAltBlocks : List Hash → Blockchain → Blockchain × Bool
  | [], chain => (chain, true)
  | id :: rest, chain =>
    if (chain.db.altBlocks.lookup id).isSome then
      removeAltBlocks rest { chain with
          db := { chain.db with altBlocks := chain.db.altBlocks.erase id } }
    else (chain, false)

def discardBranch : List Hash → Blockchain → Blockchain × Bool
  | [], chain => (chain, true)
  | id :: rest, chain =>
    let marked := chain.addBlockAsInvalid id
    if (marked.db.altBlocks.lookup id).isSome then
      discardBranch rest { marked with
          db := { marked.db with altBlocks := marked.db.altBlocks.erase id } }
    else (marked, false)

/-- A failure is logged and does not stop the loop, an exception does. -/
def storeDisconnected (handleAlternative : Blockchain → Block → ChainResult) :
    List Block → Blockchain → Blockchain × List Hash × Bool
  | [], chain => (chain, [], true)
  | block :: rest, chain =>
    let stored := handleAlternative chain block
    if stored.result = .threw then (stored.chain, stored.rejected, false)
    else
      let (final, rejected, ok) := storeDisconnected handleAlternative rest stored.chain
      (final, stored.rejected ++ rejected, ok)

def pushDisconnected (handleAlternative : Blockchain → Block → ChainResult)
    (discardDisconnected : Bool) (disconnected : List Block)
    (chain : Blockchain) : Blockchain × List Hash × Bool :=
  if discardDisconnected then (chain, [], true)
  else storeDisconnected handleAlternative disconnected chain

def finishSwitch (handleAlternative : Blockchain → Block → ChainResult)
    (chain : Blockchain) (branchIds : List Hash) (disconnected : List Block)
    (splitHeight : Nat) (discardDisconnected : Bool) : Blockchain × CallResult × List Hash :=
  let (pushed, rejected, ok) :=
    pushDisconnected handleAlternative discardDisconnected disconnected chain
  if !ok then (pushed, .threw, rejected)
  else
    let (removed, found) := removeAltBlocks branchIds pushed
    if found then (removed.reorganizeHardFork splitHeight, .returned true, rejected)
    else (removed, .threw, rejected)

/-- `switch_to_alternative_blockchain`, with the function that stores the
displaced blocks. -/
def switchToAlternativeBlockchain (handleAlternative : Blockchain → Block → ChainResult)
    (chain : Blockchain) (env : Env) (now : Nat)
    (altChain : List BlockExtendedInfo) (discardDisconnected : Bool) :
    Blockchain × CallResult × List Hash :=
  let reset := chain.resetDifficultyCache
  match altChain with
  | [] => (reset, .returned false, [])
  | front :: _ =>
    if !reset.db.blockExists env front.bl.prevId then (reset, .returned false, [])
    else
      match reset.popToBlock env now front.bl.prevId with
      | (none, remaining) => (remaining, .threw, [])
      | (some disconnected, remaining) =>
        let base := remaining.updateNextCumulativeWeightLimit
        let splitHeight := base.db.height
        let branch := altChain.map BlockExtendedInfo.bl
        match attachAll env now branch base with
        | (attached, [], _) =>
          attached.finishSwitch handleAlternative
            (branch.map env.getBlockHash) disconnected splitHeight
            discardDisconnected
        | (attached, failed :: _, true) => (attached, .threw, [env.getBlockHash failed])
        | (attached, failed :: rest, false) =>
          let failedIds := (failed :: rest).map env.getBlockHash
          match attached.rollbackBlockchainSwitching env now disconnected splitHeight with
          | (restored, .threw, rejected) => (restored, .threw, env.getBlockHash failed :: rejected)
          | (restored, .returned _, rejected) =>
            let (discarded, found) := discardBranch failedIds restored
            (discarded, if found then .returned false else .threw,
              env.getBlockHash failed :: rejected)

def storeAlternative (id : Hash) (bei : BlockExtendedInfo) : Blockchain :=
  { chain with
    db := { chain.db with altBlocks := chain.db.altBlocks.insert id bei } }

/-- `handle_alternative_block`; a switch nested deeper than the first argument counts as an
exception. -/
def handleAlternativeBlock : Nat → Blockchain → Env → Nat → Block →
    BlockVerificationContext → ChainResult
  | 0, chain, _, _, _, bvc => ⟨chain, bvc, .threw, []⟩
  | nesting + 1, chain, env, now, block, bvc =>
    let reset := chain.resetDifficultyCache
    let id := env.getBlockHash block
    match reset.checkAlternativeBlock env block id with
    | .rejected badPow =>
      ⟨reset, { bvc with
          verifivationFailed := true
          badPow := bvc.badPow || badPow },
        .returned false, [id]⟩
    | .difficultyOverhead => ⟨reset, bvc, .returned false, [id]⟩
    | .brokenBranch | .duplicate => ⟨reset, bvc, .returned false, []⟩
    | .threw => ⟨reset, bvc, .threw, [id]⟩
    | .orphaned => ⟨reset, { bvc with markedAsOrphaned := true }, .returned true, []⟩
    | .accepted altChain bei =>
      let stored := reset.storeAlternative id bei
      let isACheckpoint := reset.isACheckpoint bei.height
      let mainDifficulty := reset.db.cumulativeDifficultyAt (reset.db.height - 1)
      if isACheckpoint ∨ mainDifficulty < bei.cumulativeDifficulty then
        let (switched, result, rejected) := stored.switchToAlternativeBlockchain
            (fun current displaced => handleAlternativeBlock nesting current env now displaced
                BlockVerificationContext.init)
            env now (altChain ++ [bei]) isACheckpoint
        match result with
        | .threw => ⟨switched, bvc, .threw, rejected⟩
        | .returned true =>
          ⟨switched, { bvc with addedToMainChain := true }, .returned true, rejected⟩
        | .returned false =>
          ⟨switched, { bvc with verifivationFailed := true }, .returned false, rejected⟩
      else ⟨stored, bvc, .returned true, []⟩

/-- `add_new_block`, which reports an exception as a failure. -/
def addNewBlock (nesting : Nat) (chain : Blockchain) (env : Env) (now : Nat)
    (block : Block) (bvc : BlockVerificationContext) : ChainResult :=
  let id := env.getBlockHash block
  if chain.haveBlock env id then
    ⟨{ chain with blocksTxsCheck := [] }, { bvc with alreadyExists := true }, .returned false, []⟩
  else if block.prevId ≠ chain.db.topBlockHash env then
    let handled := handleAlternativeBlock nesting chain env now block
      { bvc with addedToMainChain := false }
    match handled.result with
    | .threw =>
      { handled with
        bvc := { handled.bvc with verifivationFailed := true }
        result := .returned false }
    | .returned _ => { handled with chain := { handled.chain with blocksTxsCheck := [] } }
  else
    let handled := chain.handleBlockToMainChain env now block bvc
    match handled.result with
    | .threw =>
      ⟨handled.chain, { handled.bvc with verifivationFailed := true }, .returned false, [id]⟩
    | .returned ok => ⟨handled.chain, handled.bvc, .returned ok, if ok then [] else [id]⟩

/-! ## What popping a block does -/

open List

variable {property : Hash → PoolEntry → Prop} {env : Env}

theorem returnPoppedTxs_holds (stable : TxMemoryPool.Stable property)
    (chain : Blockchain) (now : Nat) (txs : List Transaction) (pool : TxMemoryPool)
    (returned : ∀ tx ∈ txs, tx.pruned = false → ∀ weight entry,
      getTransactionWeight tx = some weight → entry.IsFresh tx weight →
        property (env.getTransactionHash tx) entry) (holds : TxMemoryPool.Holds property pool) :
    TxMemoryPool.Holds property (chain.returnPoppedTxs env now txs pool).1 := by
  induction txs generalizing pool with
  | nil => exact holds
  | cons tx rest ih =>
    have later : ∀ other ∈ rest, other.pruned = false → ∀ weight entry,
        getTransactionWeight other = some weight → entry.IsFresh other weight →
            property (env.getTransactionHash other) entry :=
      fun other mem => returned other (mem_cons_of_mem _ mem)
    simp [returnPoppedTxs]
    split
    · exact ih pool later holds
    · rename_i unpruned
      simp at unpruned
      split
      · exact holds
      · rename_i weight computed
        refine ih _ later (holds.of_addedTo stable ?_ (TxMemoryPool.addTx_addedTo _ _ _ _ _ _ _ _))
        intro entry fresh
        exact returned tx mem_cons_self unpruned.1 weight entry computed fresh

theorem returnPoppedTxs_failed {chain : Blockchain} {now : Nat} {txs : List Transaction}
    {pool : TxMemoryPool} (failed : (chain.returnPoppedTxs env now txs pool).2 = false) :
    ∃ tx ∈ txs, tx.pruned = false ∧ getTransactionWeight tx = none := by
  induction txs generalizing pool with
  | nil => simp [returnPoppedTxs] at failed
  | cons tx rest ih =>
    have later : ∀ {others : TxMemoryPool}, (chain.returnPoppedTxs env now rest others).2 = false →
        ∃ other ∈ tx :: rest, other.pruned = false ∧ getTransactionWeight other = none := by
      intro others restFailed
      obtain ⟨other, mem, unweighed⟩ := ih restFailed
      exact ⟨other, mem_cons_of_mem _ mem, unweighed⟩
    simp [returnPoppedTxs] at failed
    split at failed
    · exact later failed
    · rename_i unpruned
      simp at unpruned
      split at failed
      · rename_i unweighed
        exact ⟨tx, mem_cons_self, unpruned.1, unweighed⟩
      · exact later failed

/-- What `pop_block_from_blockchain` leaves when it removes the top block. -/
structure PoppedBlock (env : Env) (chain : Blockchain) (top : BlockEntry)
    (after : Blockchain) : Prop where
  blocks : chain.db.blocks = after.db.blocks ++ [top]
  nonempty : after.db.blocks ≠ []
  altBlocks : after.db.altBlocks = chain.db.altBlocks
  hfVersions : after.db.hfVersions = chain.db.hfVersions
  hardfork : after.hardfork = chain.hardfork.onBlockPopped chain.db.hfVersions
    after.db.blocks.length 1
  config : after.SameConfig chain
  invalidBlocks : after.invalidBlocks = chain.invalidBlocks
  pool : ∀ property : Hash → PoolEntry → Prop, TxMemoryPool.Stable property →
    (∀ tx ∈ top.txs, tx.pruned = false → ∀ weight poolEntry,
      getTransactionWeight tx = some weight → poolEntry.IsFresh tx weight →
        property (env.getTransactionHash tx) poolEntry) → TxMemoryPool.Holds property chain.txPool →
      TxMemoryPool.Holds property after.txPool

theorem popBlockFromBlockchain_cases (chain : Blockchain) (now : Nat) :
    let done := chain.popBlockFromBlockchain env now
    (∃ top, PoppedBlock env chain top done.2 ∧
        (done.1 = some top.bl ∨ done.1 = none ∧ ∃ tx ∈ top.txs,
          tx.pruned = false ∧ getTransactionWeight tx = none)) ∨
      (done.2.SameLedger chain ∧ done.2.txPool = chain.txPool ∧
        chain.db.height ≤ 1 ∧ done.1 = none) := by
  unfold popBlockFromBlockchain
  dsimp only
  split
  · rename_i empty
    have height : chain.db.height ≤ 1 := by
      have blocks : chain.db.blocks = [] := getLast?_eq_none_iff.mp empty
      simp [BlockchainDB.height, blocks]
    exact .inr ⟨⟨⟨rfl, rfl, rfl, rfl⟩, rfl, rfl⟩, rfl, height, rfl⟩
  · rename_i top found
    have last : chain.db.blocks.getLast? = some top := found
    have blocks : chain.db.blocks = chain.db.blocks.dropLast ++ [top] :=
      (dropLast_append_getLast? top last).symm
    split
    · rename_i low
      exact .inr ⟨⟨⟨rfl, rfl, rfl, rfl⟩, rfl, rfl⟩, rfl, low, rfl⟩
    · rename_i high
      have ne : chain.db.blocks.dropLast ≠ [] := by
        intro emptied
        have lengths := congrArg List.length emptied
        have tall : ¬ chain.db.blocks.length ≤ 1 := high
        simp at lengths
        omega
      have returned : ∀ property : Hash → PoolEntry → Prop, TxMemoryPool.Stable property →
          (∀ tx ∈ top.txs, tx.pruned = false → ∀ weight poolEntry,
            getTransactionWeight tx = some weight → poolEntry.IsFresh tx weight →
                property (env.getTransactionHash tx) poolEntry) →
          TxMemoryPool.Holds property chain.txPool →
          TxMemoryPool.Holds property
            (chain.resetDifficultyCache.unstoreBlock.returnPoppedTxs env now top.txs.reverse
              chain.resetDifficultyCache.unstoreBlock.txPool).1 := by
        intro property stable popped holds
        exact returnPoppedTxs_holds stable _ now _ _
          (fun tx mem => popped tx (mem_reverse.mp mem)) holds
      left
      refine ⟨top, ?_⟩
      split
      · rename_i failed
        obtain ⟨tx, mem, unweighed⟩ := returnPoppedTxs_failed (Bool.not_eq_true' _ ▸ failed)
        exact ⟨⟨blocks, ne, rfl, rfl, rfl, ⟨rfl, rfl, rfl, rfl⟩, rfl,
          returned⟩, .inr ⟨rfl, tx, mem_reverse.mp mem, unweighed⟩⟩
      · split
        · refine ⟨⟨blocks, ne, rfl, rfl, rfl, ⟨rfl, rfl, rfl, rfl⟩, rfl, ?_⟩, .inl rfl⟩
          intro property stable popped holds
          exact TxMemoryPool.validate_holds stable (returned property stable popped holds) _ _
        · exact ⟨⟨blocks, ne, rfl, rfl, rfl, ⟨rfl, rfl, rfl, rfl⟩, rfl, returned⟩, .inl rfl⟩

end Blockchain

/-! ## Steps and runs -/

open Relation

def incomingTxWeight (env : Env) (tx : Transaction) : Option Nat :=
  if tx.pruned then env.prunedTransactionWeight tx else getTransactionWeight tx

/-- Blocks, among them those a node may store as alternative ones, and transactions. -/
structure Traffic where
  block : Block → Prop
  alternative : Block → Prop
  transaction : Transaction → Prop

def Traffic.anyAlternative (traffic : Traffic) : Traffic :=
  { traffic with alternative := fun _ => True }

def Traffic.any : Traffic :=
  ⟨fun _ => True, fun _ => True, fun _ => True⟩

namespace Blockchain

inductive ChainStep (env : Env) (traffic : Traffic) : Blockchain → Blockchain → Prop
  | mainBlock (chain : Blockchain) (now : Nat) (block : Block) (bvc : BlockVerificationContext)
      (fresh : bvc.verifivationFailed = false)
      (permitted : traffic.block block) :
      ChainStep env traffic chain (chain.handleBlockToMainChain env now block bvc).chain
  | pop (chain : Blockchain) (now : Nat) :
      ChainStep env traffic chain (chain.popBlockFromBlockchain env now).2
  | incomingTx (chain : Blockchain) (now : Nat) (tx : Transaction)
      (weight : Nat) (txRelay : RelayMethod) (relayed : Bool)
      (unknown : chain.db.txExists env (env.getTransactionHash tx) = false)
      (weighed : incomingTxWeight env tx = some weight)
      (permitted : traffic.transaction tx) :
      ChainStep env traffic chain
        { chain with
          txPool := (chain.txPool.addTx (chain.view env now) tx
            (env.getTransactionHash tx) weight txRelay relayed
            chain.getCurrentHardForkVersion).1 }
  | tidyPool (chain : Blockchain) (pool : TxMemoryPool) (within : pool.Within chain.txPool) :
      ChainStep env traffic chain { chain with txPool := pool }
  | storeAlternative (chain : Blockchain) (block : Block)
      (altChain : List BlockExtendedInfo) (bei : BlockExtendedInfo)
      (permitted : traffic.block block ∧ traffic.alternative block)
      (accepted : chain.checkAlternativeBlock env block
        (env.getBlockHash block) = .accepted altChain bei) :
      ChainStep env traffic chain (chain.storeAlternative (env.getBlockHash block) bei)
  | removeAlternative (chain : Blockchain) (id : Hash) : ChainStep env traffic chain
        { chain with
          db :=
            { chain.db with altBlocks := chain.db.altBlocks.erase id } }
  | reorganizeHardFork (chain : Blockchain) (height : Nat) :
      ChainStep env traffic chain (chain.reorganizeHardFork height)
  | cache (chain after : Blockchain) (ledger : after.SameLedger chain)
      (pool : after.txPool = chain.txPool) :
      ChainStep env traffic chain after

structure IsInitial (chain : Blockchain) : Prop where
  blocks : chain.db.blocks = []
  altBlocks : chain.db.altBlocks = ∅
  txpool : chain.txPool.txpool = ∅

def Run (env : Env) (traffic : Traffic) : Blockchain → Blockchain → Prop :=
  ReflTransGen (ChainStep env traffic)

def Reachable (env : Env) (traffic : Traffic) (chain : Blockchain) : Prop :=
  ∃ start, IsInitial start ∧ Run env traffic start chain

variable {env : Env} {traffic : Traffic} {chain after : Blockchain}

theorem Run.preserves {property : Blockchain → Prop}
    (step : ∀ {chain after}, ChainStep env traffic chain after → property chain → property after)
    {chain after : Blockchain} (run : Run env traffic chain after) (holds : property chain) :
    property after := by
  induction run with
  | refl => exact holds
  | tail _ last ih => exact step last ih

theorem Reachable.induct {property : Blockchain → Prop}
    (initial : ∀ {chain}, IsInitial chain → property chain)
    (step : ∀ {chain after}, ChainStep env traffic chain after → property chain → property after)
    {chain : Blockchain} (reachable : Reachable env traffic chain) : property chain := by
  obtain ⟨start, started, run⟩ := reachable
  exact run.preserves step (initial started)

theorem ChainStep.blocks_cases (step : ChainStep env traffic chain after) :
    (∃ now block entries entry, traffic.block block ∧
        AcceptedBlock env now chain block entries entry after) ∨
      (∃ top, PoppedBlock env chain top after) ∨ after.db.blocks = chain.db.blocks := by
  cases step with
  | mainBlock now block bvc fresh permitted =>
    rcases handleBlockToMainChain_cases chain now block bvc fresh with
      ⟨entries, entry, accepted, -⟩ | ⟨refused, -⟩
    · exact .inl ⟨now, block, entries, entry, permitted, accepted⟩
    · exact .inr (.inr (by rw [refused.ledger.db]))
  | pop now =>
    rcases popBlockFromBlockchain_cases chain now with
      ⟨top, popped, -⟩ | ⟨ledger, -⟩
    · exact .inr (.inl ⟨top, popped⟩)
    · exact .inr (.inr (by rw [ledger.db]))
  | incomingTx | tidyPool | storeAlternative | removeAlternative
  | reorganizeHardFork => exact .inr (.inr rfl)
  | cache _ ledger pool => exact .inr (.inr (by rw [ledger.db]))

theorem ChainStep.altBlocks_cases (step : ChainStep env traffic chain after) :
    (∃ block altChain bei, traffic.block block ∧ traffic.alternative block ∧
        chain.checkAlternativeBlock env block (env.getBlockHash block) = .accepted altChain bei ∧
        after.db.altBlocks = chain.db.altBlocks.insert (env.getBlockHash block) bei) ∨
      (∃ id, after.db.altBlocks = chain.db.altBlocks.erase id) ∨
      after.db.altBlocks = chain.db.altBlocks := by
  cases step with
  | mainBlock now block bvc fresh permitted =>
    right; right
    rcases handleBlockToMainChain_cases chain now block bvc fresh with
      ⟨entries, entry, accepted, -⟩ | ⟨refused, -⟩
    · rw [accepted.db]
      rfl
    · rw [refused.ledger.db]
  | pop now =>
    right; right
    rcases popBlockFromBlockchain_cases chain now with
      ⟨top, popped, -⟩ | ⟨ledger, -⟩
    · exact popped.altBlocks
    · rw [ledger.db]
  | storeAlternative block altChain bei permitted accepted =>
    exact .inl ⟨block, altChain, bei, permitted.1, permitted.2, accepted, rfl⟩
  | removeAlternative id => exact .inr (.inl ⟨id, rfl⟩)
  | incomingTx | tidyPool | reorganizeHardFork => exact .inr (.inr rfl)
  | cache _ ledger pool => exact .inr (.inr (by rw [ledger.db]))

theorem ChainStep.sameConfig (step : ChainStep env traffic chain after) :
    after.SameConfig chain := by
  cases step with
  | mainBlock now block bvc fresh permitted =>
    rcases handleBlockToMainChain_cases chain now block bvc fresh with
      ⟨entries, entry, accepted, -⟩ | ⟨refused, -⟩
    · exact accepted.config
    · exact refused.ledger.toSameConfig
  | pop now =>
    rcases popBlockFromBlockchain_cases chain now with
      ⟨top, popped, -⟩ | ⟨ledger, -⟩
    · exact popped.config
    · exact ledger.toSameConfig
  | incomingTx | tidyPool | storeAlternative | removeAlternative
  | reorganizeHardFork => exact ⟨rfl, rfl, rfl, rfl⟩
  | cache _ ledger pool => exact ledger.toSameConfig

theorem ChainStep.pool_holds {property : Hash → PoolEntry → Prop}
    (returnable : Returnable env property)
    (recv : ∀ tx weight poolEntry, traffic.transaction tx →
      incomingTxWeight env tx = some weight → poolEntry.IsFresh tx weight →
        property (env.getTransactionHash tx) poolEntry)
    (stored : ∀ entry ∈ chain.db.blocks, ∀ tx ∈ entry.txs, traffic.transaction tx)
    (step : ChainStep env traffic chain after) (holds : TxMemoryPool.Holds property chain.txPool) :
    TxMemoryPool.Holds property after.txPool := by
  cases step with
  | mainBlock now block bvc fresh permitted =>
    rcases handleBlockToMainChain_cases chain now block bvc fresh with
      ⟨entries, entry, accepted, -⟩ | ⟨refused, -⟩
    · exact accepted.pool property returnable.toStable
        (fun txid poolEntry _ found => holds txid poolEntry found)
    · exact refused.pool property returnable holds
  | pop now =>
    rcases popBlockFromBlockchain_cases chain now with
      ⟨top, popped, -⟩ | ⟨-, pool, -⟩
    · refine popped.pool property returnable.toStable ?_ holds
      intro tx mem unpruned weight poolEntry weighed isFresh
      refine recv tx weight poolEntry (stored top ?_ tx mem) ?_ isFresh
      · rw [popped.blocks]
        exact List.mem_append_right _ List.mem_cons_self
      rw [incomingTxWeight, unpruned]
      exact weighed
    · rw [pool]
      exact holds
  | incomingTx now tx weight txRelay relayed unknown weighed permitted =>
    exact holds.of_addedTo returnable.toStable (fun poolEntry isFresh =>
        recv tx weight poolEntry permitted weighed isFresh)
      (TxMemoryPool.addTx_addedTo _ _ _ _ _ _ _ _)
  | tidyPool pool within => exact holds.of_within returnable.toStable within
  | storeAlternative | removeAlternative | reorganizeHardFork => exact holds
  | cache _ ledger pool =>
    rw [pool]
    exact holds

/-! ## The phases of a switch -/

open List BlockchainDB BlockEntry

variable {env : Env} {now : Nat}

theorem SameConfig.refl (chain : Blockchain) : chain.SameConfig chain :=
  ⟨rfl, rfl, rfl, rfl⟩

/-- What is left after the given records have been popped off a chain. -/
structure PoppedTo (env : Env) (chain : Blockchain)
    (dropped : List BlockEntry) (after : Blockchain) : Prop where
  blocks : chain.db.blocks = after.db.blocks ++ dropped
  nonempty : chain.db.blocks ≠ [] → after.db.blocks ≠ []
  altBlocks : after.db.altBlocks = chain.db.altBlocks
  config : after.SameConfig chain
  invalidBlocks : after.invalidBlocks = chain.invalidBlocks
  pool : ∀ property : Hash → PoolEntry → Prop, TxMemoryPool.Stable property →
    (∀ entry ∈ dropped, ∀ tx ∈ entry.txs, tx.pruned = false →
      ∀ weight poolEntry, getTransactionWeight tx = some weight → poolEntry.IsFresh tx weight →
          property (env.getTransactionHash tx) poolEntry) →
    TxMemoryPool.Holds property chain.txPool → TxMemoryPool.Holds property after.txPool

theorem PoppedTo.refl (chain : Blockchain) : PoppedTo env chain [] chain :=
  ⟨by simp, id, rfl, .refl chain, rfl, fun _ _ _ holds => holds⟩

variable {chain : Blockchain}

variable {after remaining : Blockchain} {dropped : List BlockEntry}

theorem PoppedTo.of_block {middle : Blockchain} {top : BlockEntry}
    (first : PoppedBlock env chain top middle) (rest : PoppedTo env middle dropped after) :
    PoppedTo env chain (dropped ++ [top]) after := by
  refine ⟨?_, fun _ => rest.nonempty first.nonempty,
    rest.altBlocks.trans first.altBlocks, rest.config.trans first.config,
    rest.invalidBlocks.trans first.invalidBlocks, ?_⟩
  · rw [first.blocks, rest.blocks, append_assoc]
  · intro property stable returned holds
    refine rest.pool property stable ?_ (first.pool property stable ?_ holds)
    · intro entry mem
      exact returned entry (mem_append_left _ mem)
    · exact returned top (mem_append_right _ mem_cons_self)

theorem popUntil_some {stop : Blockchain → Bool} {fuel : Nat} {popped result : List Block}
    (ended : popUntil env now stop fuel chain popped = (some result, remaining)) :
    ∃ dropped, PoppedTo env chain dropped remaining ∧
      result = dropped.map bl ++ popped ∧ stop remaining = true := by
  induction fuel generalizing chain popped with
  | zero => simp [popUntil] at ended
  | succ fuel ih =>
    rw [popUntil] at ended
    split at ended
    · rename_i stopped
      simp at ended
      obtain ⟨rfl, rfl⟩ := ended
      exact ⟨[], .refl chain, rfl, stopped⟩
    · rcases popBlockFromBlockchain_cases chain now with
        ⟨top, first, returned | ⟨threw, -⟩⟩ | ⟨-, -, -, threw⟩
      · rcases popEq : chain.popBlockFromBlockchain env now with
          ⟨block, middle⟩
        rw [popEq] at ended first returned
        subst returned
        obtain ⟨dropped, rest, eq, stopped⟩ := ih ended
        refine ⟨dropped ++ [top], .of_block first rest, ?_, stopped⟩
        rw [eq, map_append, append_assoc]
        rfl
      all_goals
        rcases popEq : chain.popBlockFromBlockchain env now with
          ⟨block, middle⟩
        rw [popEq] at ended threw
        subst threw
        simp at ended

theorem PoppedTo.of_reset (popped : PoppedTo env chain.resetDifficultyCache dropped after) :
    PoppedTo env chain dropped after :=
  ⟨popped.blocks, popped.nonempty, popped.altBlocks,
    popped.config.trans ⟨rfl, rfl, rfl, rfl⟩, popped.invalidBlocks, popped.pool⟩

theorem popToBlock_some {chain : Blockchain} {id : Hash} {disconnected : List Block}
    (ended : chain.resetDifficultyCache.popToBlock env now id = (some disconnected, remaining)) :
    ∃ dropped, PoppedTo env chain dropped remaining ∧ disconnected = dropped.map bl ∧
      remaining.db.topBlockHash env = id := by
  obtain ⟨dropped, popped, eq, stopped⟩ := popUntil_some ended
  exact ⟨dropped, popped.of_reset, by rw [eq, append_nil], by simpa using stopped⟩

theorem popUntil_isSome {stop : Blockchain → Bool} {whole : List BlockEntry}
    {target : Nat} (pos : 0 < target)
    (weighed : ∀ entry ∈ whole, ∀ tx ∈ entry.txs, tx.pruned = false →
      ∃ weight, getTransactionWeight tx = some weight)
    (stops : ∀ current : Blockchain, current.db.blocks = whole.take target → stop current = true)
    {fuel count : Nat} (above : target ≤ count) (lt : count ≤ whole.length)
    (enough : count - target < fuel) {chain : Blockchain}
    (blocks : chain.db.blocks = whole.take count) (popped : List Block) :
    ∃ result remaining, popUntil env now stop fuel chain popped = (some result, remaining) := by
  induction fuel generalizing chain popped count with
  | zero => omega
  | succ fuel ih =>
    rw [popUntil]
    split
    · exact ⟨popped, chain, rfl⟩
    · rename_i running
      have higher : target < count := by
        refine lt_of_le_of_ne above ?_
        rintro rfl
        exact running (stops chain blocks)
      have length : chain.db.blocks.length = count := by
        rw [blocks, List.length_take]
        omega
      rcases popBlockFromBlockchain_cases chain now with
        ⟨top, first, returned | ⟨-, tx, mem, unpruned, unweighed⟩⟩ | ⟨-, -, low, -⟩
      · rcases popEq : chain.popBlockFromBlockchain env now with
          ⟨block, middle⟩
        rw [popEq] at first returned
        subst returned
        have shorter : middle.db.blocks = whole.take (count - 1) := by
          have cut := congrArg List.dropLast first.blocks
          rw [dropLast_concat, blocks, dropLast_eq_take, List.length_take, take_take] at cut
          rw [← cut]
          congr 1
          omega
        exact ih (by omega) (by omega) (by omega) shorter _
      · have topMember : top ∈ whole := by
          refine mem_of_mem_take (i := count) ?_
          rw [← blocks, first.blocks]
          exact mem_append_right _ mem_cons_self
        obtain ⟨weight, computed⟩ := weighed top topMember tx mem unpruned
        rw [computed] at unweighed
        simp at unweighed
      · rw [height] at low
        omega

section Arrive

variable {chain : Blockchain}
  (weighed : ∀ entry ∈ chain.db.blocks, ∀ tx ∈ entry.txs, tx.pruned = false →
    ∃ weight, getTransactionWeight tx = some weight)

include weighed

theorem popToHeight_eq {target : Nat} (pos : 0 < target) (reached : target ≤ chain.db.height) :
    ∃ popped remaining, chain.resetDifficultyCache.popToHeight env now target =
        (some popped, remaining) ∧ PoppedTo env chain (chain.db.blocks.drop target) remaining ∧
      remaining.db.blocks = chain.db.blocks.take target := by
  obtain ⟨popped, remaining, popEq⟩ := @popUntil_isSome env now
    (fun current => current.db.height == target) _ target pos
    weighed
    (fun current blocks => by
      rw [height, blocks, List.length_take, beq_iff_eq]
      exact min_eq_left reached)
    (chain.db.height + 1) _ reached le_rfl (by omega)
    chain.resetDifficultyCache (take_length).symm []
  obtain ⟨dropped, poppedTo, -, stopped⟩ := popUntil_some popEq
  have split : chain.db.blocks = remaining.db.blocks ++ dropped := poppedTo.blocks
  have length : remaining.db.blocks.length = target := by simpa [height] using stopped
  have back : chain.db.blocks.drop target = dropped := by rw [split, ← length, drop_left]
  refine ⟨popped, remaining, popEq, back ▸ poppedTo.of_reset, ?_⟩
  rw [split, ← length, take_left]

theorem popToBlock_eq (distinct : (chain.db.blockHashes env).Nodup) {id : Hash}
    (onMain : chain.db.blockExists env id = true) {fork : Nat}
    (height : chain.db.getBlockHeight env id + 1 = fork) :
    ∃ remaining, chain.resetDifficultyCache.popToBlock env now id =
        (some ((chain.db.blocks.drop fork).map bl), remaining) ∧
      PoppedTo env chain (chain.db.blocks.drop fork) remaining ∧
      remaining.db.blocks = chain.db.blocks.take fork := by
  have lt := getBlockHeight_lt onMain
  obtain ⟨root, found, named⟩ := exists_of_blockExists onMain
  obtain ⟨disconnected, remaining, popEq⟩ := @popUntil_isSome env now
    (fun current => current.db.topBlockHash env == id) _ fork
    (by omega) weighed
    (fun current blocks => by
      rw [topBlockHash, blocks, getLast?_take, ← height, Nat.add_sub_cancel, found]
      exact beq_iff_eq.mpr named)
    (chain.db.height + 1) chain.db.height
    (by omega) le_rfl (by omega)
    chain.resetDifficultyCache (take_length).symm []
  obtain ⟨dropped, popped, rfl, top⟩ := popToBlock_some popEq
  have ne : remaining.db.blocks ≠ [] := by
    refine popped.nonempty ?_
    intro empty
    rw [BlockchainDB.height, empty] at lt
    simp at lt
  obtain ⟨lower, last, split⟩ := (eq_nil_or_concat' _).resolve_left ne
  have ids : chain.db.blockHashes env = lower.map (fun entry => env.getBlockHash entry.bl) ++
        id :: dropped.map (fun entry => env.getBlockHash entry.bl) := by
    rw [topBlockHash, split] at top
    rw [blockHashes, popped.blocks, split, ← top]
    simp
  have length : remaining.db.blocks.length = fork := by
    rw [ids, nodup_middle, nodup_cons] at distinct
    have above := fun mem => distinct.1 (mem_append_left _ mem)
    rw [BlockchainDB.getBlockHeight, ids, idxOf_append_of_notMem above,
      idxOf_cons_self, length_map] at height
    rw [split, length_append]
    exact height
  have front : chain.db.blocks.take fork = remaining.db.blocks := by
    rw [popped.blocks, ← length, take_left]
  have back : chain.db.blocks.drop fork = dropped := by rw [popped.blocks, ← length, drop_left]
  rw [front, back]
  exact ⟨remaining, popEq, popped, rfl⟩

end Arrive

theorem attachAll_cases (blocks : List Block) (chain : Blockchain) :
    let done := attachAll env now blocks chain
    ∃ entries : List BlockEntry, blocks = entries.map bl ++ done.2.1 ∧
      done.1.db.blocks = chain.db.blocks ++ entries ∧
      done.1.db.altBlocks = chain.db.altBlocks ∧ done.1.SameConfig chain ∧
      (done.2.1 = [] → done.1.invalidBlocks = chain.invalidBlocks) := by
  induction blocks generalizing chain with
  | nil => exact ⟨[], rfl, by simp [attachAll], rfl, .refl chain, fun _ => rfl⟩
  | cons block rest ih =>
    rw [attachAll]
    rcases @handleBlockToMainChain_cases env chain now block BlockVerificationContext.init rfl with
      ⟨poolEntries, entry, accepted, result, added⟩ | ⟨refused, result⟩
    · obtain ⟨entries, split, appended, altBlocks, config, invalidBlocks⟩ :=
        ih (chain.handleBlockToMainChain env now block BlockVerificationContext.init).chain
      rw [if_neg (by simp [result]), if_pos ⟨result, added⟩]
      refine ⟨entry :: entries, ?_, ?_, ?_, config.trans accepted.config, fun finished =>
          (invalidBlocks finished).trans accepted.invalidBlocks⟩
      · rw [map_cons, accepted.bl, cons_append, ← split]
      · rw [appended, accepted.blocks, append_assoc]
        rfl
      · rw [altBlocks, accepted.db]
        rfl
    · have kept : (chain.handleBlockToMainChain env now block
          BlockVerificationContext.init).chain.db = chain.db :=
        refused.ledger.db
      split
      · exact ⟨[], rfl, by simp [kept], by simp [kept], refused.ledger.toSameConfig, by simp⟩
      · rw [if_neg (fun added => result added.1)]
        exact ⟨[], rfl, by simp [kept], by simp [kept], refused.ledger.toSameConfig, by simp⟩

section Erase

variable {altBlocks : AList fun _ : Hash => BlockExtendedInfo} {id : Hash}
  {rest : List Hash} (fresh : id ∉ rest)

include fresh

theorem isSome_lookup_erase (stored : ∀ other ∈ rest, (altBlocks.lookup other).isSome = true) :
    ∀ other ∈ rest, ((altBlocks.erase id).lookup other).isSome = true := by
  intro other mem
  rw [AList.lookup_erase_ne]
  · exact stored other mem
  · rintro rfl
    exact fresh mem

theorem lookup_erase_cons (other : Hash) :
    (if other ∈ rest then none else (altBlocks.erase id).lookup other) =
      if other ∈ id :: rest then none else altBlocks.lookup other := by
  by_cases same : other = id
  · subst same
    simp [fresh]
  · simp [same, AList.lookup_erase_ne]

end Erase

theorem removeAltBlocks_stored {ids : List Hash} (distinct : ids.Nodup)
    (stored : ∀ id ∈ ids, (chain.db.altBlocks.lookup id).isSome = true) :
    ∃ altBlocks, removeAltBlocks ids chain =
        ({ chain with db := { chain.db with altBlocks := altBlocks } }, true) ∧
      ∀ id, altBlocks.lookup id = if id ∈ ids then none else chain.db.altBlocks.lookup id := by
  induction ids generalizing chain with
  | nil => exact ⟨chain.db.altBlocks, rfl, by simp⟩
  | cons id rest ih =>
    rw [nodup_cons] at distinct
    rw [forall_mem_cons] at stored
    rw [removeAltBlocks, if_pos stored.1]
    have others := isSome_lookup_erase distinct.1 stored.2
    obtain ⟨altBlocks, removed, lookups⟩ := @ih { chain with
        db := { chain.db with altBlocks := chain.db.altBlocks.erase id } } distinct.2 others
    refine ⟨altBlocks, removed, ?_⟩
    intro other
    rw [lookups]
    exact lookup_erase_cons distinct.1 other

theorem discardBranch_stored {ids : List Hash} (distinct : ids.Nodup)
    {chain : Blockchain} (stored : ∀ id ∈ ids, (chain.db.altBlocks.lookup id).isSome = true) :
    (discardBranch ids chain).1.db.blocks = chain.db.blocks ∧ (discardBranch ids chain).2 = true ∧
      ∀ id, (discardBranch ids chain).1.db.altBlocks.lookup id =
        if id ∈ ids then none else chain.db.altBlocks.lookup id := by
  induction ids generalizing chain with
  | nil => exact ⟨rfl, rfl, by simp [discardBranch]⟩
  | cons id rest ih =>
    rw [nodup_cons] at distinct
    rw [forall_mem_cons] at stored
    have present : ((chain.addBlockAsInvalid id).db.altBlocks.lookup id).isSome = true := stored.1
    rw [discardBranch]
    rw [if_pos present]
    have others := isSome_lookup_erase distinct.1 stored.2
    obtain ⟨blocks, found, lookups⟩ := @ih distinct.2 { chain.addBlockAsInvalid id with
        db := { (chain.addBlockAsInvalid id).db with
            altBlocks := (chain.addBlockAsInvalid id).db.altBlocks.erase id } } others
    refine ⟨blocks, found, ?_⟩
    intro other
    rw [lookups]
    exact lookup_erase_cons distinct.1 other

/-! ## Every call of `add_new_block` is a run -/

variable {env : Env} {now : Nat}

abbrev NodeRun (env : Env) : Blockchain → Blockchain → Prop :=
  Run env .any

variable {traffic : Traffic} {chain after : Blockchain}

theorem Run.cache (ledger : after.SameLedger chain) (pool : after.txPool = chain.txPool) :
    Run env traffic chain after :=
  .single (.cache chain after ledger pool)

theorem Run.trans {first second third : Blockchain} (left : Run env traffic first second)
    (right : Run env traffic second third) : Run env traffic first third :=
  ReflTransGen.trans left right

structure HeldBlocks (traffic : Traffic) (chain : Blockchain) : Prop where
  main : ∀ entry ∈ chain.db.blocks, traffic.block entry.bl
  alternative : ∀ id bei, chain.db.altBlocks.lookup id = some bei → traffic.block bei.bl

theorem HeldBlocks.any (chain : Blockchain) : HeldBlocks .any chain :=
  ⟨fun _ _ => trivial, fun _ _ _ => trivial⟩

theorem ChainStep.heldBlocks (step : ChainStep env traffic chain after)
    (held : HeldBlocks traffic chain) : HeldBlocks traffic after := by
  constructor
  · intro entry mem
    rcases step.blocks_cases with
      ⟨now, block, entries, added, permitted, accepted⟩ | ⟨top, popped⟩ | same
    · rw [accepted.blocks] at mem
      rcases mem_append.mp mem with prev | last
      · exact held.main entry prev
      · rw [mem_singleton.mp last, accepted.bl]
        exact permitted
    · refine held.main entry ?_
      rw [popped.blocks]
      exact mem_append_left _ mem
    · exact held.main entry (same ▸ mem)
  · intro id bei found
    rcases step.altBlocks_cases with
      ⟨block, altChain, added, permitted, -, accepted, inserted⟩ | ⟨dropped, erased⟩ | same
    · rw [inserted] at found
      rcases AList.lookup_insert_eq_some_iff.mp found with
        ⟨rfl, rfl⟩ | ⟨-, before⟩
      · rw [(checkAlternativeBlock_accepted accepted).bl]
        exact permitted
      · exact held.alternative id bei before
    · rw [erased, AList.lookup_erase_eq_some_iff] at found
      exact held.alternative id bei found.2
    · rw [same] at found
      exact held.alternative id bei found

theorem Run.heldBlocks (run : Run env traffic chain after) (held : HeldBlocks traffic chain) :
    HeldBlocks traffic after :=
  run.preserves (fun step => step.heldBlocks) held

section Phases

variable {traffic : Traffic}

theorem resetDifficultyCache_run (chain : Blockchain) :
    Run env traffic chain chain.resetDifficultyCache :=
  .cache ⟨⟨rfl, rfl, rfl, rfl⟩, rfl, rfl⟩ rfl

theorem updateNextCumulativeWeightLimit_run (chain : Blockchain) :
    Run env traffic chain chain.updateNextCumulativeWeightLimit :=
  .cache ⟨⟨rfl, rfl, rfl, rfl⟩, rfl, rfl⟩ rfl

theorem reorganizeHardFork_run (chain : Blockchain) (height : Nat) :
    Run env traffic chain (chain.reorganizeHardFork height) :=
  .single (.reorganizeHardFork chain height)

theorem popUntil_run (stop : Blockchain → Bool) (fuel : Nat)
    (chain : Blockchain) (popped : List Block) :
    Run env traffic chain (popUntil env now stop fuel chain popped).2 := by
  induction fuel generalizing chain popped with
  | zero => exact .refl
  | succ fuel ih =>
    have first : Run env traffic chain (chain.popBlockFromBlockchain env now).2 :=
      .single (.pop chain now)
    rw [popUntil]
    split
    · exact .refl
    · split
      · rename_i remaining popEq
        rw [popEq] at first
        exact first
      · rename_i block remaining popEq
        rw [popEq] at first
        exact first.trans (ih _ _)

theorem popToBlock_run (chain : Blockchain) (id : Hash) :
    Run env traffic chain (chain.resetDifficultyCache.popToBlock env now id).2 :=
  (resetDifficultyCache_run chain).trans (popUntil_run _ _ _ _)

theorem popToHeight_run (chain : Blockchain) (height : Nat) :
    Run env traffic chain (chain.resetDifficultyCache.popToHeight env now height).2 :=
  (resetDifficultyCache_run chain).trans (popUntil_run _ _ _ _)

theorem attachAll_run (blocks : List Block)
    (permitted : ∀ block ∈ blocks, traffic.block block) (chain : Blockchain) :
    Run env traffic chain (attachAll env now blocks chain).1 := by
  induction blocks generalizing chain with
  | nil => exact .refl
  | cons block rest ih =>
    rw [forall_mem_cons] at permitted
    have first : Run env traffic chain (chain.handleBlockToMainChain env now
        block BlockVerificationContext.init).chain :=
      .single (.mainBlock chain now block _ rfl permitted.1)
    rw [attachAll]
    split
    · exact first
    · split
      · exact first.trans (ih permitted.2 _)
      · exact first

theorem rollbackBlockchainSwitching_run (chain : Blockchain) (originalChain : List Block)
    (permitted : ∀ block ∈ originalChain, traffic.block block) (rollbackHeight : Nat) :
    Run env traffic chain (chain.rollbackBlockchainSwitching env now
      originalChain rollbackHeight).1 := by
  have popped := @popToHeight_run env now traffic chain rollbackHeight
  unfold rollbackBlockchainSwitching
  split
  · exact .refl
  · split
    · rename_i remaining popEq
      rw [popEq] at popped
      exact popped
    · rename_i blocks remaining popEq
      rw [popEq] at popped
      dsimp only
      have based := (popped.trans (updateNextCumulativeWeightLimit_run remaining)).trans
        (reorganizeHardFork_run _ rollbackHeight)
      have attached := based.trans (@attachAll_run env now traffic originalChain permitted _)
      split
      · rename_i restored threw attachEq
        rw [attachEq] at attached
        exact attached.trans (reorganizeHardFork_run _ _)
      · rename_i restored failed rest threw attachEq
        rw [attachEq] at attached
        exact attached

theorem removeAltBlocks_run (ids : List Hash) (chain : Blockchain) :
    Run env traffic chain (removeAltBlocks ids chain).1 := by
  induction ids generalizing chain with
  | nil => exact .refl
  | cons id rest ih =>
    rw [removeAltBlocks]
    split
    · exact Run.trans (.single (.removeAlternative chain id)) (ih _)
    · exact .refl

theorem discardBranch_run (ids : List Hash) (chain : Blockchain) :
    Run env traffic chain (discardBranch ids chain).1 := by
  induction ids generalizing chain with
  | nil => exact .refl
  | cons id rest ih =>
    have marked : Run env traffic chain (chain.addBlockAsInvalid id) :=
      .cache ⟨⟨rfl, rfl, rfl, rfl⟩, rfl, rfl⟩ rfl
    rw [discardBranch]
    split
    · exact marked.trans (Run.trans (.single (.removeAlternative _ id)) (ih _))
    · exact marked

end Phases

section Switch

variable {traffic : Traffic} {handleAlternative : Blockchain → Block → ChainResult}
  (handled : ∀ chain block, HeldBlocks traffic chain → traffic.block block →
    Run env traffic chain (handleAlternative chain block).chain)

include handled

theorem storeDisconnected_run (blocks : List Block)
    (permitted : ∀ block ∈ blocks, traffic.block block) (chain : Blockchain)
    (held : HeldBlocks traffic chain) :
    Run env traffic chain (storeDisconnected handleAlternative blocks chain).1 := by
  induction blocks generalizing chain with
  | nil => exact .refl
  | cons block rest ih =>
    rw [forall_mem_cons] at permitted
    have first := handled chain block held permitted.1
    rw [storeDisconnected]
    split
    · exact first
    · exact first.trans (ih permitted.2 _ (first.heldBlocks held))

theorem finishSwitch_run (chain : Blockchain)
    (held : HeldBlocks traffic chain) (branchIds : List Hash) (popped : List Block)
    (permitted : ∀ block ∈ popped, traffic.block block)
    (splitHeight : Nat) (discard : Bool) :
    Run env traffic chain (chain.finishSwitch handleAlternative branchIds
      popped splitHeight discard).1 := by
  have stored : Run env traffic chain (pushDisconnected handleAlternative
      discard popped chain).1 := by
    unfold pushDisconnected
    split
    · exact .refl
    · exact storeDisconnected_run handled popped permitted chain held
  unfold finishSwitch
  dsimp only
  split
  · exact stored
  · have removed := stored.trans (removeAltBlocks_run branchIds _)
    split
    · exact removed.trans (reorganizeHardFork_run _ _)
    · exact removed

theorem switchToAlternativeBlockchain_run (chain : Blockchain)
    (held : HeldBlocks traffic chain) (altChain : List BlockExtendedInfo)
    (permitted : ∀ bei ∈ altChain, traffic.block bei.bl) (discard : Bool) :
    Run env traffic chain (switchToAlternativeBlockchain handleAlternative chain
      env now altChain discard).1 := by
  have reset := @resetDifficultyCache_run env traffic chain
  unfold switchToAlternativeBlockchain
  dsimp only
  split
  · exact reset
  · rename_i front rest
    split
    · exact reset
    · have popped := @popToBlock_run env now traffic chain front.bl.prevId
      split
      · rename_i remaining popEq
        rw [popEq] at popped
        exact popped
      · rename_i disconnected remaining popEq
        have displaced : ∀ block ∈ disconnected, traffic.block block := by
          obtain ⟨dropped, taken, rfl, -⟩ := popToBlock_some popEq
          intro block mem
          obtain ⟨entry, lt, rfl⟩ := mem_map.mp mem
          refine held.main entry ?_
          rw [taken.blocks]
          exact mem_append_right _ lt
        rw [popEq] at popped
        have attached := (popped.trans (updateNextCumulativeWeightLimit_run remaining)).trans
          (@attachAll_run env now traffic ((front :: rest).map BlockExtendedInfo.bl)
            (forall_mem_map.mpr permitted) _)
        split
        · rename_i current threw attachEq
          rw [attachEq] at attached
          exact attached.trans (finishSwitch_run handled _
            (attached.heldBlocks held) _ _ displaced _ _)
        · rename_i current failed others attachEq
          rw [attachEq] at attached
          exact attached
        · rename_i current failed others attachEq
          rw [attachEq] at attached
          have restored := attached.trans (@rollbackBlockchainSwitching_run env now traffic current
              disconnected displaced
              remaining.updateNextCumulativeWeightLimit.db.height)
          split
          · rename_i rolled rejected rollEq
            rw [rollEq] at restored
            exact restored
          · rename_i rolled ok rejected rollEq
            rw [rollEq] at restored
            exact restored.trans (discardBranch_run _ _)

end Switch

section Handed

variable {traffic : Traffic}
  (unrestricted : ∀ block, traffic.block block → traffic.alternative block)

include unrestricted

section

variable (nesting : Nat) {chain : Blockchain} (held : HeldBlocks traffic chain) {block : Block}
  (permitted : traffic.block block)

include nesting held permitted

theorem handleAlternativeBlock_run (bvc : BlockVerificationContext) :
    Run env traffic chain (handleAlternativeBlock nesting chain env now block bvc).chain := by
  induction nesting generalizing chain block bvc with
  | zero => exact .refl
  | succ nesting ih =>
    have reset := @resetDifficultyCache_run env traffic chain
    rw [handleAlternativeBlock]
    dsimp only
    split
    case h_7 altChain bei accepted =>
      have stored := reset.trans (.single (.storeAlternative _ block altChain
        bei ⟨permitted, unrestricted block permitted⟩ accepted))
      have branch : ∀ other ∈ altChain ++ [bei], traffic.block other.bl := by
        obtain ⟨times, built⟩ := (checkAlternativeBlock_accepted accepted).built
        rw [(buildAltChain_eq_some built).1]
        intro other mem
        rcases mem_append.mp mem with lt | last
        · obtain ⟨id, found⟩ := mem_altWalk lt
          exact held.alternative id other found
        · rw [mem_singleton.mp last, (checkAlternativeBlock_accepted accepted).bl]
          exact permitted
      split
      · have switched := stored.trans (@switchToAlternativeBlockchain_run env
          now traffic _ (fun current displaced held permitted =>
            ih held permitted .init) _ (stored.heldBlocks held)
          _ branch
          (chain.resetDifficultyCache.isACheckpoint bei.height))
        split
        all_goals exact switched
      · exact stored
    all_goals exact reset

theorem addNewBlock_run {bvc : BlockVerificationContext} (fresh : bvc.verifivationFailed = false) :
    Run env traffic chain (addNewBlock nesting chain env now block bvc).chain := by
  have cleared : ∀ current : Blockchain,
      Run env traffic current { current with blocksTxsCheck := [] } :=
    fun current => .cache ⟨⟨rfl, rfl, rfl, rfl⟩, rfl, rfl⟩ rfl
  unfold addNewBlock
  dsimp only
  split
  · exact cleared chain
  · split
    · have handled := @handleAlternativeBlock_run env now traffic unrestricted
        nesting chain held block permitted { bvc with addedToMainChain := false }
      split
      · exact handled
      · exact handled.trans (cleared _)
    · have handled : Run env traffic chain (chain.handleBlockToMainChain env now block bvc).chain :=
        .single (.mainBlock chain now block bvc fresh permitted)
      split
      all_goals exact handled

end

end Handed

theorem addNewBlock_nodeRun (nesting : Nat) (chain : Blockchain) (block : Block)
    {bvc : BlockVerificationContext} (fresh : bvc.verifivationFailed = false) :
    NodeRun env chain (addNewBlock nesting chain env now block bvc).chain :=
  addNewBlock_run (fun _ _ => trivial) nesting (.any chain) trivial fresh

end Blockchain

end LodeChain

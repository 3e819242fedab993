import LodeChain.ChainHistory
import LodeChain.RollingWindow

/-!
# Long-term weights along the chain

A long-term weight is computed from the block's own and those below it. The median over them is kept
in a cache, which answers as the stored weights would.
-/

namespace LodeChain

open WrappedArithmetic List BlockEntry

/-- The transactions of a block, none of them pruned, give it a weight. -/
structure Weighs (env : Env) (traffic : Traffic) (block : Block)
    (txs : List Transaction) (total : Nat) : Prop where
  permitted : ∀ tx ∈ txs, traffic.transaction tx ∧ tx.pruned = false
  txids : txs.map env.getTransactionHash = block.txHashes
  summed : ∃ (coinbaseWeight : Nat) (weights : List Nat),
    getTransactionWeight block.minerTx = some coinbaseWeight ∧
    txs.map getTransactionWeight = weights.map some ∧
    total = weights.foldl (addMod 64) coinbaseWeight

def weightInTable (blocksHashCheck : List (Hash × Nat)) (height : Nat) : Nat :=
  (blocksHashCheck[height]?.map Prod.snd).getD 0

/-- Hashes commit to weights, and the table is right about blocks with a pruned transaction. -/
structure CommittedWeights (env : Env) (traffic : Traffic)
    (blocksHashCheck : List (Hash × Nat)) : Prop where
  transactions : ∀ left right, traffic.transaction left →
    traffic.transaction right → left.pruned = false → right.pruned = false →
    env.getTransactionHash left = env.getTransactionHash right →
    getTransactionWeight left = getTransactionWeight right
  blocks : ∀ block txs total, traffic.block block →
    Weighs env traffic block txs total → ∀ tx, traffic.transaction tx →
    tx.pruned = true → env.getTransactionHash tx ∈ block.txHashes →
    weightInTable blocksHashCheck (getBlockHeight block) = total

open Classical in
noncomputable def weightOf (env : Env) (traffic : Traffic)
    (blocksHashCheck : List (Hash × Nat)) (block : Block) : Nat :=
  if weighed : ∃ total txs, Weighs env traffic block txs total then weighed.choose
  else weightInTable blocksHashCheck (getBlockHeight block)

section Weights

variable {env : Env} {traffic : Traffic} {blocksHashCheck : List (Hash × Nat)} {block : Block}

section

variable (committed : CommittedWeights env traffic blocksHashCheck)

include committed

theorem CommittedWeights.map_weight {left right : List Transaction}
    (leftPermitted : ∀ tx ∈ left, traffic.transaction tx ∧ tx.pruned = false)
    (rightPermitted : ∀ tx ∈ right, traffic.transaction tx ∧ tx.pruned = false)
    (same : left.map env.getTransactionHash = right.map env.getTransactionHash) :
    left.map getTransactionWeight = right.map getTransactionWeight := by
  refine ListFacts.map_eq_of_map_eq same ?_
  intro first firstMember second secondMember hashes
  obtain ⟨firstKnown, firstWhole⟩ := leftPermitted first firstMember
  obtain ⟨secondKnown, secondWhole⟩ := rightPermitted second secondMember
  exact committed.transactions first second firstKnown secondKnown firstWhole secondWhole hashes

theorem CommittedWeights.total_eq {leftTxs rightTxs : List Transaction} {left right : Nat}
    (leftWeighs : Weighs env traffic block leftTxs left)
    (rightWeighs : Weighs env traffic block rightTxs right) : left = right := by
  obtain ⟨coinbase, leftWeights, known, leftMap, rfl⟩ := leftWeighs.summed
  obtain ⟨other, rightWeights, same, rightMap, rfl⟩ := rightWeighs.summed
  have weights := committed.map_weight leftWeighs.permitted rightWeighs.permitted
    (leftWeighs.txids.trans rightWeighs.txids.symm)
  rw [leftMap, rightMap] at weights
  rw [map_injective_iff.mpr (Option.some_injective _) weights,
    Option.some.inj (known.symm.trans same)]

theorem CommittedWeights.weightOf_eq
    {txs : List Transaction} {total : Nat} (weighs : Weighs env traffic block txs total) :
    weightOf env traffic blocksHashCheck block = total := by
  have weighed : ∃ total txs, Weighs env traffic block txs total := ⟨total, txs, weighs⟩
  obtain ⟨others, chosen⟩ := weighed.choose_spec
  rw [weightOf, dif_pos weighed]
  exact committed.total_eq chosen weighs

theorem CommittedWeights.weightOf_pruned (permitted : traffic.block block) {tx : Transaction}
    (recv : traffic.transaction tx) (pruned : tx.pruned = true)
    (listed : env.getTransactionHash tx ∈ block.txHashes) :
    weightOf env traffic blocksHashCheck block =
      weightInTable blocksHashCheck (getBlockHeight block) := by
  unfold weightOf
  split
  · rename_i weighed
    obtain ⟨txs, chosen⟩ := weighed.choose_spec
    exact (committed.blocks block txs _ permitted chosen tx recv pruned listed).symm
  · rfl

end

end Weights

def boundedWeight (hfVersion effective blockWeight : Nat) : Nat :=
  if hfVersion < hfVersionLongTermBlockWeight then blockWeight
  else if hfVersion2021Scaling ≤ hfVersion then
    min (max blockWeight (mulMod 64 effective 10 / 17))
      (addMod 64 effective (mulMod 64 effective 7 / 10))
  else min blockWeight (addMod 64 effective (mulMod 64 effective 2 / 5))

structure LongTermRule where
  window : Nat
  table : HardFork
  weightOf : Block → Nat

namespace LongTermRule

def weightAfter (rule : LongTermRule) (weights : List Nat) (block : Block) : Nat :=
  boundedWeight (rule.table.versionAt weights.length)
    (max fullRewardZoneV5 (median (weights.rtake rule.window)))
    (rule.weightOf block)

/-- The path is listed newest first, the result oldest first. -/
def pathWeights (rule : LongTermRule) : List Block → List Nat
  | [] => []
  | block :: rest => rule.pathWeights rest ++ [rule.weightAfter (rule.pathWeights rest) block]

end LongTermRule

def LongTermEntry (rule : LongTermRule) (earlier : List BlockEntry) (entry : BlockEntry) : Prop :=
  entry.longTermBlockWeight = rule.weightAfter (earlier.map longTermBlockWeight) entry.bl

theorem map_longTermBlockWeight_eq {rule : LongTermRule} {entries : List BlockEntry}
    (weighted : ListFacts.EachAfter (LongTermEntry rule) entries) :
    entries.map longTermBlockWeight =
      rule.pathWeights (entries.map bl).reverse := by
  induction entries using List.reverseRecOn with
  | nil => rfl
  | append_singleton prev entry ih =>
    have before := ih weighted.of_append
    have last : entry.longTermBlockWeight = rule.weightAfter
        (prev.map longTermBlockWeight) entry.bl :=
      weighted _ _ [] rfl
    simp only [map_append, map_cons, map_nil, reverse_append, reverse_cons, reverse_nil,
      nil_append, singleton_append, LongTermRule.pathWeights]
    rw [← before, ← last]

namespace BlockchainDB

def longTermWeights (db : BlockchainDB) : List Nat :=
  db.blocks.map longTermBlockWeight

@[simp]
theorem length_longTermWeights (db : BlockchainDB) : db.longTermWeights.length = db.height :=
  length_map ..

theorem blockRange_window (db : BlockchainDB) (window : Nat) :
    (db.blockRange (db.height - min window db.height) db.height).map
      longTermBlockWeight = db.longTermWeights.rtake window := by
  rw [blockRange, height, take_length, map_drop, List.rtake, longTermWeights, length_map]
  congr 1
  omega

/-- A main chain of received blocks with the long-term weights they call for. -/
structure WeightedChain (env : Env) (traffic : Traffic) (rule : LongTermRule)
    (db : BlockchainDB) : Prop extends IsMainChain env db where
  received : ∀ block ∈ db.chainBlocks, traffic.block block
  weighted : ListFacts.EachAfter (LongTermEntry rule) db.blocks

section TwoChains

variable {env : Env} {traffic : Traffic} {rule : LongTermRule} {left right : BlockchainDB}

theorem WeightedChain.take_longTermWeights
    (weighted : WeightedChain env traffic rule left) (count : Nat) :
    left.longTermWeights.take count = rule.pathWeights (left.chainBlocks.take count).reverse := by
  rw [longTermWeights, ← map_take,
    map_longTermBlockWeight_eq (weighted.weighted.take count), map_take]
  rfl

theorem WeightedChain.weights_of_id_eq (leftChain : WeightedChain env traffic rule left)
    (rightChain : WeightedChain env traffic rule right)
    (distinct : Set.InjOn env.getBlockHash {block | traffic.block block})
    {lower upper : Nat} (lowerInside : lower < left.height) (upperInside : upper < right.height)
    (same : left.getBlockIdByHeight env lower = right.getBlockIdByHeight env upper) :
    lower = upper ∧ left.longTermWeights.take (lower + 1) =
      right.longTermWeights.take (upper + 1) := by
  have known : {block | block ∈ left.chainBlocks ∨ block ∈ right.chainBlocks} ⊆
      {block | traffic.block block} := by
    rintro block (mem | mem)
    · exact leftChain.received block mem
    · exact rightChain.received block mem
  obtain ⟨rfl, -, -, blocks⟩ := leftChain.toIsMainChain.common_of_id_eq
    (distinct.mono known) rightChain.toIsMainChain lowerInside upperInside same
  refine ⟨rfl, ?_⟩
  rw [leftChain.take_longTermWeights, rightChain.take_longTermWeights, blocks]

end TwoChains

end BlockchainDB

namespace Blockchain

variable {env : Env} {traffic : Traffic} {chain after : Blockchain}

theorem getLongTermBlockWeightMedian_window (chain : Blockchain) :
    chain.getLongTermBlockWeightMedian (chain.db.height -
        min chain.longTermBlockWeightsWindow chain.db.height)
        (min chain.longTermBlockWeightsWindow chain.db.height) =
      median (chain.db.longTermWeights.rtake chain.longTermBlockWeightsWindow) := by
  rw [getLongTermBlockWeightMedian, Nat.sub_add_cancel (min_le_right _ _),
    BlockchainDB.blockRange_window]

theorem getNextLongTermBlockWeight_eq (chain : Blockchain) (blockWeight : Nat) :
    chain.getNextLongTermBlockWeight blockWeight = boundedWeight chain.getCurrentHardForkVersion
        (max fullRewardZoneV5 (median (chain.db.longTermWeights.rtake
          chain.longTermBlockWeightsWindow))) blockWeight := by
  rw [← getLongTermBlockWeightMedian_window]
  rfl

theorem tableWeight_eq (chain : Blockchain) :
    chain.tableWeight = weightInTable chain.blocksHashCheck chain.db.height := by
  unfold tableWeight weightInTable
  cases chain.blocksHashCheck[chain.db.height]? with
  | none => rfl
  | some pair => rfl

section Accepted

variable {now : Nat} {block : Block} {poolEntries : List PoolEntry} {entry : BlockEntry}

section

variable (accepted : AcceptedBlock env now chain block poolEntries entry after)
  (facts : TxMemoryPool.Holds (PoolFact env traffic.transaction) chain.txPool)

include accepted facts

theorem AcceptedBlock.weighs (whole : ∀ poolEntry ∈ poolEntries, poolEntry.txMeta.pruned = false) :
    Weighs env traffic block entry.txs entry.blockWeight := by
  obtain ⟨coinbase, weighed, weight⟩ := accepted.blockWeight
  rw [if_neg (by simpa [countP_eq_zero] using whole)] at weight
  have fact : ∀ poolEntry ∈ poolEntries,
      ∃ txid, PoolFact env traffic.transaction txid poolEntry := by
    intro poolEntry mem
    obtain ⟨txid, -, found⟩ := ListFacts.exists_of_mem_left accepted.found.flip mem
    exact ⟨txid, facts txid poolEntry found⟩
  rw [accepted.txs]
  refine ⟨?_, map_getTransactionHash_of_found facts accepted.found,
    coinbase, poolEntries.map fun poolEntry => poolEntry.txMeta.weight,
    weighed, ?_, ?_⟩
  · intro tx mem
    obtain ⟨poolEntry, lt, rfl⟩ := mem_map.mp mem
    obtain ⟨txid, known⟩ := fact poolEntry lt
    exact ⟨known.permitted, known.pruned.symm.trans (whole poolEntry lt)⟩
  · rw [map_map, map_map]
    refine map_congr_left ?_
    intro poolEntry lt
    obtain ⟨txid, known⟩ := fact poolEntry lt
    exact known.weight (known.pruned.symm.trans (whole poolEntry lt))
  · rw [weight, foldl_map]

theorem AcceptedBlock.blockWeight_eq (permitted : traffic.block block)
    (committed : CommittedWeights env traffic chain.blocksHashCheck) :
    entry.blockWeight = weightOf env traffic chain.blocksHashCheck entry.bl := by
  rw [accepted.bl]
  by_cases whole : ∀ poolEntry ∈ poolEntries, poolEntry.txMeta.pruned = false
  · exact (committed.weightOf_eq (accepted.weighs facts whole)).symm
  · push Not at whole
    obtain ⟨poolEntry, mem, pruned⟩ := whole
    rw [Bool.ne_false_iff] at pruned
    obtain ⟨txid, listed, found⟩ := ListFacts.exists_of_mem_left accepted.found.flip mem
    have fact := facts txid poolEntry found
    obtain ⟨coinbase, -, weight⟩ := accepted.blockWeight
    rw [if_pos (countP_pos_iff.mpr ⟨poolEntry, mem, pruned⟩), tableWeight_eq] at weight
    rw [weight, committed.weightOf_pruned permitted fact.permitted
        (fact.pruned.symm.trans pruned) (fact.hash ▸ listed),
      (prevalidateMinerTransaction_spec accepted.prevalidated).1]

end

end Accepted

noncomputable def longTermRule (chain : Blockchain) (env : Env)
    (traffic : Traffic) : LongTermRule :=
  ⟨chain.longTermBlockWeightsWindow, chain.hardfork,
    LodeChain.weightOf env traffic chain.blocksHashCheck⟩

theorem Run.sameConfig {start : Blockchain} (run : Run env traffic start chain) :
    chain.SameConfig start :=
  Run.preserves (fun step config => step.sameConfig.trans config) run (.refl start)

section Runs

variable {start : Blockchain} (committed : CommittedWeights env traffic start.blocksHashCheck)

include committed

theorem AcceptedBlock.longTermEntry {now : Nat} {block : Block} {poolEntries : List PoolEntry}
    {entry : BlockEntry} (accepted : AcceptedBlock env now chain block poolEntries entry after)
    (facts : TxMemoryPool.Holds (PoolFact env traffic.transaction) chain.txPool)
    (permitted : traffic.block block) (config : chain.SameConfig start)
    (synced : SyncedChain start.workRule chain) :
    LongTermEntry (start.longTermRule env traffic) chain.db.blocks entry := by
  rw [← config.blocksHashCheck] at committed
  rw [LongTermEntry, accepted.longTermBlockWeight,
    accepted.blockWeight_eq facts permitted committed,
    getNextLongTermBlockWeight_eq, synced.currentVersion,
    config.longTermBlockWeightsWindow, config.blocksHashCheck,
    LongTermRule.weightAfter, length_map]
  rfl

theorem Run.longTermEntries (started : StartsByHeight start) (run : Run env traffic start chain) :
    ListFacts.EachAfter (LongTermEntry (start.longTermRule env traffic)) chain.db.blocks := by
  induction run with
  | refl =>
    rw [started.blocks]
    exact .nil
  | tail prev step ih =>
    rcases step.blocks_cases with
      ⟨now, block, poolEntries, entry, permitted, accepted⟩ | ⟨top, popped⟩ | same
    · have sound := Reachable.soundChain ⟨start, started.toIsInitial, prev⟩
      have config := Run.sameConfig prev
      rw [accepted.blocks]
      exact ih.append_singleton (accepted.longTermEntry committed sound.pool
        permitted config (Run.syncedChain started prev))
    · rw [popped.blocks] at ih
      exact ih.of_append
    · rw [same]
      exact ih

theorem Run.weightedChain (started : StartsByHeight start) (run : Run env traffic start chain) :
    chain.db.WeightedChain env traffic (start.longTermRule env traffic) := by
  have sound := Reachable.soundChain ⟨start, started.toIsInitial, run⟩
  refine ⟨BlockchainDB.isMainChain_of_sound sound, ?_, Run.longTermEntries committed started run⟩
  intro block mem
  obtain ⟨entry, stored, rfl⟩ := mem_map.mp mem
  exact sound.blocks entry stored

end Runs

end Blockchain

/-! ## The cached long-term median -/

open BlockchainDB

structure LongTermCache where
  tipHash : Hash
  rollingMedian : RollingMedian Nat

namespace LongTermCache

def new (window : Nat) (data : Nat → Nat) : LongTermCache :=
  ⟨nullHash, .new window data⟩

variable (cache : LongTermCache)

def answer : Nat × LongTermCache :=
  (cache.rollingMedian.median getMid, cache)

def extend (tipHash : Hash) (weight : Nat) : LongTermCache :=
  ⟨tipHash, cache.rollingMedian.insert weight⟩

def refill (tipHash : Hash) (weights : List Nat) : LongTermCache :=
  ⟨tipHash, weights.foldl RollingMedian.insert cache.rollingMedian.clear⟩

def MayMatch (db : BlockchainDB) (tipHeight count : Nat) : Prop :=
  tipHeight < db.height ∧ count = cache.rollingMedian.size

instance (cache : LongTermCache) (db : BlockchainDB) (tipHeight count : Nat) :
    Decidable (cache.MayMatch db tipHeight count) :=
  inferInstanceAs (Decidable (_ ∧ _))

def lookedUpTip (env : Env) (db : BlockchainDB) (tipHeight count : Nat) : Hash :=
  if cache.MayMatch db tipHeight count then db.getBlockIdByHeight env tipHeight
  else nullHash

def getLongTermBlockWeightMedian (env : Env)
    (db : BlockchainDB) (startHeight count : Nat) : Option (Nat × LongTermCache) :=
  let tipHeight := startHeight + count - 1
  let tipHash := cache.lookedUpTip env db tipHeight count
  if count = 0 then none
  else if cache.MayMatch db tipHeight count ∧ tipHash = cache.tipHash then some cache.answer
  else if 0 < tipHeight ∧ cache.MayMatch db tipHeight count ∧
      db.getBlockIdByHeight env (tipHeight - 1) = cache.tipHash then
    some (cache.extend tipHash (db.longTermWeights.getD tipHeight 0)).answer
  else if db.height ≤ startHeight then none
  else
    some (cache.refill tipHash ((db.blockRange startHeight (startHeight + count)).map
        BlockEntry.longTermBlockWeight)).answer

structure Describes (env : Env) (window : Nat) (past : BlockchainDB)
    (cache : LongTermCache) : Prop where
  nonempty : 0 < past.height
  tipHash : cache.tipHash = past.getBlockIdByHeight env (past.height - 1)
  holds : cache.rollingMedian.Holds (past.longTermWeights.rtake window)

structure Coherent (env : Env) (traffic : Traffic) (rule : LongTermRule)
    (cache : LongTermCache) : Prop where
  capacity : cache.rollingMedian.capacity = rule.window
  describes : cache.tipHash ≠ nullHash → ∃ past, past.WeightedChain env traffic rule ∧
      cache.Describes env rule.window past

variable {env : Env} {traffic : Traffic} {rule : LongTermRule}
  {cache : LongTermCache} {db : BlockchainDB}

theorem coherent_new (data : Nat → Nat) : (new rule.window data).Coherent env traffic rule :=
  ⟨rfl, fun named => absurd rfl named⟩

theorem answer_eq {window : Nat}
    (holds : cache.rollingMedian.Holds (db.longTermWeights.rtake window))
    (positive : 0 < window) (nonempty : 0 < db.height) :
    cache.answer = (median (db.longTermWeights.rtake window), cache) := by
  rw [answer, holds.median_eq]
  intro empty
  have length := congrArg List.length empty
  rw [List.rtake, length_drop, length_longTermWeights, length_nil] at length
  omega

theorem Coherent.holds_refill (coherent : cache.Coherent env traffic rule)
    (positive : 0 < rule.window) (tipHash : Hash) :
    (cache.refill tipHash (db.longTermWeights.rtake rule.window)).rollingMedian.Holds
        (db.longTermWeights.rtake rule.window) ∧ (cache.refill tipHash (db.longTermWeights.rtake
        rule.window)).rollingMedian.capacity = rule.window := by
  have capacity : cache.rollingMedian.clear.capacity = rule.window := coherent.capacity
  have fits : ([] : List Nat).length + (db.longTermWeights.rtake rule.window).length ≤
        cache.rollingMedian.clear.capacity := by
    rw [List.rtake, length_drop, length_nil]
    omega
  have filled := (cache.rollingMedian.holds_clear (coherent.capacity ▸ positive)).foldl_insert fits
  rw [capacity] at filled
  exact filled

section Call

variable (weighted : db.WeightedChain env traffic rule)
  (distinct : Set.InjOn env.getBlockHash {block | traffic.block block})
  (notNull : ∀ block, traffic.block block → env.getBlockHash block ≠ nullHash)

include weighted

include notNull in
theorem getBlockIdByHeight_ne_null {height : Nat} (lt : height < db.height) :
    db.getBlockIdByHeight env height ≠ nullHash := by
  rw [← length_chainBlocks] at lt
  rw [getBlockIdByHeight_eq (getElem?_eq_getElem lt)]
  exact notNull _ (weighted.received _ (getElem_mem lt))

variable (coherent : cache.Coherent env traffic rule)

include distinct notNull coherent

theorem Coherent.holds_of_id_eq {height : Nat} (lt : height < db.height)
    (same : db.getBlockIdByHeight env height = cache.tipHash) :
    cache.rollingMedian.Holds ((db.longTermWeights.take (height + 1)).rtake rule.window) := by
  obtain ⟨past, pastWeighted, nonempty, tipHash, holds⟩ :=
    coherent.describes (same ▸ getBlockIdByHeight_ne_null weighted notNull lt)
  obtain ⟨eq, weights⟩ := weighted.weights_of_id_eq pastWeighted distinct
    lt (Nat.sub_one_lt_of_lt nonempty) (same.trans tipHash)
  rw [weights, Nat.sub_add_cancel nonempty, ← length_longTermWeights, take_length]
  exact holds

variable (positive : 0 < rule.window) (nonempty : 0 < db.height)

include nonempty in
theorem Coherent.describes_cached
    (same : db.getBlockIdByHeight env (db.height - 1) = cache.tipHash) :
    cache.Describes env rule.window db := by
  have holds := coherent.holds_of_id_eq weighted distinct notNull
    (Nat.sub_one_lt_of_lt nonempty) same
  rw [Nat.sub_add_cancel nonempty, ← length_longTermWeights,
    take_length] at holds
  exact ⟨nonempty, same.symm, holds⟩

theorem Coherent.describes_extended (two : 0 < db.height - 1)
    (same : db.getBlockIdByHeight env (db.height - 1 - 1) = cache.tipHash) :
    let extended := cache.extend (db.getBlockIdByHeight env (db.height - 1))
      (db.longTermWeights.getD (db.height - 1) 0)
    extended.Describes env rule.window db ∧ extended.rollingMedian.capacity = rule.window := by
  have lt : db.height - 1 < db.longTermWeights.length := by
    rw [length_longTermWeights]
    omega
  have holds := coherent.holds_of_id_eq weighted distinct notNull
    (show db.height - 1 - 1 < db.height by omega) same
  rw [Nat.sub_add_cancel two] at holds
  have whole : db.longTermWeights.take (db.height - 1) ++
      [db.longTermWeights.getD (db.height - 1) 0] = db.longTermWeights := by
    rw [getD_eq_getElem _ _ lt, ← take_succ_eq_append_getElem,
      Nat.sub_add_cancel (by omega), ← length_longTermWeights,
      take_length]
  refine ⟨⟨by omega, rfl, ?_⟩, (holds.toSettled.capacity_insert _).trans coherent.capacity⟩
  have inserted := holds.insert (db.longTermWeights.getD (db.height - 1) 0)
  rw [coherent.capacity, ListFacts.rtake_append_singleton, whole] at inserted
  exact inserted

include positive nonempty

theorem Coherent.getLongTermBlockWeightMedian_spec :
    ∃ after, cache.getLongTermBlockWeightMedian env db
        (db.height - min rule.window db.height) (min rule.window db.height) =
          some (median (db.longTermWeights.rtake rule.window), after) ∧
      after.Coherent env traffic rule := by
  have ends : db.height - min rule.window db.height + min rule.window db.height =
      db.height := Nat.sub_add_cancel (min_le_right _ _)
  unfold getLongTermBlockWeightMedian
  rw [if_neg (by omega)]
  simp only [ends]
  split
  · rename_i cached
    obtain ⟨mayMatch, same⟩ := cached
    rw [lookedUpTip, if_pos mayMatch] at same
    have describes := coherent.describes_cached weighted distinct notNull nonempty same
    exact ⟨cache, by rw [answer_eq describes.holds positive nonempty], coherent⟩
  · split
    · rename_i extended
      obtain ⟨two, mayMatch, same⟩ := extended
      rw [lookedUpTip, if_pos mayMatch]
      obtain ⟨describes, capacity⟩ := coherent.describes_extended weighted distinct notNull two same
      exact ⟨_, by rw [answer_eq describes.holds positive nonempty], capacity,
        fun _ => ⟨db, weighted, describes⟩⟩
    · rw [if_neg (by omega), blockRange_window]
      obtain ⟨holds, capacity⟩ := Coherent.holds_refill coherent
        positive (cache.lookedUpTip env db _ (min _ _))
      refine ⟨_, by rw [answer_eq holds positive nonempty], capacity, ?_⟩
      intro named
      refine ⟨db, weighted, nonempty, ?_, holds⟩
      change cache.lookedUpTip env db _ _ = _
      rw [lookedUpTip] at named ⊢
      split at named
      · rename_i mayMatch
        rw [if_pos mayMatch]
      · exact absurd rfl named

end Call

end LongTermCache

namespace Blockchain

variable {env : Env} {traffic : Traffic} {start chain : Blockchain} {cache : LongTermCache}

def longTermCount (chain : Blockchain) : Nat :=
  min chain.longTermBlockWeightsWindow chain.db.height

/-- The node takes a step, is restarted with an empty cache, or asks for the median. -/
inductive MedianRun (env : Env) (traffic : Traffic) (start : Blockchain) :
    Blockchain → LongTermCache → Prop
  | start (data : Nat → Nat) : MedianRun env traffic start start
        (.new start.longTermBlockWeightsWindow data)
  | step {chain after : Blockchain} {cache : LongTermCache}
      (before : MedianRun env traffic start chain cache)
      (step : ChainStep env traffic chain after) :
      MedianRun env traffic start after cache
  | restart {chain : Blockchain} {cache : LongTermCache}
      (before : MedianRun env traffic start chain cache) (data : Nat → Nat) :
      MedianRun env traffic start chain (.new chain.longTermBlockWeightsWindow data)
  | call {chain : Blockchain} {cache after : LongTermCache} {result : Nat}
      (before : MedianRun env traffic start chain cache)
      (called : cache.getLongTermBlockWeightMedian env chain.db
        (chain.db.height - chain.longTermCount) chain.longTermCount =
          some (result, after)) :
      MedianRun env traffic start chain after

theorem MedianRun.run (run : MedianRun env traffic start chain cache) :
    Run env traffic start chain := by
  induction run with
  | start => exact .refl
  | step _ step ih => exact ih.tail step
  | restart _ _ ih => exact ih
  | call _ _ ih => exact ih

section

variable (started : StartsByHeight start)
  (committed : CommittedWeights env traffic start.blocksHashCheck)
  (distinct : Set.InjOn env.getBlockHash {block | traffic.block block})
  (notNull : ∀ block, traffic.block block → env.getBlockHash block ≠ nullHash)
  (positive : 0 < start.longTermBlockWeightsWindow)

include started committed distinct notNull positive

theorem MedianRun.coherent (run : MedianRun env traffic start chain cache) :
    cache.Coherent env traffic (start.longTermRule env traffic) := by
  induction run with
  | start data => exact LongTermCache.coherent_new data
  | step _ _ ih => exact ih
  | restart before data _ =>
    rw [(Run.sameConfig before.run).longTermBlockWeightsWindow]
    exact LongTermCache.coherent_new data
  | @call chain cache after result before called ih =>
    have weighted := Run.weightedChain committed started before.run
    rw [longTermCount, (Run.sameConfig before.run).longTermBlockWeightsWindow] at called
    have nonempty : 0 < chain.db.height := by
      by_contra empty
      rw [Nat.eq_zero_of_not_pos empty] at called
      simp [LongTermCache.getLongTermBlockWeightMedian] at called
    obtain ⟨same, answered, coherent⟩ :=
      ih.getLongTermBlockWeightMedian_spec weighted distinct notNull positive nonempty
    have eq := called.symm.trans answered
    simp at eq
    rw [eq.2]
    exact coherent

/-- Whenever the chain has a block, the calls for the long-term median return that of the stored
long-term weights they ask for. -/
theorem MedianRun.getLongTermBlockWeightMedian_eq (run : MedianRun env traffic start chain cache)
    (nonempty : chain.db.blocks ≠ []) : ∃ after, cache.getLongTermBlockWeightMedian env chain.db
        (chain.db.height - chain.longTermCount) chain.longTermCount =
      some (chain.getLongTermBlockWeightMedian
        (chain.db.height - chain.longTermCount) chain.longTermCount, after) := by
  have weighted := Run.weightedChain committed started run.run
  have coherent := run.coherent started committed distinct notNull positive
  obtain ⟨after, answered, -⟩ :=
    coherent.getLongTermBlockWeightMedian_spec weighted distinct notNull positive
      (length_pos_iff.mpr nonempty)
  refine ⟨after, ?_⟩
  rw [longTermCount, getLongTermBlockWeightMedian_window,
    (Run.sameConfig run.run).longTermBlockWeightsWindow]
  exact answered

end

def narrowStart : Blockchain :=
  { Blockchain.empty with longTermBlockWeightsWindow := 1 }

def narrowGenesis : Blockchain :=
  (narrowStart.handleBlockToMainChain uncheckedEnv 0 (claimingBlock 0 0 0 []) .init).chain

def narrowChain : Blockchain :=
  (narrowGenesis.handleBlockToMainChain uncheckedEnv 120
    (claimingBlock 1 1 10000000000 []) .init).chain

def narrowTraffic : Traffic where
  block block := block = claimingBlock 0 0 0 [] ∨ block = claimingBlock 1 1 10000000000 []
  alternative := fun _ => False
  transaction := fun _ => False

theorem narrowTraffic_distinct : Set.InjOn uncheckedEnv.getBlockHash
    {block | narrowTraffic.block block} := by
  rintro _ (rfl | rfl) _ (rfl | rfl) same
  · rfl
  · exact absurd same (by decide)
  · exact absurd same (by decide)
  · rfl

theorem narrowTraffic_notNull : ∀ block, narrowTraffic.block block →
    uncheckedEnv.getBlockHash block ≠ nullHash := by
  rintro _ (rfl | rfl)
  all_goals decide

theorem narrowStart_startsByHeight : StartsByHeight narrowStart :=
  ⟨⟨rfl, rfl, rfl⟩, HardFork.mainnetHardForks_byHeight rfl rfl, rfl⟩

theorem narrowTraffic_committed :
    CommittedWeights uncheckedEnv narrowTraffic narrowStart.blocksHashCheck :=
  ⟨fun _ _ received => received.elim, fun _ _ _ _ _ _ received => received.elim⟩

/-- The median is asked for twice before the second block. -/
theorem narrowChain_run :
    ∃ cache, MedianRun uncheckedEnv narrowTraffic narrowStart narrowChain cache := by
  have genesis : MedianRun uncheckedEnv narrowTraffic narrowStart narrowGenesis
      (.new 1 fun _ => 0) :=
    .step (.start fun _ => 0) (.mainBlock _ 0 _ .init rfl (.inl rfl))
  exact ⟨_, .step ((genesis.call rfl).call rfl) (.mainBlock _ 120 _ .init rfl (.inr rfl))⟩

theorem narrowChain_median :
    ∃ cache after, MedianRun uncheckedEnv narrowTraffic narrowStart narrowChain cache ∧
      cache.getLongTermBlockWeightMedian uncheckedEnv narrowChain.db 1 1 =
        some (narrowChain.getLongTermBlockWeightMedian 1 1, after) := by
  obtain ⟨cache, run⟩ := narrowChain_run
  obtain ⟨after, answered⟩ := run.getLongTermBlockWeightMedian_eq narrowStart_startsByHeight
    narrowTraffic_committed narrowTraffic_distinct narrowTraffic_notNull (by decide) (by decide)
  have count : narrowChain.longTermCount = 1 := by decide
  have height : narrowChain.db.height = 2 := by decide
  rw [count, height] at answered
  exact ⟨cache, after, run, answered⟩

end Blockchain

end LodeChain

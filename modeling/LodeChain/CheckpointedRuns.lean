import LodeChain.CheckpointedBranches
import LodeChain.ForkChoice

/-!
# Checkpoints along every run

A node is handed blocks in any order, valid or not. What is preserved over a switch of chains that
fails and is rolled back is proved first, then that no run ends with a main chain that contradicts a
checkpoint.
-/

namespace LodeChain

theorem PoolFact.weighed {env : Env} {recv : Transaction → Prop}
    {txid : Hash} {entry : PoolEntry} (fact : PoolFact env recv txid entry) :
    ∃ weight, getTransactionWeight entry.tx = some weight := by
  cases pruned : entry.tx.pruned with
  | true => exact ⟨2 ^ 64 - 1, by rw [getTransactionWeight, if_pos pruned]⟩
  | false => exact ⟨_, fact.weight pruned⟩

namespace Blockchain

variable {env : Env} {traffic : Traffic} {now : Nat} {chain : Blockchain}

def Weighed (txs : List Transaction) : Prop :=
  ∀ tx ∈ txs, ∃ weight, getTransactionWeight tx = some weight

theorem weighed_of_takes {txids : List Hash} {entries : List PoolEntry} {remaining : TxMemoryPool}
    (sound : SoundChain env traffic chain) (takes : chain.txPool.Takes txids entries remaining) :
    Weighed (entries.map PoolEntry.tx) := by
  intro tx mem
  obtain ⟨entry, lt, rfl⟩ := List.mem_map.mp mem
  obtain ⟨txid, -, found⟩ := ListFacts.exists_of_mem_left takes.found.flip lt
  exact (sound.pool txid entry found).weighed

theorem returnTxsFrom_snd {txs : List Transaction} (weighed : Weighed txs) (pool : TxMemoryPool) :
    (chain.returnTxsFrom env now txs pool).2 = true := by
  induction txs generalizing pool with
  | nil => rfl
  | cons tx rest ih =>
    obtain ⟨⟨weight, computed⟩, later⟩ := List.forall_mem_cons.mp weighed
    rw [returnTxsFrom, computed]
    exact ih later _

theorem failReturning_result {txs : List Transaction} (weighed : Weighed txs)
    (bvc : BlockVerificationContext) :
    (chain.failReturning env now bvc txs).result = .returned false := by
  simp [failReturning, returnTxToPool, returnTxsFrom_snd weighed]

variable {block : Block}

theorem finishBlock_ne_threw {bvc : BlockVerificationContext}
    {difficulty : Nat} {taken : TakenTxs} (weighed : Weighed taken.txs) :
    (chain.finishBlock env now block bvc difficulty taken).result ≠ .threw := by
  unfold finishBlock
  dsimp only
  split
  · simp
  · split
    · simp [failReturning_result weighed]
    · split
      · simp
      · split
        · simp [failReturning_result weighed]
        · simp

section

variable (sound : SoundChain env traffic chain)
  (coinbase : ∃ weight, getTransactionWeight block.minerTx = some weight)
  (bvc : BlockVerificationContext)

include sound coinbase bvc

theorem SoundChain.handleCheckedBlock_ne_threw (difficulty : Nat) (fastCheck : Bool) :
    (chain.handleCheckedBlock env now block bvc difficulty fastCheck).result ≠ .threw := by
  obtain ⟨coinbaseWeight, weighed⟩ := coinbase
  obtain ⟨txids, entries, -, trace⟩ := takeBlockTxs_trace chain env now fastCheck _ 0
      ⟨chain.txPool, [], 0, coinbaseWeight, 0⟩
  unfold handleCheckedBlock
  rw [weighed]
  dsimp only
  rcases takeEq : chain.takeBlockTxs env now fastCheck block.txHashes 0
      ⟨chain.txPool, [], 0, coinbaseWeight, 0⟩ with ⟨taken, verdict⟩
  rw [takeEq] at trace
  have txs : taken.txs = entries.map PoolEntry.tx := by simpa using trace.txs
  have takenWeighed : Weighed taken.txs := txs ▸ weighed_of_takes sound trace.takes
  cases verdict with
  | failed markInvalid => simp [failReturning_result takenWeighed]
  | finished => exact finishBlock_ne_threw takenWeighed

theorem SoundChain.handleBlockToMainChain_ne_threw :
    (chain.handleBlockToMainChain env now block bvc).result ≠ .threw := by
  obtain ⟨cache, updated, -⟩ := checkHeader_spec chain now block
  unfold handleBlockToMainChain
  rcases checkEq : chain.checkHeader env now block (env.getBlockHash block) with
    ⟨checked, verdict⟩
  rw [checkEq] at updated
  subst updated
  cases verdict with
  | rejected badPow => simp
  | difficultyOverhead => simp
  | accepted difficulty fastCheck =>
    have cached : SoundChain env traffic { chain with difficultyCache := cache } :=
      ⟨sound.pool, sound.entries, sound.blocks, sound.txs⟩
    exact cached.handleCheckedBlock_ne_threw coinbase bvc difficulty fastCheck

end

theorem SoundChain.attachAll_not_threw (sound : SoundChain env traffic chain)
    {blocks : List Block} (permitted : ∀ block ∈ blocks, traffic.block block)
    (coinbases : ∀ block ∈ blocks, ∃ weight, getTransactionWeight block.minerTx = some weight) :
    (attachAll env now blocks chain).2.2 = false := by
  induction blocks generalizing chain with
  | nil => rfl
  | cons block rest ih =>
    rw [List.forall_mem_cons] at permitted coinbases
    have attached : SoundChain env traffic (chain.handleBlockToMainChain env
        now block BlockVerificationContext.init).chain :=
      (ChainStep.mainBlock chain now block _ rfl permitted.1).soundChain sound
    rw [attachAll, if_neg (sound.handleBlockToMainChain_ne_threw coinbases.1 _)]
    split
    · exact ih attached permitted.2 coinbases.2
    · rfl

/-! ## Reorganizations leave checkpoints alone -/

open List BlockchainDB BlockEntry

variable {env : Env} {traffic : Traffic} {points : List (Nat × Hash)}
  {now fork : Nat} {chain middle after : Blockchain}

/-- What lies below a fork, and the alternative blocks, are left alone. -/
structure Rebuilt (env : Env) (traffic : Traffic) (fork : Nat)
    (chain after : Blockchain) : Prop where
  run : Run env traffic chain after
  lower : after.db.blocks.take fork = chain.db.blocks.take fork
  altBlocks : after.db.altBlocks = chain.db.altBlocks

theorem Rebuilt.trans (first : Rebuilt env traffic fork chain middle)
    (second : Rebuilt env traffic fork middle after) : Rebuilt env traffic fork chain after :=
  ⟨first.run.trans second.run, second.lower.trans first.lower,
    second.altBlocks.trans first.altBlocks⟩

theorem Rebuilt.reached (rebuilt : Rebuilt env traffic fork chain after)
    (reached : fork ≤ chain.db.height) : fork ≤ after.db.height := by
  have lengths := congrArg length rebuilt.lower
  rw [length_take, length_take] at lengths
  rw [height] at reached ⊢
  omega

theorem PoppedTo.rebuilt {dropped : List BlockEntry} (popped : PoppedTo env chain dropped after)
    (run : Run env traffic chain after) (blocks : after.db.blocks = chain.db.blocks.take fork) :
    Rebuilt env traffic fork chain after.updateNextCumulativeWeightLimit := by
  refine ⟨run.trans (updateNextCumulativeWeightLimit_run after), ?_, popped.altBlocks⟩
  change after.db.blocks.take fork = _
  rw [blocks, take_take, min_self]

theorem reorganizeHardFork_rebuilt (height : Nat) :
    Rebuilt env traffic fork chain (chain.reorganizeHardFork height) :=
  ⟨reorganizeHardFork_run chain height, rfl, rfl⟩

variable {blocks : List Block}

theorem attachAll_rebuilt (permitted : ∀ block ∈ blocks, traffic.block block)
    (reached : fork ≤ chain.db.height) :
    Rebuilt env traffic fork chain (attachAll env now blocks chain).1 := by
  obtain ⟨entries, -, appended, altBlocks, -, -⟩ := attachAll_cases blocks chain
  refine ⟨attachAll_run blocks permitted chain, ?_, altBlocks⟩
  rw [appended, take_append_of_le_length reached]

theorem Rebuilt.attachAll (based : Rebuilt env traffic fork chain middle)
    (sound : SoundChain env traffic chain) (reached : fork ≤ middle.db.height)
    (permitted : ∀ block ∈ blocks, traffic.block block ∧
      ∃ weight, getTransactionWeight block.minerTx = some weight) (now : Nat) :
    Rebuilt env traffic fork chain (Blockchain.attachAll env now blocks middle).1 ∧
      (Blockchain.attachAll env now blocks middle).2.2 = false := by
  have allowed : ∀ block ∈ blocks, traffic.block block :=
    fun block mem => (permitted block mem).1
  constructor
  · exact based.trans (attachAll_rebuilt allowed reached)
  · exact (based.run.preserves (fun step => step.soundChain) sound).attachAll_not_threw allowed
        (fun block mem => (permitted block mem).2)

theorem SoundChain.mainIds_nodup
    (distinct : Set.InjOn env.getBlockHash {block | traffic.block block})
    (sound : SoundChain env traffic chain) : (chain.db.blockHashes env).Nodup := by
  rw [blockHashes, nodup_iff_pairwise_ne, pairwise_map, pairwise_iff_getElem]
  intro lower upper lowerInside upperInside below same
  have eq := distinct (sound.blocks _ (getElem_mem lowerInside))
    (sound.blocks _ (getElem_mem upperInside)) same
  have lowerHeight := sound.height_of_getElem? (getElem?_eq_getElem lowerInside)
  have upperHeight := sound.height_of_getElem? (getElem?_eq_getElem upperInside)
  rw [eq] at lowerHeight
  omega

theorem MinedChain.rollback_rebuilt (mined : MinedChain env traffic chain)
    (pos : 0 < fork) (reached : fork ≤ chain.db.height) {originalChain : List Block}
    (originals : ∀ block ∈ originalChain, traffic.block block ∧
      ∃ weight, getTransactionWeight block.minerTx = some weight) :
    ∃ restored ok rejected, chain.rollbackBlockchainSwitching env now originalChain fork =
        (restored, .returned ok, rejected) ∧ Rebuilt env traffic fork chain restored := by
  obtain ⟨popped, remaining, popEq, poppedTo, blocks⟩ :=
    @popToHeight_eq env now chain mined.weighed fork pos reached
  have popRun := @popToHeight_run env now traffic chain fork
  rw [popEq] at popRun
  have based := (poppedTo.rebuilt popRun blocks).trans (reorganizeHardFork_rebuilt fork)
  obtain ⟨attached, notThrown⟩ := based.attachAll mined.toSoundChain
    (based.reached reached) originals now
  rw [rollbackBlockchainSwitching, if_neg (not_lt.mpr reached), popEq]
  dsimp only
  split
  · rename_i restored threw attachEq
    rw [attachEq] at attached
    exact ⟨_, _, _, rfl, attached.trans (reorganizeHardFork_rebuilt fork)⟩
  · rename_i restored failed rest threw attachEq
    rw [attachEq] at attached notThrown
    subst notThrown
    exact ⟨_, _, _, rfl, attached⟩

section Switch

variable {handleAlternative : Blockchain → Block → ChainResult}
  {front : BlockExtendedInfo} {rest : List BlockExtendedInfo}

theorem CheckedChain.displaced (checked : CheckedChain env traffic points chain) (count : Nat) :
    ∀ block ∈ (chain.db.blocks.drop count).map bl, traffic.block block ∧
        ∃ weight, getTransactionWeight block.minerTx = some weight := by
  intro block mem
  obtain ⟨entry, lt, rfl⟩ := mem_map.mp mem
  have stored := mem_of_mem_drop lt
  obtain ⟨prev, later, split⟩ := append_of_mem stored
  exact ⟨checked.blocks entry stored, (checked.checked prev entry later split).weighed⟩

section

variable (distinct : Set.InjOn env.getBlockHash {block | traffic.block block})
  (checked : CheckedChain env traffic points chain) (branch : StoredBranch env chain front rest)

include distinct checked branch

theorem CheckedChain.popToBlock_root (now : Nat) :
    ∃ remaining, chain.resetDifficultyCache.popToBlock env now front.bl.prevId =
        (some ((chain.db.blocks.drop front.height).map bl), remaining) ∧
      Rebuilt env traffic front.height chain remaining.updateNextCumulativeWeightLimit ∧
      remaining.updateNextCumulativeWeightLimit.db.height = front.height := by
  have root := branch.root_height checked
  have lt := getBlockHeight_lt branch.onMain
  have reached : front.height ≤ chain.db.height := by omega
  obtain ⟨remaining, popEq, poppedTo, blocks⟩ := @popToBlock_eq env now chain checked.weighed
      (checked.mainIds_nodup distinct) _ branch.onMain _ root
  have popRun := @popToBlock_run env now traffic chain front.bl.prevId
  rw [popEq] at popRun
  refine ⟨remaining, popEq, poppedTo.rebuilt popRun blocks, ?_⟩
  change remaining.db.blocks.length = front.height
  rw [blocks, length_take]
  exact min_eq_left reached

theorem CheckedChain.switch_cases (discard : Bool) :
    let ids := ((front :: rest).map BlockExtendedInfo.bl).map env.getBlockHash
    let done := switchToAlternativeBlockchain handleAlternative chain env now
      (front :: rest) discard
    (∃ attached, Rebuilt env traffic front.height chain attached ∧
        done = attached.finishSwitch handleAlternative ids
          ((chain.db.blocks.drop front.height).map bl) front.height
          discard) ∨
      ∃ restored attachedIds failedIds, Rebuilt env traffic front.height chain restored ∧
        ids = attachedIds ++ failedIds ∧ failedIds ≠ [] ∧
        done.1 = (discardBranch failedIds restored).1 := by
  have root := branch.root_height checked
  have lt := getBlockHeight_lt branch.onMain
  have reached : front.height ≤ chain.db.height := by omega
  obtain ⟨remaining, popEq, based, height⟩ := checked.popToBlock_root distinct branch now
  obtain ⟨attachedTo, notThrown⟩ := based.attachAll checked.toSoundChain
    height.ge (branch.permitted checked) now
  obtain ⟨entries, split, -⟩ := attachAll_cases ((front :: rest).map BlockExtendedInfo.bl)
    remaining.updateNextCumulativeWeightLimit
  have attaches : chain.resetDifficultyCache.db.blockExists env
      front.bl.prevId = true := branch.onMain
  unfold switchToAlternativeBlockchain
  dsimp only
  rw [if_neg (by simp [attaches]), popEq]
  dsimp only
  rcases attachEq : attachAll env now ((front :: rest).map BlockExtendedInfo.bl)
      remaining.updateNextCumulativeWeightLimit with ⟨attached, left, threw⟩
  rw [attachEq] at attachedTo notThrown split
  subst notThrown
  cases left with
  | nil =>
    left
    refine ⟨attached, attachedTo, ?_⟩
    rw [height]
  | cons failed others =>
    right
    have checkedAttached := attachedTo.run.checkedChain distinct checked
    obtain ⟨restored, ok, rejected, rollEq, restoredTo⟩ :=
      @MinedChain.rollback_rebuilt env traffic now _ attached
        checkedAttached.toMinedChain (by omega) (attachedTo.reached reached) _
        (checked.displaced _)
    refine ⟨restored, entries.map (fun entry => env.getBlockHash entry.bl),
      (failed :: others).map env.getBlockHash, attachedTo.trans restoredTo, ?_,
      by simp, ?_⟩
    · rw [split, map_append, map_map]
      rfl
    · dsimp only
      rw [height, rollEq]

end

end Switch

def KeepsCheckpointed (points : List (Nat × Hash)) (chain after : Blockchain) : Prop :=
  ∀ height expected, points.lookup height = some expected → height < chain.db.height →
      after.db.blocks.take (height + 1) = chain.db.blocks.take (height + 1)

theorem KeepsCheckpointed.of_blocks (same : after.db.blocks = chain.db.blocks) :
    KeepsCheckpointed points chain after :=
  fun _ _ _ _ => by rw [same]

theorem KeepsCheckpointed.reached (keeps : KeepsCheckpointed points chain after)
    {height : Nat} {expected : Hash} (marked : points.lookup height = some expected)
    (reached : height < chain.db.height) : height < after.db.height := by
  have lengths := congrArg length (keeps height expected marked reached)
  rw [length_take, length_take] at lengths
  rw [BlockchainDB.height] at reached ⊢
  omega

theorem KeepsCheckpointed.trans (first : KeepsCheckpointed points chain middle)
    (second : KeepsCheckpointed points middle after) : KeepsCheckpointed points chain after := by
  intro height expected marked reached
  rw [second height expected marked (first.reached marked reached),
    first height expected marked reached]

theorem Rebuilt.keepsCheckpointed (rebuilt : Rebuilt env traffic fork chain after)
    (above : ∀ height expected, points.lookup height = some expected →
      height < chain.db.height → height < fork) : KeepsCheckpointed points chain after := by
  intro height expected marked reached
  have below := above height expected marked reached
  have cut := congrArg (take (height + 1)) rebuilt.lower
  rwa [take_take, take_take, min_eq_left (by omega)] at cut

/-- Checkpointed blocks are kept, and no alternative block is left at the height
of a checkpoint. -/
structure Settled (points : List (Nat × Hash)) (chain after : Blockchain) : Prop where
  keeps : KeepsCheckpointed points chain after
  unmarked : Unmarked points after

theorem Settled.trans (first : Settled points chain middle) (second : Settled points middle after) :
    Settled points chain after :=
  ⟨first.keeps.trans second.keeps, second.unmarked⟩

theorem removeAltBlocks_settled (ids : List Hash) (unmarked : Unmarked points chain) :
    Settled points chain (removeAltBlocks ids chain).1 := by
  induction ids generalizing chain with
  | nil => exact ⟨.of_blocks rfl, unmarked⟩
  | cons id rest ih =>
    rw [removeAltBlocks]
    split
    · have fewer : Unmarked points { chain with
          db := { chain.db with altBlocks := chain.db.altBlocks.erase id } } := by
        intro other bei found
        rw [AList.lookup_erase_eq_some_iff] at found
        exact unmarked other bei found.2
      exact ⟨(ih fewer).keeps, (ih fewer).unmarked⟩
    · exact ⟨.of_blocks rfl, unmarked⟩

theorem finishSwitch_discarding {handleAlternative : Blockchain → Block → ChainResult}
    {branchIds : List Hash} {popped : List Block} {splitHeight : Nat}
    (nodup : branchIds.Nodup)
    (stored : ∀ id ∈ branchIds, (chain.db.altBlocks.lookup id).isSome = true)
    (others : ∀ id bei, chain.db.altBlocks.lookup id = some bei →
      id ∉ branchIds → points.lookup bei.height = none) :
    Settled points chain (chain.finishSwitch handleAlternative branchIds
      popped splitHeight true).1 := by
  obtain ⟨altBlocks, removed, lookups⟩ := removeAltBlocks_stored nodup stored
  simp [finishSwitch, pushDisconnected, removed]
  refine ⟨.of_blocks rfl, ?_⟩
  intro id bei found
  have kept : altBlocks.lookup id = some bei := found
  rw [lookups] at kept
  split_ifs at kept with mem
  exact others id bei kept mem

theorem discardBranch_settled {ids : List Hash} (nodup : ids.Nodup)
    (stored : ∀ id ∈ ids, (chain.db.altBlocks.lookup id).isSome = true)
    (others : ∀ id bei, chain.db.altBlocks.lookup id = some bei →
      id ∉ ids → points.lookup bei.height = none) :
    Settled points chain (discardBranch ids chain).1 := by
  obtain ⟨blocks, -, lookups⟩ := discardBranch_stored nodup stored
  refine ⟨.of_blocks blocks, ?_⟩
  intro id bei found
  rw [lookups] at found
  split_ifs at found with mem
  exact others id bei found mem

section Handled

variable {handleAlternative : Blockchain → Block → ChainResult}
  {front : BlockExtendedInfo} {rest : List BlockExtendedInfo}
  (distinct : Set.InjOn env.getBlockHash {block | traffic.block block})
  (runs : ∀ chain block, HeldBlocks traffic chain → traffic.block block →
    Run env traffic chain (handleAlternative chain block).chain)
  (settles : ∀ chain block, CheckedChain env traffic points chain →
    Unmarked points chain → traffic.block block →
      Settled points chain (handleAlternative chain block).chain)

include distinct runs settles

theorem storeDisconnected_settled (permitted : ∀ block ∈ blocks, traffic.block block)
    (checked : CheckedChain env traffic points chain) (unmarked : Unmarked points chain) :
    Settled points chain (storeDisconnected handleAlternative blocks chain).1 := by
  induction blocks generalizing chain with
  | nil => exact ⟨.of_blocks rfl, unmarked⟩
  | cons block rest ih =>
    rw [forall_mem_cons] at permitted
    have first := settles chain block checked unmarked permitted.1
    have run := runs chain block checked.heldBlocks permitted.1
    rw [storeDisconnected]
    split
    · exact first
    · exact first.trans (ih permitted.2 (run.checkedChain distinct checked) first.unmarked)

theorem finishSwitch_settled {branchIds : List Hash} {popped : List Block}
    {splitHeight : Nat} (permitted : ∀ block ∈ popped, traffic.block block)
    (checked : CheckedChain env traffic points chain) (unmarked : Unmarked points chain) :
    Settled points chain (chain.finishSwitch handleAlternative branchIds
      popped splitHeight false).1 := by
  have stored := storeDisconnected_settled distinct runs settles permitted checked unmarked
  have removed := stored.trans (removeAltBlocks_settled branchIds stored.unmarked)
  unfold finishSwitch pushDisconnected
  rw [if_neg (by simp)]
  dsimp only
  split
  · exact stored
  · split
    · exact ⟨removed.keeps, removed.unmarked⟩
    · exact removed

theorem CheckedChain.switch_settled {discard : Bool}
    (checked : CheckedChain env traffic points chain) (branch : StoredBranch env chain front rest)
    (above : ∀ height expected, points.lookup height = some expected →
      height < chain.db.height → height < front.height)
    (marked : ∀ id bei, chain.db.altBlocks.lookup id = some bei →
      points.lookup bei.height = none ∨ discard = true ∧
        (((front :: rest).map BlockExtendedInfo.bl).map env.getBlockHash).getLast? = some id) :
    Settled points chain (switchToAlternativeBlockchain handleAlternative chain
      env now (front :: rest) discard).1 := by
  have nodup := branch.ids_nodup checked
  have stored : ∀ id ∈ ((front :: rest).map BlockExtendedInfo.bl).map
      env.getBlockHash, (chain.db.altBlocks.lookup id).isSome = true := by
    intro id mem
    rw [map_map] at mem
    obtain ⟨bei, lt, rfl⟩ := mem_map.mp mem
    exact Option.isSome_iff_exists.mpr ⟨bei, branch.stored bei lt⟩
  rcases CheckedChain.switch_cases distinct checked branch discard
    with ⟨attached, rebuilt, done⟩ | ⟨restored, attachedIds, failedIds, rebuilt, split, ne, done⟩
  · rw [done]
    have keeps := rebuilt.keepsCheckpointed above
    cases discard with
    | true =>
      have finished := @finishSwitch_discarding points attached handleAlternative _
        ((chain.db.blocks.drop front.height).map bl) front.height
        nodup (by rwa [rebuilt.altBlocks]) ?_
      · exact ⟨keeps.trans finished.keeps, finished.unmarked⟩
      · intro id bei found outside
        rw [rebuilt.altBlocks] at found
        refine (marked id bei found).resolve_right ?_
        rintro ⟨-, last⟩
        exact outside (mem_of_getLast? last)
    | false =>
      have unmarked : Unmarked points attached := by
        intro id bei found
        rw [rebuilt.altBlocks] at found
        exact (marked id bei found).resolve_right (by simp)
      have finished := @finishSwitch_settled env traffic points attached
        handleAlternative distinct runs settles
        (((front :: rest).map BlockExtendedInfo.bl).map env.getBlockHash) _
        front.height
        (fun block mem => (checked.displaced front.height block mem).1)
        (rebuilt.run.checkedChain distinct checked) unmarked
      exact ⟨keeps.trans finished.keeps, finished.unmarked⟩
  · rw [done]
    rw [split] at nodup stored marked
    have dropped := @discardBranch_settled points restored failedIds nodup.of_append_right
      (fun id mem => rebuilt.altBlocks ▸ stored id (mem_append_right _ mem)) ?_
    · exact ⟨(rebuilt.keepsCheckpointed above).trans dropped.keeps, dropped.unmarked⟩
    · intro id bei found outside
      rw [rebuilt.altBlocks] at found
      refine (marked id bei found).resolve_right ?_
      rintro ⟨-, last⟩
      rw [getLast?_append_of_ne_nil _ ne] at last
      exact outside (mem_of_getLast? last)

end Handled

end Blockchain

/-! ## Every run -/

open Relation LinkedPaths List Blockchain

def Traffic.ofBlocks (blocks : Set Block) : Traffic :=
  ⟨fun block => block ∈ blocks, fun block => block ∈ blocks, fun _ => True⟩

namespace Blockchain

variable {env : Env} {traffic : Traffic} {points : List (Nat × Hash)}
  {now : Nat} {chain after : Blockchain}

theorem Unmarked.lookup_storeAlternative (unmarked : Unmarked points chain)
    {newId id : Hash} {bei other : BlockExtendedInfo}
    (lookup : (chain.storeAlternative newId bei).db.altBlocks.lookup id = some other) :
    (id = newId ∧ other = bei) ∨ points.lookup other.height = none := by
  rcases AList.lookup_insert_eq_some_iff.mp lookup with
    ⟨same, record⟩ | ⟨-, before⟩
  · exact .inl ⟨same, record.symm⟩
  · exact .inr (unmarked id other before)

theorem CheckedChain.isACheckpoint_eq
    (checked : CheckedChain env traffic points chain) (height : Nat) :
    chain.isACheckpoint height = (points.lookup height).isSome := by
  rw [Blockchain.isACheckpoint, checked.configured]

section Handed

variable (unrestricted : ∀ block, traffic.block block → traffic.alternative block)
  (distinct : Set.InjOn env.getBlockHash {block | traffic.block block})

include unrestricted distinct

section

variable (nesting : Nat) (checked : CheckedChain env traffic points chain)
  (unmarked : Unmarked points chain) {block : Block} (permitted : traffic.block block)

include nesting checked unmarked permitted

theorem handleAlternativeBlock_settled (bvc : BlockVerificationContext) :
    Settled points chain (handleAlternativeBlock nesting chain env now block bvc).chain := by
  induction nesting generalizing chain block bvc with
  | zero => exact ⟨.of_blocks rfl, unmarked⟩
  | succ nesting ih =>
    have reset := (resetDifficultyCache_run chain).checkedChain distinct checked
    have resetUnmarked : Unmarked points chain.resetDifficultyCache := unmarked
    rw [handleAlternativeBlock]
    dsimp only
    split
    case h_7 altChain bei verdict =>
      have stored : CheckedChain env traffic points (chain.resetDifficultyCache.storeAlternative
            (env.getBlockHash block) bei) :=
        (ChainStep.storeAlternative _ block altChain bei
          ⟨permitted, unrestricted block permitted⟩ verdict).checkedChain distinct reset
      obtain ⟨front, rest, split, branch⟩ := reset.storedBranch verdict
      split
      · have switched := @CheckedChain.switch_settled env traffic points now _
          (fun current displaced => handleAlternativeBlock nesting current env
            now displaced .init) front rest distinct
          (fun current displaced held recv =>
            handleAlternativeBlock_run unrestricted nesting held recv .init)
          (fun current displaced currentChecked currentUnmarked recv =>
            ih currentChecked currentUnmarked recv .init)
          (chain.resetDifficultyCache.isACheckpoint _) stored branch
          (fun height expected marked reached => reset.lt_front distinct
            resetUnmarked permitted verdict split branch stored marked reached)
          (by
            intro id other lookup
            rcases resetUnmarked.lookup_storeAlternative lookup with
              ⟨rfl, rfl⟩ | none_
            · rcases marked : points.lookup other.height with _ | expected
              · exact .inl rfl
              · right
                rw [reset.isACheckpoint_eq, marked, ← split, map_append,
                  map_append, map_cons, map_nil, map_cons,
                  map_nil, List.getLast?_concat,
                  (checkAlternativeBlock_accepted verdict).bl]
                exact ⟨rfl, rfl⟩
            · exact .inl none_)
        rw [← split] at switched
        split
        all_goals exact ⟨switched.keeps, switched.unmarked⟩
      · rename_i staying
        refine ⟨.of_blocks rfl, ?_⟩
        intro id other lookup
        rcases resetUnmarked.lookup_storeAlternative lookup with
          ⟨rfl, rfl⟩ | none_
        · rw [not_or, reset.isACheckpoint_eq] at staying
          exact Option.not_isSome_iff_eq_none.mp staying.1
        · exact none_
    all_goals exact ⟨.of_blocks rfl, unmarked⟩

theorem addNewBlock_settled {bvc : BlockVerificationContext}
    (fresh : bvc.verifivationFailed = false) :
    Settled points chain (addNewBlock nesting chain env now block bvc).chain := by
  unfold addNewBlock
  dsimp only
  split
  · exact ⟨.of_blocks rfl, unmarked⟩
  · split
    · have handled := @handleAlternativeBlock_settled env traffic points now
        chain unrestricted distinct nesting checked unmarked block permitted
        { bvc with addedToMainChain := false }
      split
      · exact handled
      · exact ⟨handled.keeps, handled.unmarked⟩
    · have handled : Settled points chain
          (chain.handleBlockToMainChain env now block bvc).chain := by
        rcases handleBlockToMainChain_cases chain now block bvc fresh with
          ⟨entries, entry, accepted, -⟩ | ⟨refused, -⟩
        · refine ⟨?_, ?_⟩
          · intro height expected _ reached
            rw [accepted.blocks, take_append_of_le_length reached]
          · intro id bei found
            rw [accepted.db] at found
            exact unmarked id bei found
        · refine ⟨.of_blocks (by rw [refused.ledger.db]), ?_⟩
          intro id bei found
          rw [refused.ledger.db] at found
          exact unmarked id bei found
      split
      all_goals exact handled

end

end Handed

/-- A call of `add_new_block`, or a step that leaves the stored blocks alone. -/
inductive HandedStep (env : Env) (blocks : Set Block) : Blockchain → Blockchain → Prop
  | addNewBlock (chain : Blockchain) (nesting now : Nat) (block : Block)
      (bvc : BlockVerificationContext) (fresh : bvc.verifivationFailed = false)
      (handed : block ∈ blocks) :
      HandedStep env blocks chain (addNewBlock nesting chain env now block bvc).chain
  | between (chain after : Blockchain) (step : ChainStep env (.ofBlocks blocks) chain after)
      (ledger : after.SameLedger chain) : HandedStep env blocks chain after

def HandedRun (env : Env) (blocks : Set Block) : Blockchain → Blockchain → Prop :=
  ReflTransGen (HandedStep env blocks)

section Runs

variable {blocks : Set Block} (distinct : Set.InjOn env.getBlockHash blocks)

include distinct

theorem HandedStep.settled (step : HandedStep env blocks chain after)
    (checked : CheckedChain env (.ofBlocks blocks) points chain)
    (unmarked : Unmarked points chain) :
    CheckedChain env (.ofBlocks blocks) points after ∧ Settled points chain after := by
  cases step with
  | addNewBlock nesting now block bvc fresh handed =>
    have unrestricted : ∀ block, (Traffic.ofBlocks blocks).block block →
        (Traffic.ofBlocks blocks).alternative block := fun _ mem => mem
    exact ⟨(addNewBlock_run unrestricted nesting checked.heldBlocks handed
        fresh).checkedChain distinct checked,
      addNewBlock_settled unrestricted distinct nesting checked unmarked handed fresh⟩
  | between _ step ledger =>
    refine ⟨step.checkedChain distinct checked, .of_blocks (by rw [ledger.db]), ?_⟩
    intro id bei found
    rw [ledger.db] at found
    exact unmarked id bei found

theorem HandedRun.settled (run : HandedRun env blocks chain after)
    (checked : CheckedChain env (.ofBlocks blocks) points chain)
    (unmarked : Unmarked points chain) :
    CheckedChain env (.ofBlocks blocks) points after ∧ Settled points chain after := by
  induction run with
  | refl => exact ⟨checked, .of_blocks rfl, unmarked⟩
  | tail _ last ih =>
    obtain ⟨checkedBefore, settledBefore⟩ := ih
    obtain ⟨checkedAfter, settledAfter⟩ :=
      last.settled distinct checkedBefore settledBefore.unmarked
    exact ⟨checkedAfter, settledBefore.trans settledAfter⟩

/-- In every run from an empty node, stored blocks match the checkpoints, and the blocks up to one
that is reached stay. -/
theorem HandedRun.checkpoints_hold {start : Blockchain} (started : IsInitial start)
    (run : HandedRun env blocks start chain) {height : Nat} {expected : Hash}
    (checkpoint : start.checkpoints.lookup height = some expected) :
    (∀ entry, chain.db.blocks[height]? = some entry → env.getBlockHash entry.bl = expected) ∧
      (∀ id bei, chain.db.altBlocks.lookup id = some bei →
        bei.height = height → env.getBlockHash bei.bl = expected) ∧
      (height < chain.db.height → ∀ later, HandedRun env blocks chain later →
          later.db.blocks.take (height + 1) = chain.db.blocks.take (height + 1)) := by
  have matched : ∀ id, checkBlock start.checkpoints height id = true → id = expected := by
    intro id compared
    rw [checkBlock, checkpoint] at compared
    exact (beq_iff_eq.mp compared).symm
  have empty : Unmarked start.checkpoints start := by
    intro id bei found
    rw [started.altBlocks] at found
    simp at found
  obtain ⟨checked, settled⟩ := run.settled distinct started.checkedChain empty
  refine ⟨?_, ?_, ?_⟩
  · intro entry found
    obtain ⟨inside, -⟩ := List.getElem?_eq_some_iff.mp found
    have compared := (checked.checked.of_getElem? found).checkpointed
    rw [List.length_take, min_eq_left (by omega)] at compared
    exact matched _ compared
  · rintro id bei found rfl
    have record := checked.alternatives id bei found
    rw [record.named]
    exact matched _ record.checkpointed
  · intro reached later onward
    obtain ⟨-, kept⟩ := onward.settled distinct checked settled.unmarked
    exact kept.keeps height expected checkpoint reached

end Runs

def pinnedNode : Blockchain :=
  { Blockchain.empty with
    checkpoints := [(2, checkedEnv.getBlockHash rivalChild)] }

def pinnedHanded (received : List Block) : Blockchain :=
  received.foldr (fun block chain =>
    (addNewBlock 2 chain checkedEnv 240 block .init).chain) pinnedNode

theorem pinnedHanded_run {recv : List Block} (handed : ∀ block ∈ recv, block ∈ forkedTree.blocks) :
    HandedRun checkedEnv forkedTree.blocks pinnedNode (pinnedHanded recv) := by
  induction recv with
  | nil => exact .refl
  | cons block earlier ih =>
    rw [forall_mem_cons] at handed
    exact (ih handed.2).tail (.addNewBlock _ 2 240 block .init rfl handed.1)

def pinnedBlocks : List Block :=
  [claimingBlock 1 1 10000000000 [], rivalChild, rivalBlock 10000000000 [], claimingBlock 0 0 0 []]

theorem pinnedNode_checkpoint_holds : 2 < (pinnedHanded pinnedBlocks).db.height ∧
      (∀ entry, (pinnedHanded pinnedBlocks).db.blocks[2]? = some entry →
        checkedEnv.getBlockHash entry.bl = checkedEnv.getBlockHash rivalChild) ∧
      ∀ later, HandedRun checkedEnv forkedTree.blocks (pinnedHanded pinnedBlocks) later →
        later.db.blocks.take 3 = (pinnedHanded pinnedBlocks).db.blocks.take 3 := by
  have reached : 2 < (pinnedHanded pinnedBlocks).db.height := by decide
  have handed : ∀ block ∈ pinnedBlocks, block ∈ forkedBlocks := by decide
  have holds := HandedRun.checkpoints_hold forkedTree.distinct
    (show IsInitial pinnedNode from ⟨rfl, rfl, rfl⟩) (pinnedHanded_run handed)
    (show pinnedNode.checkpoints.lookup 2 = some _ from rfl)
  exact ⟨reached, holds.1, holds.2.2 reached⟩

end Blockchain

end LodeChain

import LodeChain.LmdbRuns
import LodeChain.SoundChain

/-!
# The counts stored with the blocks of a node

What a node accepts is added to its database, and what it pops is popped there. So the tables, and
the count of outputs stored with each block, are those of its chain.
-/

namespace LodeChain

open OrderedTable List OutputTables

def zeroAmounts (senv : StorageEnv) (chain : List BlockEntry) : Nat :=
  (chainOutputs senv chain).countP fun output => output.amount == 0

theorem countP_outputsFrom (height : Nat) (txHash : Hash) (unlockTime : Nat)
    (localIndex : Nat) (outputs : List (TxOut × Option RctKey)) :
    (outputsFrom height txHash unlockTime localIndex outputs).countP
        (fun output => output.amount == 0) = (filedAmounts outputs).count 0 := by
  induction outputs generalizing localIndex with
  | nil => rfl
  | cons output rest ih =>
    have head : filedAmounts (output :: rest) =
        output.1.amount.toNat :: filedAmounts rest := rfl
    rw [outputsFrom, countP_cons, ih, head, count_cons]

theorem countP_blockOutputs (senv : StorageEnv) (height : Nat) (entry : BlockEntry) :
    (blockOutputs senv height entry).countP (fun output => output.amount == 0) =
      ((Lmdb.storedTransactions senv entry).map fun stored =>
        (filedAmounts (stored.1.filedOutputs senv)).count 0).sum := by
  rw [blockOutputs, countP_flatMap]
  apply congrArg List.sum
  apply map_congr_left
  intro stored _
  exact countP_outputsFrom _ _ _ _ _

theorem zeroAmounts_concat (senv : StorageEnv) (chain : List BlockEntry) (entry : BlockEntry) :
    zeroAmounts senv (chain ++ [entry]) = zeroAmounts senv chain +
        (blockOutputs senv chain.length entry).countP (fun output => output.amount == 0) := by
  rw [zeroAmounts, chainOutputs_concat, countP_append, zeroAmounts]

variable {height unlockTime localIndex : Nat} {txHash : Hash}
  {outputs : List (TxOut × Option RctKey)} {indices : List Nat} {output : ChainOutput}

namespace OutputTables

theorem addOutputs_committed {tables after : OutputTables}
    (added : addOutputs height txHash unlockTime tables localIndex outputs =
      some (indices, after)) : ∀ output ∈ outputs, output.1.amount = 0 → output.2.isSome := by
  induction outputs generalizing tables localIndex indices with
  | nil => simp
  | cons output rest ih =>
    obtain ⟨amountIndex, filed, others, head, tail, rfl⟩ := addOutputs_cons added
    obtain ⟨pubkey, first⟩ := addOutput_filed head
    rw [forall_mem_cons]
    exact ⟨first.committed, ih tail⟩

end OutputTables

namespace Lmdb

variable {senv : StorageEnv} {tx : Transaction} {db after stored : Lmdb} {entry : BlockEntry}
  {cumRct : Nat} {chain : List BlockEntry}

theorem mem_filedOutputs {output : TxOut × Option RctKey} (mem : output ∈ tx.filedOutputs senv)
    (version : ¬1 < tx.version) : output.2 = none := by
  obtain ⟨index, lt, rfl⟩ := mem_mapIdx.mp mem
  rw [if_neg, if_neg version]
  rintro ⟨_, two⟩
  omega

theorem AddedTx.count_miner
    (added : AddedTx senv db tx txHash indices after) (miner : tx.isMinerTx = true) :
    (filedAmounts (tx.filedOutputs senv)).count 0 =
      if tx.version = 2 then tx.vout.length else 0 := by
  split_ifs with two
  · rw [Transaction.filedAmounts_filedOutputs]
    simp [miner, two]
  · have one : ¬1 < tx.version := by
      have version := added.txs.version
      omega
    rw [count_eq_zero, filedAmounts, mem_map]
    rintro ⟨output, mem, zero⟩
    have committed := addOutputs_committed added.outputs output mem (UInt64.toNat_inj.mp zero)
    rw [mem_filedOutputs mem one] at committed
    cases committed

theorem count_filedAmounts_of_not_miner (senv : StorageEnv) (other : tx.isMinerTx = false) :
    (filedAmounts (tx.filedOutputs senv)).count 0 =
      tx.vout.countP fun out => out.amount == 0 := by
  rw [Transaction.filedAmounts_filedOutputs, List.count, countP_map]
  apply countP_congr
  intro out _
  simp [other]
  exact @UInt64.toNat_inj _ 0

structure InputsChecked (entry : BlockEntry) : Prop where
  miner : entry.bl.minerTx.isMinerTx = true
  single : entry.bl.minerTx.vin.length = 1
  others : ∀ tx ∈ entry.txs, tx.isMinerTx = false

theorem InputsChecked.removedAsFiled (checked : InputsChecked entry) : RemovedAsFiled entry := by
  rw [RemovedAsFiled, forall_mem_cons]
  constructor
  · intro _ _
    exact Or.inl checked.single
  · intro tx mem _ miner
    rw [checked.others tx mem] at miner
    cases miner

theorem AddedBlock.numRctOuts (added : AddedBlock senv db entry stored cumRct after)
    (checked : InputsChecked entry) (height : Nat) : (blockOutputs senv height entry).countP
      (fun output => output.amount == 0) = numRctOuts entry := by
  have txsAdded := added.txs
  rw [storedTransactions] at txsAdded
  obtain ⟨middle, minerAdded, _⟩ := Option.bind_eq_some_iff.mp txsAdded
  obtain ⟨indices, miner⟩ := addTransaction_added minerAdded
  have others : (entry.txs.zip entry.bl.txHashes).map (fun stored =>
      (filedAmounts (stored.1.filedOutputs senv)).count 0) =
      entry.txs.map fun tx => tx.vout.countP fun out => out.amount == 0 := by
    nth_rewrite 2 [← added.zip_fst]
    rw [map_map]
    apply map_congr_left
    rintro ⟨tx, txHash⟩ mem
    exact count_filedAmounts_of_not_miner senv (checked.others tx (of_mem_zip mem).1)
  rw [countP_blockOutputs, storedTransactions, map_cons,
    others, miner.count_miner checked.miner]
  rfl

/-- Blocks have version 1 below height 2, and the genesis block has no outputs. -/
structure AcceptedAt (height : Nat) (entry : BlockEntry) : Prop extends InputsChecked entry where
  version : entry.bl.majorVersion = if height < 2 then 1 else 16
  genesis : height = 0 → entry.bl.minerTx.vout = [] ∧ entry.txs = []

theorem zeroAmounts_eq_zero
    (accepted : ∀ height entry, chain[height]? = some entry → AcceptedAt height entry)
    (early : chain.length < 2) : zeroAmounts senv chain = 0 := by
  match chain with
  | [] => rfl
  | [genesis] =>
    obtain ⟨noOutputs, noTxs⟩ := (accepted 0 genesis rfl).genesis rfl
    rw [zeroAmounts, ← nil_append [genesis], chainOutputs_concat,
      countP_append, countP_blockOutputs, storedTransactions, noTxs]
    simp [chainOutputs, filedAmounts, Transaction.filedOutputs, noOutputs]
  | _ :: _ :: _ =>
    simp only [length_cons] at early
    omega

theorem find?_info_addBlock (added : AddedBlock senv db entry stored cumRct after)
    (sameBlocks : stored.blocks = db.blocks) (height : Nat) :
    (after.blocks.info.find? height).map BlockInfo.cumRct =
      if height = db.blocks.height then some cumRct
      else (db.blocks.info.find? height).map BlockInfo.cumRct := by
  have inserted := append_insertNew added.block.info
  rw [sameBlocks] at inserted
  rw [find?_insertNew inserted]
  by_cases top : height = db.blocks.height
  · rw [if_pos top, if_pos top]
    rfl
  · rw [if_neg top, if_neg top]

theorem AddedBlock.cumRct_eq (added : AddedBlock senv db entry stored cumRct after)
    (sameBlocks : stored.blocks = db.blocks) (height : db.blocks.height = chain.length)
    (acceptedAt : AcceptedAt chain.length entry)
    (early : chain.length < 2 → zeroAmounts senv chain = 0)
    (counted : ∀ height < chain.length, (db.blocks.info.find? height).map BlockInfo.cumRct =
        some (zeroAmounts senv (chain.take (height + 1)))) :
    cumRct = zeroAmounts senv (chain ++ [entry]) := by
  have stored := added.block.counted
  rw [sameBlocks, BlockTables.cumRct, acceptedAt.version] at stored
  rw [zeroAmounts_concat, added.numRctOuts acceptedAt.toInputsChecked]
  by_cases first : chain.length < 2
  · rw [if_pos first] at stored
    rw [early first, ← Option.some.inj stored, zero_add]
  · rw [if_neg first, if_neg (by decide), if_neg (by omega), height] at stored
    obtain ⟨previous, found, total⟩ := Option.map_eq_some_iff.mp stored
    have before := counted (chain.length - 1) (by omega)
    rw [found, Option.map_some, Option.some.injEq,
      Nat.sub_add_cancel (by omega), take_length] at before
    rw [← total, before, add_comm]

theorem cumRct_of_replay {seed : Nat}
    (accepted : ∀ height entry, chain[height]? = some entry → AcceptedAt height entry)
    (replayed : replay senv seed chain = some db) :
    ∀ height < chain.length, (db.blocks.info.find? height).map BlockInfo.cumRct =
        some (zeroAmounts senv (chain.take (height + 1))) := by
  induction chain using List.reverseRecOn generalizing db with
  | nil => simp
  | append_singleton chain entry ih =>
    obtain ⟨before, prev, added⟩ := replay_concat.mp replayed
    obtain ⟨stored, cumRct, addedBlock⟩ := addBlock_added added
    have records := records_of_replay prev
    obtain ⟨sameBlocks, _, _⟩ := addTransactions_records addedBlock.txs
      records.outputs records.spentKeys
    have tops : before.blocks.height = chain.length := records.height
    have acceptedBefore : ∀ height entry, chain[height]? = some entry →
        AcceptedAt height entry := by
      intro height other found
      apply accepted
      rw [List.getElem?_append_left (List.getElem?_eq_some_iff.mp found).choose, found]
    have counted := ih acceptedBefore prev
    have acceptedAt : AcceptedAt chain.length entry := by
      apply accepted
      simp
    intro height below
    rw [find?_info_addBlock addedBlock sameBlocks, tops]
    split_ifs with top
    · rw [addedBlock.cumRct_eq sameBlocks tops acceptedAt
        (zeroAmounts_eq_zero acceptedBefore) counted, top,
        take_of_length_le]
      rw [length_append, length_singleton]
    · rw [length_append, length_singleton] at below
      rw [counted height (by omega), take_append_of_le_length (by omega)]

theorem height_of_mem_outputsFrom
    (mem : output ∈ outputsFrom height txHash unlockTime localIndex outputs) :
    output.height = height := by
  induction outputs generalizing localIndex with
  | nil => cases mem
  | cons first rest ih =>
    rcases mem_cons.mp mem with rfl | later
    · rfl
    · exact ih later

theorem height_of_mem_blockOutputs
    (mem : output ∈ blockOutputs senv height entry) : output.height = height := by
  obtain ⟨stored, _, lt⟩ := mem_flatMap.mp mem
  exact height_of_mem_outputsFrom lt

theorem countP_chainOutputs_le (senv : StorageEnv) (chain : List BlockEntry) (height : Nat) :
    (chainOutputs senv chain).countP
        (fun output => output.amount == 0 && decide (output.height ≤ height)) =
      zeroAmounts senv (chain.take (height + 1)) := by
  induction chain using List.reverseRecOn with
  | nil => rfl
  | append_singleton chain entry ih =>
    rw [chainOutputs_concat, countP_append, ih]
    by_cases lt : chain.length ≤ height
    · have all : (blockOutputs senv chain.length entry).countP (fun output =>
          output.amount == 0 && decide (output.height ≤ height)) =
          (blockOutputs senv chain.length entry).countP (fun output => output.amount == 0) := by
        apply countP_congr
        intro output mem
        simp [height_of_mem_blockOutputs mem, lt]
      rw [all, take_of_length_le (by omega), ← zeroAmounts_concat, take_of_length_le]
      rw [length_append, length_singleton]
      omega
    · have none : (blockOutputs senv chain.length entry).countP (fun output =>
          output.amount == 0 && decide (output.height ≤ height)) = 0 := by
        rw [countP_eq_zero]
        intro output mem
        simp [height_of_mem_blockOutputs mem, lt]
      rw [none, add_zero, take_append_of_le_length (by omega)]

theorem Records.countP_rowsOf (records : Records senv db chain) (height : Nat) :
    (db.outputs.rowsOf 0).countP (fun row => decide (row.2.height ≤ height)) =
      zeroAmounts senv (chain.take (height + 1)) := by
  have rows : (db.outputs.rowsOf 0).countP (fun row => decide (row.2.height ≤ height)) =
      ((db.outputs.rowsOf 0).map fun row => row.2.height).countP
        (fun stored => decide (stored ≤ height)) := by
    rw [countP_map]
    rfl
  have outputs : ((outputsOf (chainOutputs senv chain) 0).map
      fun output => output.1.height).countP (fun stored => decide (stored ≤ height)) =
      (chainOutputs senv chain).countP
        (fun output => output.amount == 0 && decide (output.height ≤ height)) := by
    rw [outputsOf, countP_map, countP_filter]
    nth_rewrite 2 [← zipIdx_map_fst 0 (chainOutputs senv chain)]
    rw [countP_map]
    apply countP_congr
    intro output _
    simp [and_comm]
  rw [rows, records.outputs.map_height_rowsOf, outputs, countP_chainOutputs_le]

end Lmdb

/-! ## The counts stored with the blocks of a node -/

open Relation HardFork Transaction

/-- The transaction in `GENESIS_TX`. -/
def genesisTx : Transaction :=
  { setNull with
    unlockTime := 60
    vin := [.gen 0]
    extra := [0x01, 0x77, 0x67, 0xaa, 0xfc, 0xde, 0x9b, 0xe0, 0x0d, 0xcf, 0xd0,
        0x98, 0x71, 0x5e, 0xbc, 0xf7, 0xf4, 0x10, 0xda, 0xeb, 0xc5, 0x82,
        0xfd, 0xa6, 0x9d, 0x24, 0xa2, 0x8e, 0x9d, 0x0b, 0xc8, 0x90, 0xd1] }

def generateGenesisBlock (nonce : Nat) : Block where
  majorVersion := 1
  minorVersion := 0
  timestamp := 0
  prevId := nullHash
  nonce := nonce
  minerTx := genesisTx
  txHashes := []

def Traffic.supported (traffic : Traffic) : Traffic :=
  { traffic with
    transaction := fun tx => traffic.transaction tx ∧ checkInputsTypesSupported tx = true }

namespace Blockchain

variable {env : Env} {traffic : Traffic} {chain : Blockchain}

theorem ChainStep.supported {after : Blockchain} (step : ChainStep env traffic chain after) :
    ChainStep env traffic.supported chain after := by
  cases step with
  | mainBlock now block bvc fresh permitted => exact .mainBlock chain now block bvc fresh permitted
  | pop now => exact .pop chain now
  | incomingTx now tx weight txRelay relayed unknown weighed permitted =>
    by_cases supported : checkInputsTypesSupported tx = true
    · exact .incomingTx chain now tx weight txRelay relayed unknown weighed ⟨permitted, supported⟩
    · rw [TxMemoryPool.addTx, if_pos (Or.inr supported)]
      exact .tidyPool chain _ (.of_txpool_eq rfl)
  | tidyPool pool within => exact .tidyPool chain pool within
  | storeAlternative block altChain bei permitted accepted =>
    exact .storeAlternative chain block altChain bei permitted accepted
  | removeAlternative id => exact .removeAlternative chain id
  | reorganizeHardFork height => exact .reorganizeHardFork chain height
  | cache _ ledger pool => exact .cache chain after ledger pool

theorem Run.supported {start : Blockchain} (run : Run env traffic start chain) :
    Run env traffic.supported start chain :=
  ReflTransGen.mono (fun _ _ step => ChainStep.supported step) _ _ run

theorem Run.forall_blocks {property : BlockEntry → Prop}
    {start : Blockchain} (run : Run env traffic start chain)
    (accepts : ∀ {now chain block entries entry after},
      AcceptedBlock env now chain block entries entry after → property entry)
    (started : ∀ entry ∈ start.db.blocks, property entry) :
    ∀ entry ∈ chain.db.blocks, property entry := by
  apply run.preserves _ started
  intro before after step holds
  rcases step.blocks_cases with
    ⟨now, block, entries, entry, permitted, accepted⟩ | ⟨top, popped⟩ | same
  · rw [accepted.blocks]
    intro other mem
    rcases mem_append.mp mem with prev | last
    · exact holds other prev
    · rw [mem_singleton.mp last]
      exact accepts accepted
  · rw [popped.blocks] at holds
    exact fun other mem => holds other (mem_append_left _ mem)
  · rw [same]
    exact holds

theorem AcceptedBlock.miner_vin {now : Nat} {after : Blockchain}
    {block : Block} {entries : List PoolEntry} {entry : BlockEntry}
    (accepted : AcceptedBlock env now chain block entries entry after) :
    ∃ height, entry.bl.minerTx.vin = [.gen height] := by
  have prevalidated := accepted.prevalidated
  rw [accepted.bl]
  unfold prevalidateMinerTransaction at prevalidated
  split at prevalidated
  · exact ⟨_, by assumption⟩
  · cases prevalidated

structure Initialized (env : Env) (empty start : Blockchain) : Prop extends IsInitial empty where
  table : empty.hardfork.heights = mainnetHardForks
  originalVersion : empty.hardfork.originalVersion = 1
  currentForkIndex : empty.hardfork.currentForkIndex = 0
  genesis : ∃ now nonce, start = (empty.handleBlockToMainChain env now
    (generateGenesisBlock nonce) .init).chain
  stored : start.db.blocks ≠ []

section

variable {empty start : Blockchain}

theorem Initialized.startsByHeight (initialized : Initialized env empty start) :
    StartsByHeight empty where
  toIsInitial := initialized.toIsInitial
  byHeight := mainnetHardForks_byHeight initialized.table initialized.originalVersion
  inForce := by
    rw [HardFork.InForce, initialized.currentForkIndex, initialized.table]
    rfl

theorem Initialized.run (initialized : Initialized env empty start) : Run env .any empty start := by
  obtain ⟨now, nonce, same⟩ := initialized.genesis
  rw [same]
  exact .single (.mainBlock empty now _ .init rfl trivial)

theorem Initialized.genesis_blocks (initialized : Initialized env empty start) :
    ∃ entry, start.db.blocks = [entry] ∧ entry.bl.minerTx = genesisTx ∧ entry.txs = [] := by
  obtain ⟨now, nonce, same⟩ := initialized.genesis
  rcases handleBlockToMainChain_cases empty now (generateGenesisBlock nonce) .init rfl with
    ⟨entries, entry, accepted, -⟩ | ⟨refused, -⟩
  · rw [← same] at accepted
    have none : entries = [] := by
      have found := accepted.found
      cases found
      rfl
    refine ⟨entry, ?_, ?_, ?_⟩
    · rw [accepted.blocks, initialized.toIsInitial.blocks, nil_append]
    · rw [accepted.bl]
      rfl
    · rw [accepted.txs, none]
      rfl
  · refine absurd ?_ initialized.stored
    rw [same, refused.ledger.db, initialized.toIsInitial.blocks]

theorem Run.head_blocks {chain : Blockchain} {genesis : BlockEntry}
    (run : Run env traffic start chain) (started : start.db.blocks.head? = some genesis) :
    chain.db.blocks.head? = some genesis := by
  apply run.preserves _ started
  intro before after step holds
  rcases step.blocks_cases with
    ⟨now, block, entries, entry, permitted, accepted⟩ | ⟨top, popped⟩ | same
  · rw [accepted.blocks, head?_append, holds]
    rfl
  · obtain ⟨first, rest, remaining⟩ := exists_cons_of_ne_nil popped.nonempty
    rw [popped.blocks, remaining] at holds
    rw [remaining]
    exact holds
  · rw [same]
    exact holds

theorem versionAt_mainnet {fork : HardFork}
    (table : fork.heights = mainnetHardForks) (height : Nat) :
    fork.versionAt height = if height < 2 then 1 else 16 := by
  have reached : reachedForkIndex mainnetHardForks height =
      if 2 ≤ height then 1 else 0 := rfl
  rw [versionAt, entry, table, reached]
  split_ifs
  · omega
  · rfl
  · rfl
  · omega

theorem Initialized.acceptedAt (initialized : Initialized env empty start)
    {chain : Blockchain} (run : Run env .any start chain) :
    ∀ height entry, chain.db.blocks[height]? = some entry → Lmdb.AcceptedAt height entry := by
  intro height entry found
  have whole : Run env .any empty chain := initialized.run.trans run
  have synced := whole.syncedChain initialized.startsByHeight
  have sound := Reachable.soundChain ⟨empty, initialized.toIsInitial, whole.supported⟩
  have mem := mem_of_getElem? found
  have none : ∀ entry ∈ empty.db.blocks, ∃ height, entry.bl.minerTx.vin = [TxIn.gen height] := by
    rw [initialized.toIsInitial.blocks]
    simp
  obtain ⟨genHeight, inputs⟩ := whole.forall_blocks
    (fun accepted => accepted.miner_vin) none entry mem
  refine ⟨⟨?_, ?_, ?_⟩, ?_, ?_⟩
  · rw [isMinerTx, inputs]
    rfl
  · rw [inputs]
    rfl
  · intro tx lt
    have supported := (sound.txs entry mem tx lt).2
    rw [checkInputsTypesSupported, all_eq_true] at supported
    rw [isMinerTx, any_eq_false]
    intro input inputMember
    have toKey := supported input inputMember
    cases input with
    | toKey amount keyOffsets keyImage => simp [TxIn.isGen]
    | gen | toScript | toScriptHash => cases toKey
  · have fits := synced.hardfork.fits height _ (by
      rw [getElem?_map, found]
      rfl)
    rw [synced.table.fitsHeight, fitsHeight, checkAt,
      Bool.and_eq_true, beq_iff_eq] at fits
    rw [fits.1]
    exact versionAt_mainnet initialized.table height
  · intro first
    obtain ⟨genesis, blocks, minerTx, txs⟩ := initialized.genesis_blocks
    have started : start.db.blocks.head? = some genesis := by
      rw [blocks]
      rfl
    have head := run.head_blocks started
    rw [first, ← head?_eq_getElem?, head] at found
    rw [← Option.some.inj found, minerTx]
    exact ⟨rfl, txs⟩

end

/-- The node stores a block only if its database did, and a call that throws changes neither. -/
inductive StorageStep (env : Env) (senv : StorageEnv) : Blockchain × Lmdb → Blockchain × Lmdb → Prop
  | stored (chain after : Blockchain) (entry : BlockEntry) (db stored : Lmdb)
      (step : ChainStep env .any chain after)
      (blocks : after.db.blocks = chain.db.blocks ++ [entry])
      (added : db.addBlock senv entry = some stored) :
      StorageStep env senv (chain, db) (after, stored)
  | popped (chain after : Blockchain) (top : BlockEntry) (db : Lmdb)
      (block : Block) (txs : List Transaction) (remaining : Lmdb)
      (step : ChainStep env .any chain after)
      (blocks : chain.db.blocks = after.db.blocks ++ [top])
      (popped : db.popBlock senv = some (block, txs, remaining)) :
      StorageStep env senv (chain, db) (after, remaining)
  | kept (chain after : Blockchain) (db : Lmdb) (step : ChainStep env .any chain after)
      (blocks : after.db.blocks = chain.db.blocks) :
      StorageStep env senv (chain, db) (after, db)

def StorageRun (env : Env) (senv : StorageEnv) : Blockchain × Lmdb → Blockchain × Lmdb → Prop :=
  ReflTransGen (StorageStep env senv)

section

variable {senv : StorageEnv} {empty start : Blockchain} {pruningSeed : Nat}

theorem StorageRun.replay_eq (initialized : Initialized env empty start) {first : Lmdb}
    (begun : Lmdb.replay senv pruningSeed start.db.blocks = some first) {state : Blockchain × Lmdb}
    (run : StorageRun env senv (start, first) state) :
    Run env .any start state.1 ∧ Lmdb.replay senv pruningSeed state.1.db.blocks = some state.2 := by
  induction run with
  | refl => exact ⟨.refl, begun⟩
  | tail earlier last ih =>
    obtain ⟨before, replayed⟩ := ih
    cases last with
    | stored chain after entry db stored step blocks added =>
      refine ⟨before.tail step, ?_⟩
      rw [blocks]
      exact Lmdb.replay_concat.mpr ⟨db, replayed, added⟩
    | popped chain after top db block txs remaining step blocks popped =>
      refine ⟨before.tail step, ?_⟩
      rw [blocks] at replayed
      obtain ⟨below, belowReplayed, added⟩ := Lmdb.replay_concat.mp replayed
      have accepted := initialized.acceptedAt before after.db.blocks.length
        top (by rw [blocks]; simp)
      rw [Lmdb.popBlock_of_removedAsFiled added accepted.toInputsChecked.removedAsFiled popped]
      exact belowReplayed
    | kept chain after db step blocks =>
      refine ⟨before.tail step, ?_⟩
      rw [blocks]
      exact replayed

/-- The count stored with a block is always the number of outputs up to it under amount 0. -/
theorem StorageRun.cumRct_eq_countP (initialized : Initialized env empty start) {first : Lmdb}
    (begun : Lmdb.replay senv pruningSeed start.db.blocks = some first)
    {chain : Blockchain} {db : Lmdb} (run : StorageRun env senv (start, first) (chain, db)) :
    ∀ height < chain.db.height, (db.blocks.info.find? height).map BlockInfo.cumRct =
        some ((db.outputs.rowsOf 0).countP fun row => decide (row.2.height ≤ height)) := by
  intro height below
  obtain ⟨nodeRun, replayed⟩ := run.replay_eq initialized begun
  rw [(Lmdb.records_of_replay replayed).countP_rowsOf]
  exact Lmdb.cumRct_of_replay (initialized.acceptedAt nodeRun) replayed height below

/-- The tables of a node are those of its chain, whatever it has added and popped before. -/
theorem StorageRun.tables_unique (initialized : Initialized env empty start) {first : Lmdb}
    (begun : Lmdb.replay senv pruningSeed start.db.blocks = some first)
    {chain after : Blockchain} {db other : Lmdb}
    (run : StorageRun env senv (start, first) (chain, db))
    (otherRun : StorageRun env senv (start, first) (after, other))
    (blocks : chain.db.blocks = after.db.blocks) : db = other := by
  have replayed := (run.replay_eq initialized begun).2
  have again := (otherRun.replay_eq initialized begun).2
  rw [blocks] at replayed
  exact Option.some.inj (replayed.symm.trans again)

end

def countedEnv : Env :=
  .accepting (fun block => block.nonce + 1) (fun tx => tx.unlockTime)

def countedStorageEnv : StorageEnv :=
  { Lmdb.plainStorageEnv with getBlockHash := fun block => block.nonce + 1 }

def initializedChain : Blockchain :=
  (Blockchain.empty.handleBlockToMainChain countedEnv 0 (generateGenesisBlock 1337) .init).chain

def secondEntry : BlockEntry where
  bl :=
    { majorVersion := 1
      minorVersion := 1
      timestamp := 120
      prevId := 1338
      nonce := 1
      minerTx := { setNull with
          version := 2
          unlockTime := 61
          vin := [.gen 1]
          vout := [⟨10000000000, .toKey 5⟩] }
      txHashes := [] }
  blockWeight := 46
  longTermBlockWeight := 46
  cumulativeDifficulty := 2
  alreadyGeneratedCoins := 10000000000
  txs := []

def secondChain : Blockchain :=
  (initializedChain.handleBlockToMainChain countedEnv 240 secondEntry.bl .init).chain

theorem initializedChain_spec : Initialized countedEnv Blockchain.empty initializedChain :=
  ⟨⟨rfl, rfl, rfl⟩, rfl, rfl, rfl, ⟨0, 1337, rfl⟩, by decide⟩

theorem secondChain_cumRct :
    ∃ first db, StorageRun countedEnv countedStorageEnv (initializedChain, first)
        (secondChain, db) ∧ (db.blocks.info.find? 1).map BlockInfo.cumRct =
        some ((db.outputs.rowsOf 0).countP fun row => decide (row.2.height ≤ 1)) := by
  have run : ∃ first db, Lmdb.replay countedStorageEnv 0 initializedChain.db.blocks = some first ∧
      StorageRun countedEnv countedStorageEnv (initializedChain, first) (secondChain, db) :=
    ⟨_, _, rfl, .single (.stored initializedChain secondChain secondEntry _ _
      (.mainBlock initializedChain 240 secondEntry.bl .init rfl trivial)
      (by decide) rfl)⟩
  obtain ⟨first, db, begun, run⟩ := run
  exact ⟨first, db, run, run.cumRct_eq_countP initializedChain_spec begun 1 (by decide)⟩

theorem secondChain_popped : ∃ first db, StorageRun countedEnv countedStorageEnv
    (initializedChain, first) ((secondChain.popBlockFromBlockchain countedEnv 250).2, db) ∧
      first = db := by
  have run : ∃ first db, Lmdb.replay countedStorageEnv 0 initializedChain.db.blocks = some first ∧
      StorageRun countedEnv countedStorageEnv (initializedChain, first)
        ((secondChain.popBlockFromBlockchain countedEnv 250).2, db) :=
    ⟨_, _, rfl, .tail (.single (.stored _ secondChain secondEntry _ _
      (.mainBlock _ 240 _ .init rfl trivial) (by decide) rfl))
        (.popped _ _ secondEntry _ _ _ _ (.pop _ 250) (by decide) rfl)⟩
  obtain ⟨first, db, begun, run⟩ := run
  exact ⟨first, db, run, StorageRun.tables_unique initializedChain_spec begun .refl run (by decide)⟩

end Blockchain

end LodeChain

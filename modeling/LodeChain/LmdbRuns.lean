import LodeChain.LmdbTables

/-!
# Runs of the database

A run adds and pops blocks. Popping inverts adding where outputs are removed as they were filed, and
the tables then hold the outputs and key images of the chain in its order.
-/

namespace LodeChain

open OrderedTable List Option OutputTables Transaction

namespace Transaction

def RemovedAsFiled (tx : Transaction) : Prop :=
  tx.version = 2 → tx.isMinerTx = true → tx.vin.length = 1 ∨ ∀ out ∈ tx.vout, out.amount = 0

instance (tx : Transaction) : Decidable tx.RemovedAsFiled := by
  unfold RemovedAsFiled
  infer_instance

theorem filedAmounts_filedOutputs (senv : StorageEnv) (tx : Transaction) :
    filedAmounts (tx.filedOutputs senv) = tx.vout.map fun out =>
        if tx.isMinerTx ∧ tx.version = 2 then 0 else out.amount.toNat := by
  apply ext_getElem
  · simp [filedAmounts, filedOutputs]
  · intro index _ _
    simp [filedAmounts, filedOutputs]
    split_ifs
    · rfl
    · rfl

variable {tx : Transaction}

theorem removedAmounts_eq (senv : StorageEnv)
    (version : tx.version ≤ 2) (asFiled : tx.RemovedAsFiled) :
    tx.removedAmounts = filedAmounts (tx.filedOutputs senv) := by
  rw [filedAmounts_filedOutputs]
  apply map_congr_left
  intro out mem
  by_cases pseudo : tx.isPseudoRct = true
  · rw [if_pos pseudo]
    rw [isPseudoRct, decide_eq_true_iff] at pseudo
    rw [if_pos ⟨pseudo.2.2, by omega⟩]
  · rw [if_neg pseudo]
    split_ifs with miner
    · rcases asFiled miner.2 miner.1 with single | zero
      · rw [isPseudoRct, decide_eq_true_iff] at pseudo
        exact absurd ⟨miner.2.ge, single, miner.1⟩ pseudo
      · rw [zero out mem]
        rfl
    · rfl

theorem count_removedAmounts (senv : StorageEnv) (version : tx.version ≤ 2) :
    tx.removedAmounts.count 0 ≤ (filedAmounts (tx.filedOutputs senv)).count 0 ∧
      (tx.removedAmounts.count 0 = (filedAmounts (tx.filedOutputs senv)).count 0 →
        tx.RemovedAsFiled) := by
  by_cases asFiled : tx.RemovedAsFiled
  · rw [removedAmounts_eq senv version asFiled]
    exact ⟨le_rfl, fun _ => asFiled⟩
  · have unfiled : tx.version = 2 ∧ tx.isMinerTx = true ∧
        ¬(tx.vin.length = 1 ∨ ∀ out ∈ tx.vout, out.amount = 0) := by
      unfold RemovedAsFiled at asFiled
      tauto
    obtain ⟨two, miner, several⟩ := unfiled
    have pseudo : ¬tx.isPseudoRct = true := by
      rw [isPseudoRct, decide_eq_true_iff]
      tauto
    have filed : filedAmounts (tx.filedOutputs senv) = tx.vout.map fun _ => 0 := by
      rw [filedAmounts_filedOutputs]
      simp [miner, two]
    have removed : tx.removedAmounts = tx.vout.map fun out => out.amount.toNat := by
      rw [removedAmounts]
      simp [pseudo]
    have filedCount : (filedAmounts (tx.filedOutputs senv)).count 0 =
        tx.removedAmounts.length := by
      rw [filed, removed, map_const', count_replicate_self, length_map]
    rw [filedCount]
    refine ⟨count_le_length, fun all => ?_⟩
    rw [count_eq_length, removed] at all
    refine absurd (fun out mem => ?_) fun zero => several (Or.inr zero)
    have zero := all _ (mem_map_of_mem mem)
    exact UInt64.toNat_inj.mp zero.symm

/-- What `get_tx` makes of the rows of a transaction. -/
def readBack (tx : Transaction) : Option Transaction :=
  tx.base.parse (if tx.pruned then none else some tx.prunableData)

theorem readBack_of_full (full : tx.pruned = false) : tx.readBack = some tx := by
  rw [readBack, full]
  exact congrArg some (withPrunable_base full)

def readAll : List Transaction → Option (List Transaction)
  | [] => some []
  | tx :: rest => tx.readBack.bind fun read => (readAll rest).map (read :: ·)

theorem readAll_of_full {txs : List Transaction} (full : ∀ tx ∈ txs, tx.pruned = false) :
    readAll txs = some txs := by
  induction txs with
  | nil => rfl
  | cons tx rest ih =>
    rw [forall_mem_cons] at full
    rw [readAll, readBack_of_full full.1, ih full.2]
    rfl

theorem full_of_readAll {txs read : List Transaction} (all : readAll txs = some read) :
    ∀ tx ∈ read, tx.pruned = false := by
  induction txs generalizing read with
  | nil =>
    rw [← some.inj all]
    simp
  | cons tx rest ih =>
    obtain ⟨first, firstRead, others⟩ := bind_eq_some_iff.mp all
    obtain ⟨later, laterRead, same⟩ := map_eq_some_iff.mp others
    rw [← same, forall_mem_cons]
    exact ⟨pruned_of_parse firstRead, ih laterRead⟩

end Transaction

namespace Lmdb

structure AddedTx (senv : StorageEnv) (db : Lmdb) (tx : Transaction)
    (txHash : Hash) (indices : List Nat) (after : Lmdb) : Prop where
  spentKeys : SpentBy db.spentKeys tx.vin after.spentKeys
  txs : TxTables.Stored senv db.txs db.pruningSeed db.height tx txHash indices after.txs
  outputs : addOutputs db.height txHash tx.unlockTime db.outputs 0
    (tx.filedOutputs senv) = some (indices, after.outputs)
  blocks : after.blocks = db.blocks
  pruningSeed : after.pruningSeed = db.pruningSeed

variable {senv : StorageEnv} {db after : Lmdb}

theorem addTransaction_added {tx : Transaction} {txHash : Hash}
    (added : db.addTransaction senv tx txHash = some after) :
    ∃ indices, AddedTx senv db tx txHash indices after := by
  obtain ⟨spentKeys, spent, added⟩ := bind_eq_some_iff.mp added
  obtain ⟨data, dataAdded, added⟩ := bind_eq_some_iff.mp added
  obtain ⟨⟨indices, outputs⟩, outputsAdded, added⟩ := bind_eq_some_iff.mp added
  obtain ⟨txs, indicesAdded, added⟩ := bind_eq_some_iff.mp added
  rw [← some.inj added]
  exact ⟨indices, addSpentKeys_spentBy spent,
    TxTables.addData_stored dataAdded indicesAdded, outputsAdded, rfl, rfl⟩

section

variable {tx : Transaction} {txHash : Hash} {indices : List Nat}

def removedKeys (tx : Transaction) (indices : List Nat) : List (Nat × Nat) :=
  tx.removedAmounts.zip indices

def filedKeys (senv : StorageEnv) (tx : Transaction) (indices : List Nat) : List (Nat × Nat) :=
  (filedAmounts (tx.filedOutputs senv)).zip indices

section

variable (added : AddedTx senv db tx txHash indices after)

include added

theorem AddedTx.length_indices : indices.length = tx.vout.length := by
  rw [addOutputs_indices_length added.outputs, filedOutputs, length_mapIdx]

theorem AddedTx.removedKeys_fst : (removedKeys tx indices).map Prod.fst = tx.removedAmounts := by
  apply map_fst_zip
  rw [removedAmounts, length_map, added.length_indices]

theorem AddedTx.filedKeys_fst : (filedKeys senv tx indices).map Prod.fst =
      filedAmounts (tx.filedOutputs senv) := by
  apply map_fst_zip
  rw [filedAmounts_filedOutputs, length_map, added.length_indices]

theorem AddedTx.keys_snd :
    (removedKeys tx indices).map Prod.snd = (filedKeys senv tx indices).map Prod.snd := by
  rw [removedKeys, map_snd_zip, filedKeys, map_snd_zip]
  · rw [filedAmounts_filedOutputs, length_map, added.length_indices]
  · rw [removedAmounts, length_map, added.length_indices]

theorem AddedTx.removeTransaction (other : Lmdb)
    (sameTxs : other.txs = after.txs) (sameKeys : other.spentKeys = after.spentKeys) :
    other.removeTransaction txHash =
      (other.outputs.removeOutputs (removedKeys tx indices).reverse).map fun outputs =>
          { other with
            txs := db.txs
            outputs := outputs
            spentKeys := db.spentKeys } := by
  have enough : tx.base.vout.length ≤ indices.length := added.length_indices.ge
  unfold Lmdb.removeTransaction
  simp only [sameTxs, sameKeys, added.txs.getPrunedTx, added.txs.removeData,
    (guard_eq_some' ()).mpr enough, bind_eq_bind,
    bind_some]
  have spent : removeSpentKeys after.spentKeys tx.base.vin = db.spentKeys :=
    added.spentKeys.removeSpentKeys
  rw [spent, map_eq_bind]
  rfl

end

end

theorem addTransactions_append (senv : StorageEnv) (db : Lmdb)
    (first rest : List (Transaction × Hash)) : db.addTransactions senv (first ++ rest) =
      (db.addTransactions senv first).bind (addTransactions senv · rest) := by
  induction first generalizing db with
  | nil => rfl
  | cons head first ih =>
    rw [cons_append, addTransactions, addTransactions, bind_assoc]
    congr 1
    funext added
    exact ih added

/-- `removed` are the keys under which `pop_block` looks the outputs up, `filed` those they are
under. -/
structure Undo (senv : StorageEnv) (db : Lmdb) (txs : List (Transaction × Hash))
    (after : Lmdb) (removed filed : List (Nat × Nat)) : Prop where
  blocks : after.blocks = db.blocks
  pruningSeed : after.pruningSeed = db.pruningSeed
  versions : ∀ tx ∈ txs, tx.1.version ≤ 2
  pop : ∀ other : Lmdb, other.txs = after.txs → other.spentKeys = after.spentKeys →
    other.popTransactions (txs.map Prod.snd).reverse =
      (readAll (txs.map Prod.fst).reverse).bind fun read =>
        (other.outputs.removeOutputs removed.reverse).map fun outputs =>
          (read,
            { other with
              txs := db.txs
              outputs := outputs
              spentKeys := db.spentKeys })
  restore : after.outputs.removeOutputs filed.reverse = some db.outputs
  removedAmounts : removed.map Prod.fst = txs.flatMap fun tx => tx.1.removedAmounts
  filedAmounts : filed.map Prod.fst =
    txs.flatMap fun tx => filedAmounts (tx.1.filedOutputs senv)
  sameIndices : removed.map Prod.snd = filed.map Prod.snd

theorem Undo.nil (senv : StorageEnv) (db : Lmdb) : Undo senv db [] db [] [] where
  blocks := rfl
  pruningSeed := rfl
  versions := by simp
  pop := by
    intro other sameTxs sameKeys
    obtain ⟨blocks, txs, outputs, spentKeys, pruningSeed⟩ := other
    cases sameTxs
    cases sameKeys
    rfl
  restore := rfl
  removedAmounts := rfl
  filedAmounts := rfl
  sameIndices := rfl

theorem Undo.append_singleton {middle : Lmdb} {txs : List (Transaction × Hash)}
    {removed filed : List (Nat × Nat)} {tx : Transaction} {txHash : Hash} {indices : List Nat}
    (undo : Undo senv db txs middle removed filed)
    (added : AddedTx senv middle tx txHash indices after) :
    Undo senv db (txs ++ [(tx, txHash)]) after (removed ++ removedKeys tx indices)
      (filed ++ filedKeys senv tx indices) where
  blocks := added.blocks.trans undo.blocks
  pruningSeed := added.pruningSeed.trans undo.pruningSeed
  versions := by
    intro stored mem
    rcases mem_append.mp mem with prev | last
    · exact undo.versions stored prev
    · rw [mem_singleton.mp last]
      have version := added.txs.version
      dsimp only
      omega
  pop := by
    intro other sameTxs sameKeys
    have read : other.txs.getTxOrPruned txHash = tx.readBack := by
      rw [sameTxs]
      exact added.txs.getTxOrPruned
    rw [map_append, reverse_append, map_append, reverse_append, reverse_append,
      removeOutputs_append]
    simp [popTransactions, readAll, read,
      added.removeTransaction other sameTxs sameKeys]
    cases tx.readBack with
    | none => rfl
    | some first =>
      cases other.outputs.removeOutputs (removedKeys tx indices).reverse with
      | none => simp
      | some outputs =>
        simp
        rw [undo.pop { other with
            txs := middle.txs
            outputs := outputs
            spentKeys := middle.spentKeys } rfl rfl]
        cases readAll (txs.map Prod.fst).reverse with
        | none => rfl
        | some prev => cases outputs.removeOutputs removed.reverse <;> rfl
  restore := by
    rw [reverse_append, removeOutputs_append, filedKeys,
      removeOutputs_addOutputs added.outputs, bind_some,
      undo.restore]
  removedAmounts := by
    rw [map_append, undo.removedAmounts, added.removedKeys_fst, flatMap_append, flatMap_singleton]
  filedAmounts := by
    rw [map_append, undo.filedAmounts, added.filedKeys_fst, flatMap_append, flatMap_singleton]
  sameIndices := by
    rw [map_append, map_append, undo.sameIndices, added.keys_snd]

theorem addTransactions_undo {txs : List (Transaction × Hash)}
    (added : db.addTransactions senv txs = some after) :
    ∃ removed filed, Undo senv db txs after removed filed := by
  induction txs using List.reverseRecOn generalizing after with
  | nil =>
    rw [← some.inj added]
    exact ⟨[], [], Undo.nil senv db⟩
  | append_singleton txs last ih =>
    rw [addTransactions_append] at added
    obtain ⟨middle, prev, lastAdded⟩ := bind_eq_some_iff.mp added
    obtain ⟨removed, filed, undo⟩ := ih prev
    rw [addTransactions, bind_eq_some_iff] at lastAdded
    obtain ⟨stored, txAdded, same⟩ := lastAdded
    rw [← some.inj same]
    obtain ⟨indices, addedTx⟩ := addTransaction_added txAdded
    exact ⟨_, _, undo.append_singleton addedTx⟩

/-! ## Popping a block that was just added -/

/-- What `BlockchainDB::add_block` did: `stored` holds the transactions and not
yet the block. -/
structure AddedBlock (senv : StorageEnv) (db : Lmdb) (entry : BlockEntry)
    (stored : Lmdb) (cumRct : Nat) (after : Lmdb) : Prop where
  sizes : entry.bl.txHashes.length = entry.txs.length
  txs : db.addTransactions senv (storedTransactions senv entry) = some stored
  block : BlockTables.Added stored.blocks entry (numRctOuts entry)
    (senv.getBlockHash entry.bl) cumRct after.blocks
  rest : after = { stored with blocks := after.blocks }

theorem addBlock_added {senv : StorageEnv} {db after : Lmdb}
    {entry : BlockEntry} (added : db.addBlock senv entry = some after) :
    ∃ stored cumRct, AddedBlock senv db entry stored cumRct after := by
  obtain ⟨_, sizes, added⟩ := bind_eq_some_iff.mp added
  obtain ⟨stored, txsAdded, added⟩ := bind_eq_some_iff.mp added
  obtain ⟨blocks, blockAdded, added⟩ := bind_eq_some_iff.mp added
  obtain ⟨cumRct, block⟩ := BlockTables.add_added blockAdded
  rw [← Option.some.inj added]
  exact ⟨stored, cumRct, (guard_eq_some' _).mp sizes, txsAdded, block, rfl⟩

structure Pops (senv : StorageEnv) (db : Lmdb) (entry : BlockEntry)
    (after : Lmdb) (removed filed : List (Nat × Nat)) : Prop where
  versions : ∀ tx ∈ entry.bl.minerTx :: entry.txs, tx.version ≤ 2
  pop : after.popBlock senv = (readAll entry.txs.reverse).bind fun read =>
      (after.outputs.removeOutputs removed.reverse).map fun outputs =>
        (entry.bl, read, { db with outputs := outputs })
  restore : after.outputs.removeOutputs filed.reverse = some db.outputs
  removedAmounts : removed.map Prod.fst =
    (entry.bl.minerTx :: entry.txs).flatMap removedAmounts
  filedAmounts : filed.map Prod.fst = (entry.bl.minerTx :: entry.txs).flatMap fun tx =>
      filedAmounts (tx.filedOutputs senv)
  sameIndices : removed.map Prod.snd = filed.map Prod.snd

section

variable {stored : Lmdb} {entry : BlockEntry} {cumRct : Nat}

section

variable (added : AddedBlock senv db entry stored cumRct after)

include added

theorem AddedBlock.zip_fst : (entry.txs.zip entry.bl.txHashes).map Prod.fst = entry.txs :=
  map_fst_zip added.sizes.ge

theorem AddedBlock.zip_snd : (entry.txs.zip entry.bl.txHashes).map Prod.snd = entry.bl.txHashes :=
  map_snd_zip added.sizes.le

theorem AddedBlock.flatMap_zip {β : Type} (amounts : Transaction → List β) :
    (entry.txs.zip entry.bl.txHashes).flatMap (fun tx => amounts tx.1) =
      entry.txs.flatMap amounts := by
  nth_rewrite 2 [← added.zip_fst]
  rw [flatMap_map]

theorem AddedBlock.popBlock {middle : Lmdb} {indices : List Nat} {removed filed : List (Nat × Nat)}
    (miner : AddedTx senv db entry.bl.minerTx
      (senv.getTransactionHash entry.bl.minerTx) indices middle)
    (undo : Undo senv middle (entry.txs.zip entry.bl.txHashes) stored removed filed) :
    after.popBlock senv = (readAll entry.txs.reverse).bind fun read =>
        (after.outputs.removeOutputs (removedKeys entry.bl.minerTx indices ++ removed).reverse).map
            fun outputs => (entry.bl, read, { db with outputs := outputs }) := by
  have restored : { after with blocks := stored.blocks } = stored := by rw [added.rest]
  have outputs : after.outputs = stored.outputs := by rw [added.rest]
  have sameBlocks : stored.blocks = db.blocks := undo.blocks.trans miner.blocks
  have sameSeed : stored.pruningSeed = db.pruningSeed := undo.pruningSeed.trans miner.pruningSeed
  have popped := undo.pop stored rfl rfl
  rw [added.zip_snd, added.zip_fst] at popped
  unfold Lmdb.popBlock
  rw [added.block.remove]
  simp only [bind_eq_bind, bind_some, restored, popped]
  rw [outputs, reverse_append, removeOutputs_append]
  cases readAll entry.txs.reverse with
  | none => rfl
  | some read =>
    cases stored.outputs.removeOutputs removed.reverse with
    | none => rfl
    | some remaining =>
      have last := miner.removeTransaction { db with
          txs := middle.txs
          outputs := remaining
          spentKeys := middle.spentKeys } rfl rfl
      simp [last, sameBlocks, sameSeed]
      cases remaining.removeOutputs (removedKeys entry.bl.minerTx indices).reverse <;> rfl

theorem AddedBlock.pops : ∃ removed filed, Pops senv db entry after removed filed := by
  have txsAdded := added.txs
  rw [storedTransactions] at txsAdded
  obtain ⟨middle, minerAdded, othersAdded⟩ := bind_eq_some_iff.mp txsAdded
  obtain ⟨indices, miner⟩ := addTransaction_added minerAdded
  obtain ⟨removed, filed, undo⟩ := addTransactions_undo othersAdded
  refine ⟨removedKeys _ indices ++ removed,
    filedKeys senv entry.bl.minerTx indices ++ filed, ?_,
    added.popBlock miner undo, ?_, ?_, ?_, ?_⟩
  · rw [forall_mem_cons]
    constructor
    · have version := miner.txs.version
      omega
    · intro tx mem
      rw [← added.zip_fst] at mem
      obtain ⟨pair, listed, rfl⟩ := mem_map.mp mem
      exact undo.versions pair listed
  · rw [added.rest, reverse_append, removeOutputs_append,
      undo.restore, bind_some, filedKeys,
      removeOutputs_addOutputs miner.outputs]
  · rw [map_append, undo.removedAmounts, miner.removedKeys_fst, flatMap_cons, added.flatMap_zip]
  · rw [map_append, undo.filedAmounts, miner.filedKeys_fst,
      flatMap_cons, added.flatMap_zip fun tx => filedAmounts _]
  · rw [map_append, map_append, undo.sameIndices, miner.keys_snd]

end

end

section

variable {entry : BlockEntry} {removed filed : List (Nat × Nat)}

theorem Pops.removed_eq_filed (pops : Pops senv db entry after removed filed)
    (asFiled : ∀ tx ∈ entry.bl.minerTx :: entry.txs, tx.RemovedAsFiled) : removed = filed := by
  have sameAmounts : removed.map Prod.fst = filed.map Prod.fst := by
    rw [pops.removedAmounts, pops.filedAmounts]
    apply flatMap_congr
    intro tx mem
    exact removedAmounts_eq senv (pops.versions tx mem) (asFiled tx mem)
  rw [zip_of_prod sameAmounts pops.sameIndices, ← zip_of_prod rfl rfl]

theorem Pops.asFiled (pops : Pops senv db entry after removed filed)
    (undone : after.outputs.removeOutputs removed.reverse = some db.outputs) :
    ∀ tx ∈ entry.bl.minerTx :: entry.txs, tx.RemovedAsFiled := by
  have removedCount := removeOutputs_length 0 undone
  have filedCount := removeOutputs_length 0 pops.restore
  rw [map_reverse, count_reverse, pops.removedAmounts, count_flatMap] at removedCount
  rw [map_reverse, count_reverse, pops.filedAmounts, count_flatMap] at filedCount
  intro tx mem
  have counts := fun tx mem => count_removedAmounts senv (pops.versions tx mem)
  apply (counts tx mem).2
  by_contra different
  have fewer := sum_lt_sum _ _ (fun tx mem => (counts tx mem).1)
    ⟨tx, mem, lt_of_le_of_ne (counts tx mem).1 different⟩
  simp only [Function.comp_def] at removedCount filedCount
  omega

end

/-- A block is popped with every table restored exactly when no transaction was stored pruned and
the outputs of each are removed under the amounts they were filed under. -/
theorem popBlock_addBlock_iff {senv : StorageEnv} {db after : Lmdb}
    {entry : BlockEntry} (added : db.addBlock senv entry = some after) :
    after.popBlock senv = some (entry.bl, entry.txs.reverse, db) ↔
      (∀ tx ∈ entry.txs, tx.pruned = false) ∧
        ∀ tx ∈ entry.bl.minerTx :: entry.txs, tx.RemovedAsFiled := by
  obtain ⟨stored, cumRct, addedBlock⟩ := addBlock_added added
  obtain ⟨removed, filed, pops⟩ := addedBlock.pops
  rw [pops.pop]
  constructor
  · intro popped
    obtain ⟨read, readAll, mapped⟩ := bind_eq_some_iff.mp popped
    obtain ⟨outputs, undone, same⟩ := map_eq_some_iff.mp mapped
    simp at same
    obtain ⟨rfl, restored⟩ := same
    constructor
    · intro tx member
      exact full_of_readAll readAll tx (mem_reverse.mpr member)
    · rw [show outputs = db.outputs from congrArg Lmdb.outputs restored] at undone
      exact pops.asFiled undone
  · rintro ⟨full, asFiled⟩
    rw [readAll_of_full fun tx member => full tx (mem_reverse.mp member),
      pops.removed_eq_filed asFiled, pops.restore]
    rfl

def plainStorageEnv : StorageEnv where
  getBlockHash := fun block => block.nonce
  getTransactionHash := fun tx => tx.unlockTime
  getTransactionPrunableHash := fun _ => 0
  outPk := fun tx => tx.vout.map fun _ => 0
  zeroCommit := fun _ => 0

def firstBlockWith (tx : Transaction) : BlockEntry where
  bl :=
    { majorVersion := 1
      minorVersion := 1
      timestamp := 0
      prevId := nullHash
      nonce := 10
      minerTx := { setNull with vin := [.gen 0], unlockTime := 60 }
      txHashes := [tx.unlockTime] }
  blockWeight := 100
  longTermBlockWeight := 100
  cumulativeDifficulty := 1
  alreadyGeneratedCoins := 0
  txs := [tx]

def doubleGeneration : Transaction :=
  { setNull with
    version := 2
    unlockTime := 1
    vin := [.gen 0, .gen 0]
    vout := [⟨7, .toKey 5⟩] }

def prunedSpend : Transaction :=
  { setNull with
    version := 2
    unlockTime := 1
    vin := [.toKey 0 [1] 3]
    rctSignatures := ⟨.clsag, 0, 0, 0⟩
    pruned := true }

theorem popBlock_fails_after_addBlock : (∃ after, (Lmdb.empty 0).addBlock plainStorageEnv
        (firstBlockWith doubleGeneration) = some after ∧ after.popBlock plainStorageEnv = none) ∧
    ∃ after, (Lmdb.empty 0).addBlock plainStorageEnv (firstBlockWith prunedSpend) = some after ∧
      after.popBlock plainStorageEnv = none := by
  exact ⟨⟨_, rfl, by decide⟩, ⟨_, rfl, by decide⟩⟩

/-- It spends a key image and has two outputs of hidden amounts. -/
def shieldedSpend : Transaction :=
  { prunedSpend with vout := [⟨0, .toKey 5⟩, ⟨0, .toKey 6⟩], pruned := false }

theorem popBlock_addBlock_iff_spend : ∃ after, (Lmdb.empty 0).addBlock plainStorageEnv
        (firstBlockWith shieldedSpend) = some after ∧ after.popBlock plainStorageEnv =
        some ((firstBlockWith shieldedSpend).bl, [shieldedSpend], Lmdb.empty 0) := by
  exact ⟨_, rfl, (popBlock_addBlock_iff rfl).mpr (by decide)⟩

end Lmdb

/-! ## The outputs of a chain -/

structure ChainOutput where
  amount : Nat
  origin : OutTx
  pubkey : Option PublicKey
  unlockTime : Nat
  height : Nat
  commitment : Option RctKey
  deriving DecidableEq, Repr

def ChainOutput.outKey (output : ChainOutput) (outputId : Nat) : Option OutKey :=
  output.pubkey.map fun pubkey =>
    ⟨outputId, pubkey, output.unlockTime, output.height, output.commitment⟩

def outputsFrom (height : Nat) (txHash : Hash) (unlockTime : Nat) :
    Nat → List (TxOut × Option RctKey) → List ChainOutput
  | _, [] => []
  | localIndex, (out, commitment) :: rest =>
    { amount := out.amount.toNat
      origin := ⟨txHash, localIndex⟩
      pubkey := getOutputPublicKey out
      unlockTime := unlockTime
      height := height
      commitment := if out.amount = 0 then commitment else none } ::
    outputsFrom height txHash unlockTime (localIndex + 1) rest

variable (senv : StorageEnv)

def txOutputs (height : Nat) (stored : Transaction × Hash) : List ChainOutput :=
  outputsFrom height stored.2 stored.1.unlockTime 0 (stored.1.filedOutputs senv)

def blockOutputs (height : Nat) (entry : BlockEntry) : List ChainOutput :=
  (Lmdb.storedTransactions senv entry).flatMap (txOutputs senv height)

def chainOutputs (chain : List BlockEntry) : List ChainOutput :=
  chain.zipIdx.flatMap fun entry => blockOutputs senv entry.2 entry.1

theorem chainOutputs_concat (chain : List BlockEntry) (entry : BlockEntry) :
    chainOutputs senv (chain ++ [entry]) =
      chainOutputs senv chain ++ blockOutputs senv chain.length entry := by
  rw [chainOutputs, zipIdx_append, flatMap_append, ← chainOutputs]
  simp

theorem chainOutputs_isPrefix {prev chain : List BlockEntry} (isPrefix : prev <+: chain) :
    chainOutputs senv prev <+: chainOutputs senv chain := by
  obtain ⟨later, rfl⟩ := isPrefix
  rw [chainOutputs, chainOutputs, zipIdx_append, flatMap_append]
  exact List.prefix_append _ _

def outputsOf (outputs : List ChainOutput) (amount : Nat) : List (ChainOutput × Nat) :=
  outputs.zipIdx.filter fun output => output.1.amount == amount

theorem outputsOf_concat (outputs : List ChainOutput) (last : ChainOutput) (amount : Nat) :
    outputsOf (outputs ++ [last]) amount = if last.amount = amount then
        outputsOf outputs amount ++ [(last, outputs.length)]
      else
        outputsOf outputs amount := by
  rw [outputsOf, zipIdx_append, filter_append, ← outputsOf]
  split_ifs with same
  · simp [same]
  · simp [same]

theorem outputsOf_isPrefix {prev outputs : List ChainOutput}
    (isPrefix : prev <+: outputs) (amount : Nat) :
    outputsOf prev amount <+: outputsOf outputs amount := by
  obtain ⟨later, rfl⟩ := isPrefix
  rw [outputsOf, outputsOf, zipIdx_append, filter_append]
  exact List.prefix_append _ _

variable {after : OutputTables} {localIndex : Nat} {keyImages : List KeyImage}

namespace OutputTables

/-- The output tables hold a list of outputs, those of each amount under
consecutive indices. -/
structure Lists (tables : OutputTables) (outputs : List ChainOutput) : Prop where
  ids : tables.outputTxs.rows = outputs.mapIdx fun outputId output => (outputId, output.origin)
  amounts : ∀ amount, (tables.rowsOf amount).map (fun row => (row.1, some row.2)) =
      (outputsOf outputs amount).mapIdx fun index output =>
        (toLex (amount, index), output.1.outKey output.2)

theorem Lists.empty : Lists empty [] where
  ids := rfl
  amounts := fun _ => rfl

variable {tables : OutputTables}

section

variable {outputs : List ChainOutput} (lists : tables.Lists outputs)

include lists

theorem Lists.numOutputs : tables.numOutputs = outputs.length := by
  rw [OutputTables.numOutputs, OrderedTable.lastKey?, lists.ids]
  cases outputs using List.reverseRecOn with
  | nil => rfl
  | append_singleton outputs last => simp

theorem Lists.length_rowsOf (amount : Nat) :
    (tables.rowsOf amount).length = (outputsOf outputs amount).length := by
  have same := congrArg List.length (lists.amounts amount)
  rwa [length_map, length_mapIdx] at same

theorem Lists.getElem?_rowsOf (amount index : Nat) :
    (tables.rowsOf amount)[index]?.map (fun row => (row.1, some row.2)) =
      (outputsOf outputs amount)[index]?.map fun output =>
        (toLex (amount, index), output.1.outKey output.2) := by
  have same := congrArg (fun rows => rows[index]?) (lists.amounts amount)
  rwa [getElem?_map, getElem?_mapIdx] at same

theorem Lists.find?_outputAmounts (amount index : Nat) :
    tables.outputAmounts.find? (toLex (amount, index)) =
      (outputsOf outputs amount)[index]?.bind fun output => output.1.outKey output.2 := by
  apply Option.ext
  intro key
  have row : (toLex (amount, index), key) ∈ tables.outputAmounts.rows ↔
      (toLex (amount, index), some key) ∈
        (tables.rowsOf amount).map fun row => (row.1, some row.2) := by
    simp [rowsOf]
  rw [find?_eq_some_iff, row, lists.amounts, mem_iff_getElem?, bind_eq_some_iff]
  simp only [getElem?_mapIdx, map_eq_some_iff, Prod.mk.injEq,
    EmbeddingLike.apply_eq_iff_eq, true_and]
  constructor
  · rintro ⟨_, output, found, rfl, recorded⟩
    exact ⟨output, found, recorded⟩
  · rintro ⟨output, found, recorded⟩
    exact ⟨index, output, found, rfl, recorded⟩

theorem Lists.map_height_rowsOf (amount : Nat) :
    (tables.rowsOf amount).map (fun row => row.2.height) =
      (outputsOf outputs amount).map fun output => output.1.height := by
  apply ext_getElem?
  intro index
  have same := lists.getElem?_rowsOf amount index
  rw [getElem?_map, getElem?_map]
  cases found : (outputsOf outputs amount)[index]? with
  | none =>
    rw [found, map_none, map_eq_none_iff] at same
    rw [same]
    rfl
  | some output =>
    rw [found, map_some, map_eq_some_iff] at same
    obtain ⟨row, rowFound, eq⟩ := same
    have key := (Prod.mk.inj eq).2
    rw [ChainOutput.outKey, eq_comm, map_eq_some_iff] at key
    obtain ⟨pubkey, _, recorded⟩ := key
    rw [rowFound, map_some, map_some, ← recorded]

end

section

variable {height : Nat} {txHash : Hash} {unlockTime : Nat}

theorem Lists.addOutput {tables : OutputTables} {outputs : List ChainOutput} {out : TxOut}
    {commitment : Option RctKey} {amountIndex : Nat} (lists : tables.Lists outputs)
    (added : tables.addOutput height txHash unlockTime localIndex out
      commitment = some (amountIndex, after)) : after.Lists (outputs ++
      outputsFrom height txHash unlockTime localIndex [(out, commitment)]) := by
  obtain ⟨pubkey, filed⟩ := addOutput_filed added
  rw [outputsFrom, outputsFrom]
  constructor
  · rw [append_rows filed.listed, lists.ids, mapIdx_concat, lists.numOutputs]
  · intro amount
    rw [outputsOf_concat, filed.rowsOf]
    by_cases same : out.amount.toNat = amount
    · subst same
      rw [if_pos rfl, if_pos rfl, map_append, lists.amounts,
        mapIdx_concat, filed.index, lists.length_rowsOf, lists.numOutputs, filed.publicKey]
      rfl
    · rw [if_neg same, if_neg same, lists.amounts]

theorem Lists.addOutputs {tables : OutputTables} {outputs : List ChainOutput}
    {filed : List (TxOut × Option RctKey)} {indices : List Nat} (lists : tables.Lists outputs)
    (added : addOutputs height txHash unlockTime tables localIndex filed = some (indices, after)) :
    after.Lists (outputs ++ outputsFrom height txHash unlockTime localIndex filed) := by
  induction filed generalizing tables outputs localIndex indices with
  | nil =>
    rw [addOutputs, Option.some.injEq, Prod.mk.injEq] at added
    rw [← added.2, outputsFrom, append_nil]
    exact lists
  | cons output rest ih =>
    obtain ⟨amountIndex, first, others, head, tail, rfl⟩ := addOutputs_cons added
    have extended := ih (lists.addOutput head) tail
    rw [append_assoc] at extended
    exact extended

end

end OutputTables

namespace Lmdb

def storedKeyImages (stored : List (Transaction × Hash)) : List KeyImage :=
  stored.flatMap fun tx => tx.1.vin.filterMap TxIn.keyImage?

def chainKeyImages (chain : List BlockEntry) : List KeyImage :=
  chain.flatMap fun entry => (entry.bl.minerTx :: entry.txs).flatMap Transaction.keyImages

structure Spends (spent : OrderedTable KeyImage Unit) (keyImages : List KeyImage) : Prop where
  distinct : keyImages.Nodup
  mem : ∀ keyImage, (spent.find? keyImage).isSome ↔ keyImage ∈ keyImages

theorem Spends.add {spent after : OrderedTable KeyImage Unit}
    {inputs : List TxIn} (spends : Spends spent keyImages) (added : SpentBy spent inputs after) :
    Spends after (keyImages ++ inputs.filterMap TxIn.keyImage?) where
  distinct := by
    apply spends.distinct.append added.distinct
    intro keyImage prev later
    have found := (spends.mem keyImage).mpr prev
    rw [added.unspent keyImage later] at found
    cases found
  mem := by
    intro keyImage
    rw [added.find, mem_append, ← spends.mem]
    split_ifs with member
    · simp [member]
    · simp [member]

theorem addTransactions_records {senv : StorageEnv} {db after : Lmdb}
    {txs : List (Transaction × Hash)} {outputs : List ChainOutput}
    (added : db.addTransactions senv txs = some after) (lists : db.outputs.Lists outputs)
    (spends : Spends db.spentKeys keyImages) : after.blocks = db.blocks ∧
      after.outputs.Lists (outputs ++ txs.flatMap (txOutputs senv db.height)) ∧
      Spends after.spentKeys (keyImages ++ storedKeyImages txs) := by
  induction txs generalizing db outputs keyImages with
  | nil =>
    rw [← Option.some.inj added]
    rw [storedKeyImages, flatMap_nil, flatMap_nil, append_nil, append_nil]
    exact ⟨rfl, lists, spends⟩
  | cons head rest ih =>
    obtain ⟨middle, headAdded, restAdded⟩ := bind_eq_some_iff.mp added
    obtain ⟨indices, addedTx⟩ := addTransaction_added headAdded
    have sameHeight : middle.height = db.height := congrArg BlockTables.height addedTx.blocks
    obtain ⟨blocks, restLists, restSpends⟩ := ih restAdded
      (lists.addOutputs addedTx.outputs) (spends.add addedTx.spentKeys)
    rw [append_assoc, sameHeight] at restLists
    rw [append_assoc] at restSpends
    exact ⟨blocks.trans addedTx.blocks, restLists, restSpends⟩

/-! ## Runs of the database -/

def replay (senv : StorageEnv) (pruningSeed : Nat) (chain : List BlockEntry) : Option Lmdb :=
  chain.foldlM (addBlock senv) (Lmdb.empty pruningSeed)

variable {senv : StorageEnv} {chain : List BlockEntry} {entry : BlockEntry} {after db : Lmdb}

variable {pruningSeed : Nat} {permitted : BlockEntry → Prop}

theorem replay_concat : replay senv pruningSeed (chain ++ [entry]) = some after ↔
      ∃ db, replay senv pruningSeed chain = some db ∧ db.addBlock senv entry = some after := by
  rw [replay, foldlM_append, bind_eq_bind, bind_eq_some_iff, ← replay]
  simp

/-- Databases reached by adding and popping blocks. A call that throws changes nothing. -/
inductive LmdbRun (senv : StorageEnv) (pruningSeed : Nat)
    (permitted : BlockEntry → Prop) : List BlockEntry → Lmdb → Prop
  | empty : LmdbRun senv pruningSeed permitted [] (Lmdb.empty pruningSeed)
  | add (chain : List BlockEntry) (db : Lmdb) (entry : BlockEntry)
      (after : Lmdb) (run : LmdbRun senv pruningSeed permitted chain db)
      (allowed : permitted entry)
      (added : db.addBlock senv entry = some after) :
      LmdbRun senv pruningSeed permitted (chain ++ [entry]) after
  | pop (chain : List BlockEntry) (entry : BlockEntry) (db : Lmdb)
      (block : Block) (txs : List Transaction) (after : Lmdb)
      (run : LmdbRun senv pruningSeed permitted (chain ++ [entry]) db)
      (popped : db.popBlock senv = some (block, txs, after)) :
      LmdbRun senv pruningSeed permitted chain after

theorem popBlock_of_removedAsFiled {popped : Lmdb} {block : Block} {txs : List Transaction}
    (added : db.addBlock senv entry = some after)
    (asFiled : ∀ tx ∈ entry.bl.minerTx :: entry.txs, tx.RemovedAsFiled)
    (pop : after.popBlock senv = some (block, txs, popped)) : popped = db := by
  obtain ⟨stored, cumRct, addedBlock⟩ := addBlock_added added
  obtain ⟨removed, filed, pops⟩ := addedBlock.pops
  rw [pops.pop, pops.removed_eq_filed asFiled, pops.restore] at pop
  obtain ⟨read, _, same⟩ := bind_eq_some_iff.mp pop
  rw [map_some, Option.some.injEq] at same
  exact (congrArg (fun result => result.2.2) same).symm

def RemovedAsFiled (entry : BlockEntry) : Prop :=
  ∀ tx ∈ entry.bl.minerTx :: entry.txs, tx.RemovedAsFiled

theorem LmdbRun.permitted_of_mem
    (run : LmdbRun senv pruningSeed permitted chain db) : ∀ entry ∈ chain, permitted entry := by
  induction run with
  | empty => simp
  | add chain db entry after run allowed added ih =>
    intro other mem
    rcases mem_append.mp mem with prev | last
    · exact ih other prev
    · rw [mem_singleton.mp last]
      exact allowed
  | pop chain entry db block txs after run popped ih =>
    intro other mem
    exact ih other (mem_append_left _ mem)

theorem LmdbRun.replay_eq (asFiled : ∀ entry, permitted entry → RemovedAsFiled entry)
    (run : LmdbRun senv pruningSeed permitted chain db) :
    replay senv pruningSeed chain = some db := by
  induction run with
  | empty => rfl
  | add chain db entry after run allowed added ih => exact replay_concat.mpr ⟨db, ih, added⟩
  | pop chain entry db block txs after run popped ih =>
    obtain ⟨before, replayed, added⟩ := replay_concat.mp ih
    have allowed := run.permitted_of_mem entry (mem_append_right _ mem_cons_self)
    rw [popBlock_of_removedAsFiled added (asFiled entry allowed) popped]
    exact replayed

structure Records (senv : StorageEnv) (db : Lmdb) (chain : List BlockEntry) : Prop where
  height : db.height = chain.length
  outputs : db.outputs.Lists (chainOutputs senv chain)
  spentKeys : Spends db.spentKeys (chainKeyImages chain)

theorem Records.empty (senv : StorageEnv) (pruningSeed : Nat) :
    Records senv (Lmdb.empty pruningSeed) [] where
  height := rfl
  outputs := OutputTables.Lists.empty
  spentKeys := ⟨nodup_nil, fun keyImage => by
    simp [chainKeyImages, Lmdb.empty]⟩

theorem AddedBlock.storedKeyImages {stored : Lmdb} {cumRct : Nat}
    (added : AddedBlock senv db entry stored cumRct after) :
    storedKeyImages (storedTransactions senv entry) =
      (entry.bl.minerTx :: entry.txs).flatMap Transaction.keyImages := by
  rw [storedTransactions, Lmdb.storedKeyImages, flatMap_cons,
    added.flatMap_zip fun tx => tx.vin.filterMap _]
  rfl

theorem Records.addBlock (records : Records senv db chain)
    (added : db.addBlock senv entry = some after) : Records senv after (chain ++ [entry]) := by
  obtain ⟨stored, cumRct, addedBlock⟩ := addBlock_added added
  obtain ⟨blocks, lists, spends⟩ := addTransactions_records addedBlock.txs
    records.outputs records.spentKeys
  rw [records.height] at lists
  rw [addedBlock.storedKeyImages] at spends
  refine ⟨?_, ?_, ?_⟩
  · rw [Lmdb.height, addedBlock.block.height, blocks, length_append, ← records.height]
    rfl
  · rw [addedBlock.rest, chainOutputs_concat]
    exact lists
  · rw [addedBlock.rest, chainKeyImages, flatMap_append, flatMap_singleton]
    exact spends

theorem records_of_replay (replayed : replay senv pruningSeed chain = some db) :
    Records senv db chain := by
  induction chain using List.reverseRecOn generalizing db with
  | nil =>
    rw [← Option.some.inj replayed]
    exact Records.empty senv pruningSeed
  | append_singleton chain entry ih =>
    obtain ⟨before, prev, added⟩ := replay_concat.mp replayed
    exact (ih prev).addBlock added

/-- Along runs that remove outputs as they were filed, the outputs of each amount are recorded in
chain order under 0, 1, 2, …, and the spent keys are the key images of the chain, each once. -/
theorem LmdbRun.indexed_in_chain_order {senv : StorageEnv} {pruningSeed : Nat}
    {chain : List BlockEntry} {db : Lmdb} (run : LmdbRun senv pruningSeed RemovedAsFiled chain db) :
    (∀ amount, (db.outputs.rowsOf amount).map (fun row => (row.1, some row.2)) =
        (outputsOf (chainOutputs senv chain) amount).mapIdx fun index output =>
            (toLex (amount, index), output.1.outKey output.2)) ∧ (chainKeyImages chain).Nodup ∧
      ∀ keyImage, (db.spentKeys.find? keyImage).isSome ↔ keyImage ∈ chainKeyImages chain := by
  have records := records_of_replay (run.replay_eq fun _ allowed => allowed)
  exact ⟨records.outputs.amounts, records.spentKeys.distinct, records.spentKeys.mem⟩

def twoSevens : BlockEntry where
  bl :=
    { majorVersion := 1
      minorVersion := 1
      timestamp := 0
      prevId := nullHash
      nonce := 10
      minerTx := { Transaction.setNull with
          vin := [.gen 0]
          vout := [⟨7, .toKey 1⟩, ⟨7, .toKey 2⟩]
          unlockTime := 60 }
      txHashes := [] }
  blockWeight := 100
  longTermBlockWeight := 100
  cumulativeDifficulty := 1
  alreadyGeneratedCoins := 0
  txs := []

def doublyGenerated : BlockEntry where
  bl :=
    { majorVersion := 1
      minorVersion := 1
      timestamp := 0
      prevId := 10
      nonce := 11
      minerTx := { Transaction.setNull with vin := [.gen 1], unlockTime := 61 }
      txHashes := [1] }
  blockWeight := 100
  longTermBlockWeight := 100
  cumulativeDifficulty := 2
  alreadyGeneratedCoins := 0
  txs := [doubleGeneration]

theorem LmdbRun.unindexed_after_doublyGenerated :
    ∃ db, LmdbRun plainStorageEnv 0 (fun _ => True) [twoSevens] db ∧
      (db.outputs.rowsOf 7).map (fun row => (ofLex row.1).2) = [1] := by
  refine ⟨_, .pop [twoSevens] doublyGenerated _ _ _ _ (.add [twoSevens] _ doublyGenerated _
      (.add [] _ twoSevens _ .empty trivial rfl) trivial rfl) rfl, ?_⟩
  decide

theorem LmdbRun.twoSevens_indexed : ∃ db, LmdbRun plainStorageEnv 0 RemovedAsFiled [twoSevens] db ∧
      (db.outputs.rowsOf 7).map (fun row => (row.1, some row.2)) =
        (outputsOf (chainOutputs plainStorageEnv [twoSevens]) 7).mapIdx
          fun index output => (toLex (7, index), output.1.outKey output.2) := by
  have run : ∃ db, LmdbRun plainStorageEnv 0 RemovedAsFiled [twoSevens] db :=
    ⟨_, .add [] _ twoSevens _ .empty (by unfold RemovedAsFiled; decide) rfl⟩
  obtain ⟨db, run⟩ := run
  exact ⟨db, run, run.indexed_in_chain_order.1 7⟩

end Lmdb

end LodeChain

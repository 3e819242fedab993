import LodeChain.MainChain

/-!
# The tables of the LMDB database

The tables `BlockchainLMDB` keeps for the main chain: blocks, transactions, outputs by amount and
spent keys, with what adding and removing does to each.
-/

namespace LodeChain

open OrderedTable

abbrev RctKey := Nat

structure StorageEnv where
  getBlockHash : Block → Hash
  getTransactionHash : Transaction → Hash
  getTransactionPrunableHash : Transaction → Hash
  outPk : Transaction → List RctKey
  zeroCommit : UInt64 → RctKey

structure PrunableData where
  signaturesSize : Nat
  paddedOutputs : Nat
  bodySize : Nat
  deriving DecidableEq, Repr

namespace Transaction

/-- The transaction `serialize_base` reads back. -/
def base (tx : Transaction) : Transaction :=
  { tx with
    signaturesSize := 0
    rctSignatures := { tx.rctSignatures with paddedOutputs := 0, bodySize := 0 }
    pruned := true }

def prunableData (tx : Transaction) : PrunableData :=
  ⟨tx.signaturesSize, tx.rctSignatures.paddedOutputs, tx.rctSignatures.bodySize⟩

def withPrunable (tx : Transaction) (data : PrunableData) : Transaction :=
  { tx with
    signaturesSize := data.signaturesSize
    rctSignatures := { tx.rctSignatures with
        paddedOutputs := data.paddedOutputs
        bodySize := data.bodySize }
    pruned := false }

/-- A version 1 input with a nonzero `get_signature_size`, or a ring signature. -/
def hasPrunablePart (tx : Transaction) : Bool :=
  if tx.version = 1 then
    tx.vin.any fun
      | .toKey _ keyOffsets _ => keyOffsets != []
      | _ => false
  else tx.vin != [] && tx.rctSignatures.type != .null

def parse (base : Transaction) : Option PrunableData → Option Transaction
  | some data => some (base.withPrunable data)
  | none => if base.hasPrunablePart then none else some (base.withPrunable ⟨0, 0, 0⟩)

theorem withPrunable_base {tx : Transaction} (full : tx.pruned = false) :
    tx.base.withPrunable tx.prunableData = tx := by
  obtain ⟨_, _, _, _, _, _, ⟨_, _, _, _⟩, _⟩ := tx
  cases full
  rfl

theorem pruned_of_parse {tx base : Transaction} {data : Option PrunableData}
    (parsed : base.parse data = some tx) : tx.pruned = false := by
  cases data with
  | some data => rw [← Option.some.inj parsed]; rfl
  | none =>
    unfold parse at parsed
    split_ifs at parsed
    rw [← Option.some.inj parsed]
    rfl

end Transaction

structure BlockInfo where
  height : Nat
  timestamp : Nat
  coins : Nat
  weight : Nat
  cumulativeDifficulty : Nat
  hash : Hash
  cumRct : Nat
  longTermBlockWeight : Nat
  deriving DecidableEq, Repr

@[ext]
structure BlockTables where
  blocks : OrderedTable Nat Block
  info : OrderedTable Nat BlockInfo
  heights : OrderedTable Hash Nat

namespace BlockTables

def empty : BlockTables :=
  ⟨.empty, .empty, .empty⟩

variable (tables : BlockTables)

def height : Nat :=
  tables.blocks.size

def followsTop (block : Block) : Bool :=
  tables.height = 0 ∨ tables.heights.find? block.prevId = some (tables.height - 1)

/-- `bi_cum_rct`: from version 4 on it is added to that of the block before. -/
def cumRct (tables : BlockTables) (block : Block) (numRctOuts : Nat) : Option Nat :=
  if block.majorVersion < 4 then some numRctOuts
  else if tables.height = 0 then none
  else (tables.info.find? (tables.height - 1)).map fun previous => numRctOuts + previous.cumRct

def add (entry : BlockEntry) (numRctOuts : Nat) (blockHash : Hash) : Option BlockTables := do
  let height := tables.height
  let heights ← tables.heights.insertNew blockHash height
  guard (tables.followsTop entry.bl)
  let blocks ← tables.blocks.append height entry.bl
  let cumRct ← tables.cumRct entry.bl numRctOuts
  let info ← tables.info.append height
    { height := height
      timestamp := entry.bl.timestamp
      coins := entry.alreadyGeneratedCoins
      weight := entry.blockWeight
      cumulativeDifficulty := entry.cumulativeDifficulty
      hash := blockHash
      cumRct := cumRct
      longTermBlockWeight := entry.longTermBlockWeight }
  some ⟨blocks, info, heights⟩

def remove : Option (Block × BlockTables) := do
  guard (tables.height ≠ 0)
  let block ← tables.blocks.find? (tables.height - 1)
  let info ← tables.info.find? (tables.height - 1)
  let heights ← tables.heights.erase info.hash
  let blocks ← tables.blocks.erase (tables.height - 1)
  let infos ← tables.info.erase (tables.height - 1)
  some (block, ⟨blocks, infos, heights⟩)

end BlockTables

structure TxIndex where
  txId : Nat
  unlockTime : Nat
  blockId : Nat
  deriving DecidableEq, Repr

/-- Every row of `txs_prunable_tip` is about a transaction that is stored. -/
@[ext]
structure TxTables where
  pruned : OrderedTable Nat Transaction
  prunable : OrderedTable Nat (Option PrunableData)
  prunableHash : OrderedTable Nat Hash
  prunableTip : OrderedTable Nat Nat
  indices : OrderedTable Hash TxIndex
  outputs : OrderedTable Nat (List Nat)
  tipStored : ∀ txId, (prunableTip.find? txId).isSome → (pruned.find? txId).isSome

namespace TxTables

def empty : TxTables where
  pruned := .empty
  prunable := .empty
  prunableHash := .empty
  prunableTip := .empty
  indices := .empty
  outputs := .empty
  tipStored := fun _ found => found

def addTip (tips : OrderedTable Nat Nat) (pruningSeed txId height : Nat) : OrderedTable Nat Nat :=
  if pruningSeed = 0 then tips else (tips.insertNew txId height).getD tips

theorem find?_addTip {tips : OrderedTable Nat Nat} {seed txId height other : Nat}
    (found : ((addTip tips seed txId height).find? other).isSome) :
    other = txId ∨ (tips.find? other).isSome := by
  unfold addTip at found
  split_ifs at found
  · exact Or.inr found
  · cases inserted : tips.insertNew txId height with
    | none =>
      rw [inserted] at found
      exact Or.inr found
    | some after =>
      rw [inserted, Option.getD_some, find?_insertNew inserted] at found
      split_ifs at found with same
      · exact Or.inl same
      · exact Or.inr found

theorem tipStored_addTip {tables : TxTables} {pruned : OrderedTable Nat Transaction}
    {txId : Nat} {base : Transaction} (appended : tables.pruned.append txId base = some pruned)
    (seed height other : Nat)
    (found : ((addTip tables.prunableTip seed txId height).find? other).isSome) :
    (pruned.find? other).isSome := by
  rw [find?_insertNew (append_insertNew appended)]
  rcases find?_addTip found with same | stored
  · rw [if_pos same]
    rfl
  · split_ifs
    · rfl
    · exact tables.tipStored other stored

def addPrunableHash (senv : StorageEnv) (hashes : OrderedTable Nat Hash)
    (txId : Nat) (tx : Transaction) : Option (OrderedTable Nat Hash) :=
  if 1 < tx.version then hashes.append txId (senv.getTransactionPrunableHash tx)
  else some hashes

def removePrunableHash (hashes : OrderedTable Nat Hash) (txId : Nat)
    (tx : Transaction) : Option (OrderedTable Nat Hash) :=
  if 1 < tx.version then hashes.erase txId else some hashes

/-- `add_transaction_data`; a transaction of a version that cannot be
serialized is refused. -/
def addData (senv : StorageEnv) (tables : TxTables)
    (pruningSeed height : Nat) (tx : Transaction) (txHash : Hash) : Option TxTables :=
  let txId := tables.pruned.size
  if tx.version = 0 ∨ 2 < tx.version then none
  else
    match appended : tables.pruned.append txId tx.base with
    | none => none
    | some pruned => do
        let indices ← tables.indices.insertNew txHash ⟨txId, tx.unlockTime, height⟩
        let prunable ← tables.prunable.append txId
          (if tx.pruned then none else some tx.prunableData)
        let prunableHash ← addPrunableHash senv tables.prunableHash txId tx
        some
          { pruned := pruned
            prunable := prunable
            prunableHash := prunableHash
            prunableTip := addTip tables.prunableTip pruningSeed txId height
            indices := indices
            outputs := tables.outputs
            tipStored := tipStored_addTip appended pruningSeed height }

variable (tables : TxTables)

def addOutputIndices (txId : Nat) (indices : List Nat) : Option TxTables :=
  (tables.outputs.append txId indices).map fun outputs => { tables with outputs := outputs }

theorem tipStored_discard (txId other : Nat)
    (found : ((tables.prunableTip.discard txId).find? other).isSome) :
    ((tables.pruned.discard txId).find? other).isSome := by
  rw [find?_discard] at found ⊢
  split_ifs at found ⊢
  · exact found
  · exact tables.tipStored other found

/-- `remove_transaction_data` up to the outputs. Without a row in `tx_outputs` the code reads an
uninitialized value. -/
def removeData (tx : Transaction) (txHash : Hash) : Option (List Nat × TxTables) := do
  let index ← tables.indices.find? txHash
  let _ ← tables.pruned.find? index.txId
  let prunableHash ← removePrunableHash tables.prunableHash index.txId tx
  let amountOutputIndices ← tables.outputs.find? index.txId
  let indices ← tables.indices.erase txHash
  some (amountOutputIndices,
      { pruned := tables.pruned.discard index.txId
        prunable := tables.prunable.discard index.txId
        prunableHash := prunableHash
        prunableTip := tables.prunableTip.discard index.txId
        indices := indices
        outputs := tables.outputs.discard index.txId
        tipStored := tables.tipStored_discard index.txId })

def getPrunedTx (txHash : Hash) : Option Transaction := do
  let index ← tables.indices.find? txHash
  tables.pruned.find? index.txId

/-- The transaction `pop_block` reads. The base is read alone only when a row is missing. -/
def getTxOrPruned (txHash : Hash) : Option Transaction := do
  let index ← tables.indices.find? txHash
  let base ← tables.pruned.find? index.txId
  match tables.prunable.find? index.txId with
  | some data => base.parse data
  | none => some base

end TxTables

/-! ## The output tables -/

open List Option

structure OutTx where
  txHash : Hash
  localIndex : Nat
  deriving DecidableEq, Repr

/-- `outkey` without its key; `pre_rct_outkey` has no commitment. -/
structure OutKey where
  outputId : Nat
  pubkey : PublicKey
  unlockTime : Nat
  height : Nat
  commitment : Option RctKey
  deriving DecidableEq, Repr

def getOutputPublicKey (out : TxOut) : Option PublicKey :=
  match out.target with
  | .toKey key => some key
  | .toTaggedKey key _ => some key
  | _ => none

@[ext]
structure OutputTables where
  outputTxs : OrderedTable Nat OutTx
  outputAmounts : OrderedTable (Nat ×ₗ Nat) OutKey

namespace OutputTables

def empty : OutputTables :=
  ⟨.empty, .empty⟩

variable (tables : OutputTables)

def numOutputs : Nat :=
  match tables.outputTxs.lastKey? with
  | none => 0
  | some outputId => outputId + 1

def rowsOf (amount : Nat) : List ((Nat ×ₗ Nat) × OutKey) :=
  tables.outputAmounts.rows.filter fun row => (ofLex row.1).1 == amount

def addOutput (height : Nat) (txHash : Hash)
    (unlockTime localIndex : Nat) (out : TxOut) (commitment : Option RctKey) :
    Option (Nat × OutputTables) := do
  let pubkey ← getOutputPublicKey out
  guard (out.amount = 0 → commitment.isSome)
  let outputId := tables.numOutputs
  let outputTxs ← tables.outputTxs.append outputId ⟨txHash, localIndex⟩
  let amount := out.amount.toNat
  let amountIndex := (tables.rowsOf amount).length
  guard (∀ row ∈ tables.rowsOf amount, (ofLex row.1).2 < amountIndex)
  let outputAmounts ← tables.outputAmounts.insertNew (toLex (amount, amountIndex))
    { outputId := outputId
      pubkey := pubkey
      unlockTime := unlockTime
      height := height
      commitment := if out.amount = 0 then commitment else none }
  some (amountIndex, ⟨outputTxs, outputAmounts⟩)

def addOutputs (height : Nat) (txHash : Hash) (unlockTime : Nat) :
    OutputTables → Nat → List (TxOut × Option RctKey) → Option (List Nat × OutputTables)
  | tables, _, [] => some ([], tables)
  | tables, localIndex, (out, commitment) :: rest => do
      let (amountIndex, filed) ← tables.addOutput height txHash unlockTime localIndex out commitment
      let (indices, after) ← addOutputs height txHash unlockTime filed (localIndex + 1) rest
      some (amountIndex :: indices, after)

def removeOutput (amount outIndex : Nat) : Option OutputTables := do
  let key ← tables.outputAmounts.find? (toLex (amount, outIndex))
  let outputTxs ← tables.outputTxs.erase key.outputId
  let outputAmounts ← tables.outputAmounts.erase (toLex (amount, outIndex))
  some ⟨outputTxs, outputAmounts⟩

def removeOutputs : OutputTables → List (Nat × Nat) → Option OutputTables
  | tables, [] => some tables
  | tables, (amount, outIndex) :: rest =>
    (tables.removeOutput amount outIndex).bind (removeOutputs · rest)

structure Filed (tables : OutputTables) (height : Nat) (txHash : Hash)
    (unlockTime localIndex : Nat) (out : TxOut) (commitment : Option RctKey)
    (amountIndex : Nat) (after : OutputTables) (pubkey : PublicKey) : Prop where
  publicKey : getOutputPublicKey out = some pubkey
  committed : out.amount = 0 → commitment.isSome
  index : amountIndex = (tables.rowsOf out.amount.toNat).length
  below : ∀ row ∈ tables.rowsOf out.amount.toNat, (ofLex row.1).2 < amountIndex
  listed : tables.outputTxs.append tables.numOutputs ⟨txHash, localIndex⟩ = some after.outputTxs
  recorded : tables.outputAmounts.insertNew (toLex (out.amount.toNat, amountIndex))
      { outputId := tables.numOutputs
        pubkey := pubkey
        unlockTime := unlockTime
        height := height
        commitment := if out.amount = 0 then commitment else none } =
    some after.outputAmounts

section

variable {tables after : OutputTables} {height : Nat} {txHash : Hash}
  {unlockTime localIndex : Nat} {out : TxOut} {commitment : Option RctKey} {amountIndex : Nat}

section

variable (added : tables.addOutput height txHash unlockTime localIndex out commitment = some
    (amountIndex, after))

include added

theorem addOutput_filed : ∃ pubkey, Filed tables height txHash unlockTime localIndex out commitment
      amountIndex after pubkey := by
  obtain ⟨pubkey, publicKey, added⟩ := bind_eq_some_iff.mp added
  obtain ⟨_, committed, added⟩ := bind_eq_some_iff.mp added
  obtain ⟨outputTxs, listed, added⟩ := bind_eq_some_iff.mp added
  obtain ⟨_, below, added⟩ := bind_eq_some_iff.mp added
  obtain ⟨outputAmounts, recorded, added⟩ := bind_eq_some_iff.mp added
  rw [some.injEq] at added
  obtain ⟨rfl, rfl⟩ := added
  exact ⟨pubkey, publicKey, (guard_eq_some' _).mp committed, rfl,
    (guard_eq_some' _).mp below, listed, recorded⟩

theorem removeOutput_addOutput : after.removeOutput out.amount.toNat amountIndex = some tables := by
  obtain ⟨pubkey, filed⟩ := addOutput_filed added
  unfold removeOutput
  rw [find?_insertNew filed.recorded, if_pos rfl]
  simp
  rw [erase_insertNew (append_insertNew filed.listed),
    erase_insertNew filed.recorded]
  rfl

end

theorem Filed.rowsOf {pubkey : PublicKey}
    (filed : Filed tables height txHash unlockTime localIndex out commitment
      amountIndex after pubkey) (amount : Nat) :
    after.rowsOf amount = if out.amount.toNat = amount then
        tables.rowsOf amount ++ [(toLex (amount, amountIndex),
          { outputId := tables.numOutputs
            pubkey := pubkey
            unlockTime := unlockTime
            height := height
            commitment := if out.amount = 0 then commitment else none })]
      else
        tables.rowsOf amount := by
  rw [OutputTables.rowsOf, insertNew_rows filed.recorded,
    filter_insertRow (fun key => (ofLex key).1 == amount) _ tables.outputAmounts.sorted]
  simp
  by_cases same : out.amount.toNat = amount
  · rw [if_pos same, if_pos same]
    subst same
    apply insertRow_of_forall_lt
    intro other mem
    have sameAmount := of_mem_filter mem
    rw [beq_iff_eq] at sameAmount
    exact Prod.Lex.lt_iff.mpr (Or.inr ⟨sameAmount, filed.below other mem⟩)
  · rw [if_neg same, if_neg same, OutputTables.rowsOf]

theorem removeOutput_length {outIndex amount other : Nat}
    (removed : tables.removeOutput amount outIndex = some after) :
    (after.rowsOf other).length + [amount].count other = (tables.rowsOf other).length := by
  obtain ⟨key, found, removed⟩ := bind_eq_some_iff.mp removed
  obtain ⟨outputTxs, _, removed⟩ := bind_eq_some_iff.mp removed
  obtain ⟨outputAmounts, erased, removed⟩ := bind_eq_some_iff.mp removed
  rw [← some.inj removed]
  have inserted := insertNew_erase found erased
  rw [OutputTables.rowsOf, OutputTables.rowsOf, insertNew_rows inserted,
    filter_insertRow (fun key => (ofLex key).1 == other) _ outputAmounts.sorted]
  rw [count_singleton, ofLex_toLex]
  by_cases same : (amount == other) = true
  · rw [if_pos same, if_pos same, length_insertRow]
  · rw [if_neg same, if_neg same, add_zero]

end

theorem removeOutputs_append (tables : OutputTables) (first rest : List (Nat × Nat)) :
    tables.removeOutputs (first ++ rest) =
      (tables.removeOutputs first).bind (removeOutputs · rest) := by
  induction first generalizing tables with
  | nil => rfl
  | cons key first ih =>
    rw [cons_append, removeOutputs, removeOutputs, bind_assoc]
    congr 1
    funext removed
    exact ih removed

theorem removeOutputs_length {tables after : OutputTables} {keys : List (Nat × Nat)} (amount : Nat)
    (removed : tables.removeOutputs keys = some after) :
    (after.rowsOf amount).length + (keys.map Prod.fst).count amount =
      (tables.rowsOf amount).length := by
  induction keys generalizing tables with
  | nil => rw [some.inj removed]; rfl
  | cons key rest ih =>
    obtain ⟨middle, first, others⟩ := bind_eq_some_iff.mp removed
    have tail := ih others
    have head := @removeOutput_length _ _ _ _ amount first
    rw [map_cons, count_cons]
    rw [count_singleton] at head
    omega

section

variable {height : Nat} {txHash : Hash} {unlockTime : Nat}
  {tables after : OutputTables} {localIndex : Nat} {indices : List Nat}

theorem addOutputs_cons {out : TxOut} {commitment : Option RctKey}
    {rest : List (TxOut × Option RctKey)}
    (added : addOutputs height txHash unlockTime tables localIndex
      ((out, commitment) :: rest) = some (indices, after)) : ∃ amountIndex filed others,
      tables.addOutput height txHash unlockTime localIndex out commitment =
          some (amountIndex, filed) ∧
        addOutputs height txHash unlockTime filed (localIndex + 1) rest = some (others, after) ∧
        indices = amountIndex :: others := by
  obtain ⟨⟨amountIndex, filed⟩, head, added⟩ := bind_eq_some_iff.mp added
  obtain ⟨⟨others, final⟩, tail, added⟩ := bind_eq_some_iff.mp added
  rw [some.injEq] at added
  obtain ⟨rfl, rfl⟩ := added
  exact ⟨amountIndex, filed, others, head, tail, rfl⟩

def filedAmounts (outputs : List (TxOut × Option RctKey)) : List Nat :=
  outputs.map fun output => output.1.amount.toNat

section

variable {outputs : List (TxOut × Option RctKey)}
  (added : addOutputs height txHash unlockTime tables localIndex outputs = some (indices, after))

include added

theorem addOutputs_indices_length : indices.length = outputs.length := by
  induction outputs generalizing tables localIndex indices with
  | nil =>
    rw [addOutputs, some.injEq, Prod.mk.injEq] at added
    rw [← added.1]
    rfl
  | cons output rest ih =>
    obtain ⟨amountIndex, filed, others, _, tail, rfl⟩ := addOutputs_cons added
    rw [length_cons, length_cons, ih tail]

theorem removeOutputs_addOutputs :
    after.removeOutputs ((filedAmounts outputs).zip indices).reverse = some tables := by
  induction outputs generalizing tables localIndex indices with
  | nil =>
    rw [addOutputs, some.injEq, Prod.mk.injEq] at added
    rw [← added.2]
    rfl
  | cons output rest ih =>
    obtain ⟨amountIndex, filed, others, head, tail, rfl⟩ := addOutputs_cons added
    rw [filedAmounts, map_cons, zip_cons_cons, reverse_cons, removeOutputs_append]
    rw [← filedAmounts, ih tail, bind_some, removeOutputs, removeOutput_addOutput head]
    rfl

end

end

end OutputTables

/-! ## Transactions and blocks -/

def TxIn.isGen : TxIn → Bool
  | gen _ => true
  | _ => false

def TxIn.keyImage? : TxIn → Option KeyImage
  | toKey _ _ keyImage => some keyImage
  | _ => none

namespace Transaction

def isMinerTx (tx : Transaction) : Bool :=
  tx.vin.any TxIn.isGen

/-- Outputs of a version 2 miner transaction are filed as outputs without an amount. -/
def filedOutputs (senv : StorageEnv) (tx : Transaction) : List (TxOut × Option RctKey) :=
  tx.vout.mapIdx fun index out => if tx.isMinerTx ∧ tx.version = 2 then
      ({ out with amount := 0 }, some (senv.zeroCommit out.amount))
    else (out, if 1 < tx.version then (senv.outPk tx)[index]? else none)

def isPseudoRct (tx : Transaction) : Bool :=
  2 ≤ tx.version ∧ tx.vin.length = 1 ∧ tx.isMinerTx

def removedAmounts (tx : Transaction) : List Nat :=
  tx.vout.map fun out => if tx.isPseudoRct then 0 else out.amount.toNat

end Transaction

@[ext]
structure Lmdb where
  blocks : BlockTables
  txs : TxTables
  outputs : OutputTables
  spentKeys : OrderedTable KeyImage Unit
  pruningSeed : Nat

namespace Lmdb

def empty (pruningSeed : Nat) : Lmdb :=
  ⟨.empty, .empty, .empty, .empty, pruningSeed⟩

def height (db : Lmdb) : Nat :=
  db.blocks.height

/-- An input of another type than a key or a generated amount is an error. -/
def addSpentKeys : OrderedTable KeyImage Unit → List TxIn → Option (OrderedTable KeyImage Unit)
  | spent, [] => some spent
  | spent, .toKey _ _ keyImage :: rest => (spent.insertNew keyImage ()).bind (addSpentKeys · rest)
  | spent, .gen _ :: rest => addSpentKeys spent rest
  | _, .toScript _ _ _ :: _ => none
  | _, .toScriptHash _ _ _ _ _ :: _ => none

def removeSpentKeys : OrderedTable KeyImage Unit → List TxIn → OrderedTable KeyImage Unit
  | spent, [] => spent
  | spent, .toKey _ _ keyImage :: rest => removeSpentKeys (spent.discard keyImage) rest
  | spent, _ :: rest => removeSpentKeys spent rest

variable (senv : StorageEnv)

def addTransaction (db : Lmdb) (tx : Transaction) (txHash : Hash) : Option Lmdb := do
  let spentKeys ← addSpentKeys db.spentKeys tx.vin
  let txId := db.txs.pruned.size
  let data ← db.txs.addData senv db.pruningSeed db.height tx txHash
  let (amountOutputIndices, outputs) ← OutputTables.addOutputs db.height txHash
    tx.unlockTime db.outputs 0 (tx.filedOutputs senv)
  let txs ← data.addOutputIndices txId amountOutputIndices
  some { db with txs := txs, outputs := outputs, spentKeys := spentKeys }

def addTransactions (senv : StorageEnv) : Lmdb → List (Transaction × Hash) → Option Lmdb
  | db, [] => some db
  | db, (tx, txHash) :: rest =>
    (db.addTransaction senv tx txHash).bind (addTransactions senv · rest)

def numRctOuts (entry : BlockEntry) : Nat :=
  (if entry.bl.minerTx.version = 2 then entry.bl.minerTx.vout.length else 0) +
    (entry.txs.map fun tx => tx.vout.countP fun out => out.amount == 0).sum

def storedTransactions (entry : BlockEntry) : List (Transaction × Hash) :=
  (entry.bl.minerTx, senv.getTransactionHash entry.bl.minerTx) :: entry.txs.zip entry.bl.txHashes

def addBlock (db : Lmdb) (entry : BlockEntry) : Option Lmdb := do
  guard (entry.bl.txHashes.length = entry.txs.length)
  let stored ← db.addTransactions senv (storedTransactions senv entry)
  let blocks ← stored.blocks.add entry (numRctOuts entry) (senv.getBlockHash entry.bl)
  some { stored with blocks := blocks }

/-- `BlockchainDB::remove_transaction`, which may read past the list of amount indices. -/
def removeTransaction (db : Lmdb) (txHash : Hash) : Option Lmdb := do
  let tx ← db.txs.getPrunedTx txHash
  let (amountOutputIndices, txs) ← db.txs.removeData tx txHash
  guard (tx.vout.length ≤ amountOutputIndices.length)
  let outputs ← db.outputs.removeOutputs (tx.removedAmounts.zip amountOutputIndices).reverse
  some { db with
      txs := txs
      outputs := outputs
      spentKeys := removeSpentKeys db.spentKeys tx.vin }

def popTransactions : Lmdb → List Hash → Option (List Transaction × Lmdb)
  | db, [] => some ([], db)
  | db, txHash :: rest => do
      let tx ← db.txs.getTxOrPruned txHash
      let removed ← db.removeTransaction txHash
      let (txs, after) ← popTransactions removed rest
      some (tx :: txs, after)

def popBlock (db : Lmdb) : Option (Block × List Transaction × Lmdb) := do
  let (block, blocks) ← db.blocks.remove
  let (txs, popped) ← { db with blocks := blocks }.popTransactions block.txHashes.reverse
  let after ← popped.removeTransaction (senv.getTransactionHash block.minerTx)
  some (block, txs, after)

end Lmdb

/-! ## Removing what was added -/

namespace Lmdb

/-- The key images are new and distinct, and the spent keys grew by exactly these. -/
structure SpentBy (spent : OrderedTable KeyImage Unit) (inputs : List TxIn)
    (after : OrderedTable KeyImage Unit) : Prop where
  distinct : (inputs.filterMap TxIn.keyImage?).Nodup
  unspent : ∀ keyImage ∈ inputs.filterMap TxIn.keyImage?, spent.find? keyImage = none
  find : ∀ keyImage, after.find? keyImage =
    if keyImage ∈ inputs.filterMap TxIn.keyImage? then some ()
    else spent.find? keyImage

variable {spent after : OrderedTable KeyImage Unit} {inputs : List TxIn}

theorem addSpentKeys_spentBy (added : addSpentKeys spent inputs = some after) :
    SpentBy spent inputs after := by
  induction inputs generalizing spent with
  | nil =>
    rw [← Option.some.inj added]
    exact ⟨List.nodup_nil, by simp, by simp⟩
  | cons input rest ih =>
    cases input with
    | gen height => exact ⟨(ih added).distinct, (ih added).unspent, (ih added).find⟩
    | toScript prev prevout sigset => cases added
    | toScriptHash => cases added
    | toKey amount offsets keyImage =>
      obtain ⟨middle, inserted, others⟩ := bind_eq_some_iff.mp added
      have tail := ih others
      have images : (TxIn.toKey amount offsets keyImage :: rest).filterMap
          TxIn.keyImage? = keyImage :: rest.filterMap TxIn.keyImage? := rfl
      have fresh : keyImage ∉ rest.filterMap TxIn.keyImage? := by
        intro repeated
        have unspent := tail.unspent keyImage repeated
        rw [find?_insertNew inserted, if_pos rfl] at unspent
        cases unspent
      refine ⟨?_, ?_, ?_⟩
      · rw [images]
        exact List.nodup_cons.mpr ⟨fresh, tail.distinct⟩
      · rw [images]
        intro other mem
        rcases List.mem_cons.mp mem with rfl | later
        · exact insertNew_absent inserted
        · have unspent := tail.unspent other later
          rw [find?_insertNew inserted] at unspent
          split_ifs at unspent
          exact unspent
      · intro other
        rw [images, tail.find, find?_insertNew inserted]
        by_cases same : other = keyImage
        · simp [same]
        · simp [same]

theorem find?_removeSpentKeys (spent : OrderedTable KeyImage Unit)
    (inputs : List TxIn) (keyImage : KeyImage) :
    (removeSpentKeys spent inputs).find? keyImage =
      if keyImage ∈ inputs.filterMap TxIn.keyImage? then none
      else spent.find? keyImage := by
  induction inputs generalizing spent with
  | nil => rfl
  | cons input rest ih =>
    cases input with
    | gen height => exact ih spent
    | toScript prev prevout sigset => exact ih spent
    | toScriptHash => exact ih spent
    | toKey amount offsets image =>
      have images : (TxIn.toKey amount offsets image :: rest).filterMap
          TxIn.keyImage? = image :: rest.filterMap TxIn.keyImage? := rfl
      rw [removeSpentKeys, ih, find?_discard, images]
      by_cases same : keyImage = image
      · simp [same]
      · simp [same]

theorem SpentBy.removeSpentKeys (added : SpentBy spent inputs after) :
    removeSpentKeys after inputs = spent := by
  apply ext_find?
  intro keyImage
  rw [find?_removeSpentKeys, added.find]
  split_ifs with mem
  · exact (added.unspent keyImage mem).symm
  · rfl

end Lmdb

namespace TxTables

structure Stored (senv : StorageEnv) (tables : TxTables)
    (pruningSeed height : Nat) (tx : Transaction) (txHash : Hash)
    (indices : List Nat) (after : TxTables) : Prop where
  version : tx.version = 1 ∨ tx.version = 2
  pruned : tables.pruned.append tables.pruned.size tx.base = some after.pruned
  prunable : tables.prunable.append tables.pruned.size
    (if tx.pruned then none else some tx.prunableData) = some after.prunable
  prunableHash : addPrunableHash senv tables.prunableHash tables.pruned.size
    tx = some after.prunableHash
  prunableTip : after.prunableTip = addTip tables.prunableTip pruningSeed tables.pruned.size height
  indexed : tables.indices.insertNew txHash
    ⟨tables.pruned.size, tx.unlockTime, height⟩ = some after.indices
  outputs : tables.outputs.append tables.pruned.size indices = some after.outputs

theorem addData_stored {senv : StorageEnv} {tables data after : TxTables}
    {pruningSeed height : Nat} {tx : Transaction} {txHash : Hash} {indices : List Nat}
    (added : tables.addData senv pruningSeed height tx txHash = some data)
    (outputsAdded : data.addOutputIndices tables.pruned.size indices = some after) :
    Stored senv tables pruningSeed height tx txHash indices after := by
  unfold addData at added
  by_cases version : tx.version = 0 ∨ 2 < tx.version
  · rw [if_pos version] at added
    cases added
  rw [if_neg version] at added
  split at added
  · cases added
  case _ pruned appended =>
    obtain ⟨indexTable, indexed, added⟩ := bind_eq_some_iff.mp added
    obtain ⟨prunable, prunableAdded, added⟩ := bind_eq_some_iff.mp added
    obtain ⟨prunableHash, hashAdded, added⟩ := bind_eq_some_iff.mp added
    rw [← Option.some.inj added] at outputsAdded
    obtain ⟨outputs, outputsAppended, same⟩ := map_eq_some_iff.mp outputsAdded
    rw [← same]
    exact ⟨by omega, appended, prunableAdded, hashAdded, rfl, indexed, outputsAppended⟩

section

variable {senv : StorageEnv} {tables after : TxTables}
  {pruningSeed height : Nat} {tx : Transaction} {txHash : Hash} {indices : List Nat}

section

variable (stored : Stored senv tables pruningSeed height tx txHash indices after)

include stored

theorem Stored.find?_indices :
    after.indices.find? txHash = some ⟨tables.pruned.size, tx.unlockTime, height⟩ := by
  rw [find?_insertNew stored.indexed, if_pos rfl]

theorem Stored.find?_pruned : after.pruned.find? tables.pruned.size = some tx.base := by
  rw [find?_insertNew (append_insertNew stored.pruned), if_pos rfl]

theorem Stored.getPrunedTx : after.getPrunedTx txHash = some tx.base := by
  rw [TxTables.getPrunedTx, stored.find?_indices, bind_eq_bind, bind_some, stored.find?_pruned]

theorem Stored.getTxOrPruned : after.getTxOrPruned txHash =
      tx.base.parse (if tx.pruned then none else some tx.prunableData) := by
  rw [TxTables.getTxOrPruned, stored.find?_indices, bind_eq_bind,
    bind_some, stored.find?_pruned, bind_eq_bind,
    bind_some, find?_insertNew (append_insertNew stored.prunable),
    if_pos rfl]

theorem Stored.discard_prunableTip :
    after.prunableTip.discard tables.pruned.size = tables.prunableTip := by
  have absent : tables.prunableTip.find? tables.pruned.size = none := by
    have unstored := insertNew_absent (append_insertNew stored.pruned)
    rw [← not_isSome_iff_eq_none] at unstored ⊢
    intro found
    exact unstored (tables.tipStored _ found)
  rw [stored.prunableTip, addTip]
  split_ifs
  · exact discard_of_absent absent
  · obtain ⟨tips, inserted⟩ := insertNew_of_absent absent
    rw [inserted]
    exact discard_insertNew inserted

theorem Stored.removePrunableHash :
    removePrunableHash after.prunableHash tables.pruned.size tx.base =
      some tables.prunableHash := by
  have hashed := stored.prunableHash
  have version : tx.base.version = tx.version := rfl
  rw [TxTables.removePrunableHash, version]
  rw [addPrunableHash] at hashed
  split_ifs at hashed ⊢
  · exact erase_insertNew (append_insertNew hashed)
  · exact hashed.symm

theorem Stored.removeData : after.removeData tx.base txHash = some (indices, tables) := by
  have outputsFound : after.outputs.find? tables.pruned.size = some indices := by
    rw [find?_insertNew (append_insertNew stored.outputs), if_pos rfl]
  unfold TxTables.removeData
  simp [stored.find?_indices, stored.find?_pruned, stored.removePrunableHash, outputsFound,
    erase_insertNew stored.indexed]
  ext1
  · exact discard_insertNew (append_insertNew stored.pruned)
  · exact discard_insertNew (append_insertNew stored.prunable)
  · rfl
  · exact stored.discard_prunableTip
  · rfl
  · exact discard_insertNew (append_insertNew stored.outputs)

end

end

end TxTables

namespace BlockTables

structure Added (tables : BlockTables) (entry : BlockEntry) (numRctOuts : Nat)
    (blockHash : Hash) (cumRct : Nat) (after : BlockTables) : Prop where
  heights : tables.heights.insertNew blockHash tables.height =
    some after.heights
  blocks : tables.blocks.append tables.height entry.bl = some after.blocks
  counted : tables.cumRct entry.bl numRctOuts = some cumRct
  info : tables.info.append tables.height
      { height := tables.height
        timestamp := entry.bl.timestamp
        coins := entry.alreadyGeneratedCoins
        weight := entry.blockWeight
        cumulativeDifficulty := entry.cumulativeDifficulty
        hash := blockHash
        cumRct := cumRct
        longTermBlockWeight := entry.longTermBlockWeight } =
    some after.info

section

variable {tables after : BlockTables} {entry : BlockEntry} {numRctOuts : Nat} {blockHash : Hash}

theorem add_added (added : tables.add entry numRctOuts blockHash = some after) :
    ∃ cumRct, Added tables entry numRctOuts blockHash cumRct after := by
  obtain ⟨heights, heightAdded, added⟩ := bind_eq_some_iff.mp added
  obtain ⟨_, _, added⟩ := bind_eq_some_iff.mp added
  obtain ⟨blocks, blockAdded, added⟩ := bind_eq_some_iff.mp added
  obtain ⟨cumRct, counted, added⟩ := bind_eq_some_iff.mp added
  obtain ⟨info, infoAdded, added⟩ := bind_eq_some_iff.mp added
  rw [← Option.some.inj added]
  exact ⟨cumRct, heightAdded, blockAdded, counted, infoAdded⟩

variable {cumRct : Nat}

theorem Added.height (added : Added tables entry numRctOuts blockHash cumRct after) :
    after.height = tables.height + 1 :=
  insertNew_size (append_insertNew added.blocks)

theorem Added.remove (added : Added tables entry numRctOuts blockHash cumRct after) :
    after.remove = some (entry.bl, tables) := by
  have top : after.height - 1 = tables.height := by rw [added.height, Nat.add_sub_cancel]
  have ne : after.height ≠ 0 := by
    rw [added.height]
    exact Nat.succ_ne_zero _
  unfold BlockTables.remove
  rw [(guard_eq_some' ()).mpr ne, top,
    find?_insertNew (append_insertNew added.blocks), if_pos rfl,
    find?_insertNew (append_insertNew added.info), if_pos rfl]
  simp [erase_insertNew added.heights, erase_insertNew (append_insertNew added.blocks),
    erase_insertNew (append_insertNew added.info)]

end

end BlockTables

end LodeChain

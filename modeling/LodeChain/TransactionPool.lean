import LodeChain.Transaction
import LodeChain.ListFacts
import LodeChain.OrderedTable

/-!
# The transaction pool

`tx_memory_pool`: transactions, spent key images, the order by fee and the incremental lists. Every
operation on them is a sequence of a few kinds of moves.
-/

namespace LodeChain

inductive RelayMethod where
  | none
  | localRelay
  | forward
  | stem
  | fluff
  | block
  deriving DecidableEq, Repr

namespace RelayMethod

def rank : RelayMethod → Nat
  | none => 0
  | localRelay => 1
  | forward => 2
  | stem => 3
  | fluff => 4
  | block => 5

def matchesBroadcasted : RelayMethod → Bool
  | block | fluff => true
  | _ => false

def matchesLegacy : RelayMethod → Bool
  | block | fluff | none => true
  | _ => false

end RelayMethod

/-- `txpool_tx_meta_t`.  The five flag bits that encode the relay method are
one field. -/
structure TxpoolTxMeta where
  maxUsedBlockId : Hash
  lastFailedId : Hash
  weight : Nat
  fee : Nat
  maxUsedBlockHeight : Nat
  lastFailedHeight : Nat
  receiveTime : Nat
  lastRelayedTime : Nat
  relayMethod : RelayMethod
  relayed : Bool
  doubleSpendSeen : Bool
  pruned : Bool
  deriving DecidableEq, Repr

def TxpoolTxMeta.keptByBlock (txMeta : TxpoolTxMeta) : Bool :=
  txMeta.relayMethod = .block

structure PoolEntry where
  txMeta : TxpoolTxMeta
  tx : Transaction
  deriving DecidableEq, Repr

structure FeeOrderEntry where
  feePerByte : Nat
  receiveTime : Nat
  txid : Hash
  deriving DecidableEq, Repr

/-- The order `txCompare`: greatest fee first, then the oldest, then by id. -/
def FeeOrderEntry.before (left right : FeeOrderEntry) : Bool :=
  if left.feePerByte ≠ right.feePerByte then right.feePerByte < left.feePerByte
  else if left.receiveTime ≠ right.receiveTime then left.receiveTime < right.receiveTime
  else left.txid < right.txid

structure RemovedTx where
  time : Nat
  txid : Hash
  sensitive : Bool
  deriving DecidableEq, Repr

structure TxMemoryPool where
  txpool : AList fun _ : Hash => PoolEntry
  txsByFeeAndReceiveTime : List FeeOrderEntry
  spentKeyImages : AList fun _ : KeyImage => List Hash
  timedOutTransactions : List Hash
  txpoolWeight : Nat
  txpoolMaxWeight : Nat
  cookie : Nat
  mineStemTxes : Bool
  addedTxsById : AList fun _ : Hash => Nat
  addedTxsStartTime : Nat
  removedTxsByTime : List RemovedTx
  removedTxsStartTime : Nat

def TxMemoryPool.empty : TxMemoryPool where
  txpool := ∅
  txsByFeeAndReceiveTime := []
  spentKeyImages := ∅
  timedOutTransactions := []
  txpoolWeight := 0
  txpoolMaxWeight := 648000000
  cookie := 0
  mineStemTxes := false
  addedTxsById := ∅
  addedTxsStartTime := 0
  removedTxsByTime := []
  removedTxsStartTime := 0

/-- `feePerByte` numbers the quotients `fee / (double) weight` in order; `forwardTime` is the
randomized time of a forwarded transaction. -/
structure ChainView where
  now : Nat
  forwardTime : Nat
  height : Nat
  checkFee : Nat → Nat → Bool
  checkTxOutputs : Transaction → Bool
  checkTxInputs : Transaction → Bool → Option (Nat × Hash)
  haveTxKeyimgesAsSpent : Transaction → Bool
  getBlockIdByHeight : Nat → Hash
  feePerByte : Nat → Nat → Nat

namespace TxMemoryPool

variable (pool : TxMemoryPool)

def txMatchesLegacy (txid : Hash) : Bool :=
  match pool.txpool.lookup txid with
  | none => false
  | some poolEntry => poolEntry.txMeta.relayMethod.matchesLegacy

def haveTx (txid : Hash) : Bool :=
  (pool.txpool.lookup txid).isSome

def haveTxKeyimgAsSpent (keyImage : KeyImage) (txid : Hash) : Bool :=
  match pool.spentKeyImages.lookup keyImage with
  | none | some [] => false
  | some [spender] =>
    if spender ≠ txid then true
    else pool.txMatchesLegacy txid
  | some _ => true

def haveTxKeyimgesAsSpent (tx : Transaction) (txid : Hash) : Bool :=
  tx.vin.any fun
    | .toKey _ _ keyImage => pool.haveTxKeyimgAsSpent keyImage txid
    | _ => true

/-- The counter is set to 0 where it would underflow. -/
def reduceTxpoolWeight (weight : Nat) : TxMemoryPool :=
  { pool with txpoolWeight := pool.txpoolWeight - weight }

def insertFeeOrder (element : FeeOrderEntry) : List FeeOrderEntry → List FeeOrderEntry
  | [] => [element]
  | head :: tail =>
    if element = head then head :: tail
    else if element.before head then element :: head :: tail
    else head :: insertFeeOrder element tail

def findTxInSortedContainer (txid : Hash) : Option FeeOrderEntry :=
  pool.txsByFeeAndReceiveTime.find? fun element => element.txid == txid

def eraseSorted (position : Option FeeOrderEntry) : List FeeOrderEntry :=
  match position with
  | none => pool.txsByFeeAndReceiveTime
  | some element => pool.txsByFeeAndReceiveTime.erase element

variable (view : ChainView)

def addTxToTransientLists (txid : Hash) (feePerByte receiveTime : Nat) : TxMemoryPool :=
  let remaining := if (pool.addedTxsById.lookup txid).isSome then
      pool.eraseSorted (pool.findTxInSortedContainer txid)
    else pool.txsByFeeAndReceiveTime
  { pool with
    addedTxsById := pool.addedTxsById.insert txid view.now
    txsByFeeAndReceiveTime := insertFeeOrder ⟨feePerByte, receiveTime, txid⟩ remaining
    addedTxsStartTime := if pool.addedTxsStartTime = 0 then view.now else pool.addedTxsStartTime }

def insertRemoved (removed : RemovedTx) : List RemovedTx → List RemovedTx
  | [] => [removed]
  | head :: tail =>
    if removed.time < head.time then removed :: head :: tail
    else head :: insertRemoved removed tail

def trackRemovedTx (txid : Hash) (sensitive : Bool) : TxMemoryPool :=
  let removed := insertRemoved ⟨view.now, txid, sensitive⟩ pool.removedTxsByTime
  let startTime := if pool.removedTxsStartTime = 0 then view.now
    else pool.removedTxsStartTime
  let maxRemoved := 20000
  if maxRemoved < removed.length then
    let kept := removed.drop (maxRemoved / 4 + 1)
    { pool with
      removedTxsByTime := kept
      removedTxsStartTime := match kept with
        | [] => startTime
        | first :: _ => first.time }
  else
    let earliest := view.now - 30 * 60
    if removed.any fun entry => entry.time < earliest then
      { pool with
        removedTxsByTime := removed.dropWhile fun entry => entry.time < earliest
        removedTxsStartTime := earliest }
    else
      { pool with
        removedTxsByTime := removed
        removedTxsStartTime := startTime }

def removeTxFromTransientLists (position : Option FeeOrderEntry) (txid : Hash) (sensitive : Bool) :
    TxMemoryPool :=
  let erased : TxMemoryPool := { pool with
      txsByFeeAndReceiveTime := pool.eraseSorted position
      addedTxsById := pool.addedTxsById.erase txid }
  erased.trackRemovedTx view txid sensitive

def insertKeyImagesFrom (pool : TxMemoryPool) (txid : Hash)
    (txRelay : RelayMethod) : List TxIn → TxMemoryPool × Bool
  | [] => ({ pool with cookie := pool.cookie + 1 }, true)
  | .toKey _ _ keyImage :: rest =>
    let spenders := (pool.spentKeyImages.lookup keyImage).getD []
    if txRelay ≠ .block ∧ ¬ (spenders = [] ∨ spenders = [txid]) then (pool, false)
    else
      let inserted : TxMemoryPool := { pool with
          spentKeyImages := pool.spentKeyImages.insert keyImage
            (if txid ∈ spenders then spenders else txid :: spenders) }
      if txid ∈ spenders ∧ pool.txMatchesLegacy txid then (inserted, false)
      else insertKeyImagesFrom inserted txid txRelay rest
  | _ :: _ => (pool, false)

def insertKeyImages (tx : Transaction) (txid : Hash)
    (txRelay : RelayMethod) : TxMemoryPool × Bool :=
  pool.insertKeyImagesFrom txid txRelay tx.vin

/-- The loop stops at the first input whose key image is not indexed. -/
def removeTransactionKeyimagesFrom (pool : TxMemoryPool) (txid : Hash) : List TxIn → TxMemoryPool
  | [] => { pool with cookie := pool.cookie + 1 }
  | .toKey _ _ keyImage :: rest =>
    match pool.spentKeyImages.lookup keyImage with
    | none => pool
    | some spenders =>
      if txid ∈ spenders then
        let remaining := spenders.erase txid
        removeTransactionKeyimagesFrom { pool with
            spentKeyImages := if remaining = [] then pool.spentKeyImages.erase keyImage
              else pool.spentKeyImages.insert keyImage remaining }
          txid rest
      else pool
  | _ :: _ => pool

def removeTransactionKeyimages (tx : Transaction) (txid : Hash) : TxMemoryPool :=
  pool.removeTransactionKeyimagesFrom txid tx.vin

def removeEntry (position : Option FeeOrderEntry) (txid : Hash) (poolEntry : PoolEntry) :
    TxMemoryPool :=
  let removed : TxMemoryPool := { pool with txpool := pool.txpool.erase txid }
  let reduced := removed.reduceTxpoolWeight poolEntry.txMeta.weight
  let freed := reduced.removeTransactionKeyimages poolEntry.tx txid
  freed.removeTxFromTransientLists view position txid
    (!poolEntry.txMeta.relayMethod.matchesBroadcasted)

def takeTx (txid : Hash) : Option (PoolEntry × TxMemoryPool) :=
  match pool.txpool.lookup txid with
  | none => none
  | some poolEntry =>
    let removed := pool.removeEntry view (pool.findTxInSortedContainer txid) txid poolEntry
    some (poolEntry, { removed with cookie := removed.cookie + 1 })

/-- The loop of `prune`; the first element is never removed. -/
def pruneFrom (bytes : Nat) (view : ChainView) :
    List FeeOrderEntry → TxMemoryPool × Bool → TxMemoryPool × Bool
  | [], state => state
  | element :: rest, (pool, changed) =>
    if pool.txpoolWeight ≤ bytes then (pool, changed)
    else
      match pool.txpool.lookup element.txid with
      | none => pruneFrom bytes view rest (pool, changed)
      | some poolEntry =>
        if poolEntry.txMeta.keptByBlock then pruneFrom bytes view rest (pool, changed)
        else
          pruneFrom bytes view rest (pool.removeEntry view (some element) element.txid poolEntry,
              true)

def prune (bytes : Nat) : TxMemoryPool :=
  let bytes := if bytes = 0 then pool.txpoolMaxWeight else bytes
  let (pruned, changed) :=
    pruneFrom bytes view pool.txsByFeeAndReceiveTime.tail.reverse (pool, false)
  if changed then { pruned with cookie := pruned.cookie + 1 }
  else pruned

def getTransactionWeightLimit (version : Nat) : Nat :=
  if 8 ≤ version then getMinBlockWeight version / 2 - coinbaseBlobReservedSize
  else getMinBlockWeight version - coinbaseBlobReservedSize

/-- The fee computed at the head of `add_tx`; `none` rejects the
transaction. -/
def addTxFee (tx : Transaction) : Option Nat :=
  if tx.version = 1 then
    match getInputsMoneyAmount tx with
    | none => none
    | some inputsAmount =>
      if inputsAmount ≤ getOutsMoneyAmount tx then none
      else some (inputsAmount - getOutsMoneyAmount tx)
  else some tx.rctSignatures.txnFee.toNat

def markEntry (txpool : AList fun _ : Hash => PoolEntry) (txid : Hash) :
    AList fun _ : Hash => PoolEntry :=
  match txpool.lookup txid with
  | none => txpool
  | some poolEntry =>
    txpool.insert txid { poolEntry with
        txMeta := { poolEntry.txMeta with doubleSpendSeen := true } }

def markDoubleSpend (tx : Transaction) : TxMemoryPool :=
  let spenders := tx.keyImages.flatMap fun keyImage => (pool.spentKeyImages.lookup keyImage).getD []
  let unmarked := spenders.filter fun txid => (pool.txpool.lookup txid).any fun poolEntry =>
      !poolEntry.txMeta.doubleSpendSeen
  if unmarked = [] then pool
  else
    { pool with
      txpool := unmarked.foldl markEntry pool.txpool
      cookie := pool.cookie + 1 }

/-- The checks of `add_tx` that reject before anything is stored, apart from the double-spend
check. -/
def addTxRejects (tx : Transaction)
    (txid : Hash) (txWeight fee version : Nat) (keptByBlock : Bool) : Bool :=
  (!keptByBlock && decide (txid ∈ pool.timedOutTransactions)) ||
  (!keptByBlock && !view.checkFee txWeight fee) ||
  ((!keptByBlock || decide (hfVersionPerByteFee ≤ version)) &&
    decide (getTransactionWeightLimit version < txWeight)) ||
  (!keptByBlock && decide (maxTxExtraSize < tx.extra.length))

def storeEntry (txid : Hash) (poolEntry : PoolEntry) (txWeight : Nat) : TxMemoryPool :=
  let stored : TxMemoryPool := { pool with txpool := pool.txpool.insert txid poolEntry }
  stored.addTxToTransientLists view txid
    (view.feePerByte poolEntry.txMeta.fee (if txWeight = 0 then 1 else txWeight))
    poolEntry.txMeta.receiveTime

def finishAdd (txWeight : Nat) : TxMemoryPool :=
  let counted : TxMemoryPool := { pool with
      txpoolWeight := WrappedArithmetic.addMod 64 pool.txpoolWeight txWeight
      cookie := pool.cookie + 1 }
  counted.prune view counted.txpoolMaxWeight

/-- The branch of `add_tx` for a transaction from a block whose inputs do not check. -/
def addUncheckedTx (tx : Transaction) (txid : Hash) (txWeight fee : Nat) (relayed : Bool) :
    TxMemoryPool × Bool :=
  let txMeta : TxpoolTxMeta :=
    { maxUsedBlockId := nullHash
      lastFailedId := nullHash
      weight := txWeight
      fee := fee
      maxUsedBlockHeight := 0
      lastFailedHeight := 0
      receiveTime := view.now
      lastRelayedTime := view.now
      relayMethod := .block
      relayed := relayed
      doubleSpendSeen := pool.haveTxKeyimgesAsSpent tx txid
      pruned := tx.pruned }
  let (indexed, ok) := pool.insertKeyImages tx txid .block
  if ok then ((indexed.storeEntry view txid ⟨txMeta, tx⟩ txWeight).finishAdd view txWeight, true)
  else (indexed, false)

def currentRelay (txid : Hash) : RelayMethod :=
  match pool.txpool.lookup txid with
  | none => .none
  | some poolEntry => poolEntry.txMeta.relayMethod

def loopedRelay (txid : Hash) (txRelay : RelayMethod) : RelayMethod :=
  if txRelay = .stem ∧ pool.currentRelay txid = .stem then .fluff else txRelay

def rewriteCheckedTx (tx : Transaction) (txid : Hash) (txWeight fee : Nat)
    (txRelay : RelayMethod) (relayed : Bool) (maxUsed : Nat × Hash) : TxMemoryPool × Bool :=
  let txMeta : TxpoolTxMeta :=
    { maxUsedBlockId := maxUsed.2
      lastFailedId := nullHash
      weight := txWeight
      fee := fee
      maxUsedBlockHeight := maxUsed.1
      lastFailedHeight := 0
      receiveTime := view.now
      lastRelayedTime := if txRelay = .forward then view.forwardTime else 2 ^ 64 - 1
      relayMethod := if (pool.currentRelay txid).rank < txRelay.rank then txRelay
        else pool.currentRelay txid
      relayed := relayed
      doubleSpendSeen := false
      pruned := tx.pruned }
  let (indexed, ok) := pool.insertKeyImages tx txid txRelay
  if ok then ((indexed.storeEntry view txid ⟨txMeta, tx⟩ txWeight).finishAdd view txWeight, true)
  else (indexed, false)

/-- A stored entry is rewritten only when its relay method moves up. -/
def addCheckedTx (tx : Transaction) (txid : Hash) (txWeight fee : Nat) (txRelay : RelayMethod)
    (relayed : Bool) (maxUsed : Nat × Hash) : TxMemoryPool × Bool :=
  let txRelay := pool.loopedRelay txid txRelay
  if (pool.currentRelay txid).rank < txRelay.rank ∨ ¬ pool.haveTx txid then
    pool.rewriteCheckedTx view tx txid txWeight fee txRelay relayed maxUsed
  else (pool.finishAdd view txWeight, true)

def addPricedTx (tx : Transaction) (txid : Hash) (txWeight fee : Nat) (txRelay : RelayMethod)
    (relayed keptByBlock : Bool) : TxMemoryPool × Bool :=
  if !keptByBlock && pool.haveTxKeyimgesAsSpent tx txid then (pool.markDoubleSpend tx, false)
  else if !view.checkTxOutputs tx then (pool, false)
  else
    match view.checkTxInputs tx keptByBlock with
    | none =>
      if keptByBlock then pool.addUncheckedTx view tx txid txWeight fee relayed
      else (pool, false)
    | some maxUsed => pool.addCheckedTx view tx txid txWeight fee txRelay relayed maxUsed

def addTx (tx : Transaction) (txid : Hash) (txWeight : Nat) (txRelay : RelayMethod) (relayed : Bool)
    (version : Nat) : TxMemoryPool × Bool :=
  let keptByBlock := decide (txRelay = .block)
  if tx.version = 0 ∨ ¬ checkInputsTypesSupported tx then (pool, false)
  else
    match addTxFee tx with
    | none => (pool, false)
    | some fee =>
      if pool.addTxRejects view tx txid txWeight fee version keptByBlock then (pool, false)
      else pool.addPricedTx view tx txid txWeight fee txRelay relayed keptByBlock

/-- The loop of `validate`. An entry pruned meanwhile cannot be taken; the default transaction added
instead pays no fee and is refused. -/
def revalidateAll (view : ChainView) (version : Nat) :
    List (Sigma fun _ : Hash => PoolEntry) → TxMemoryPool → TxMemoryPool × Nat
  | [], pool => (pool, 0)
  | ⟨txid, poolEntry⟩ :: rest, pool =>
    match pool.takeTx view txid with
    | none =>
      let (final, dropped) := revalidateAll view version rest pool
      (final, dropped + 1)
    | some (_, taken) =>
      let (added, ok) := taken.addTx view poolEntry.tx txid
        poolEntry.txMeta.weight poolEntry.txMeta.relayMethod
        poolEntry.txMeta.relayed version
      if ok ∧ (added.txpool.lookup txid).isSome then
        revalidateAll view version rest { added with txpool := added.txpool.insert txid poolEntry }
      else
        let (final, dropped) := revalidateAll view version rest added
        (final, dropped + 1)

def validate (version : Nat) : TxMemoryPool :=
  let cleared : TxMemoryPool := { pool with
      addedTxsById := ∅
      addedTxsStartTime := 0
      removedTxsByTime := []
      removedTxsStartTime := 0 }
  let unpruned := cleared.txpool.entries.filter fun entry => !entry.2.txMeta.pruned
  let (final, dropped) := revalidateAll view version unpruned cleared
  if 0 < dropped then { final with cookie := final.cookie + 1 }
  else final

end TxMemoryPool

/-! ## What pool operations do to the stored entries -/

open List

namespace PoolEntry

def SameTx (left right : PoolEntry) : Prop :=
  left.tx = right.tx ∧ left.txMeta.weight = right.txMeta.weight ∧
    left.txMeta.fee = right.txMeta.fee ∧
    left.txMeta.pruned = right.txMeta.pruned

theorem SameTx.refl (poolEntry : PoolEntry) : poolEntry.SameTx poolEntry :=
  ⟨rfl, rfl, rfl, rfl⟩

theorem SameTx.trans {first second third : PoolEntry}
    (left : first.SameTx second) (right : second.SameTx third) : first.SameTx third :=
  ⟨left.1.trans right.1, left.2.1.trans right.2.1,
    left.2.2.1.trans right.2.2.1, left.2.2.2.trans right.2.2.2⟩

def IsFresh (poolEntry : PoolEntry) (tx : Transaction) (txWeight : Nat) : Prop :=
  poolEntry.tx = tx ∧ poolEntry.txMeta.weight = txWeight ∧
    poolEntry.txMeta.fee = getTxFee tx ∧ poolEntry.txMeta.pruned = tx.pruned

theorem IsFresh.of_sameTx {left right : PoolEntry} {tx : Transaction} {txWeight : Nat}
    (same : left.SameTx right) (fresh : right.IsFresh tx txWeight) : left.IsFresh tx txWeight :=
  ⟨same.1.trans fresh.1, same.2.1.trans fresh.2.1,
    same.2.2.1.trans fresh.2.2.1, same.2.2.2.trans fresh.2.2.2⟩

end PoolEntry

namespace TxMemoryPool

variable {pool other third : TxMemoryPool} {view : ChainView}

def Within (pool other : TxMemoryPool) : Prop :=
  ∀ txid poolEntry, pool.txpool.lookup txid = some poolEntry →
    ∃ original, other.txpool.lookup txid = some original ∧ poolEntry.SameTx original

theorem Within.of_txpool_eq (eq : pool.txpool = other.txpool) : pool.Within other := by
  intro txid poolEntry found
  exact ⟨poolEntry, eq ▸ found, PoolEntry.SameTx.refl _⟩

theorem Within.trans (left : pool.Within other) (right : other.Within third) :
    pool.Within third := by
  intro txid poolEntry found
  obtain ⟨middle, foundMiddle, sameMiddle⟩ := left txid poolEntry found
  obtain ⟨original, foundOriginal, sameOriginal⟩ := right txid middle foundMiddle
  exact ⟨original, foundOriginal, sameMiddle.trans sameOriginal⟩

theorem Within.of_erase {txid : Hash} (eq : pool.txpool = other.txpool.erase txid) :
    pool.Within other := by
  intro id poolEntry found
  rw [eq, AList.lookup_erase_eq_some_iff] at found
  exact ⟨poolEntry, found.2, PoolEntry.SameTx.refl _⟩

section

variable (pool)

@[simp]
theorem trackRemovedTx_txpool (view : ChainView) (txid : Hash) (sensitive : Bool) :
    (pool.trackRemovedTx view txid sensitive).txpool = pool.txpool := by
  unfold trackRemovedTx
  simp only
  split_ifs <;> rfl

@[simp]
theorem removeTxFromTransientLists_txpool
    (view : ChainView) (position : Option FeeOrderEntry) (txid : Hash) (sensitive : Bool) :
    (pool.removeTxFromTransientLists view position txid sensitive).txpool = pool.txpool := by
  simp [removeTxFromTransientLists]

@[simp]
theorem addTxToTransientLists_txpool (view : ChainView)
    (txid : Hash) (feePerByte receiveTime : Nat) :
    (pool.addTxToTransientLists view txid feePerByte receiveTime).txpool = pool.txpool :=
  rfl

theorem insertKeyImagesFrom_frame (txid : Hash) (txRelay : RelayMethod) (inputs : List TxIn) :
    ∃ images cookie, (pool.insertKeyImagesFrom txid txRelay inputs).1 =
      { pool with spentKeyImages := images, cookie := cookie } := by
  induction inputs generalizing pool with
  | nil => exact ⟨_, _, rfl⟩
  | cons input rest ih =>
    cases input with
    | toKey amount keyOffsets keyImage =>
      simp [insertKeyImagesFrom]
      split_ifs
      all_goals first | exact ⟨_, _, rfl⟩ | exact ih _
    | gen | toScript | toScriptHash => exact ⟨_, _, rfl⟩

@[simp]
theorem insertKeyImages_txpool (tx : Transaction) (txid : Hash) (txRelay : RelayMethod) :
    (pool.insertKeyImages tx txid txRelay).1.txpool = pool.txpool := by
  obtain ⟨images, cookie, indexed⟩ := pool.insertKeyImagesFrom_frame txid txRelay tx.vin
  rw [insertKeyImages, indexed]

@[simp]
theorem removeTransactionKeyimagesFrom_txpool (txid : Hash) (inputs : List TxIn) :
    (pool.removeTransactionKeyimagesFrom txid inputs).txpool = pool.txpool := by
  induction inputs generalizing pool with
  | nil => rfl
  | cons input rest ih =>
    cases input with
    | toKey amount keyOffsets keyImage =>
      simp only [removeTransactionKeyimagesFrom]
      split
      · rfl
      · split_ifs
        all_goals first | rfl | exact ih _
    | gen | toScript | toScriptHash => rfl

@[simp]
theorem removeEntry_txpool (view : ChainView)
    (position : Option FeeOrderEntry) (txid : Hash) (poolEntry : PoolEntry) :
    (pool.removeEntry view position txid poolEntry).txpool = pool.txpool.erase txid := by
  simp [removeEntry, removeTransactionKeyimages, reduceTxpoolWeight]

end

variable {poolEntry : PoolEntry} {remaining : TxMemoryPool} {txids : List Hash}
  {taken : List PoolEntry}

theorem takeTx_eq_some {txid : Hash} (taken : pool.takeTx view txid = some (poolEntry, remaining)) :
    pool.txpool.lookup txid = some poolEntry ∧ remaining.txpool = pool.txpool.erase txid := by
  unfold takeTx at taken
  split at taken
  · simp at taken
  · rename_i found lookup
    obtain ⟨rfl, rfl⟩ := taken
    exact ⟨lookup, removeEntry_txpool _ _ _ _ _⟩

theorem pruneFrom_within (bytes : Nat) (view : ChainView)
    (elements : List FeeOrderEntry) (state : TxMemoryPool × Bool) :
    (pruneFrom bytes view elements state).1.Within state.1 := by
  induction elements generalizing state with
  | nil => exact Within.of_txpool_eq rfl
  | cons element rest ih =>
    simp [pruneFrom]
    split_ifs with light
    · exact Within.of_txpool_eq rfl
    · split
      · exact ih _
      · split_ifs with kept
        · exact ih _
        · exact (ih _).trans (Within.of_erase (removeEntry_txpool _ _ _ _ _))

theorem prune_within (pool : TxMemoryPool) (view : ChainView) (bytes : Nat) :
    (pool.prune view bytes).Within pool := by
  unfold prune
  simp only
  split_ifs
  all_goals
    exact (Within.of_txpool_eq rfl).trans (pruneFrom_within _ _ _ _)

theorem finishAdd_within (pool : TxMemoryPool) (view : ChainView) (txWeight : Nat) :
    (pool.finishAdd view txWeight).Within pool :=
  (prune_within _ _ _).trans (Within.of_txpool_eq rfl)

private theorem markEntry_sameTx
    (txpool : AList fun _ : Hash => PoolEntry) (marked : Hash) (txid : Hash) (poolEntry : PoolEntry)
    (found : (markEntry txpool marked).lookup txid = some poolEntry) :
    ∃ original, txpool.lookup txid = some original ∧ poolEntry.SameTx original := by
  unfold markEntry at found
  split at found
  · exact ⟨poolEntry, found, PoolEntry.SameTx.refl _⟩
  · rename_i present presentLookup
    rcases AList.lookup_insert_eq_some_iff.mp found with
      ⟨rfl, rfl⟩ | ⟨_, before⟩
    · exact ⟨present, presentLookup, rfl, rfl, rfl, rfl⟩
    · exact ⟨poolEntry, before, PoolEntry.SameTx.refl _⟩

private theorem foldl_markEntry_sameTx (marked : List Hash)
    (txpool : AList fun _ : Hash => PoolEntry) (txid : Hash) (poolEntry : PoolEntry)
    (found : (marked.foldl markEntry txpool).lookup txid = some poolEntry) :
    ∃ original, txpool.lookup txid = some original ∧ poolEntry.SameTx original := by
  induction marked generalizing txpool with
  | nil => exact ⟨poolEntry, found, PoolEntry.SameTx.refl _⟩
  | cons first rest ih =>
    obtain ⟨middle, foundMiddle, sameMiddle⟩ := ih _ found
    obtain ⟨original, foundOriginal, same⟩ := markEntry_sameTx txpool first txid middle foundMiddle
    exact ⟨original, foundOriginal, sameMiddle.trans same⟩

theorem markDoubleSpend_within (pool : TxMemoryPool) (tx : Transaction) :
    (pool.markDoubleSpend tx).Within pool := by
  unfold markDoubleSpend
  simp only
  split_ifs
  · exact Within.of_txpool_eq rfl
  · intro txid poolEntry found
    exact foldl_markEntry_sameTx _ _ txid poolEntry found

theorem addTxFee_eq_getTxFee {tx : Transaction} {fee : Nat}
    (versioned : tx.version ≠ 0) (computed : addTxFee tx = some fee) : fee = getTxFee tx := by
  unfold addTxFee at computed
  unfold getTxFee
  by_cases first : tx.version = 1
  · rw [if_pos first] at computed
    rw [if_neg (by omega)]
    rcases inputs : getInputsMoneyAmount tx with _ | inputsAmount
    · rw [inputs] at computed
      simp at computed
    · rw [inputs] at computed
      dsimp only at computed ⊢
      split_ifs at computed with covered
      rw [if_pos (by omega)]
      simpa using computed.symm
  · rw [if_neg first] at computed
    rw [if_pos (by omega)]
    simpa using computed.symm

def AddedTo (pool other : TxMemoryPool) (tx : Transaction) (txid : Hash) (txWeight : Nat) : Prop :=
  ∀ id poolEntry, pool.txpool.lookup id = some poolEntry →
    (id = txid ∧ poolEntry.IsFresh tx txWeight) ∨
      ∃ original, other.txpool.lookup id = some original ∧ poolEntry.SameTx original

variable {tx : Transaction} {txid : Hash} {txWeight : Nat}

theorem Within.addedTo (within : pool.Within other) : pool.AddedTo other tx txid txWeight :=
  fun id poolEntry found => .inr (within id poolEntry found)

theorem AddedTo.of_within (within : pool.Within other)
    (added : other.AddedTo third tx txid txWeight) : pool.AddedTo third tx txid txWeight := by
  intro id poolEntry found
  obtain ⟨middle, foundMiddle, sameMiddle⟩ := within id poolEntry found
  rcases added id middle foundMiddle with ⟨eq, fresh⟩ | ⟨original, lookup, same⟩
  · exact .inl ⟨eq, fresh.of_sameTx sameMiddle⟩
  · exact .inr ⟨original, lookup, sameMiddle.trans same⟩

private theorem finishAdd_storeEntry_addedTo (indexed : pool.txpool = other.txpool)
    (fresh : poolEntry.IsFresh tx txWeight) :
    ((pool.storeEntry view txid poolEntry txWeight).finishAdd view
      txWeight).AddedTo other tx txid txWeight := by
  refine AddedTo.of_within (finishAdd_within _ _ _) ?_
  intro id stored found
  simp only [storeEntry, addTxToTransientLists_txpool] at found
  rcases AList.lookup_insert_eq_some_iff.mp found with
    ⟨rfl, rfl⟩ | ⟨_, before⟩
  · exact .inl ⟨rfl, fresh⟩
  · rw [indexed] at before
    exact .inr ⟨stored, before, PoolEntry.SameTx.refl _⟩

theorem addUncheckedTx_addedTo (pool : TxMemoryPool) (view : ChainView)
    (tx : Transaction) (txid : Hash) (txWeight : Nat) (relayed : Bool) :
    (pool.addUncheckedTx view tx txid txWeight (getTxFee tx)
      relayed).1.AddedTo pool tx txid txWeight := by
  unfold addUncheckedTx
  simp only
  split_ifs
  · exact finishAdd_storeEntry_addedTo (insertKeyImages_txpool _ _ _ _) ⟨rfl, rfl, rfl, rfl⟩
  · exact (Within.of_txpool_eq (insertKeyImages_txpool _ _ _ _)).addedTo

theorem rewriteCheckedTx_addedTo (pool : TxMemoryPool) (view : ChainView) (tx : Transaction)
    (txid : Hash) (txWeight : Nat) (txRelay : RelayMethod) (relayed : Bool) (maxUsed : Nat × Hash) :
    (pool.rewriteCheckedTx view tx txid txWeight (getTxFee tx) txRelay relayed
      maxUsed).1.AddedTo pool tx txid txWeight := by
  unfold rewriteCheckedTx
  dsimp only
  split
  · exact finishAdd_storeEntry_addedTo (insertKeyImages_txpool _ _ _ _) ⟨rfl, rfl, rfl, rfl⟩
  · exact (Within.of_txpool_eq (insertKeyImages_txpool _ _ _ _)).addedTo

theorem addCheckedTx_addedTo (pool : TxMemoryPool) (view : ChainView) (tx : Transaction)
    (txid : Hash) (txWeight : Nat) (txRelay : RelayMethod) (relayed : Bool) (maxUsed : Nat × Hash) :
    (pool.addCheckedTx view tx txid txWeight (getTxFee tx) txRelay relayed
      maxUsed).1.AddedTo pool tx txid txWeight := by
  unfold addCheckedTx
  dsimp only
  split
  · exact rewriteCheckedTx_addedTo _ _ _ _ _ _ _ _
  · exact (finishAdd_within _ _ _).addedTo

theorem addPricedTx_addedTo (pool : TxMemoryPool) (view : ChainView) (tx : Transaction)
    (txid : Hash) (txWeight : Nat) (txRelay : RelayMethod) (relayed keptByBlock : Bool) :
    (pool.addPricedTx view tx txid txWeight (getTxFee tx) txRelay relayed
      keptByBlock).1.AddedTo pool tx txid txWeight := by
  have unchanged : pool.AddedTo pool tx txid txWeight := (Within.of_txpool_eq rfl).addedTo
  unfold addPricedTx
  split
  · exact (markDoubleSpend_within pool tx).addedTo
  · split
    · exact unchanged
    · split
      · split
        · exact addUncheckedTx_addedTo _ _ _ _ _ _
        · exact unchanged
      · exact addCheckedTx_addedTo _ _ _ _ _ _ _ _

theorem addTx_addedTo (pool : TxMemoryPool) (view : ChainView) (tx : Transaction) (txid : Hash)
    (txWeight : Nat) (txRelay : RelayMethod) (relayed : Bool) (version : Nat) :
    (pool.addTx view tx txid txWeight txRelay relayed version).1.AddedTo pool tx txid txWeight := by
  have unchanged : pool.AddedTo pool tx txid txWeight := (Within.of_txpool_eq rfl).addedTo
  unfold addTx
  dsimp only
  split
  · exact unchanged
  · rename_i supported
    split
    · exact unchanged
    · rename_i fee computed
      rw [addTxFee_eq_getTxFee (fun zero => supported (.inl zero)) computed]
      split
      · exact unchanged
      · exact addPricedTx_addedTo _ _ _ _ _ _ _ _

def Holds (property : Hash → PoolEntry → Prop) (pool : TxMemoryPool) : Prop :=
  ∀ txid poolEntry, pool.txpool.lookup txid = some poolEntry → property txid poolEntry

structure Stable (property : Hash → PoolEntry → Prop) : Prop where
  same : ∀ {txid poolEntry original}, PoolEntry.SameTx poolEntry original →
    property txid original → property txid poolEntry
  fresh : ∀ {txid poolEntry original}, poolEntry.IsFresh original.tx original.txMeta.weight →
      property txid original → property txid poolEntry

variable {property : Hash → PoolEntry → Prop}

theorem Holds.of_within (stable : Stable property)
    (holds : Holds property other) (within : pool.Within other) : Holds property pool := by
  intro txid poolEntry found
  obtain ⟨original, lookup, same⟩ := within txid poolEntry found
  exact stable.same same (holds txid original lookup)

theorem Holds.of_addedTo (stable : Stable property) (holds : Holds property other)
    (fresh : ∀ poolEntry : PoolEntry, poolEntry.IsFresh tx txWeight → property txid poolEntry)
    (added : pool.AddedTo other tx txid txWeight) : Holds property pool := by
  intro id poolEntry found
  rcases added id poolEntry found with ⟨rfl, isFresh⟩ | ⟨original, lookup, same⟩
  · exact fresh poolEntry isFresh
  · exact stable.same same (holds id original lookup)

theorem Holds.insert {txid : Hash} (holds : Holds property pool)
    (written : other.txpool = pool.txpool.insert txid poolEntry) (new : property txid poolEntry) :
    Holds property other := by
  intro id current found
  rw [written] at found
  rcases AList.lookup_insert_eq_some_iff.mp found with
    ⟨rfl, rfl⟩ | ⟨_, before⟩
  · exact new
  · exact holds id current before

theorem Holds.erase {txid : Hash} (holds : Holds property pool)
    (erased : other.txpool = pool.txpool.erase txid) : Holds property other := by
  intro id current found
  rw [erased, AList.lookup_erase_eq_some_iff] at found
  exact holds id current found.2

theorem haveTx_insert {txid id : Hash}
    (written : other.txpool = pool.txpool.insert txid poolEntry) :
    other.haveTx id ↔ id = txid ∨ pool.haveTx id := by
  unfold haveTx
  rw [written]
  by_cases same : id = txid
  · subst same
    simp
  · simp [same]

theorem haveTx_erase {txid id : Hash} (erased : other.txpool = pool.txpool.erase txid) :
    other.haveTx id ↔ id ≠ txid ∧ pool.haveTx id := by
  unfold haveTx
  rw [erased]
  by_cases same : id = txid
  · subst same
    simp
  · simp [same]

private theorem revalidateAll_holds (view : ChainView) (version : Nat) (stable : Stable property)
    (entries : List (Sigma fun _ : Hash => PoolEntry)) (pool : TxMemoryPool)
    (listed : ∀ entry ∈ entries, property entry.1 entry.2) (holds : Holds property pool) :
    Holds property (revalidateAll view version entries pool).1 := by
  induction entries generalizing pool with
  | nil => exact holds
  | cons entry rest ih =>
    obtain ⟨txid, poolEntry⟩ := entry
    have entryHolds : property txid poolEntry := listed _ mem_cons_self
    have restListed : ∀ other ∈ rest, property other.1 other.2 :=
      fun other mem => listed other (mem_cons_of_mem _ mem)
    simp only [revalidateAll]
    split
    · exact ih pool restListed holds
    · rename_i found taken takeEq
      have takenHolds : Holds property taken :=
        holds.of_within stable (Within.of_erase (takeTx_eq_some takeEq).2)
      have addedHolds := takenHolds.of_addedTo stable
        (fun _ isFresh => stable.fresh isFresh entryHolds)
        (addTx_addedTo taken view poolEntry.tx txid poolEntry.txMeta.weight
          poolEntry.txMeta.relayMethod poolEntry.txMeta.relayed version)
      split
      · exact ih _ restListed (addedHolds.insert rfl entryHolds)
      · exact ih _ restListed addedHolds

theorem validate_holds (stable : Stable property)
    (holds : Holds property pool) (view : ChainView) (version : Nat) :
    Holds property (pool.validate view version) := by
  have listed : ∀ entry ∈ (pool.txpool.entries.filter fun entry =>
      !entry.2.txMeta.pruned), property entry.1 entry.2 := by
    intro entry mem
    exact holds _ _ (AList.mem_lookup_iff.mpr (mem_of_mem_filter mem))
  unfold validate
  dsimp only
  split
  all_goals
    exact revalidateAll_holds view version stable _ _ listed holds

/-- Taking the listed ids out of a pool yields the listed entries and leaves the rest. -/
structure Takes (pool : TxMemoryPool) (txids : List Hash)
    (taken : List PoolEntry) (remaining : TxMemoryPool) : Prop where
  nodup : txids.Nodup
  found : List.Forall₂ (fun txid poolEntry => pool.txpool.lookup txid = some poolEntry) txids taken
  rest : ∀ txid, remaining.txpool.lookup txid =
    if txid ∈ txids then none else pool.txpool.lookup txid

theorem Takes.nil (pool : TxMemoryPool) : pool.Takes [] [] pool :=
  ⟨nodup_nil, .nil, fun _ => by simp⟩

theorem Takes.cons (first : pool.takeTx view txid = some (poolEntry, other))
    (later : other.Takes txids taken remaining) :
    pool.Takes (txid :: txids) (poolEntry :: taken) remaining := by
  obtain ⟨lookup, erased⟩ := takeTx_eq_some first
  have absent : other.txpool.lookup txid = none := by rw [erased]; simp
  have fresh : txid ∉ txids := by
    intro mem
    obtain ⟨found, _, foundLookup⟩ := ListFacts.exists_of_mem_left later.found mem
    rw [absent] at foundLookup
    simp at foundLookup
  refine ⟨nodup_cons.mpr ⟨fresh, later.nodup⟩, .cons lookup ?_, ?_⟩
  · refine later.found.imp ?_
    intro id entry found
    by_cases same : id = txid
    · subst same
      rw [absent] at found
      simp at found
    · rwa [erased, AList.lookup_erase_ne same] at found
  · intro id
    rw [later.rest]
    by_cases same : id = txid
    · subst same
      simp [absent]
    · simp [same, erased, AList.lookup_erase_ne]

theorem Takes.within (takes : pool.Takes txids taken remaining) : remaining.Within pool := by
  intro id poolEntry found
  rw [takes.rest] at found
  split_ifs at found
  exact ⟨poolEntry, found, PoolEntry.SameTx.refl _⟩

theorem Takes.zip_holds (takes : pool.Takes txids taken remaining) (holds : Holds property pool) :
    ∀ entry ∈ txids.zip taken, property entry.1 entry.2 := by
  intro entry mem
  exact holds _ _ (forall₂_zip takes.found mem)

end TxMemoryPool

/-! ## Elementary moves of the pool -/

open WrappedArithmetic

def RelayMethod.upgrade (current method : RelayMethod) : RelayMethod :=
  if current.rank < method.rank then method else current

structure TxDetails where
  tx : Transaction
  weight : Nat
  fee : Nat
  maxUsedBlockId : Hash
  maxUsedBlockHeight : Nat
  keptByBlock : Bool
  lastFailedHeight : Nat
  lastFailedId : Hash
  receiveTime : Nat
  lastRelayedTime : Nat
  relayed : Bool
  doNotRelay : Bool
  doubleSpendSeen : Bool
  deriving DecidableEq, Repr

structure PoolInfo where
  addedTxs : List (Hash × TxDetails)
  remainingAddedTxids : List Hash
  removedTxs : List Hash
  incremental : Bool
  deriving DecidableEq, Repr

namespace TxMemoryPool

def isStuck (view : ChainView) (txMeta : TxpoolTxMeta) : Bool :=
  let txAge := subMod 64 view.now txMeta.receiveTime
  (decide (mempoolTxLivetime < txAge) && !txMeta.keptByBlock) ||
    (decide (mempoolTxFromAltBlockLivetime < txAge) && txMeta.keptByBlock)

variable (pool : TxMemoryPool)

def unlistStuck (view : ChainView) (txid : Hash) (poolEntry : PoolEntry) : TxMemoryPool :=
  let unlisted := pool.removeTxFromTransientLists view (pool.findTxInSortedContainer txid) txid
    (!poolEntry.txMeta.relayMethod.matchesBroadcasted)
  { unlisted with
    timedOutTransactions := unlisted.timedOutTransactions.insert txid }

def dropStuck (txid : Hash) (poolEntry : PoolEntry) : TxMemoryPool :=
  let removed : TxMemoryPool := { pool with txpool := pool.txpool.erase txid }
  (removed.reduceTxpoolWeight poolEntry.txMeta.weight).removeTransactionKeyimages poolEntry.tx txid

def removeStuckTransactions (view : ChainView) : TxMemoryPool :=
  let remove := pool.txpool.entries.filter fun entry => isStuck view entry.2.txMeta
  let unlisted := remove.foldl (fun pool entry => pool.unlistStuck view entry.1 entry.2) pool
  if remove = [] then unlisted
  else
    let dropped := remove.foldl (fun pool entry => pool.dropStuck entry.1 entry.2) unlisted
    { dropped with cookie := dropped.cookie + 1 }

/-- The second component tells whether the transaction has just become visible to everyone. -/
def setRelayedOne (view : ChainView)
    (embargoDuration : Nat) (txid : Hash) (method : RelayMethod) : TxMemoryPool × Bool :=
  match pool.txpool.lookup txid with
  | none => (pool, false)
  | some poolEntry =>
    let relayMethod := poolEntry.txMeta.relayMethod.upgrade method
    let txMeta : TxpoolTxMeta := { poolEntry.txMeta with
        relayMethod := relayMethod
        relayed := true
        lastRelayedTime := if relayMethod = .stem then view.now + embargoDuration
          else view.now }
    let updated : TxMemoryPool := { pool with
        txpool := pool.txpool.insert txid { poolEntry with txMeta := txMeta } }
    if !poolEntry.txMeta.relayMethod.matchesBroadcasted && relayMethod.matchesBroadcasted then
      (updated.addTxToTransientLists view txid
        (view.feePerByte txMeta.fee txMeta.weight) view.now, true)
    else (updated, false)

def setRelayed (pool : TxMemoryPool) (view : ChainView)
    (method : RelayMethod) : List (Hash × Nat) → TxMemoryPool × List Bool
  | [] => (pool, [])
  | (txid, embargoDuration) :: rest =>
    let (updated, wasJustBroadcasted) := pool.setRelayedOne view embargoDuration txid method
    let (final, justBroadcasted) := updated.setRelayed view method rest
    (final, wasJustBroadcasted :: justBroadcasted)

/-- The category is `all` for a query that includes sensitive data and `broadcasted` otherwise. -/
def isVisible (includeSensitive : Bool) (txMeta : TxpoolTxMeta) : Bool :=
  includeSensitive || txMeta.relayMethod.matchesBroadcasted

def getTransactionHashes (includeSensitive : Bool) : List Hash :=
  (pool.txpool.entries.filter fun entry => isVisible includeSensitive entry.2.txMeta).map Sigma.fst

def getTransactionInfo (txid : Hash) (includeSensitiveData : Bool) : Option TxDetails :=
  match pool.txpool.lookup txid with
  | none => none
  | some ⟨txMeta, tx⟩ =>
    if !isVisible includeSensitiveData txMeta then none
    else
      some
        { tx := tx
          weight := txMeta.weight
          fee := txMeta.fee
          maxUsedBlockId := txMeta.maxUsedBlockId
          maxUsedBlockHeight := txMeta.maxUsedBlockHeight
          keptByBlock := txMeta.keptByBlock
          lastFailedHeight := txMeta.lastFailedHeight
          lastFailedId := txMeta.lastFailedId
          receiveTime := if includeSensitiveData then txMeta.receiveTime else 0
          lastRelayedTime := if includeSensitiveData ∧ txMeta.relayMethod ≠ .stem then
              txMeta.lastRelayedTime
            else 0
          relayed := txMeta.relayed
          doNotRelay := decide (txMeta.relayMethod = .none)
          doubleSpendSeen := txMeta.doubleSpendSeen }

def getTransactionsInfo (txids : List Hash) (includeSensitive : Bool) : List (Hash × TxDetails) :=
  txids.filterMap fun txid => (pool.getTransactionInfo txid includeSensitive).map fun details =>
      (txid, details)

def answersIncrementally (startTime : Nat) : Bool :=
  decide (startTime ≠ 0) && (decide (pool.addedTxsStartTime ≠ 0) &&
      decide (pool.removedTxsStartTime ≠ 0)) &&
    !(decide (startTime ≤ pool.addedTxsStartTime) || decide (startTime ≤ pool.removedTxsStartTime))

def getPoolInfo (startTime : Nat) (includeSensitive : Bool) (maxTxCount : Nat) : PoolInfo :=
  if pool.answersIncrementally startTime then
    let txids := (pool.addedTxsById.entries.filter fun entry =>
      decide (startTime ≤ entry.2)).map Sigma.fst
    let addedTxs := pool.getTransactionsInfo txids includeSensitive
    let removed := (pool.removedTxsByTime.dropWhile fun removed =>
      decide (removed.time < startTime)).filter fun removed =>
        includeSensitive || !removed.sensitive
    { addedTxs := addedTxs.take maxTxCount
      remainingAddedTxids := (addedTxs.drop maxTxCount).map Prod.fst
      removedTxs := removed.map RemovedTx.txid
      incremental := true }
  else
    let txids := pool.getTransactionHashes includeSensitive
    { addedTxs := pool.getTransactionsInfo (txids.take maxTxCount) includeSensitive
      remainingAddedTxids := txids.drop maxTxCount
      removedTxs := []
      incremental := false }

/-- The transactions submitted under an id and their weights, and when a stored id is submitted. -/
structure Policy where
  admits : Transaction → Hash → Prop
  resubmits : TxMemoryPool → Hash → Prop
  weighs : Hash → Nat → Prop

def Policy.any : Policy :=
  ⟨fun _ _ => True, fun _ _ => True, fun _ _ => True⟩

def Policy.Allows (policy : Policy) (pool : TxMemoryPool) (tx : Transaction) (txid : Hash) : Prop :=
  policy.admits tx txid ∧ (pool.haveTx txid → policy.resubmits pool txid)

/-- A refused submission is free, unless it leaves key images behind. -/
structure Policy.Permits (policy : Policy) (pool : TxMemoryPool) (tx : Transaction) (txid : Hash)
    (txWeight : Nat) (result : TxMemoryPool × Bool) : Prop where
  accepted : result.2 → policy.Allows pool tx txid ∧ policy.weighs txid txWeight
  indexed : result.1.spentKeyImages ≠ pool.spentKeyImages → policy.admits tx txid

section

variable {policy : Policy} {pool : TxMemoryPool} {tx : Transaction} {txid : Hash} {txWeight : Nat}
  {result : TxMemoryPool × Bool}

theorem Policy.Allows.permits
    (allowed : policy.Allows pool tx txid) (weighed : policy.weighs txid txWeight) :
    policy.Permits pool tx txid txWeight result :=
  ⟨fun _ => ⟨allowed, weighed⟩, fun _ => allowed.1⟩

theorem Policy.any_permits : Policy.any.Permits pool tx txid txWeight result :=
  Policy.Allows.permits ⟨trivial, fun _ => trivial⟩ trivial

end

/-- A position in the ordered set that an id is found at; `none` is the end of
the set. -/
def PointsAt (pool : TxMemoryPool) (txid : Hash) : Option FeeOrderEntry → Prop
  | none => ∀ element ∈ pool.txsByFeeAndReceiveTime, element.txid ≠ txid
  | some element => element ∈ pool.txsByFeeAndReceiveTime ∧ element.txid = txid

/-- What `insert_key_images` is called with once `add_tx` has made its
checks. -/
structure Submits (policy : Policy) (pool : TxMemoryPool) (tx : Transaction)
    (txid : Hash) (txRelay : RelayMethod) : Prop where
  admitted : policy.admits tx txid
  typed : checkInputsTypesSupported tx
  unspent : txRelay ≠ .block → pool.haveTxKeyimgesAsSpent tx txid = false

inductive Move (policy : Policy) (view : ChainView) : TxMemoryPool → TxMemoryPool → Prop
  | note (pool : TxMemoryPool) (cookie : Nat) (timedOut : List Hash) : Move policy view pool
        { pool with cookie := cookie, timedOutTransactions := timedOut }
  | rewrite {pool : TxMemoryPool} {txid : Hash} {original poolEntry : PoolEntry}
      (found : pool.txpool.lookup txid = some original)
      (tx : poolEntry.tx = original.tx)
      (weight : poolEntry.txMeta.weight = original.txMeta.weight)
      (visible : poolEntry.txMeta.relayMethod.matchesBroadcasted =
        original.txMeta.relayMethod.matchesBroadcasted) :
      Move policy view pool
        { pool with txpool := pool.txpool.insert txid poolEntry }
  | announce {pool : TxMemoryPool} {txid : Hash} {original poolEntry : PoolEntry}
      (found : pool.txpool.lookup txid = some original)
      (tx : poolEntry.tx = original.tx)
      (weight : poolEntry.txMeta.weight = original.txMeta.weight)
      (visible : poolEntry.txMeta.relayMethod.matchesBroadcasted = true)
      (resubmits : policy.resubmits pool txid) (feePerByte receiveTime : Nat) :
      Move policy view pool (({ pool with txpool := pool.txpool.insert txid poolEntry } :
          TxMemoryPool).addTxToTransientLists view txid feePerByte receiveTime)
  | remove {pool : TxMemoryPool} {txid : Hash} {poolEntry : PoolEntry}
      {position : Option FeeOrderEntry}
      (found : pool.txpool.lookup txid = some poolEntry)
      (points : pool.PointsAt txid position) :
      Move policy view pool (pool.removeEntry view position txid poolEntry)
  | store {pool indexed : TxMemoryPool} {tx : Transaction} {txid : Hash}
      {txRelay : RelayMethod} {poolEntry : PoolEntry}
      (submits : pool.Submits policy tx txid txRelay)
      (resubmits : pool.haveTx txid → policy.resubmits pool txid)
      (same : poolEntry.tx = tx)
      (relays : poolEntry.txMeta.relayMethod =
        (pool.currentRelay txid).upgrade txRelay)
      (indexes : pool.insertKeyImages tx txid txRelay = (indexed, true))
      (weighed : policy.weighs txid poolEntry.txMeta.weight) :
      Move policy view pool
        { indexed.storeEntry view txid poolEntry poolEntry.txMeta.weight with
          txpoolWeight := addMod 64 pool.txpoolWeight poolEntry.txMeta.weight }
  | refuse {pool indexed : TxMemoryPool} {tx : Transaction} {txid : Hash}
      {txRelay : RelayMethod} (submits : pool.Submits policy tx txid txRelay)
      (indexes : pool.insertKeyImages tx txid txRelay = (indexed, false)) :
      Move policy view pool indexed
  | recount {pool : TxMemoryPool} {tx : Transaction} {txid : Hash}
      (allowed : policy.Allows pool tx txid) (present : pool.haveTx txid)
      (txWeight : Nat) :
      Move policy view pool
        { pool with txpoolWeight := addMod 64 pool.txpoolWeight txWeight }

def Moves (policy : Policy) (view : ChainView) : TxMemoryPool → TxMemoryPool → Prop :=
  Relation.ReflTransGen (Move policy view)

variable {policy : Policy} {view : ChainView} {pool other third : TxMemoryPool}
  {tx : Transaction} {txid : Hash}

theorem Moves.refl (pool : TxMemoryPool) : Moves policy view pool pool :=
  Relation.ReflTransGen.refl

theorem Moves.trans (first : Moves policy view pool other)
    (second : Moves policy view other third) : Moves policy view pool third :=
  Relation.ReflTransGen.trans first second

theorem Move.moves (move : Move policy view pool other) : Moves policy view pool other :=
  Relation.ReflTransGen.single move

theorem Moves.note (pool : TxMemoryPool) (cookie : Nat) (timedOut : List Hash) :
    Moves policy view pool { pool with cookie := cookie, timedOutTransactions := timedOut } :=
  (Move.note pool cookie timedOut).moves

theorem pointsAt_find (pool : TxMemoryPool) (txid : Hash) :
    pool.PointsAt txid (pool.findTxInSortedContainer txid) := by
  unfold findTxInSortedContainer
  cases found : pool.txsByFeeAndReceiveTime.find? fun element => element.txid == txid with
  | none =>
    intro element mem
    simpa using List.find?_eq_none.mp found element mem
  | some element =>
    exact ⟨List.mem_of_find?_eq_some found, by
      simpa using List.find?_some found⟩

/-! ## The frames of the helpers -/

theorem trackRemovedTx_frame (pool : TxMemoryPool) (view : ChainView)
    (txid : Hash) (sensitive : Bool) : ∃ removed start, pool.trackRemovedTx view txid sensitive =
      { pool with
        removedTxsByTime := removed, removedTxsStartTime := start } := by
  unfold trackRemovedTx
  dsimp only
  split_ifs
  all_goals exact ⟨_, _, rfl⟩

theorem removeTxFromTransientLists_frame (pool : TxMemoryPool)
    (view : ChainView) (position : Option FeeOrderEntry) (txid : Hash) (sensitive : Bool) :
    ∃ removed start, pool.removeTxFromTransientLists view position txid sensitive = { pool with
          txsByFeeAndReceiveTime := pool.eraseSorted position
          addedTxsById := pool.addedTxsById.erase txid
          removedTxsByTime := removed
          removedTxsStartTime := start } :=
  trackRemovedTx_frame _ view txid sensitive

theorem insertKeyImages_frame {indexed : TxMemoryPool} {txRelay : RelayMethod} {ok : Bool}
    (indexes : pool.insertKeyImages tx txid txRelay = (indexed, ok)) :
    ∃ images cookie, indexed = { pool with spentKeyImages := images, cookie := cookie } := by
  obtain ⟨images, cookie, eq⟩ := insertKeyImagesFrom_frame pool txid txRelay tx.vin
  refine ⟨images, cookie, ?_⟩
  rw [← eq]
  exact (congrArg Prod.fst indexes).symm

def withIndex (pool index : TxMemoryPool) : TxMemoryPool :=
  { pool with
    spentKeyImages := index.spentKeyImages, cookie := index.cookie }

theorem removeTransactionKeyimagesFrom_withIndex (pool index : TxMemoryPool)
    (txid : Hash) (inputs : List TxIn) :
    (pool.withIndex index).removeTransactionKeyimagesFrom txid inputs =
      pool.withIndex (index.removeTransactionKeyimagesFrom txid inputs) := by
  induction inputs generalizing index with
  | nil => rfl
  | cons input rest ih =>
    cases input with
    | toKey amount keyOffsets keyImage =>
      have same : (pool.withIndex index).spentKeyImages =
        index.spentKeyImages := rfl
      simp [removeTransactionKeyimagesFrom]
      rw [same]
      rcases index.spentKeyImages.lookup keyImage with _ | spenders
      · rfl
      · dsimp only
        split_ifs
        · exact ih { index with
            spentKeyImages := index.spentKeyImages.erase keyImage }
        · exact ih { index with
            spentKeyImages := index.spentKeyImages.insert keyImage _ }
        · rfl
    | gen | toScript | toScriptHash => rfl

theorem dropStuck_eq (pool : TxMemoryPool) (txid : Hash) (entry : PoolEntry) :
    pool.dropStuck txid entry = ({ pool with
        txpool := pool.txpool.erase txid
        txpoolWeight := pool.txpoolWeight - entry.txMeta.weight } :
        TxMemoryPool).withIndex (pool.removeTransactionKeyimages entry.tx txid) :=
  removeTransactionKeyimagesFrom_withIndex { pool with
      txpool := pool.txpool.erase txid
      txpoolWeight := pool.txpoolWeight - entry.txMeta.weight }
    pool txid entry.tx.vin

theorem removeEntry_eq (pool : TxMemoryPool) (view : ChainView)
    (position : Option FeeOrderEntry) (txid : Hash) (entry : PoolEntry) :
    pool.removeEntry view position txid entry =
      ({ pool.removeTxFromTransientLists view position txid
          (!entry.txMeta.relayMethod.matchesBroadcasted) with
        txpool := pool.txpool.erase txid
        txpoolWeight := pool.txpoolWeight - entry.txMeta.weight } :
        TxMemoryPool).withIndex (pool.removeTransactionKeyimages entry.tx txid) := by
  change (pool.dropStuck txid entry).removeTxFromTransientLists view position txid _ = _
  rw [dropStuck_eq]
  unfold removeTxFromTransientLists trackRemovedTx
  dsimp only [eraseSorted, withIndex]
  split_ifs
  all_goals rfl

@[simp]
theorem removeEntry_txsByFeeAndReceiveTime (pool : TxMemoryPool)
    (view : ChainView) (position : Option FeeOrderEntry) (txid : Hash) (poolEntry : PoolEntry) :
    (pool.removeEntry view position txid poolEntry).txsByFeeAndReceiveTime =
      pool.eraseSorted position := by
  rw [removeEntry_eq]
  obtain ⟨removed, start, equal⟩ := removeTxFromTransientLists_frame pool view
    position txid (!poolEntry.txMeta.relayMethod.matchesBroadcasted)
  rw [equal]
  rfl

end TxMemoryPool

end LodeChain

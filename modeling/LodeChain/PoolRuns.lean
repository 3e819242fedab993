import LodeChain.TransactionPool

/-!
# Runs of the pool

The pools reached from an empty one by any sequence of operations. Each operation is a sequence of
moves, and an invariant of the moves holds in every such pool.
-/

namespace LodeChain

namespace TxMemoryPool

open List

variable {policy : Policy} {view : ChainView} {pool other : TxMemoryPool}
  {tx : Transaction} {txid : Hash}

theorem pruneFrom_moves (bytes : Nat) (elements : List FeeOrderEntry) (state : TxMemoryPool × Bool)
    (within : elements.Subperm state.1.txsByFeeAndReceiveTime) :
    Moves policy view state.1 (pruneFrom bytes view elements state).1 := by
  induction elements generalizing state with
  | nil => exact Moves.refl _
  | cons element rest ih =>
    obtain ⟨current, changed⟩ := state
    have restWithin := (sublist_cons_self element rest).subperm.trans within
    simp [pruneFrom]
    split
    · exact Moves.refl _
    · split
      · exact ih (current, changed) restWithin
      · rename_i poolEntry found
        split
        · exact ih (current, changed) restWithin
        · have points : current.PointsAt element.txid (some element) :=
            ⟨within.subset mem_cons_self, rfl⟩
          have removed : Move policy view current
              (current.removeEntry view (some element) element.txid poolEntry) :=
            Move.remove found points
          have erased : rest.Subperm (current.removeEntry view
              (some element) element.txid poolEntry).txsByFeeAndReceiveTime := by
            rw [removeEntry_txsByFeeAndReceiveTime]
            have shorter := within.erase element
            rwa [erase_cons_head] at shorter
          exact removed.moves.trans (ih (_, true) erased)

theorem prune_moves (pool : TxMemoryPool) (view : ChainView) (bytes : Nat) :
    Moves policy view pool (pool.prune view bytes) := by
  have looped := @pruneFrom_moves policy view (if bytes = 0 then pool.txpoolMaxWeight else bytes)
    _ (pool, false)
    ((reverse_perm _).subperm.trans (tail_sublist _).subperm)
  unfold prune
  dsimp only
  generalize pruneFrom (if bytes = 0 then pool.txpoolMaxWeight else bytes)
    view pool.txsByFeeAndReceiveTime.tail.reverse (pool, false) = pruned
    at looped ⊢
  obtain ⟨final, changed⟩ := pruned
  cases changed with
  | false => exact looped
  | true => exact looped.trans (Moves.note _ _ _)

theorem takeTx_moves {poolEntry : PoolEntry}
    (taken : pool.takeTx view txid = some (poolEntry, other)) : Moves policy view pool other := by
  unfold takeTx at taken
  rcases found : pool.txpool.lookup txid with _ | stored
  · rw [found] at taken
    simp at taken
  · rw [found] at taken
    simp only [Option.some.injEq, Prod.mk.injEq] at taken
    rw [← taken.2]
    have removed : Move policy view pool _ := Move.remove found (pointsAt_find pool txid)
    exact removed.moves.trans (Moves.note _ _ _)

/-! ## Adding -/

inductive AddOutcome (view : ChainView) (pool : TxMemoryPool)
    (tx : Transaction) (txid : Hash) (txWeight : Nat)
    (txRelay : RelayMethod) : TxMemoryPool × Bool → Prop
  | rejected : AddOutcome view pool tx txid txWeight txRelay (pool, false)
  | doubleSpend : AddOutcome view pool tx txid txWeight txRelay (pool.markDoubleSpend tx, false)
  | refused {relay : RelayMethod} {indexed : TxMemoryPool} (typed : checkInputsTypesSupported tx)
      (unspent : relay ≠ .block → pool.haveTxKeyimgesAsSpent tx txid = false)
      (indexes : pool.insertKeyImages tx txid relay = (indexed, false)) :
      AddOutcome view pool tx txid txWeight txRelay (indexed, false)
  | stored {relay : RelayMethod} {indexed : TxMemoryPool}
      {poolEntry : PoolEntry} (typed : checkInputsTypesSupported tx)
      (unspent : relay ≠ .block → pool.haveTxKeyimgesAsSpent tx txid = false)
      (looped : relay = txRelay ∨ pool.haveTx txid)
      (kept : relay = .block ↔ txRelay = .block)
      (same : poolEntry.tx = tx) (weight : poolEntry.txMeta.weight = txWeight)
      (relays : poolEntry.txMeta.relayMethod =
        (pool.currentRelay txid).upgrade relay)
      (indexes : pool.insertKeyImages tx txid relay = (indexed, true)) :
      AddOutcome view pool tx txid txWeight txRelay
        ((indexed.storeEntry view txid poolEntry txWeight).finishAdd view txWeight, true)
  | recounted (present : pool.haveTx txid) (unspent : txRelay ≠ .block →
        pool.haveTxKeyimgesAsSpent tx txid = false) :
      AddOutcome view pool tx txid txWeight txRelay (pool.finishAdd view txWeight, true)

private theorem upgrade_block (current : RelayMethod) : current.upgrade .block = .block := by
  cases current <;> rfl

theorem addUncheckedTx_outcome (typed : checkInputsTypesSupported tx)
    (txWeight fee : Nat) (relayed : Bool) : AddOutcome view pool tx txid txWeight .block
      (pool.addUncheckedTx view tx txid txWeight fee relayed) := by
  have unspent : RelayMethod.block ≠ .block → pool.haveTxKeyimgesAsSpent tx txid = false :=
    fun ne => absurd rfl ne
  unfold addUncheckedTx
  rcases indexes : pool.insertKeyImages tx txid .block with ⟨indexed, ok⟩
  cases ok with
  | false => exact AddOutcome.refused typed unspent indexes
  | true =>
    exact AddOutcome.stored typed unspent (.inl rfl) Iff.rfl rfl rfl (upgrade_block _).symm indexes

variable {txRelay : RelayMethod} {poolEntry : PoolEntry}

theorem rewriteCheckedTx_outcome {relay : RelayMethod} (typed : checkInputsTypesSupported tx)
    (unspent : relay ≠ .block → pool.haveTxKeyimgesAsSpent tx txid = false)
    (looped : relay = txRelay ∨ pool.haveTx txid) (kept : relay = .block ↔ txRelay = .block)
    (txWeight fee : Nat) (relayed : Bool) (maxUsed : Nat × Hash) :
    AddOutcome view pool tx txid txWeight txRelay
      (pool.rewriteCheckedTx view tx txid txWeight fee relay relayed maxUsed) := by
  unfold rewriteCheckedTx
  rcases indexes : pool.insertKeyImages tx txid relay with ⟨indexed, ok⟩
  cases ok with
  | false => exact AddOutcome.refused typed unspent indexes
  | true => exact AddOutcome.stored typed unspent looped kept rfl rfl rfl indexes

theorem addCheckedTx_outcome (typed : checkInputsTypesSupported tx)
    (unspent : txRelay ≠ .block → pool.haveTxKeyimgesAsSpent tx txid = false)
    (txWeight fee : Nat) (relayed : Bool) (maxUsed : Nat × Hash) :
    AddOutcome view pool tx txid txWeight txRelay
      (pool.addCheckedTx view tx txid txWeight fee txRelay relayed maxUsed) := by
  have kept : pool.loopedRelay txid txRelay = .block ↔ txRelay = .block := by
    unfold loopedRelay
    split
    · rename_i stem
      simp [stem.1]
    · rfl
  have looped : pool.loopedRelay txid txRelay = txRelay ∨ pool.haveTx txid := by
    unfold loopedRelay
    split
    · rename_i stem
      right
      have current := stem.2
      unfold currentRelay at current
      unfold haveTx
      split at current
      · simp at current
      · rename_i found
        simp [found]
    · exact .inl rfl
  unfold addCheckedTx
  dsimp only
  split
  · exact rewriteCheckedTx_outcome typed (fun ne => unspent fun same => ne (kept.mpr same)) looped
      kept txWeight fee relayed maxUsed
  · rename_i unchanged
    have present : pool.haveTx txid := by
      by_contra absent
      exact unchanged (.inr absent)
    exact AddOutcome.recounted present unspent

theorem addTx_outcome (pool : TxMemoryPool) (view : ChainView) (tx : Transaction) (txid : Hash)
    (txWeight : Nat) (txRelay : RelayMethod) (relayed : Bool) (version : Nat) :
    AddOutcome view pool tx txid txWeight txRelay
      (pool.addTx view tx txid txWeight txRelay relayed version) := by
  unfold addTx
  dsimp only
  split
  · exact .rejected
  · rename_i accepted
    have typed : checkInputsTypesSupported tx := by
      by_contra untyped
      exact accepted (.inr untyped)
    split
    · exact .rejected
    · split
      · exact .rejected
      · unfold addPricedTx
        split
        · exact .doubleSpend
        · rename_i unmarked
          have unspent : txRelay ≠ .block → pool.haveTxKeyimgesAsSpent tx txid = false := by
            intro ne
            simpa [ne] using unmarked
          split
          · exact .rejected
          · split
            · split
              · rename_i kept
                obtain rfl : txRelay = .block := by simpa using kept
                exact addUncheckedTx_outcome typed _ _ _
              · exact .rejected
            · exact addCheckedTx_outcome typed unspent _ _ _ _

private theorem foldl_markEntry_moves (marked : List Hash) (pool : TxMemoryPool) :
    Moves policy view pool { pool with txpool := marked.foldl markEntry pool.txpool } := by
  induction marked generalizing pool with
  | nil => exact Moves.refl _
  | cons first rest ih =>
    have step : Moves policy view pool { pool with txpool := markEntry pool.txpool first } := by
      unfold markEntry
      rcases found : pool.txpool.lookup first with _ | poolEntry
      · exact Moves.refl _
      · have marked : Move policy view pool { pool with
              txpool := pool.txpool.insert first
                { poolEntry with
                  txMeta := { poolEntry.txMeta with doubleSpendSeen := true } } } :=
          Move.rewrite found rfl rfl rfl
        exact marked.moves
    exact step.trans (ih { pool with txpool := markEntry pool.txpool first })

theorem markDoubleSpend_moves (pool : TxMemoryPool) (tx : Transaction) :
    Moves policy view pool (pool.markDoubleSpend tx) := by
  unfold markDoubleSpend
  dsimp only
  split
  · exact Moves.refl _
  · exact (foldl_markEntry_moves _ pool).trans (Moves.note _ _ _)

theorem AddOutcome.moves {txWeight : Nat}
    {result : TxMemoryPool × Bool} (permitted : policy.Permits pool tx txid txWeight result)
    (outcome : AddOutcome view pool tx txid txWeight txRelay result) :
    Moves policy view pool result.1 := by
  cases outcome with
  | rejected => exact Moves.refl _
  | doubleSpend => exact markDoubleSpend_moves pool tx
  | refused typed unspent indexes =>
    obtain ⟨images, cookie, frame⟩ := insertKeyImages_frame indexes
    by_cases same : images = pool.spentKeyImages
    · rw [frame, same]
      exact Moves.note pool cookie pool.timedOutTransactions
    · have admitted := permitted.indexed (by rwa [frame])
      exact (Move.refuse ⟨admitted, typed, unspent⟩ indexes).moves
  | stored typed unspent looped kept same weight relays indexes =>
    obtain ⟨⟨admitted, resubmits⟩, weighed⟩ := permitted.accepted rfl
    have stored : Move policy view pool _ :=
      Move.store ⟨admitted, typed, unspent⟩ resubmits same relays indexes (weight ▸ weighed)
    obtain ⟨images, cookie, rfl⟩ := insertKeyImages_frame indexes
    rw [weight] at stored
    exact (stored.moves.trans (Moves.note _ _ _)).trans (prune_moves _ _ _)
  | recounted present unspent =>
    have counted : Move policy view pool _ :=
      Move.recount (permitted.accepted rfl).1 present txWeight
    exact (counted.moves.trans (Moves.note _ _ _)).trans (prune_moves _ _ _)

theorem addTx_moves {txWeight : Nat} {relayed : Bool} {version : Nat}
    (permitted : policy.Permits pool tx txid txWeight
      (pool.addTx view tx txid txWeight txRelay relayed version)) :
    Moves policy view pool (pool.addTx view tx txid txWeight txRelay relayed version).1 :=
  (addTx_outcome pool view tx txid txWeight txRelay relayed version).moves permitted

/-! ## Removing stuck transactions -/

theorem dropStuck_unlistStuck (pool : TxMemoryPool) (view : ChainView)
    (first second : Hash) (firstEntry secondEntry : PoolEntry) :
    (pool.unlistStuck view first firstEntry).dropStuck second secondEntry =
      (pool.dropStuck second secondEntry).unlistStuck view first firstEntry := by
  have index : (pool.unlistStuck view first firstEntry).withIndex pool =
      pool.unlistStuck view first firstEntry := by
    obtain ⟨removed, start, eq⟩ := removeTxFromTransientLists_frame pool view _ first _
    unfold unlistStuck
    rw [eq]
    rfl
  have images : (pool.unlistStuck view first firstEntry).removeTransactionKeyimages
        secondEntry.tx second =
      (pool.unlistStuck view first firstEntry).withIndex
        (pool.removeTransactionKeyimages secondEntry.tx second) := by
    have moved := removeTransactionKeyimagesFrom_withIndex
      (pool.unlistStuck view first firstEntry) pool second secondEntry.tx.vin
    rwa [index] at moved
  rw [dropStuck_eq, images, dropStuck_eq]
  unfold unlistStuck removeTxFromTransientLists trackRemovedTx
  dsimp only [withIndex, eraseSorted, findTxInSortedContainer]
  split_ifs
  all_goals rfl

private theorem foldl_unlistStuck_dropStuck (view : ChainView)
    (stuck : List (Sigma fun _ : Hash => PoolEntry)) (pool : TxMemoryPool)
    (txid : Hash) (poolEntry : PoolEntry) :
    (stuck.foldl (fun pool entry => pool.unlistStuck view entry.1 entry.2)
        pool).dropStuck txid poolEntry =
      stuck.foldl (fun pool entry => pool.unlistStuck view entry.1 entry.2)
        (pool.dropStuck txid poolEntry) := by
  induction stuck generalizing pool with
  | nil => rfl
  | cons entry rest ih => rw [foldl_cons, foldl_cons, ih, dropStuck_unlistStuck]

private theorem unlistStuck_dropStuck_moves (found : pool.txpool.lookup txid = some poolEntry) :
    Moves policy view pool ((pool.unlistStuck view txid poolEntry).dropStuck txid poolEntry) := by
  have removed : Move policy view pool _ := Move.remove found (pointsAt_find pool txid)
  have same : (pool.unlistStuck view txid poolEntry).dropStuck txid poolEntry =
      { pool.removeEntry view (pool.findTxInSortedContainer txid) txid poolEntry with
        timedOutTransactions := pool.timedOutTransactions.insert txid } := by
    rw [dropStuck_unlistStuck, dropStuck_eq, removeEntry_eq]
    unfold unlistStuck removeTxFromTransientLists trackRemovedTx
    dsimp only [withIndex, eraseSorted, findTxInSortedContainer]
    split_ifs
    all_goals rfl
  rw [same]
  exact removed.moves.trans (Moves.note _ _ _)

private theorem dropStuck_unlistStuck_txpool (poolEntry : PoolEntry) :
    ((pool.unlistStuck view txid poolEntry).dropStuck txid
      poolEntry).txpool = pool.txpool.erase txid := by
  rw [dropStuck_unlistStuck, dropStuck_eq]
  exact removeTxFromTransientLists_txpool _ _ _ _ _

private theorem foldl_stuck_moves (stuck : List (Sigma fun _ : Hash => PoolEntry))
    (pool : TxMemoryPool) (distinct : (stuck.map Sigma.fst).Nodup)
    (found : ∀ entry ∈ stuck, pool.txpool.lookup entry.1 = some entry.2) : Moves policy view pool
      (stuck.foldl (fun pool entry => pool.dropStuck entry.1 entry.2)
        (stuck.foldl (fun pool entry => pool.unlistStuck view entry.1 entry.2) pool)) := by
  induction stuck generalizing pool with
  | nil => exact Moves.refl _
  | cons entry rest ih =>
    obtain ⟨fresh, restDistinct⟩ := nodup_cons.mp distinct
    rw [foldl_cons, foldl_cons, foldl_unlistStuck_dropStuck]
    refine (unlistStuck_dropStuck_moves (found entry mem_cons_self)).trans (ih _ restDistinct ?_)
    intro later mem
    have ne : later.1 ≠ entry.1 := by
      intro same
      exact fresh (same ▸ mem_map_of_mem mem)
    rw [dropStuck_unlistStuck_txpool, AList.lookup_erase_ne ne]
    exact found later (mem_cons_of_mem _ mem)

theorem removeStuckTransactions_moves (pool : TxMemoryPool) (view : ChainView) :
    Moves policy view pool (pool.removeStuckTransactions view) := by
  have looped := @foldl_stuck_moves policy view
    (pool.txpool.entries.filter fun entry => isStuck view entry.2.txMeta) pool
    ((filter_sublist.map Sigma.fst).nodup pool.txpool.keys_nodup)
    (fun entry mem => AList.mem_lookup_iff.mpr (mem_of_mem_filter mem))
  unfold removeStuckTransactions
  dsimp only
  split
  · rename_i none
    rw [none]
    exact Moves.refl _
  · exact looped.trans (Moves.note _ _ _)

/-! ## Relay upgrades -/

theorem setRelayedOne_moves (pool : TxMemoryPool) (view : ChainView)
    (embargoDuration : Nat) (txid : Hash) (method : RelayMethod) :
    Moves Policy.any view pool (pool.setRelayedOne view embargoDuration txid method).1 := by
  unfold setRelayedOne
  rcases found : pool.txpool.lookup txid with _ | poolEntry
  · exact Moves.refl _
  · dsimp only
    split
    · rename_i announced
      refine Move.moves (Move.announce found ?_ ?_ ?_ trivial _ _)
      · rfl
      · rfl
      · exact (Bool.and_eq_true_iff.mp announced).2
    · rename_i quiet
      have raised : poolEntry.txMeta.relayMethod.matchesBroadcasted = true →
          (poolEntry.txMeta.relayMethod.upgrade method).matchesBroadcasted =
            true := by
        cases poolEntry.txMeta.relayMethod <;> cases method <;> decide
      refine Move.moves (Move.rewrite found ?_ ?_ ?_)
      · rfl
      · rfl
      · cases visible : poolEntry.txMeta.relayMethod.matchesBroadcasted with
        | false => simpa [visible] using quiet
        | true => exact raised visible

theorem setRelayed_moves (pool : TxMemoryPool) (view : ChainView)
    (method : RelayMethod) (hashes : List (Hash × Nat)) :
    Moves Policy.any view pool (pool.setRelayed view method hashes).1 := by
  induction hashes generalizing pool with
  | nil => exact Moves.refl _
  | cons first rest ih => exact (setRelayedOne_moves pool view first.2 first.1 method).trans (ih _)

/-! ## Revalidation -/

def forgetIncrementalInfo (pool : TxMemoryPool) : TxMemoryPool :=
  { pool with
    addedTxsById := ∅
    addedTxsStartTime := 0
    removedTxsByTime := []
    removedTxsStartTime := 0 }

theorem prune_lookup {bytes : Nat}
    (found : (pool.prune view bytes).txpool.lookup txid = some poolEntry) :
    pool.txpool.lookup txid = some poolEntry := by
  have looped : ∀ limit elements (state : TxMemoryPool × Bool),
      (pruneFrom limit view elements state).1.txpool.lookup txid =
        some poolEntry → state.1.txpool.lookup txid = some poolEntry := by
    intro limit elements
    induction elements with
    | nil => exact fun _ kept => kept
    | cons element rest ih =>
      intro state kept
      simp [pruneFrom] at kept
      split at kept
      · exact kept
      · split at kept
        · exact ih _ kept
        · split at kept
          · exact ih _ kept
          · have remaining := ih _ kept
            rw [removeEntry_txpool] at remaining
            by_cases same : txid = element.txid
            · subst same
              simp at remaining
            · rwa [AList.lookup_erase_ne same] at remaining
  refine looped (if bytes = 0 then pool.txpoolMaxWeight else bytes)
    pool.txsByFeeAndReceiveTime.tail.reverse (pool, false) ?_
  rw [← found]
  unfold prune
  dsimp only
  generalize pruneFrom (if bytes = 0 then pool.txpoolMaxWeight else bytes)
    view pool.txsByFeeAndReceiveTime.tail.reverse (pool, false) = pruned
  obtain ⟨final, changed⟩ := pruned
  cases changed <;> rfl

theorem addTx_new_entry {txWeight version : Nat} {relayed : Bool}
    (absent : pool.txpool.lookup txid = none)
    (added : pool.addTx view tx txid txWeight txRelay relayed version = (other, true))
    (found : other.txpool.lookup txid = some poolEntry) :
    poolEntry.tx = tx ∧ poolEntry.txMeta.weight = txWeight ∧
      poolEntry.txMeta.relayMethod = txRelay := by
  have missing : ¬ pool.haveTx txid := by simp [haveTx, absent]
  have outcome := addTx_outcome pool view tx txid txWeight txRelay relayed version
  rw [added] at outcome
  generalize result : (other, true) = pair at outcome
  cases outcome with
  | rejected | doubleSpend | refused => simp at result
  | recounted present unspent => exact absurd present missing
  | stored typed unspent looped kept same weight relays indexes =>
    rename_i relay indexed stored
    obtain ⟨rfl, -⟩ := Prod.mk.inj result
    have kept := prune_lookup found
    simp [storeEntry, addTxToTransientLists_txpool] at kept
    subst kept
    obtain rfl := looped.resolve_right missing
    refine ⟨same, weight, ?_⟩
    rw [relays]
    simp only [currentRelay, absent, RelayMethod.upgrade]
    cases relay <;> rfl

def Admitted (policy : Policy) (pool : TxMemoryPool) : Prop :=
  pool.Holds fun txid poolEntry =>
    policy.admits poolEntry.tx txid ∧ policy.weighs txid poolEntry.txMeta.weight

private theorem revalidateAll_moves (version : Nat)
    (entries : List (Sigma fun _ : Hash => PoolEntry)) (pool : TxMemoryPool)
    (admitted : ∀ entry ∈ entries, policy.admits entry.2.tx entry.1 ∧
      policy.weighs entry.1 entry.2.txMeta.weight) :
    Moves policy view pool (revalidateAll view version entries pool).1 := by
  induction entries generalizing pool with
  | nil => exact Moves.refl _
  | cons entry rest ih =>
    obtain ⟨txid, poolEntry⟩ := entry
    have restAdmitted := fun entry mem => admitted entry (mem_cons_of_mem _ mem)
    obtain ⟨admits, weighs⟩ := admitted _ mem_cons_self
    simp only [revalidateAll]
    rcases taking : pool.takeTx view txid with _ | ⟨found, taken⟩
    · exact ih pool restAdmitted
    · dsimp only
      have absent : taken.txpool.lookup txid = none := by
        rw [(takeTx_eq_some taking).2]
        exact AList.lookup_erase _ _
      have allowed : policy.Allows taken poolEntry.tx txid := by
        refine ⟨admits, ?_⟩
        intro present
        simp [haveTx, absent] at present
      have takes : Moves policy view pool taken := takeTx_moves taking
      have adds := @addTx_moves policy view taken poolEntry.tx txid poolEntry.txMeta.relayMethod
        poolEntry.txMeta.weight poolEntry.txMeta.relayed version (allowed.permits weighs)
      rcases adding : taken.addTx view poolEntry.tx txid
        poolEntry.txMeta.weight poolEntry.txMeta.relayMethod
        poolEntry.txMeta.relayed version with ⟨added, ok⟩
      rw [adding] at adds
      split
      · rename_i both
        obtain ⟨rfl, isStored⟩ := both
        obtain ⟨stored, lookup⟩ := Option.isSome_iff_exists.mp isStored
        obtain ⟨same, weight, relay⟩ := addTx_new_entry absent adding lookup
        have rewrites : Move policy view added
            { added with txpool := added.txpool.insert txid poolEntry } :=
          Move.rewrite lookup same.symm weight.symm (by rw [relay])
        exact ((takes.trans adds).trans rewrites.moves).trans (ih _ restAdmitted)
      · exact (takes.trans adds).trans (ih _ restAdmitted)

theorem validate_moves (admitted : pool.Admitted policy) (view : ChainView) (version : Nat) :
    Moves policy view pool.forgetIncrementalInfo (pool.validate view version) := by
  have looped := @revalidateAll_moves policy view version
    (pool.txpool.entries.filter fun entry => !entry.2.txMeta.pruned)
    pool.forgetIncrementalInfo
    (fun entry mem => admitted _ _ (AList.mem_lookup_iff.mpr (mem_of_mem_filter mem)))
  unfold validate
  dsimp only
  split
  · exact looped.trans (Moves.note _ _ _)
  · exact looped

/-! ## Runs of the pool -/

def stillStored (pool : TxMemoryPool) (txids : List Hash) : List Hash :=
  txids.filter fun txid => pool.haveTx txid

/-- A run, with the ids that a call of `add_tx` with `kept_by_block` false has added. -/
inductive PoolRun (policy : Policy) : TxMemoryPool → List Hash → Prop
  | empty : PoolRun policy empty []
  | addTx {pool other : TxMemoryPool} {unkept : List Hash} {ok : Bool}
      (run : PoolRun policy pool unkept) (view : ChainView)
      (tx : Transaction) (txid : Hash) (txWeight : Nat)
      (txRelay : RelayMethod) (relayed : Bool) (version : Nat)
      (permitted : policy.Permits pool tx txid txWeight (other, ok))
      (added : pool.addTx view tx txid txWeight txRelay relayed version =
        (other, ok)) :
      PoolRun policy other (other.stillStored
        (if ok ∧ txRelay ≠ .block then txid :: unkept else unkept))
  | takeTx {pool other : TxMemoryPool} {unkept : List Hash}
      {poolEntry : PoolEntry} (run : PoolRun policy pool unkept)
      (view : ChainView) (txid : Hash)
      (taken : pool.takeTx view txid = some (poolEntry, other)) :
      PoolRun policy other (other.stillStored unkept)
  | prune {pool : TxMemoryPool} {unkept : List Hash}
      (run : PoolRun policy pool unkept) (view : ChainView) (bytes : Nat) :
      PoolRun policy (pool.prune view bytes) ((pool.prune view bytes).stillStored unkept)
  | removeStuckTransactions {pool : TxMemoryPool} {unkept : List Hash}
      (run : PoolRun policy pool unkept) (view : ChainView) :
      PoolRun policy (pool.removeStuckTransactions view)
        ((pool.removeStuckTransactions view).stillStored unkept)
  | validate {pool : TxMemoryPool} {unkept : List Hash}
      (run : PoolRun policy pool unkept) (view : ChainView) (version : Nat) :
      PoolRun policy (pool.validate view version) ((pool.validate view version).stillStored unkept)

def acceptingView (now : Nat) : ChainView where
  now := now
  forwardTime := now
  height := 1
  checkFee := fun _ _ => true
  checkTxOutputs := fun _ => true
  checkTxInputs := fun _ _ => some (0, nullHash)
  haveTxKeyimgesAsSpent := fun _ => false
  getBlockIdByHeight := fun _ => nullHash
  feePerByte := fun fee weight => fee / weight

def spendingTx (keyImages : List KeyImage) : Transaction :=
  { Transaction.setNull with
    version := 2
    vin := keyImages.map fun keyImage => .toKey 0 [] keyImage
    rctSignatures := { RctSig.empty with txnFee := 3000 } }

variable {unkept : List Hash}

theorem Moves.invariant {invariant : TxMemoryPool → Prop}
    (step : ∀ {pool other}, invariant pool → Move policy view pool other → invariant other)
    (holds : invariant pool) (moves : Moves policy view pool other) : invariant other := by
  induction moves with
  | refl => exact holds
  | tail _ move ih => exact step ih move

theorem Admitted.move (admitted : pool.Admitted policy) (move : Move policy view pool other) :
    other.Admitted policy := by
  cases move with
  | note | recount => exact admitted
  | rewrite found tx weight visible =>
    apply Holds.insert admitted rfl
    rw [tx, weight]
    exact admitted _ _ found
  | announce found tx weight visible resubmits feePerByte receiveTime =>
    apply Holds.insert admitted rfl
    rw [tx, weight]
    exact admitted _ _ found
  | remove found points => exact Holds.erase admitted (removeEntry_txpool _ _ _ _ _)
  | store submits resubmits same relays indexes weighed =>
    obtain ⟨images, cookie, rfl⟩ := insertKeyImages_frame indexes
    apply Holds.insert admitted rfl
    rw [same]
    exact ⟨submits.admitted, weighed⟩
  | refuse submits indexes =>
    obtain ⟨images, cookie, rfl⟩ := insertKeyImages_frame indexes
    exact admitted

theorem admitted_empty : empty.Admitted policy := by
  intro txid entry found
  simp [empty] at found

theorem PoolRun.invariant {invariant : TxMemoryPool → Prop} (empty : invariant TxMemoryPool.empty)
    (forget : ∀ {pool}, invariant pool → invariant pool.forgetIncrementalInfo)
    (step : ∀ {view pool other}, pool.Admitted policy → invariant pool →
      Move policy view pool other → invariant other) (run : PoolRun policy pool unkept) :
    pool.Admitted policy ∧ invariant pool := by
  have moved : ∀ {view pool other},
      pool.Admitted policy ∧ invariant pool → Moves policy view pool other →
        other.Admitted policy ∧ invariant other := by
    intro view pool other holds moves
    refine @Moves.invariant policy view pool other
      (fun pool => pool.Admitted policy ∧ invariant pool) ?_ holds moves
    intro current next both move
    exact ⟨both.1.move move, step both.1 both.2 move⟩
  induction run with
  | empty => exact ⟨admitted_empty, empty⟩
  | addTx run view tx txid txWeight txRelay relayed version permitted added ih =>
    rw [← added] at permitted
    have moves := addTx_moves permitted
    rw [added] at moves
    exact moved ih moves
  | takeTx run view txid taken ih => exact moved ih (takeTx_moves taken)
  | prune run view bytes ih => exact moved ih (prune_moves _ view bytes)
  | removeStuckTransactions run view ih => exact moved ih (removeStuckTransactions_moves _ view)
  | validate run view version ih =>
    rename_i pool unkept
    have forgotten : pool.forgetIncrementalInfo.Admitted policy ∧
        invariant pool.forgetIncrementalInfo :=
      ⟨ih.1, forget ih.2⟩
    exact moved forgotten (validate_moves ih.1 view version)

/-! ## The weight of the pool -/

open AssociationTotals TxMemoryPool WrappedArithmetic

def storedWeight (pool : TxMemoryPool) : Nat :=
  total (fun poolEntry => poolEntry.txMeta.weight) pool.txpool

/-- Accepts only ids that are not stored, out of a list with the greatest weight of each. -/
def Policy.newOnly (ids : List Hash) (weightOf : Hash → Nat) : Policy :=
  ⟨fun _ _ => True, fun _ _ => False, fun txid weight => txid ∈ ids ∧ weight ≤ weightOf txid⟩

variable {ids : List Hash} {weightOf : Hash → Nat}

theorem txpoolWeight_move (fits : (ids.map weightOf).sum < 2 ^ 64)
    (admitted : pool.Admitted (Policy.newOnly ids weightOf))
    (counted : pool.txpoolWeight = pool.storedWeight)
    (move : Move (Policy.newOnly ids weightOf) view pool other) :
    other.txpoolWeight = other.storedWeight := by
  have below : other.storedWeight ≤ (ids.map weightOf).sum :=
    total_le_sum fun txid entry found => (admitted.move move txid entry found).2
  cases move with
  | note => exact counted
  | rewrite found tx weight => exact counted.trans (total_insert_of_eq found weight).symm
  | announce found tx weight =>
    exact counted.trans (total_insert_of_eq found weight).symm
  | remove found points =>
    rename_i txid entry position
    have dropped := @total_erase _ _ _ (fun entry : PoolEntry => entry.txMeta.weight) _ _ _ found
    have reduced : (pool.removeEntry view position txid entry).txpoolWeight =
          pool.txpoolWeight - entry.txMeta.weight := by
      rw [removeEntry_eq]
      rfl
    rw [reduced, storedWeight, removeEntry_txpool, counted, storedWeight,
      ← dropped, Nat.add_sub_cancel]
  | store submits resubmits same relays indexes weighed =>
    rename_i txid _ poolEntry
    have absent : pool.txpool.lookup txid = none := by
      by_contra present
      exact resubmits (Option.isSome_iff_ne_none.mpr present)
    obtain ⟨images, cookie, rfl⟩ := insertKeyImages_frame indexes
    have stored := @total_insert_of_lookup_none _ _ _ (fun entry : PoolEntry => entry.txMeta.weight)
      _ _ poolEntry absent
    have small : pool.storedWeight + poolEntry.txMeta.weight < 2 ^ 64 :=
      (stored.symm.trans_le below).trans_lt fits
    exact (congrArg (addMod 64 · _) counted).trans ((addMod_of_lt small).trans stored.symm)
  | refuse submits indexes =>
    obtain ⟨images, cookie, rfl⟩ := insertKeyImages_frame indexes
    exact counted
  | recount allowed present txWeight => exact absurd present allowed.2

/-- While no stored transaction is accepted again, and the transactions submitted in the run do not
weigh 2⁶⁴ together, the weight of the pool is the sum of the stored weights. -/
theorem PoolRun.txpoolWeight_eq (fits : (ids.map weightOf).sum < 2 ^ 64)
    (run : PoolRun (Policy.newOnly ids weightOf) pool unkept) :
    pool.txpoolWeight = pool.storedWeight := by
  have counted := @PoolRun.invariant (Policy.newOnly ids weightOf) pool unkept
    (fun pool => pool.txpoolWeight = pool.storedWeight) rfl
    (fun counted => counted)
    (fun admitted counted move => txpoolWeight_move fits admitted counted move) run
  exact counted.2

def stemPool : TxMemoryPool :=
  (empty.addTx (acceptingView 10) (spendingTx [7]) 1 1500 .stem false 16).1

theorem stemPool_run (policy : Policy) (admits : policy.admits (spendingTx [7]) 1)
    (weighs : policy.weighs 1 1500) :
    PoolRun policy stemPool (stemPool.stillStored [1]) := by
  have added : empty.addTx (acceptingView 10) (spendingTx [7]) 1
      1500 .stem false 16 = (stemPool, true) :=
    Prod.ext rfl (by decide)
  have allowed : policy.Allows empty (spendingTx [7]) 1 :=
    ⟨admits, fun present => by simp [haveTx, empty] at present⟩
  exact PoolRun.addTx PoolRun.empty _ _ _ _ _ _ _ (allowed.permits weighs) added

theorem stemPool_weight :
    stemPool.txpoolWeight = stemPool.storedWeight ∧ stemPool.storedWeight = 1500 :=
  ⟨@PoolRun.txpoolWeight_eq _ _ [1] (fun _ => 1500) (by decide)
    (stemPool_run _ trivial ⟨by decide, le_refl _⟩), by decide⟩

def fluffPool : TxMemoryPool :=
  (stemPool.addTx (acceptingView 11) (spendingTx [7]) 1 1500 .fluff false 16).1

/-- The upgrade of a stored transaction counts its weight a second time. -/
theorem fluffPool_counts_twice : (∃ unkept, PoolRun Policy.any fluffPool unkept) ∧
      fluffPool.txpoolWeight = 3000 ∧ fluffPool.storedWeight = 1500 := by
  have added : stemPool.addTx (acceptingView 11) (spendingTx [7]) 1 1500
      .fluff false 16 = (fluffPool, true) :=
    Prod.ext rfl (by decide)
  refine ⟨⟨_, PoolRun.addTx (stemPool_run Policy.any trivial trivial) _ _ _ _ _ _ _
    Policy.any_permits added⟩, by decide, by decide⟩

/-! ## The set ordered by fee and receive time -/

def feeOrderCount (pool : TxMemoryPool) (txid : Hash) : Nat :=
  pool.txsByFeeAndReceiveTime.countP fun element => element.txid == txid

def FeeOrdered (pool : TxMemoryPool) : Prop :=
  ∀ txid, pool.feeOrderCount txid = if pool.haveTx txid then 1 else 0

/-- Accepts only ids that are not stored or that are listed in `m_added_txs_by_id`. -/
def Policy.listed : Policy :=
  ⟨fun _ _ => True, fun pool txid => (pool.addedTxsById.lookup txid).isSome, fun _ _ => True⟩

theorem insertFeeOrder_perm {element : FeeOrderEntry}
    {elements : List FeeOrderEntry} (fresh : element ∉ elements) :
    (insertFeeOrder element elements).Perm (element :: elements) := by
  induction elements with
  | nil => exact List.Perm.refl _
  | cons head tail ih =>
    have ne : element ≠ head := ne_of_not_mem_cons fresh
    have later : element ∉ tail := not_mem_of_not_mem_cons fresh
    simp only [insertFeeOrder, if_neg ne]
    split
    · exact List.Perm.refl _
    · exact ((ih later).cons head).trans (List.Perm.swap element head tail)

theorem countP_eraseSorted {position : Option FeeOrderEntry}
    (points : pool.PointsAt txid position) (id : Hash) :
    ((pool.eraseSorted position).countP fun element => element.txid == id) =
      pool.feeOrderCount id - if id = txid then 1 else 0 := by
  cases position with
  | none =>
    change pool.feeOrderCount id = _
    split
    · rename_i same
      have absent : pool.feeOrderCount id = 0 := by
        refine countP_eq_zero.mpr ?_
        intro element mem
        simpa [same] using points element mem
      rw [absent]
    · rfl
  | some element =>
    obtain ⟨mem, rfl⟩ := points
    have permuted := perm_cons_erase mem
    rw [feeOrderCount, permuted.countP_eq, eraseSorted]
    by_cases same : id = element.txid
    · simp [same]
    · have reversed : element.txid ≠ id := fun eq => same eq.symm
      simp [same, reversed]

theorem feeOrderCount_addTxToTransientLists (count : pool.feeOrderCount txid ≤ 1)
    (listed : pool.feeOrderCount txid ≠ 0 → (pool.addedTxsById.lookup txid).isSome)
    (feePerByte receiveTime : Nat) (id : Hash) :
    (pool.addTxToTransientLists view txid feePerByte receiveTime).feeOrderCount id =
      if id = txid then 1 else pool.feeOrderCount id := by
  let remaining := if (pool.addedTxsById.lookup txid).isSome then
      pool.eraseSorted (pool.findTxInSortedContainer txid)
    else pool.txsByFeeAndReceiveTime
  have counted : ∀ id, (remaining.countP fun element => element.txid == id) =
      if id = txid then 0 else pool.feeOrderCount id := by
    intro id
    simp [remaining]
    split
    · rw [countP_eraseSorted (pointsAt_find pool txid)]
      split
      · rename_i same
        rw [same]
        omega
      · rfl
    · rename_i unlisted
      split
      · rename_i same
        rw [same]
        by_contra present
        exact unlisted (listed present)
      · rfl
  have fresh : (⟨feePerByte, receiveTime, txid⟩ : FeeOrderEntry) ∉
      remaining := by
    intro mem
    have none := counted txid
    rw [if_pos rfl, countP_eq_zero] at none
    exact none _ mem (beq_self_eq_true txid)
  have permuted := insertFeeOrder_perm fresh
  change (insertFeeOrder ⟨feePerByte, receiveTime, txid⟩ remaining).countP
    (fun element => element.txid == id) = _
  rw [permuted.countP_eq, countP_cons, counted]
  by_cases same : id = txid
  · simp [same]
  · have reversed : txid ≠ id := fun eq => same eq.symm
    simp [same, reversed]

theorem FeeOrdered.le_one (ordered : pool.FeeOrdered) (txid : Hash) :
    pool.feeOrderCount txid ≤ 1 := by
  rw [ordered]
  split <;> omega

private theorem FeeOrdered.list {entry : PoolEntry} (ordered : pool.FeeOrdered)
    (view : ChainView) (resubmits : pool.haveTx txid → Policy.listed.resubmits pool txid)
    (feePerByte receiveTime : Nat) (written : other.txpool = pool.txpool.insert txid entry)
    (elements : other.txsByFeeAndReceiveTime =
      (pool.addTxToTransientLists view txid feePerByte receiveTime).txsByFeeAndReceiveTime) :
    other.FeeOrdered := by
  have listed : pool.feeOrderCount txid ≠ 0 → (pool.addedTxsById.lookup txid).isSome := by
    intro present
    refine resubmits ?_
    by_contra absent
    rw [ordered txid, if_neg absent] at present
    exact present rfl
  intro id
  rw [feeOrderCount, elements]
  change (pool.addTxToTransientLists view txid feePerByte receiveTime).feeOrderCount id = _
  rw [feeOrderCount_addTxToTransientLists (ordered.le_one txid) listed]
  simp only [haveTx_insert written]
  by_cases same : id = txid
  · simp [same]
  · simp [same, ordered id]

theorem FeeOrdered.move (ordered : pool.FeeOrdered) (move : Move Policy.listed view pool other) :
    other.FeeOrdered := by
  cases move with
  | note | recount => exact ordered
  | rewrite found tx weight visible =>
    rename_i txid original poolEntry
    have written : ({ pool with txpool := pool.txpool.insert txid poolEntry } :
        TxMemoryPool).txpool = pool.txpool.insert txid poolEntry := rfl
    have present : pool.haveTx txid := by simp [haveTx, found]
    intro id
    have unchanged : id = txid ∨ pool.haveTx id ↔ pool.haveTx id := by
      apply or_iff_right_of_imp
      rintro rfl
      exact present
    simp [haveTx_insert written, unchanged]
    exact ordered id
  | announce found tx weight visible resubmits feePerByte receiveTime =>
    exact ordered.list view (fun _ => resubmits) feePerByte receiveTime rfl rfl
  | remove found points =>
    rename_i txid poolEntry position
    intro id
    rw [feeOrderCount, removeEntry_txsByFeeAndReceiveTime, countP_eraseSorted points, ordered]
    simp [haveTx_erase (removeEntry_txpool _ _ _ _ _)]
    by_cases same : id = txid
    · subst same
      simp [haveTx, found]
    · simp [same]
  | store submits resubmits same relays indexes =>
    obtain ⟨images, cookie, rfl⟩ := insertKeyImages_frame indexes
    exact ordered.list view resubmits _ _ rfl rfl
  | refuse submits indexes =>
    obtain ⟨images, cookie, rfl⟩ := insertKeyImages_frame indexes
    exact ordered

/-- While stored transactions are accepted again only when listed in `m_added_txs_by_id`, the
ordered set has one element for each stored one. -/
theorem PoolRun.feeOrdered (run : PoolRun Policy.listed pool unkept) : pool.FeeOrdered := by
  have empty : TxMemoryPool.empty.FeeOrdered := fun _ => rfl
  have ordered := PoolRun.invariant empty (fun ordered => ordered)
    (fun _ ordered move => ordered.move move)
    run
  exact ordered.2

theorem fluffPool_feeOrdered : fluffPool.feeOrderCount 1 = 1 := by
  have listed : (stemPool.addedTxsById.lookup 1).isSome := by decide
  have run : PoolRun Policy.listed fluffPool _ :=
    PoolRun.addTx (stemPool_run _ trivial trivial) (acceptingView 11) (spendingTx [7]) 1 1500 .fluff
      false 16 (Policy.Allows.permits ⟨trivial, fun _ => listed⟩ trivial) rfl
  exact PoolRun.feeOrdered run 1

def prunedTx : Transaction :=
  { spendingTx [7] with pruned := true }

def prunedPool : TxMemoryPool :=
  (empty.addTx (acceptingView 10) prunedTx 1 1500 .stem false 16).1

/-- The transaction submitted again after a call of `validate`. -/
def doublyOrderedPool : TxMemoryPool :=
  ((prunedPool.validate (acceptingView 11) 16).addTx (acceptingView 12)
    prunedTx 1 1500 .fluff false 16).1

theorem doublyOrderedPool_counts_two : (∃ unkept, PoolRun Policy.any doublyOrderedPool unkept) ∧
      doublyOrderedPool.haveTx 1 ∧ doublyOrderedPool.feeOrderCount 1 = 2 := by
  have added : PoolRun Policy.any prunedPool _ := PoolRun.addTx PoolRun.empty (acceptingView 10)
    prunedTx 1 1500 .stem false 16 Policy.any_permits rfl
  have validated := PoolRun.validate added (acceptingView 11) 16
  exact ⟨⟨_, PoolRun.addTx validated (acceptingView 12) prunedTx 1 1500 .fluff
    false 16 Policy.any_permits rfl⟩, by decide, by decide⟩

end TxMemoryPool

end LodeChain

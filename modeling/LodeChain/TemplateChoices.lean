import LodeChain.KeyImageRuns
import LodeChain.RingScans
import LodeChain.TemplateValidity

/-!
# What a template chooses

Invariants of the loop of `fill_block_template` from version 5 on.
-/

namespace LodeChain

open WrappedArithmetic List Blockchain

namespace TxMemoryPool

/-! ## Key images -/

section Images

variable {known : List KeyImage} {vin : List TxIn} (keyInputs : vin.all TxIn.isToKey = true)

include keyInputs

theorem not_mem_of_haveKeyImages (unseen : haveKeyImages known vin = false) :
    ∀ image ∈ inputImages vin, image ∉ known := by
  induction vin with
  | nil => simp [inputImages]
  | cons input rest ih =>
    cases input with
    | toKey amount keyOffsets keyImage =>
      rw [haveKeyImages] at unseen
      split_ifs at unseen with mem
      have later := ih (by simpa [TxIn.isToKey] using keyInputs) unseen
      rw [inputImages_toKey, forall_mem_cons]
      exact ⟨mem, later⟩
    | _ => cases keyInputs

theorem mem_appendKeyImages (distinct : (inputImages vin).Nodup)
    (unseen : ∀ image ∈ inputImages vin, image ∉ known) {image : KeyImage} :
    image ∈ appendKeyImages known vin ↔ image ∈ known ∨ image ∈ inputImages vin := by
  induction vin generalizing known with
  | nil => simp [inputImages, appendKeyImages]
  | cons input rest ih =>
    cases input with
    | toKey amount keyOffsets keyImage =>
      rw [inputImages_toKey, nodup_cons] at distinct
      rw [inputImages_toKey, forall_mem_cons] at unseen
      have others : ∀ other ∈ inputImages rest, other ∉ keyImage :: known := by
        intro other mem
        rw [mem_cons, not_or]
        exact ⟨fun same => distinct.1 (same ▸ mem), unseen.2 other mem⟩
      rw [appendKeyImages, if_neg unseen.1,
        ih (by simpa [TxIn.isToKey] using keyInputs) distinct.2 others,
        inputImages_toKey, mem_cons, mem_cons]
      tauto
    | _ => cases keyInputs

end Images

/-! ## One iteration -/

variable {chain : Blockchain} {env : Env} {now : Nat} {tenv : TemplateEnv} {params : FillParams}

def ReadyToGo (view : ChainView) (tenv : TemplateEnv) (entry : PoolEntry) : Prop :=
  (isTransactionReadyToGo view tenv entry.txMeta entry.tx).1 = true

variable {entry : PoolEntry} {view : ChainView} {fill : TemplateFill}

theorem ReadyToGo.checked (ready : ReadyToGo (chain.view env now) tenv entry) :
    ∃ maxUsed, (chain.view env now).checkTxInputs entry.tx false = some maxUsed ∧
      (chain.view env now).haveTxKeyimgesAsSpent entry.tx = false := by
  unfold ReadyToGo isTransactionReadyToGo at ready
  generalize (if entry.txMeta.maxUsedBlockId = nullHash then _ else _) = broken at ready
  cases broken with
  | true => cases ready
  | false =>
    cases inputs : (chain.view env now).checkTxInputs entry.tx false with
    | none =>
      rw [inputs] at ready
      cases ready
    | some maxUsed =>
      rw [inputs] at ready
      refine ⟨maxUsed, rfl, ?_⟩
      by_contra spent
      simp [Bool.not_eq_false _ ▸ spent] at ready

theorem ReadyToGo.keyInputs (ready : ReadyToGo (chain.view env now) tenv entry) :
    entry.tx.vin.all TxIn.isToKey = true := by
  obtain ⟨-, -, unspent⟩ := ready.checked
  have unspentInputs := any_eq_false.mp unspent
  rw [all_eq_true]
  intro input mem
  have := unspentInputs input mem
  cases input <;> simp_all [TxIn.isToKey]

theorem ReadyToGo.distinct (ordered : ∀ tx, (env.checkTxInputs chain now tx).isSome →
      RingContext.sortedKeyImages tx.keyImages = true)
    (ready : ReadyToGo (chain.view env now) tenv entry) : entry.tx.keyImages.Nodup := by
  obtain ⟨maxUsed, checked, -⟩ := ready.checked
  apply RingContext.nodup_of_sortedKeyImages
  apply ordered
  cases passed : env.checkTxInputs chain now entry.tx with
  | some => rfl
  | none => simp [view, passed] at checked

theorem consider_candidate {txMeta : TxpoolTxMeta} {asked : List RewardQuery} {coinbase : Nat}
    (modern : 5 ≤ params.version)
    (considered : consider view params fill txMeta = (asked, .candidate coinbase)) :
    addMod 64 fill.totalWeight txMeta.weight ≤ maxTotalWeight params ∧
      ∃ reward, (templateReward view params
          (addMod 64 fill.totalWeight txMeta.weight)).reward = some reward ∧
        coinbase = addMod 64 (addMod 64 reward fill.fee) txMeta.fee := by
  unfold consider at considered
  cases reward : (templateReward view params (addMod 64 fill.totalWeight txMeta.weight)).reward with
  | none =>
    simp [reward] at considered
    split_ifs at considered <;> simp at considered
  | some blockReward =>
    simp [reward] at considered
    split_ifs at considered with relay pruned heavy low
    all_goals simp only [Prod.mk.injEq, reduceCtorEq, and_false] at considered
    simp at considered
    exact ⟨not_lt.mp heavy, blockReward, rfl, considered.2.symm⟩

/-- A transaction is chosen only if it is ready and none of its key images has been seen. -/
structure Included (view : ChainView) (tenv : TemplateEnv) (fill : TemplateFill)
    (txid : Hash) (entry : PoolEntry) (coinbase : Nat) (next : TemplateFill) : Prop where
  others : ∀ id, id ≠ txid → next.pool.txpool.lookup id = fill.pool.txpool.lookup id
  same : (next.pool.txpool.lookup txid).map PoolEntry.tx = some entry.tx
  outcome : (next.txHashes = fill.txHashes ∧ next.totalWeight = fill.totalWeight ∧
        next.fee = fill.fee ∧ next.bestCoinbase = fill.bestCoinbase ∧
        next.keyImages = fill.keyImages) ∨ ReadyToGo view tenv entry ∧
        haveKeyImages fill.keyImages entry.tx.vin = false ∧
        next.txHashes = fill.txHashes ++ [txid] ∧
        next.totalWeight = addMod 64 fill.totalWeight entry.txMeta.weight ∧
        next.fee = addMod 64 fill.fee entry.txMeta.fee ∧ next.bestCoinbase = coinbase ∧
        next.keyImages = appendKeyImages fill.keyImages entry.tx.vin

theorem includeCandidate_included {view : ChainView} {fill : TemplateFill}
    {txid : Hash} {entry : PoolEntry} (coinbase : Nat)
    (found : fill.pool.txpool.lookup txid = some entry) :
    Included view tenv fill txid entry coinbase
      (includeCandidate view tenv fill txid entry coinbase) := by
  unfold includeCandidate
  cases checked : isTransactionReadyToGo view tenv entry.txMeta entry.tx with
  | mk ready txMeta =>
    dsimp only
    have recorded : ∀ updated, (if txMeta = entry.txMeta then fill else
        { fill with
          pool := { fill.pool with
              txpool := fill.pool.txpool.insert txid
                { entry with txMeta := txMeta } } }) = updated →
        (∀ id, id ≠ txid → updated.pool.txpool.lookup id = fill.pool.txpool.lookup id) ∧
        (updated.pool.txpool.lookup txid).map PoolEntry.tx = some entry.tx ∧
        updated.txHashes = fill.txHashes ∧
          updated.totalWeight = fill.totalWeight ∧ updated.fee = fill.fee ∧
          updated.bestCoinbase = fill.bestCoinbase ∧
          updated.keyImages = fill.keyImages := by
      rintro updated rfl
      split_ifs
      · exact ⟨fun _ _ => rfl, by rw [found, Option.map_some], rfl, rfl, rfl, rfl, rfl⟩
      · exact ⟨fun id other => AList.lookup_insert_ne other,
          by rw [AList.lookup_insert, Option.map_some], rfl, rfl, rfl, rfl, rfl⟩
    generalize updatedEq : (if txMeta = entry.txMeta then fill else _) = updated at recorded ⊢
    obtain ⟨others, same, unchanged⟩ := recorded updated rfl
    split_ifs with notReady seen
    · exact ⟨others, same, .inl unchanged⟩
    · exact ⟨others, same, .inl unchanged⟩
    · refine ⟨others, same, .inr ⟨?_, by simpa using seen, rfl, rfl, rfl, rfl, rfl⟩⟩
      rw [ReadyToGo, checked]
      simpa using notReady

/-! ## Whole runs -/

/-- Each was ready as it was considered; if the fee order lists it once, as the pool has it. -/
structure Chosen (view : ChainView) (tenv : TemplateEnv) (once : Prop)
    (pool : TxMemoryPool) (fill : TemplateFill) (chosen : List PoolEntry) : Prop where
  kept : ∀ id, (fill.pool.txpool.lookup id).map PoolEntry.tx =
    (pool.txpool.lookup id).map PoolEntry.tx
  found : List.Forall₂ (fun txid entry =>
    pool.txpool.lookup txid = some entry) fill.txHashes chosen
  ready : ∀ entry ∈ chosen, ∃ considered : PoolEntry,
    considered.tx = entry.tx ∧ ReadyToGo view tenv considered ∧ (once → considered = entry)
  images : (∀ entry ∈ chosen, entry.tx.keyImages.Nodup) →
    chosen.Pairwise (fun first second =>
      first.tx.keyImages.Disjoint second.tx.keyImages) ∧
    ∀ entry ∈ chosen, ∀ image ∈ entry.tx.keyImages, image ∈ fill.keyImages

theorem chosen_empty {once : Prop} (pool : TxMemoryPool)
    (bestCoinbase : Nat) (queries : List RewardQuery) :
    Chosen view tenv once pool ⟨pool, [], 0, 0, bestCoinbase, [], queries⟩ [] :=
  ⟨fun _ => rfl, .nil, by simp, by simp⟩

theorem Chosen.next {once : Prop} {pool : TxMemoryPool}
    {next : TemplateFill} {chosen : List PoolEntry} {txid : Hash} {coinbase : Nat}
    (invariant : Chosen (chain.view env now) tenv once pool fill chosen)
    (found : fill.pool.txpool.lookup txid = some entry)
    (untouched : once → pool.txpool.lookup txid = some entry)
    (included : Included (chain.view env now) tenv fill txid entry coinbase next) :
    ∃ chosen, Chosen (chain.view env now) tenv once pool next chosen := by
  have kept : ∀ id, (next.pool.txpool.lookup id).map PoolEntry.tx =
      (pool.txpool.lookup id).map PoolEntry.tx := by
    intro id
    by_cases here : id = txid
    · subst here
      rw [included.same, ← invariant.kept, found, Option.map_some]
    · rw [included.others id here, invariant.kept]
  rcases included.outcome with ⟨hashes, -, -, -, images⟩ | ⟨ready, unseen, hashes, -, -, -, images⟩
  · refine ⟨chosen, kept, hashes ▸ invariant.found, invariant.ready, ?_⟩
    rw [images]
    exact invariant.images
  · have stored := invariant.kept txid
    rw [found, Option.map_some, eq_comm, Option.map_eq_some_iff] at stored
    obtain ⟨original, storedAt, sameTx⟩ := stored
    have keyInputs := ready.keyInputs
    have fresh := not_mem_of_haveKeyImages keyInputs unseen
    rw [← sameTx] at keyInputs fresh images
    refine ⟨chosen ++ [original], kept, ?_, ?_, ?_⟩
    · rw [hashes]
      exact rel_append invariant.found (.cons storedAt .nil)
    · intro other mem
      rcases mem_append.mp mem with before | last
      · exact invariant.ready other before
      · rw [mem_singleton.mp last]
        exact ⟨entry, sameTx.symm, ready, fun listed =>
          Option.some.inj ((untouched listed).symm.trans storedAt)⟩
    · intro distinct
      rw [forall_mem_append] at distinct
      obtain ⟨disjoint, recorded⟩ := invariant.images distinct.1
      have ownDistinct := distinct.2 original (mem_singleton_self _)
      have members := fun image =>
        @mem_appendKeyImages _ _ keyInputs ownDistinct fresh image
      refine ⟨?_, ?_⟩
      · rw [pairwise_append]
        refine ⟨disjoint, pairwise_singleton _ _, ?_⟩
        intro prev before last isLast
        rw [mem_singleton.mp isLast]
        intro image ofEarlier ofLast
        exact fresh image ofLast (recorded prev before image ofEarlier)
      · intro other mem image ofOther
        rw [images, members]
        rcases mem_append.mp mem with before | last
        · exact .inl (recorded other before image ofOther)
        · rw [mem_singleton.mp last] at ofOther
          exact .inr ofOther

/-- The weight is within the limit, and the coinbase is the reward for it with the
fees. -/
structure Priced (view : ChainView) (params : FillParams) (fill : TemplateFill) : Prop where
  bounded : fill.totalWeight ≤ maxTotalWeight params
  coinbase : ∃ reward, (templateReward view params fill.totalWeight).reward = some reward ∧
      fill.bestCoinbase = addMod 64 reward fill.fee

theorem addMod_addMod (left middle right : Nat) :
    addMod 64 (addMod 64 left middle) right = addMod 64 left (addMod 64 middle right) := by
  unfold addMod
  omega

theorem Priced.next {next : TemplateFill} {txid : Hash} {asked : List RewardQuery} {coinbase : Nat}
    (modern : 5 ≤ params.version) (priced : Priced view params fill)
    (considered : consider view params fill entry.txMeta = (asked, .candidate coinbase))
    (included : Included view tenv fill txid entry coinbase next) :
    Priced view params next := by
  obtain ⟨light, reward, rewarded, total⟩ := consider_candidate modern considered
  rcases included.outcome with ⟨-, weight, fee, best, -⟩ | ⟨-, -, -, weight, fee, best, -⟩
  · refine ⟨weight ▸ priced.bounded, ?_⟩
    rw [weight, best, fee]
    exact priced.coinbase
  · refine ⟨weight ▸ light, reward, weight ▸ rewarded, ?_⟩
    rw [best, fee, total, addMod_addMod]

theorem fillFrom_chosen (modern : 5 ≤ params.version) {once : Prop}
    {pool : TxMemoryPool} (elements : List FeeOrderEntry) {chosen : List PoolEntry}
    (invariant : Chosen (chain.view env now) tenv once pool fill chosen)
    (priced : Priced (chain.view env now) params fill)
    (fresh : once → (elements.map FeeOrderEntry.txid).Nodup ∧
      ∀ element ∈ elements, fill.pool.txpool.lookup element.txid =
        pool.txpool.lookup element.txid) : ∃ chosen, Chosen (chain.view env now) tenv once pool
        (fillFrom (chain.view env now) tenv params elements fill) chosen ∧
      Priced (chain.view env now) params
        (fillFrom (chain.view env now) tenv params elements fill) := by
  induction elements generalizing fill chosen with
  | nil => exact ⟨chosen, invariant, priced⟩
  | cons element rest ih =>
    have later : once → (rest.map FeeOrderEntry.txid).Nodup ∧
        ∀ other ∈ rest, other.txid ≠ element.txid ∧
          fill.pool.txpool.lookup other.txid = pool.txpool.lookup other.txid := by
      intro listed
      obtain ⟨distinct, same⟩ := fresh listed
      rw [map_cons, nodup_cons] at distinct
      refine ⟨distinct.2, fun other mem => ⟨?_, same other (mem_cons_of_mem _ mem)⟩⟩
      exact fun clash => distinct.1 (clash ▸ mem_map_of_mem mem)
    have skipped : once → (rest.map FeeOrderEntry.txid).Nodup ∧ ∀ other ∈ rest,
          fill.pool.txpool.lookup other.txid = pool.txpool.lookup other.txid :=
      fun listed => ⟨(later listed).1, fun other mem => ((later listed).2 other mem).2⟩
    rw [fillFrom]
    cases found : fill.pool.txpool.lookup element.txid with
    | none => exact ih invariant priced skipped
    | some entry =>
      dsimp only
      cases considered : consider (chain.view env now) params fill entry.txMeta with
      | mk asked decision =>
        have noted : Chosen (chain.view env now) tenv once pool
            { fill with queries := fill.queries ++ asked } chosen :=
          ⟨invariant.kept, invariant.found, invariant.ready, invariant.images⟩
        have notedPriced : Priced (chain.view env now) params
            { fill with queries := fill.queries ++ asked } :=
          ⟨priced.bounded, priced.coinbase⟩
        cases decision with
        | skipped => exact ih noted notedPriced skipped
        | stopped => exact ⟨chosen, noted, notedPriced⟩
        | candidate coinbase =>
          have included := @includeCandidate_included tenv
            (chain.view env now) { fill with queries := fill.queries ++ asked }
            element.txid entry coinbase found
          obtain ⟨more, moreChosen⟩ := noted.next found (fun listed => by
              rw [← (fresh listed).2 element mem_cons_self]
              exact found) included
          refine ih moreChosen (notedPriced.next modern considered included) ?_
          intro listed
          refine ⟨(later listed).1, fun other mem => ?_⟩
          obtain ⟨apart, same⟩ := (later listed).2 other mem
          rw [included.others _ apart]
          exact same

theorem maxTotalWeight_le (modern : 5 ≤ params.version)
    (enough : 300 ≤ params.medianWeight) (word : params.medianWeight < 2 ^ 64) :
    maxTotalWeight params ≤ 2 * params.medianWeight - 600 := by
  have reserved : coinbaseBlobReservedSize = 600 := rfl
  rw [maxTotalWeight, if_pos modern]
  unfold subMod mulMod
  omega

/-- What `fill_block_template` chooses from version 5 on: pool entries that were ready, with the
64-bit sums of their weights and fees, a weight of at most twice the median less 600 and the reward
for it with the fees. No two share a key image if none repeats one, or if only ordered key images
pass the input check. -/
theorem fillBlockTemplate_chosen {chain : Blockchain} {env : Env} {now : Nat} {tenv : TemplateEnv}
    {params : FillParams} {pool : TxMemoryPool} {fill : TemplateFill} (modern : 5 ≤ params.version)
    (enough : 300 ≤ params.medianWeight) (word : params.medianWeight < 2 ^ 64)
    (filled : pool.fillBlockTemplate (chain.view env now) tenv params = (fill, true)) :
    ∃ chosen : List PoolEntry, List.Forall₂ (fun txid entry =>
        pool.txpool.lookup txid = some entry) fill.txHashes chosen ∧
      (∀ entry ∈ chosen, ∃ considered : PoolEntry, considered.tx = entry.tx ∧
        ReadyToGo (chain.view env now) tenv considered ∧
        ((pool.txsByFeeAndReceiveTime.map FeeOrderEntry.txid).Nodup → considered = entry)) ∧
      ((∀ entry ∈ chosen, entry.tx.keyImages.Nodup) ∨
          (∀ tx, (env.checkTxInputs chain now tx).isSome →
            RingContext.sortedKeyImages tx.keyImages = true) → chosen.Pairwise fun first second =>
          first.tx.keyImages.Disjoint second.tx.keyImages) ∧ fill.totalWeight =
        sumMod 64 (chosen.map fun entry => entry.txMeta.weight) ∧
      fill.fee = sumMod 64 (chosen.map fun entry => entry.txMeta.fee) ∧
      fill.totalWeight ≤ 2 * params.medianWeight - 600 ∧
      ∃ reward, getBlockReward params.medianWeight fill.totalWeight
          params.alreadyGeneratedCoins params.version chain.db.height = some reward ∧
        fill.bestCoinbase = addMod 64 reward fill.fee := by
  obtain ⟨-, poolEntries, listed, weight, fee⟩ :
      Tallied pool (pool.fillBlockTemplate _ tenv params).1 :=
    fillBlockTemplate_tallied pool
  rw [filled] at listed weight fee
  unfold fillBlockTemplate at filled
  dsimp only at filled
  cases rewarded : (templateReward (chain.view env now) params 0).reward with
  | none =>
    rw [rewarded] at filled
    cases filled
  | some bestCoinbase =>
    rw [rewarded] at filled
    obtain rfl := (Prod.mk.inj filled).1
    have small : bestCoinbase < 2 ^ 64 :=
      (getBlockReward_le (show getBlockReward params.medianWeight 0
        params.alreadyGeneratedCoins params.version _ =
          some bestCoinbase from rewarded)).trans_lt (getBaseReward_lt _ _)
    have start : Priced (chain.view env now) params ⟨pool, [], 0, 0, bestCoinbase, [],
          [templateReward (chain.view env now) params 0]⟩ :=
      ⟨Nat.zero_le _, bestCoinbase, rewarded, (Nat.mod_eq_of_lt small).symm⟩
    obtain ⟨chosen, invariant, priced⟩ := fillFrom_chosen modern
      _ (chosen_empty pool _ _) start
      fun distinct : (pool.txsByFeeAndReceiveTime.map FeeOrderEntry.txid).Nodup =>
        ⟨distinct, fun _ _ => rfl⟩
    obtain rfl : poolEntries = chosen := right_unique_forall₂' (fun _ _ _ first second =>
        Option.some.inj (first.symm.trans second)) listed invariant.found
    refine ⟨poolEntries, listed, invariant.ready, ?_, weight, fee,
      priced.bounded.trans (maxTotalWeight_le modern enough word),
      priced.coinbase⟩
    rintro (distinct | ordered)
    · exact (invariant.images distinct).1
    · refine (invariant.images fun entry member => ?_).1
      obtain ⟨considered, sameTx, ready, -⟩ := invariant.ready entry member
      exact sameTx ▸ ready.distinct ordered

def sixthForkChain : Blockchain :=
  { firstEraChain 3 with
    hardfork := ⟨1, 1, 10080, [⟨1, 1, 0, 0⟩, ⟨6, 2, 0, 1⟩], [], 1⟩ }

def spendingEntry (keyImages : List KeyImage) : PoolEntry :=
  { minableEntry with
    tx := { Transaction.setNull with
        version := 2
        vin := keyImages.map (.toKey 0 [0, 1, 1, 1, 1])
        rctSignatures := { RctSig.empty with txnFee := 60000 } } }

def twoEntryPool (first second : List KeyImage) : TxMemoryPool :=
  { TxMemoryPool.empty with
    txpool := (AList.insert 8 (spendingEntry second) ∅).insert 9 (spendingEntry first)
    txsByFeeAndReceiveTime := [⟨20, 0, 9⟩, ⟨20, 1, 8⟩] }

def sixthForkFill (pool : TxMemoryPool) : TemplateFill × Bool :=
  pool.fillBlockTemplate (sixthForkChain.view heightEnv 1000) plainTemplateEnv ⟨300000, 0, 6⟩

theorem twoEntryPool_chosen : ∃ fill, sixthForkFill (twoEntryPool [5] [6]) = (fill, true) ∧
      fill.txHashes = [9, 8] ∧ fill.totalWeight = 6000 ∧ fill.fee = 120000 := by
  have made : (sixthForkFill (twoEntryPool [5] [6])).2 = true ∧
      (sixthForkFill (twoEntryPool [5] [6])).1.txHashes = [9, 8] := by
    decide +kernel
  rcases result : sixthForkFill (twoEntryPool [5] [6]) with ⟨fill, ok⟩
  rw [result] at made
  obtain ⟨rfl, listed⟩ := made
  obtain ⟨chosen, found, -, -, weight, fee, -⟩ :=
    fillBlockTemplate_chosen (by decide) (by decide) (by decide) result
  rw [listed] at found
  obtain ⟨first, others, foundFirst, foundOthers, rfl⟩ := forall₂_cons_left_iff.mp found
  obtain ⟨second, none, foundSecond, foundNone, rfl⟩ := forall₂_cons_left_iff.mp foundOthers
  obtain rfl := forall₂_nil_left_iff.mp foundNone
  obtain rfl := Option.some.inj foundFirst
  obtain rfl := Option.some.inj foundSecond
  exact ⟨fill, rfl, listed, weight, fee⟩

/-- After a repeated key image `append_key_images` records no more, so another spender of the last
of them is chosen as well. -/
theorem fillBlockTemplate_sharedKeyImage : (sixthForkFill (twoEntryPool [1, 1, 2] [2])).2 = true ∧
      (sixthForkFill (twoEntryPool [1, 1, 2] [2])).1.txHashes = [9, 8] ∧
      2 ∈ (spendingEntry [1, 1, 2]).tx.keyImages ∧ 2 ∈ (spendingEntry [2]).tx.keyImages := by
  decide +kernel

end TxMemoryPool

end LodeChain
